import MiniLSM.Proof.MergeIterator
import MiniLSM.Proof.Seek

/-!
# Where the iterators stand after any calls

`Call.onAll calls it`: what `it` has become after the calls of `Next`, `Seek` and `SeekToFirst`.

* `MemTableIterator.calls_iff`: when `Seek` and `SeekToFirst` of a memtable iterator go where they
  go on a fresh one.
* `MergeIterator.calls_iff`: the same for a merge iterator, child by child.
-/

namespace MiniLSM

open Merge

/-- A call on an iterator that may move it. -/
inductive Call
  | next
  | seek (target : Bytes)
  | seekToFirst

/-- One call. -/
def Call.on {α : Type} [Iterator α] (it : α) : Call → Checked α
  | .next => Iterator.next it
  | .seek target => Iterator.seek it target
  | .seekToFirst => Iterator.seekToFirst it

/-- One call after the other. -/
def Call.onAll {α : Type} [Iterator α] (calls : List Call) (it : α) : Checked α :=
  calls.foldlM Call.on it

/-- **The invariant rule for calls.** -/
theorem Call.onAll_invariant {α : Type} [Iterator α] {I : α → Prop}
    (hstep : ∀ it c it', I it → Call.on it c = .ok it' → I it') {calls : List Call} {it it' : α}
    (h0 : I it) (h : Call.onAll calls it = .ok it') : I it' := by
  induction calls generalizing it with
  | nil => exact Except.ok.inj h ▸ h0
  | cons c calls ih =>
    rw [Call.onAll, List.foldlM_cons] at h
    cases hc : Call.on it c with
    | error e => rw [hc] at h; cases h
    | ok it₁ =>
      rw [hc] at h
      exact ih (hstep _ _ _ h0 hc) h

/-- A list is cut where a test first fails. -/
theorem dropWhile_eq_iff {β : Type} {p : β → Bool} {l ys : List β} :
    l.dropWhile p = ys ↔ ∃ xs, l = xs ++ ys ∧ (∀ x ∈ xs, p x = true) ∧ ∀ y ∈ ys.head?, p y = false := by
  constructor
  · rintro rfl
    refine ⟨l.takeWhile p, List.takeWhile_append_dropWhile.symm, fun x hx => List.mem_takeWhile_imp hx,
      fun y hy => ?_⟩
    have := List.head?_dropWhile_not p l
    rw [Option.mem_def.1 hy] at this
    simpa using this
  · rintro ⟨xs, rfl, hxs, hys⟩
    rw [List.dropWhile_append_of_pos hxs]
    cases ys with
    | nil => rfl
    | cons y ys => rw [List.dropWhile_cons_of_neg (by simpa using hys y rfl)]

/-- A user key is at or below the internal key it is cut from. -/
theorem extractUserKey_le (key : Bytes) : extractUserKey key ≤ key := by
  rw [extractUserKey]
  split
  · exact le_refl _
  · conv_rhs => rw [← List.take_append_drop (key.length - 8) key]
    conv_lhs => rw [← List.append_nil (key.take _)]
    exact (LexOrder.append_le_append_iff _ _ _).2 (not_lt.1 (List.not_lt_nil _))

/-! ## Memtable iterators -/

namespace MemTableIterator

variable {nodes passed : List Node} {it : MemTableIterator} {k : Bytes}

/-- No call goes back. -/
theorem on_suffix {it' : MemTableIterator} (hnodes : nodes = passed ++ it.rest) {c : Call}
    (h : Call.on it c = .ok it') : ∃ passed, nodes = passed ++ it'.rest := by
  cases c with
  | next =>
    change next it = .ok it' at h
    rw [next] at h
    split at h
    · cases h
    · rename_i n rest hrest
      obtain rfl := Except.ok.inj h
      exact ⟨passed ++ [n], by rw [hnodes, hrest]; simp⟩
  | seek k =>
    obtain rfl := Except.ok.inj h
    refine ⟨passed ++ it.rest.takeWhile fun n => Slice.compare n.key k = .lt, ?_⟩
    rw [hnodes, List.append_assoc]
    exact congrArg _ List.takeWhile_append_dropWhile.symm
  | seekToFirst => exact ⟨passed, by rw [hnodes, ← Except.ok.inj h]⟩

/-- **`Seek` goes to the first node with a user key from `k` on** if and only if the iterator has not
gone past it, and no internal key on the way there is `k` or above. -/
theorem seek_rest_iff (hnodes : nodes = passed ++ it.rest) :
    (it.seek k).rest = nodes.dropWhile (fun n => decide (extractUserKey n.key < k)) ↔
      (∀ n ∈ passed, extractUserKey n.key < k) ∧
        ∀ n ∈ it.rest.takeWhile (fun n => decide (extractUserKey n.key < k)), n.key < k := by
  have hrest : (it.seek k).rest = it.rest.dropWhile fun n => decide (n.key < k) := by
    simp only [seek, Slice.compare_eq_lt]
  rw [hrest, hnodes]
  constructor
  · intro heq
    obtain ⟨xs, hxs, hlt, -⟩ := dropWhile_eq_iff.1 heq
    set ys := (passed ++ it.rest).dropWhile fun n => decide (extractUserKey n.key < k) with hys
    -- both ways to `ys` pass the same nodes
    obtain ⟨zs, hzs, hsmall, hhead⟩ := dropWhile_eq_iff.1 hys.symm
    obtain rfl : zs = passed ++ xs := by
      rw [hxs, ← List.append_assoc] at hzs
      exact (List.append_cancel_right hzs).symm
    refine ⟨fun n hn => by simpa using hsmall n (List.mem_append_left _ hn), fun n hn => ?_⟩
    have hpass : it.rest.takeWhile (fun n => decide (extractUserKey n.key < k)) = xs := by
      rw [hxs, List.takeWhile_append_of_pos fun n hn => hsmall n (List.mem_append_right _ hn)]
      cases hc : ys with
      | nil => simp
      | cons y ys' => rw [List.takeWhile_cons_of_neg (by simpa using hhead y (by rw [hc]; rfl)), List.append_nil]
    rw [hpass] at hn
    simpa using hlt n hn
  · rintro ⟨hpassed, hway⟩
    rw [List.dropWhile_append_of_pos (by simpa using hpassed), dropWhile_eq_iff]
    refine ⟨_, List.takeWhile_append_dropWhile.symm, by simpa using hway, fun n hn => ?_⟩
    obtain ⟨-, -, -, hhead⟩ := dropWhile_eq_iff.1
      (rfl : it.rest.dropWhile (fun n => decide (extractUserKey n.key < k)) = _)
    have hge : k ≤ extractUserKey n.key := by simpa using hhead n hn
    simpa using hge.trans (extractUserKey_le n.key)

/-- **Where the calls of a memtable iterator go.** `SeekToFirst` does nothing. -/
theorem calls_iff {calls : List Call} (h : Call.onAll calls ⟨nodes⟩ = .ok it) :
    ∃ passed, nodes = passed ++ it.rest ∧
      (∀ k, (∃ it', Iterator.seek it k = .ok it' ∧
          it'.rest = nodes.dropWhile fun n => decide (extractUserKey n.key < k)) ↔
        (∀ n ∈ passed, extractUserKey n.key < k) ∧
          ∀ n ∈ it.rest.takeWhile (fun n => decide (extractUserKey n.key < k)), n.key < k) ∧
      ((∃ it', Iterator.seekToFirst it = .ok it' ∧ it'.rest = nodes) ↔ passed = []) := by
  obtain ⟨passed, hnodes⟩ := Call.onAll_invariant (I := fun it => ∃ passed, nodes = passed ++ it.rest)
    (fun it c it' ⟨passed, hp⟩ hc => on_suffix hp hc) ⟨[], rfl⟩ h
  refine ⟨passed, hnodes, fun k => ?_, ?_⟩
  · rw [← seek_rest_iff hnodes]
    exact ⟨fun ⟨it', hseek, hrest⟩ => Except.ok.inj hseek ▸ hrest, fun hrest => ⟨_, rfl, hrest⟩⟩
  · constructor
    · rintro ⟨it', hseek, hrest⟩
      obtain rfl := Except.ok.inj hseek
      rw [hrest] at hnodes
      simpa using hnodes
    · rintro rfl
      exact ⟨it, rfl, hnodes.symm⟩

end MemTableIterator

/-! ## Children of a merge iterator -/

namespace SSTableIterator

variable {it it' : SSTableIterator}

theorem loadCurrentBlock_table (h : it.loadCurrentBlock = .ok it') : it'.table = it.table := by
  rw [loadCurrentBlock] at h
  obtain ⟨entry, -, h⟩ := Checked.bind_eq_ok h
  split at h
  · cases h
  · exact Except.ok.inj h ▸ rfl

theorem parseCurrentEntry_table (h : it.parseCurrentEntry = .ok it') : it'.table = it.table := by
  rw [parseCurrentEntry] at h
  split at h
  · exact Except.ok.inj h ▸ rfl
  · obtain ⟨shared, -, h⟩ := Checked.bind_eq_ok h
    obtain ⟨keyLen, -, h⟩ := Checked.bind_eq_ok h
    obtain ⟨key, -, h⟩ := Checked.bind_eq_ok h
    obtain ⟨valueLen, -, h⟩ := Checked.bind_eq_ok h
    obtain ⟨value, -, h⟩ := Checked.bind_eq_ok h
    exact Except.ok.inj h ▸ rfl

theorem enterBlock_table {i : ℕ} (h : it.enterBlock i = .ok it') : it'.table = it.table := by
  obtain ⟨it₁, hload, h⟩ := Checked.bind_eq_ok h
  have hkept := loadCurrentBlock_table hload
  rw [parseCurrentEntry_table h]
  exact hkept

/-- **`Next` stays in its table.** -/
theorem next_table (h : it.next = .ok it') : it'.table = it.table := by
  have hgo : ∀ it₁ : SSTableIterator, (if it₁.pos < it₁.entriesEnd then it₁.parseCurrentEntry
      else if it₁.table.index.length ≤ it₁.currentBlockIdx + 1 then
        return { it₁ with currentBlockIdx := it₁.currentBlockIdx + 1, valid := false }
      else it₁.enterBlock (it₁.currentBlockIdx + 1)) = .ok it' → it'.table = it₁.table := by
    intro it₁ h
    split at h
    · exact parseCurrentEntry_table h
    · split at h
      · exact Except.ok.inj h ▸ rfl
      · exact enterBlock_table h
  rw [next] at h
  split at h
  · obtain ⟨pos, -, h⟩ := Checked.bind_eq_ok h
    exact hgo { it with pos := pos } h
  · exact hgo it h

end SSTableIterator

/-- What a child of a merge iterator goes through. -/
inductive Source
  | mem (nodes : List Node)
  | sst (t : SSTable)

namespace Source

/-- A table comes from a builder. -/
def Built : Source → Prop
  | .mem _ => True
  | .sst t => ∃ pairs blocks, Laid t pairs blocks

/-- The entries, in order. -/
def entries : Source → List (Bytes × Bytes)
  | .mem nodes => nodes.map fun n => (n.key, n.value)
  | .sst t => t.contents

end Source

namespace ChildIterator

/-- A child goes through a source, wherever it stands in it. -/
def Over : ChildIterator → Source → Prop
  | .mem it, .mem nodes => ∃ passed, nodes = passed ++ it.rest
  | .sst it, .sst t => it.table = t
  | _, _ => False

/-- A child as `NewIterator` makes it. -/
def Fresh : ChildIterator → Source → Prop
  | .mem it, .mem nodes => it = ⟨nodes⟩
  | .sst it, .sst t => SSTableIterator.new t = .ok it
  | _, _ => False

/-- The search of a child for `k` leads to the entries `es`. A memtable iterator goes on from its
current node to the first internal key that is not below `k`; the iterator of a table is led through
the index to a block, and in the block to the first internal key that is not below the lookup
key. -/
def Leads (k : Bytes) (es : List (Bytes × Bytes)) : ChildIterator → Prop
  | .mem it => ∃ xs ys, it.rest = xs ++ ys ∧ (∀ n ∈ xs, n.key < k) ∧ (∀ n ∈ ys.head?, k ≤ n.key) ∧
      es = ys.map fun n => (n.key, n.value)
  | .sst it =>
    let bs := cutBlocks [] it.table.contents
    ∃ i < bs.length, (∀ j ∈ Search.probes i bs.length 0 (bs.length - 1), (endsBelow k bs j = true ↔ j < i)) ∧
      ∃ xs ys, bs.getD i [] = xs ++ ys ∧ (∀ e ∈ xs, e.1 < makeLookupKey k) ∧
        (∀ e ∈ ys.head?, makeLookupKey k ≤ e.1) ∧ es = ys ++ (bs.drop (i + 1)).flatten

/-- What a child finds: nothing on a table without entries. -/
def found (k : Bytes) : ChildIterator → Option (List (Bytes × Bytes))
  | .mem it => some ((it.rest.dropWhile fun n => decide (n.key < k)).map fun n => (n.key, n.value))
  | .sst it =>
    let bs := cutBlocks [] it.table.contents
    if bs = [] then none else some (seekEntries k bs)

variable {c c' : ChildIterator} {s : Source} {k : Bytes} {es : List (Bytes × Bytes)}

theorem leads_iff : c.Leads k es ↔ c.found k = some es := by
  cases c with
  | mem it =>
    rw [found, Option.some.injEq]
    constructor
    · rintro ⟨xs, ys, hrest, hxs, hys, rfl⟩
      rw [dropWhile_eq_iff.2 ⟨xs, hrest, by simpa using hxs, by simpa using hys⟩]
    · rintro rfl
      obtain ⟨xs, hrest, hxs, hys⟩ := dropWhile_eq_iff.1
        (rfl : it.rest.dropWhile (fun n => decide (n.key < k)) = _)
      exact ⟨xs, _, hrest, by simpa using hxs, by simpa using hys, rfl⟩
  | sst it =>
    rw [Leads, found]
    set bs := cutBlocks [] it.table.contents
    constructor
    · rintro ⟨i, hi, hprobes, xs, ys, hsplit, hxs, hys, rfl⟩
      have hsearched : searchedBlock k bs = i :=
        (Search.lowerBound_eq_iff (Nat.zero_le _) (by omega) (by omega)).2 hprobes
      rw [if_neg (List.ne_nil_of_length_pos (by omega)), seekEntries, hsearched,
        dropWhile_eq_iff.2 ⟨xs, hsplit, by simpa using hxs, by simpa using hys⟩]
    · intro h
      split at h
      · cases h
      · rename_i hne
        obtain rfl := Option.some.inj h
        have hpos := List.length_pos_iff.2 hne
        have hle : searchedBlock k bs ≤ bs.length - 1 := (Search.lowerBound_mem (Nat.zero_le _)).2
        obtain ⟨xs, hsplit, hxs, hys⟩ := dropWhile_eq_iff.1
          (rfl : (bs.getD (searchedBlock k bs) []).dropWhile (fun e => decide (e.1 < makeLookupKey k)) = _)
        refine ⟨searchedBlock k bs, by omega, ?_, xs, _, hsplit, by simpa using hxs, by simpa using hys, rfl⟩
        exact (Search.lowerBound_eq_iff (Nat.zero_le _) hle (by omega)).1 rfl

/-- **`Seek` of a child** goes where its search leads. -/
theorem Over.seek (h : c.Over s) (hb : s.Built) (hf : c.found k = some es) :
    ∃ c', Iterator.seek c k = .ok c' ∧ c'.Over s ∧ Yields c' es := by
  match c, s, h with
  | .mem it, .mem nodes, ⟨passed, hnodes⟩ =>
    obtain rfl := Option.some.inj hf
    refine ⟨.mem (it.seek k), rfl, MemTableIterator.on_suffix (c := .seek k) hnodes rfl, ?_⟩
    have hseek : it.seek k = ⟨it.rest.dropWhile fun n => decide (n.key < k)⟩ := by
      simp only [MemTableIterator.seek, Slice.compare_eq_lt]
    rw [hseek]
    exact yields_mem (MemTableIterator.yields _)
  | .sst it, .sst t, htable =>
    obtain ⟨pairs, blocks, ht⟩ := hb
    have hbs : cutBlocks [] it.table.contents = blocks.map DataBlock.entries := by
      rw [show it.table = t from htable, ht.contents_eq, ht.cut]
    rw [found, hbs] at hf
    split at hf
    · cases hf
    · rename_i hne
      obtain rfl := Option.some.inj hf
      obtain ⟨it', hseek, htable', hy⟩ := ht.seek_yields (fun h => hne (by rw [h]; rfl)) htable k
      refine ⟨.sst it', ?_, htable', yields_sst hy⟩
      show ChildIterator.sst <$> SSTableIterator.seek it k = _
      rw [hseek]
      rfl

/-- A child that finds nothing at all leaves its table. -/
theorem Over.found_of_seek (h : c.Over s) (hb : s.Built) (hseek : Iterator.seek c k = .ok c') :
    ∃ es, c.found k = some es := by
  match c, s, h with
  | .mem it, .mem nodes, _ => exact ⟨_, rfl⟩
  | .sst it, .sst t, htable =>
    obtain ⟨pairs, blocks, ht⟩ := hb
    by_cases hne : cutBlocks [] it.table.contents = []
    · have hindex : it.table.index = [] := by
        rw [show it.table = t from htable] at hne ⊢
        rw [ht.contents_eq, ← ht.cut, List.map_eq_nil_iff] at hne
        rw [ht.index_eq, hne]
        rfl
      have hseek' : ChildIterator.sst <$> SSTableIterator.seek it k = .ok c' := hseek
      rw [seek_of_empty hindex] at hseek'
      cases hseek'
    · exact ⟨_, if_neg hne⟩

theorem Over.seekToFirst (h : c.Over s) (hb : s.Built) :
    ∃ c' es, Iterator.seekToFirst c = .ok c' ∧ c'.Over s ∧ Yields c' es := by
  match c, s, h with
  | .mem it, .mem nodes, h => exact ⟨.mem it, _, rfl, h, yields_mem (MemTableIterator.yields it.rest)⟩
  | .sst it, .sst t, htable =>
    obtain ⟨pairs, blocks, ht⟩ := hb
    obtain ⟨it', hseek, htable', hy⟩ := SSTableIterator.seekToFirst_yields ht htable
    refine ⟨.sst it', _, ?_, htable', yields_sst hy⟩
    show ChildIterator.sst <$> SSTableIterator.seekToFirst it = _
    rw [hseek]
    rfl

theorem Over.next (h : c.Over s) (hnext : Iterator.next c = .ok c') : c'.Over s := by
  match c, s, h with
  | .mem it, .mem nodes, ⟨passed, hnodes⟩ =>
    have hnext' : ChildIterator.mem <$> Iterator.next it = .ok c' := hnext
    cases hn : Iterator.next it with
    | error e => rw [hn] at hnext'; cases hnext'
    | ok it' =>
      rw [hn] at hnext'
      obtain rfl := Except.ok.inj hnext'
      exact MemTableIterator.on_suffix (c := .next) hnodes hn
  | .sst it, .sst t, htable =>
    have hnext' : ChildIterator.sst <$> Iterator.next it = .ok c' := hnext
    cases hn : Iterator.next it with
    | error e => rw [hn] at hnext'; cases hnext'
    | ok it' =>
      rw [hn] at hnext'
      obtain rfl := Except.ok.inj hnext'
      exact (SSTableIterator.next_table hn).trans htable

/-- There is one fresh child. -/
theorem Fresh.unique (h : c.Fresh s) (h' : c'.Fresh s) : c = c' := by
  match c, c', s, h, h' with
  | .mem it, .mem it', .mem nodes, h, h' => rw [show it = _ from h, show it' = _ from h']
  | .sst it, .sst it', .sst t, h, h' => rw [Except.ok.inj (h.symm.trans h')]

theorem Fresh.over (h : c.Fresh s) (hb : s.Built) : c.Over s := by
  match c, s, h with
  | .mem it, .mem nodes, h => exact ⟨[], by rw [show it = _ from h]; rfl⟩
  | .sst it, .sst t, hnew =>
    obtain ⟨pairs, blocks, ht⟩ := hb
    obtain ⟨it₀, hnew', htable, -⟩ := SSTableIterator.new_yields ht
    obtain rfl := Except.ok.inj (hnew.symm.trans hnew')
    exact htable

theorem fresh_unique {cs cs' : List ChildIterator} {sources : List Source} (h : List.Forall₂ Fresh cs sources)
    (h' : List.Forall₂ Fresh cs' sources) : cs = cs' := by
  induction h generalizing cs' with
  | nil => cases h'; rfl
  | cons hc _ ih =>
    cases h' with
    | cons hc' h' => rw [hc.unique hc', ih h']

theorem over_of_fresh {cs : List ChildIterator} {sources : List Source} (h : List.Forall₂ Fresh cs sources)
    (hb : ∀ s ∈ sources, s.Built) : List.Forall₂ Over cs sources := by
  induction h with
  | nil => exact .nil
  | cons hc _ ih =>
    exact .cons (hc.over (hb _ List.mem_cons_self)) (ih fun s hs => hb s (List.mem_cons_of_mem _ hs))

/-- A fresh child yields all of its source. -/
theorem Fresh.seekToFirst (h : c.Fresh s) (hb : s.Built) :
    ∃ c', Iterator.seekToFirst c = .ok c' ∧ Yields c' s.entries := by
  match c, s, h with
  | .mem it, .mem nodes, h =>
    obtain rfl : it = ⟨nodes⟩ := h
    exact ⟨_, rfl, yields_mem (MemTableIterator.yields nodes)⟩
  | .sst it, .sst t, hnew =>
    obtain ⟨pairs, blocks, ht⟩ := hb
    obtain ⟨it₀, hnew', htable, -⟩ := SSTableIterator.new_yields ht
    obtain rfl := Except.ok.inj (hnew.symm.trans hnew')
    obtain ⟨it', hseek, -, hy⟩ := SSTableIterator.seekToFirst_yields ht htable
    refine ⟨.sst it', ?_, yields_sst (by rw [Source.entries, ht.contents_eq]; exact hy)⟩
    show ChildIterator.sst <$> SSTableIterator.seekToFirst it = _
    rw [hseek]
    rfl

end ChildIterator

/-! ## Merge iterators -/

/-- An iterator yields one list. -/
theorem Yields.unique {α : Type} [Iterator α] {it : α} {es es' : List (Bytes × Bytes)}
    (h : Yields it es) (h' : Yields it es') : es = es' := by
  induction es generalizing it es' with
  | nil =>
    cases es' with
    | nil => rfl
    | cons e es' => exact absurd (h.symm.trans h'.1) (by decide)
  | cons e es ih =>
    obtain ⟨hv, hk, hval, it₁, hnext, hy⟩ := h
    cases es' with
    | nil => exact absurd (hv.symm.trans h') (by decide)
    | cons e' es' =>
      obtain ⟨-, hk', hval', it₂, hnext', hy'⟩ := h'
      obtain rfl := Except.ok.inj (hnext.symm.trans hnext')
      rw [ih hy hy', Prod.ext (hk.symm.trans hk') (hval.symm.trans hval')]

namespace MergeIterator

theorem YieldsTagged.unique {α : Type} [Iterator α] {it : MergeIterator α}
    {es es' : List (ℕ × Bytes × Bytes)} (h : YieldsTagged it es) (h' : YieldsTagged it es') :
    es = es' := by
  induction es generalizing it es' with
  | nil =>
    cases es' with
    | nil => rfl
    | cons e es' => cases h.symm.trans h'.1
  | cons e es ih =>
    obtain ⟨hi, hk, hval, it₁, hnext, hy⟩ := h
    cases es' with
    | nil => cases hi.symm.trans h'
    | cons e' es' =>
      obtain ⟨hi', hk', hval', it₂, hnext', hy'⟩ := h'
      obtain rfl := Except.ok.inj (hnext.symm.trans hnext')
      rw [ih hy hy', Prod.ext (Option.some.inj (hi.symm.trans hi'))
        (Prod.ext (hk.symm.trans hk') (hval.symm.trans hval'))]

variable {sources : List Source} {it it' : MergeIterator ChildIterator}

/-- What holds of a merge iterator after any calls: its children go through their sources, and it
has advanced to the first of what they have before them. -/
structure Kept (sources : List Source) (it : MergeIterator ChildIterator) : Prop where
  children : List.Forall₂ ChildIterator.Over it.children sources
  advanced : ∃ r ls, Ready r ls ∧ r.children = it.children ∧ advance r = .ok it

theorem forall₂_getElem?_right {β γ : Type} {R : β → γ → Prop} {as : List β} {bs : List γ}
    (h : List.Forall₂ R as bs) {j : ℕ} {a : β} (hj : as[j]? = some a) :
    ∃ b, bs[j]? = some b ∧ R a b := by
  obtain ⟨b, hb, hab⟩ := forall₂_getElem? h.flip hj
  exact ⟨b, hb, hab⟩

/-- Advancing to the first of what the children found. -/
theorem kept_of_children {children : List ChildIterator} {ls : List (List (Bytes × Bytes))}
    {seek : ChildIterator → Checked ChildIterator} {children' : List ChildIterator}
    (hmap : children.mapM seek = .ok children') (hys : List.Forall₂ Yields children' ls)
    (hover : List.Forall₂ ChildIterator.Over children' sources) (r : MergeIterator ChildIterator) :
    ∃ heap it, fillHeap seek children = .ok (children', heap) ∧
      advance { r with children := children', heap := heap } = .ok it ∧ Kept sources it ∧
      ∀ es, Tagged Prod.fst ls es → YieldsTagged it es := by
  obtain ⟨heap, hfill, hready⟩ := fillHeap_ready hmap hys
  obtain ⟨es, ht⟩ := exists_tagged Prod.fst ls
  obtain ⟨it, hadv, hy⟩ := (hready r).yieldsTagged ht
  have hchildren : it.children = children' := advance_children hadv
  refine ⟨heap, it, hfill, hadv, ⟨by rw [hchildren]; exact hover, _, ls, hready r, ?_, hadv⟩, fun es' ht' => ?_⟩
  · exact hchildren.symm
  · rw [ht'.unique ht]
    exact hy

/-- Children that all find something. -/
theorem seek_children {children : List ChildIterator} {k : Bytes} {ls : List (List (Bytes × Bytes))}
    (hover : List.Forall₂ ChildIterator.Over children sources) (hb : ∀ s ∈ sources, s.Built)
    (hfound : List.Forall₂ (fun c es => c.found k = some es) children ls) :
    ∃ children', children.mapM (fun c => Iterator.seek c k) = .ok children' ∧
      List.Forall₂ ChildIterator.Over children' sources ∧ List.Forall₂ Yields children' ls := by
  induction hover generalizing ls with
  | nil =>
    cases hfound
    exact ⟨[], rfl, .nil, .nil⟩
  | @cons c s children sources hc hcs ih =>
    cases hfound with
    | cons hf hfs =>
      obtain ⟨c', hseek, hover', hy⟩ := hc.seek (hb s List.mem_cons_self) hf
      obtain ⟨children', hmap, hovers, hys⟩ := ih (fun s hs => hb s (List.mem_cons_of_mem _ hs)) hfs
      rw [mapM_eq_ok_iff] at hmap
      exact ⟨c' :: children', mapM_eq_ok_iff.2 (.cons hseek hmap), .cons hover' hovers, .cons hy hys⟩

/-- Where all calls return, all children find something. -/
theorem found_of_seek {children children' : List ChildIterator} {k : Bytes}
    (hover : List.Forall₂ ChildIterator.Over children sources) (hb : ∀ s ∈ sources, s.Built)
    (hseek : List.Forall₂ (fun c c' => Iterator.seek c k = .ok c') children children') :
    ∃ ls, List.Forall₂ (fun c es => c.found k = some es) children ls := by
  induction hover generalizing children' with
  | nil => exact ⟨[], .nil⟩
  | @cons c s children sources hc hcs ih =>
    cases hseek with
    | cons hs hss =>
      obtain ⟨es, hf⟩ := hc.found_of_seek (hb s List.mem_cons_self) hs
      obtain ⟨ls, hfs⟩ := ih (fun s hs => hb s (List.mem_cons_of_mem _ hs)) hss
      exact ⟨es :: ls, .cons hf hfs⟩

theorem seekToFirst_children {children : List ChildIterator}
    (hover : List.Forall₂ ChildIterator.Over children sources) (hb : ∀ s ∈ sources, s.Built) :
    ∃ children' ls, children.mapM Iterator.seekToFirst = .ok children' ∧
      List.Forall₂ ChildIterator.Over children' sources ∧ List.Forall₂ Yields children' ls := by
  induction hover with
  | nil => exact ⟨[], [], rfl, .nil, .nil⟩
  | @cons c s children sources hc hcs ih =>
    obtain ⟨c', es, hseek, hover', hy⟩ := hc.seekToFirst (hb s List.mem_cons_self)
    obtain ⟨children', ls, hmap, hovers, hys⟩ := ih fun s hs => hb s (List.mem_cons_of_mem _ hs)
    rw [mapM_eq_ok_iff] at hmap
    exact ⟨c' :: children', es :: ls, mapM_eq_ok_iff.2 (.cons hseek hmap), .cons hover' hovers, .cons hy hys⟩

/-- A constructed merge iterator. -/
theorem kept_of_new (hb : ∀ s ∈ sources, s.Built) {children : List ChildIterator}
    (hover : List.Forall₂ ChildIterator.Over children sources) (h : new children = .ok it) :
    Kept sources it := by
  obtain ⟨children', ls, hmap, hover', hys⟩ := seekToFirst_children hover hb
  obtain ⟨heap, it', hfill, hadv, hkept, -⟩ := kept_of_children hmap hys hover' { children := [] }
  have hnew : new children = .ok it' := by
    simp only [new, hfill, bind, Except.bind]
    exact hadv
  obtain rfl := Except.ok.inj (h.symm.trans hnew)
  exact hkept

/-- **`Seek` on a merge iterator** goes to the first of what its children find. -/
theorem Kept.seek (h : Kept sources it) (hb : ∀ s ∈ sources, s.Built) {k : Bytes}
    {ls : List (List (Bytes × Bytes))}
    (hfound : List.Forall₂ (fun c es => c.found k = some es) it.children ls) :
    ∃ it', MergeIterator.seek it k = .ok it' ∧ Kept sources it' ∧
      ∀ es, Tagged Prod.fst ls es → YieldsTagged it' es := by
  obtain ⟨children', hmap, hover, hys⟩ := seek_children h.children hb hfound
  obtain ⟨heap, it', hfill, hadv, hkept, hyields⟩ := kept_of_children hmap hys hover it
  refine ⟨it', ?_, hkept, hyields⟩
  simp only [MergeIterator.seek, hfill, bind, Except.bind]
  exact hadv

/-- `Seek` returns only if all children find something. -/
theorem Kept.found (h : Kept sources it) (hb : ∀ s ∈ sources, s.Built) {k : Bytes}
    (hseek : MergeIterator.seek it k = .ok it') :
    ∃ ls, List.Forall₂ (fun c es => c.found k = some es) it.children ls := by
  obtain ⟨⟨children', heap⟩, hfill, -⟩ := Checked.bind_eq_ok hseek
  obtain ⟨children'', hmap, -⟩ := Checked.bind_eq_ok hfill
  exact found_of_seek h.children hb (mapM_eq_ok_iff.1 hmap)

/-- What a merge iterator has before it is the merge of what its children have before them. -/
theorem Kept.yields (h : Kept sources it) : ∃ ls es, List.Forall₂ Yields it.children ls ∧
    Tagged Prod.fst ls es ∧ YieldsTagged it es := by
  obtain ⟨r, ls, hready, hchildren, hadv⟩ := h.advanced
  obtain ⟨es, ht⟩ := exists_tagged Prod.fst ls
  obtain ⟨it', hadv', hy⟩ := hready.yieldsTagged ht
  obtain rfl := Except.ok.inj (hadv.symm.trans hadv')
  exact ⟨ls, es, hchildren ▸ hready.yields, ht, hy⟩

/-- `Next` keeps it. -/
theorem Kept.next (h : Kept sources it) (hnext : MergeIterator.next it = .ok it') : Kept sources it' := by
  obtain ⟨r, ls, hready, hchildren, hadv⟩ := h.advanced
  have hover : List.Forall₂ ChildIterator.Over it'.children sources := by
    rcases next_children hnext with heq | ⟨i, c, c', hc, hc', heq⟩
    · rw [heq]
      exact h.children
    · obtain ⟨s, hs, hcs⟩ := forall₂_getElem?_right h.children hc
      have hset := forall₂_set h.children (hcs.next hc') i
      obtain ⟨hlt, rfl⟩ := List.getElem?_eq_some_iff.1 hs
      rwa [List.set_getElem_self hlt, ← heq] at hset
  refine ⟨hover, ?_⟩
  -- it has advanced to the end, or to the first of the heads
  by_cases hall : ∀ l ∈ ls, l = []
  · -- at the end `Next` does nothing
    obtain rfl := Except.ok.inj (hadv.symm.trans (hready.advance_done hall))
    obtain rfl : it' = _ := (Except.ok.inj hnext).symm
    exact ⟨r, ls, hready, hchildren, hadv⟩
  · push Not at hall
    obtain ⟨i, e, es, hf⟩ : ∃ i e es, First Prod.fst ls i e es := exists_first hall
    obtain rfl := Except.ok.inj (hadv.symm.trans (hready.advance_first hf))
    obtain ⟨r', hnext', hready'⟩ := hready.next_eq hf
    rw [hnext'] at hnext
    exact ⟨r', _, hready', (advance_children hnext).symm, hnext⟩

/-- **Every call keeps it.** -/
theorem Kept.on (h : Kept sources it) (hb : ∀ s ∈ sources, s.Built) {c : Call} (hc : Call.on it c = .ok it') :
    Kept sources it' := by
  cases c with
  | next => exact h.next hc
  | seek k =>
    obtain ⟨ls, hfound⟩ := h.found hb hc
    obtain ⟨it'', hseek, hkept, -⟩ := h.seek hb hfound
    obtain rfl := Except.ok.inj (hseek.symm.trans hc)
    exact hkept
  | seekToFirst =>
    obtain rfl := Except.ok.inj hc
    exact h

/-- The fresh children of the sources, merged. -/
theorem exists_fresh (hb : ∀ s ∈ sources, s.Built) : ∃ fresh it es,
    List.Forall₂ ChildIterator.Fresh fresh sources ∧ new fresh = .ok it ∧ YieldsTagged it es ∧
      Tagged Prod.fst (sources.map Source.entries) es := by
  obtain ⟨fresh, hfresh⟩ : ∃ fresh, List.Forall₂ ChildIterator.Fresh fresh sources := by
    induction sources with
    | nil => exact ⟨[], .nil⟩
    | cons s sources ih =>
      obtain ⟨fresh, hfresh⟩ := ih fun s hs => hb s (List.mem_cons_of_mem _ hs)
      obtain ⟨c, hc⟩ : ∃ c : ChildIterator, c.Fresh s := by
        cases s with
        | mem nodes => exact ⟨.mem ⟨nodes⟩, rfl⟩
        | sst t =>
          obtain ⟨pairs, blocks, ht⟩ := hb _ List.mem_cons_self
          obtain ⟨it, hnew, -⟩ := SSTableIterator.new_yields ht
          exact ⟨.sst it, hnew⟩
      exact ⟨c :: fresh, .cons hc hfresh⟩
  have hys : List.Forall₂ (fun c l => ∃ c', Iterator.seekToFirst c = .ok c' ∧ Yields c' l) fresh
      (sources.map Source.entries) := by
    rw [List.forall₂_map_right_iff]
    induction hfresh with
    | nil => exact .nil
    | @cons c s fresh sources hc _ ih =>
      exact .cons (hc.seekToFirst (hb s List.mem_cons_self)) (ih fun s hs => hb s (List.mem_cons_of_mem _ hs))
  obtain ⟨children', hmap, hyields⟩ := mapM_seek hys
  obtain ⟨heap, hfill, hready⟩ := fillHeap_ready hmap hyields
  obtain ⟨es, ht⟩ := exists_tagged Prod.fst (sources.map Source.entries)
  obtain ⟨it, hadv, hy⟩ := (hready { children := [] }).yieldsTagged ht
  refine ⟨fresh, it, es, hfresh, ?_, hy, ht⟩
  simp only [new, hfill, bind, Except.bind]
  exact hadv

/-- **`Seek` goes to an end of the merge** if and only if the search of every child leads to what
this end has of the child. -/
theorem Kept.seek_iff (h : Kept sources it) (hb : ∀ s ∈ sources, s.Built) {A es : List (ℕ × Bytes × Bytes)}
    (ht : Tagged Prod.fst (sources.map Source.entries) (A ++ es)) (k : Bytes) :
    (∃ it', MergeIterator.seek it k = .ok it' ∧ YieldsTagged it' es) ↔
      ∀ (i : ℕ) (c : ChildIterator), it.children[i]? = some c → c.Leads k (fromChild i es) := by
  simp only [ChildIterator.leads_iff]
  constructor
  · rintro ⟨it', hseek, hy⟩ i c hc
    obtain ⟨ls, hfound⟩ := h.found hb hseek
    obtain ⟨es', ht'⟩ := exists_tagged Prod.fst ls
    obtain ⟨it'', hseek', -, hyields⟩ := h.seek hb hfound
    obtain rfl := Except.ok.inj (hseek.symm.trans hseek')
    obtain rfl := hy.unique (hyields es' ht')
    obtain ⟨l, hl, hcl⟩ := forall₂_getElem?_right hfound hc
    rw [hcl, show fromChild i es = _ from ht'.of_list i, hl, Option.getD_some]
  · intro hleads
    have hlen : it.children.length = sources.length := h.children.length_eq
    set ls := (List.range sources.length).map fun i => fromChild i es with hls
    have hfound : List.Forall₂ (fun c es => ChildIterator.found k c = some es) it.children ls := by
      rw [List.forall₂_iff_get]
      refine ⟨by simp [hls, hlen], fun i hi hi' => ?_⟩
      have hfind := hleads i _ (List.getElem?_eq_getElem hi)
      simpa [hls] using hfind
    obtain ⟨it', hseek, -, hyields⟩ := h.seek hb hfound
    refine ⟨it', hseek, hyields es (ht.of_append (by simp [hls]) fun i => ?_)⟩
    rcases lt_or_ge i sources.length with hi | hi
    · simp [hls, hi, fromChild]
    · have hnone : ((A ++ es).filter fun e => e.1 = i).map Prod.snd = [] := by
        rw [ht.of_list i, List.getElem?_eq_none (by simpa using hi)]
        rfl
      rw [List.filter_append, List.map_append, List.append_eq_nil_iff] at hnone
      rw [hnone.2, List.getElem?_eq_none (by simpa [hls] using hi)]
      rfl

/-- **`SeekToFirst` goes to the first entry** if and only if every child still has all of its entries
before it. -/
theorem Kept.first_iff (h : Kept sources it) {es : List (ℕ × Bytes × Bytes)}
    (ht : Tagged Prod.fst (sources.map Source.entries) es) :
    YieldsTagged it es ↔ ∀ (i : ℕ) (c : ChildIterator), it.children[i]? = some c → Yields c (fromChild i es) := by
  obtain ⟨ls, es', hys, ht', hy⟩ := h.yields
  constructor
  · intro hes i c hc
    obtain rfl := hes.unique hy
    obtain ⟨l, hl, hcl⟩ := forall₂_getElem?_right hys hc
    rwa [show fromChild i es = _ from ht'.of_list i, hl]
  · intro hall
    -- child by child, what is left is all there was
    have hls : ls = sources.map Source.entries := by
      have hlen := h.children.length_eq
      have hlen' := hys.length_eq
      refine List.ext_getElem? fun i => ?_
      rcases lt_or_ge i ls.length with hi | hi
      · have hl : ls[i]? = some ls[i] := List.getElem?_eq_getElem hi
        obtain ⟨c, hc, hcl⟩ := forall₂_getElem? hys hl
        have heq := hcl.unique (hall i c hc)
        have hi' : i < (sources.map Source.entries).length := by rw [List.length_map]; omega
        rw [show fromChild i es = _ from ht.of_list i, List.getElem?_eq_getElem hi'] at heq
        rw [hl, heq, List.getElem?_eq_getElem hi']
        rfl
      · rw [List.getElem?_eq_none hi, List.getElem?_eq_none (by rw [List.length_map]; omega)]
    rw [hls] at ht'
    rwa [ht.unique ht']

/-- **Where the calls of a merge iterator go.** `SeekToFirst` does nothing. -/
theorem calls_iff (hb : ∀ s ∈ sources, s.Built) : ∃ fresh it₀ es,
    List.Forall₂ ChildIterator.Fresh fresh sources ∧ new fresh = .ok it₀ ∧ YieldsTagged it₀ es ∧
    ∀ children calls it, List.Forall₂ ChildIterator.Over children sources →
      (new children >>= Call.onAll calls) = .ok it →
      (∀ k, let rest := es.dropWhile fun e => decide (extractUserKey e.2.1 < k)
        (∃ it', Iterator.seek it k = .ok it' ∧ YieldsTagged it' rest) ↔
          ∀ (i : ℕ) (c : ChildIterator), it.children[i]? = some c → c.Leads k (fromChild i rest)) ∧
      ((∃ it', Iterator.seekToFirst it = .ok it' ∧ YieldsTagged it' es) ↔
        ∀ (i : ℕ) (c : ChildIterator), it.children[i]? = some c → Yields c (fromChild i es)) := by
  obtain ⟨fresh, it₀, es, hfresh, hnew, hy, ht⟩ := exists_fresh hb
  refine ⟨fresh, it₀, es, hfresh, hnew, hy, fun children calls it hover hcalls => ?_⟩
  obtain ⟨it₁, hnew₁, hcalls⟩ := Checked.bind_eq_ok hcalls
  have hkept : Kept sources it :=
    Call.onAll_invariant (fun it c it' h hc => h.on hb hc) (kept_of_new hb hover hnew₁) hcalls
  refine ⟨fun k => ?_, ?_⟩
  · refine hkept.seek_iff hb (A := es.takeWhile fun e => decide (extractUserKey e.2.1 < k)) ?_ k
    rwa [List.takeWhile_append_dropWhile]
  · rw [← hkept.first_iff ht]
    exact ⟨fun ⟨it', hfirst, hy⟩ => Except.ok.inj hfirst ▸ hy, fun hy => ⟨it, rfl, hy⟩⟩

end MergeIterator

/-! ## Both -/

/-- **When the calls before do not matter.** `Seek(k)` of a memtable iterator goes to the first node
with a user key from `k` on if and only if the iterator has not gone past it and no internal key on
the way is `k` or above; `Seek(k)` of a merge iterator goes to the first such entry of the merge of
all its sources if and only if the search of each child leads to what the merge has of the child from
there on. `SeekToFirst` of both goes to the first entry if and only if they stand there. -/
theorem positions_iff (m : MemTable) {sources : List Source} (hb : ∀ s ∈ sources, s.Built) :
    (∀ (calls : List Call) (it : MemTableIterator), Call.onAll calls (MemTableIterator.new m) = .ok it →
      ∃ passed, m.table.nodes = passed ++ it.rest ∧
        (∀ k, (∃ it', Iterator.seek it k = .ok it' ∧
            it'.rest = m.table.nodes.dropWhile fun n => decide (extractUserKey n.key < k)) ↔
          (∀ n ∈ passed, extractUserKey n.key < k) ∧
            ∀ n ∈ it.rest.takeWhile (fun n => decide (extractUserKey n.key < k)), n.key < k) ∧
        ((∃ it', Iterator.seekToFirst it = .ok it' ∧ it'.rest = m.table.nodes) ↔ passed = [])) ∧
    ∃ fresh it₀ es, List.Forall₂ ChildIterator.Fresh fresh sources ∧ MergeIterator.new fresh = .ok it₀ ∧
      MergeIterator.YieldsTagged it₀ es ∧
      ∀ (children : List ChildIterator) (calls : List Call) (it : MergeIterator ChildIterator),
        List.Forall₂ ChildIterator.Over children sources →
        (MergeIterator.new children >>= Call.onAll calls) = .ok it →
        (∀ k, let rest := es.dropWhile fun e => decide (extractUserKey e.2.1 < k)
          (∃ it', Iterator.seek it k = .ok it' ∧ MergeIterator.YieldsTagged it' rest) ↔
            ∀ (i : ℕ) (c : ChildIterator), it.children[i]? = some c →
              c.Leads k (MergeIterator.fromChild i rest)) ∧
        ((∃ it', Iterator.seekToFirst it = .ok it' ∧ MergeIterator.YieldsTagged it' es) ↔
          ∀ (i : ℕ) (c : ChildIterator), it.children[i]? = some c →
            Yields c (MergeIterator.fromChild i es)) :=
  ⟨fun _ _ h => MemTableIterator.calls_iff h, MergeIterator.calls_iff hb⟩

/-- Two nodes. -/
def twoNodes : List Node :=
  [⟨makeInternalKey [97] 1 .value, [49], 1⟩, ⟨makeInternalKey [98] 2 .value, [50], 1⟩]

/-- Two keys. -/
def twoKeys : MemTable := (MemTable.new.add [97] [49] 1).add [99] [51] 1

set_option synthInstance.maxSize 1000 in
/-- The first and the last entry are in a memtable, the one between in a table. Iterators that went
one entry on are brought to `[98]` and what follows by `Seek`, and not to the first entry by
`SeekToFirst`. -/
theorem positions_iff_three : ∃ t fresh it, SSTable.openFile 1 (SSTableBuilder.build [([98], [50])]) = .ok t ∧
    List.Forall₂ ChildIterator.Fresh fresh [.mem twoKeys.table.nodes, .sst t] ∧
    (MergeIterator.new fresh >>= Call.onAll [.next]) = .ok it ∧
    (∃ it', Iterator.seek it [98] = .ok it' ∧ MergeIterator.YieldsTagged it'
      [(1, makeInternalKey [98] 1 .value, [50]), (0, makeInternalKey [99] 2 .value, [51])]) ∧
    (¬∃ it', Iterator.seekToFirst it = .ok it' ∧ MergeIterator.YieldsTagged it'
      [(0, makeInternalKey [97] 1 .value, [49]), (1, makeInternalKey [98] 1 .value, [50]),
        (0, makeInternalKey [99] 2 .value, [51])]) ∧
    ∃ it, Call.onAll [.next] (MemTableIterator.new twoKeys) = .ok it ∧
      (∃ it', Iterator.seek it [98] = .ok it' ∧ it'.rest.map Node.key = [makeInternalKey [99] 2 .value]) ∧
      ¬∃ it', Iterator.seekToFirst it = .ok it' ∧ it'.rest = twoKeys.table.nodes := by
  have hrun : (SSTable.openFile 1 (SSTableBuilder.build [([98], [50])]) >>= fun t =>
      SSTableIterator.new t >>= fun c =>
      MergeIterator.new [ChildIterator.mem ⟨twoKeys.table.nodes⟩, .sst c] >>= fun it₀ =>
      MergeIterator.drainTagged 4 it₀ >>= fun es => Call.onAll [.next] it₀ >>= fun it =>
      return (es, it.children.map fun c => (Iterator.key c, c.found [98]))) =
      .ok ([(0, makeInternalKey [97] 1 .value, [49]), (1, makeInternalKey [98] 1 .value, [50]),
          (0, makeInternalKey [99] 2 .value, [51])],
        [(makeInternalKey [99] 2 .value, some [(makeInternalKey [99] 2 .value, [51])]),
          (makeInternalKey [98] 1 .value, some [(makeInternalKey [98] 1 .value, [50])])]) := by
    decide +kernel
  obtain ⟨t, hopen, hrun⟩ := Checked.bind_eq_ok hrun
  obtain ⟨c, hnew, hrun⟩ := Checked.bind_eq_ok hrun
  obtain ⟨it₀, hit₀, hrun⟩ := Checked.bind_eq_ok hrun
  obtain ⟨es₀, hdrain, hrun⟩ := Checked.bind_eq_ok hrun
  obtain ⟨it, hon, hrun⟩ := Checked.bind_eq_ok hrun
  obtain ⟨rfl, hchildren⟩ := Prod.mk.inj (Except.ok.inj hrun)
  have hb : ∀ s ∈ [Source.mem twoKeys.table.nodes, .sst t], s.Built := by
    have hfits : Fits [([98], [50])] := ⟨by decide, by decide⟩
    obtain ⟨t', blocks, hopen', -, hholds⟩ := openFile_build hfits 1
    obtain rfl := Except.ok.inj (hopen'.symm.trans hopen)
    intro s hs
    rcases List.mem_pair.1 hs with rfl | rfl
    · trivial
    · exact ⟨_, _, hholds.toLaid⟩
  have hfresh : List.Forall₂ ChildIterator.Fresh [.mem ⟨twoKeys.table.nodes⟩, .sst c]
      [.mem twoKeys.table.nodes, .sst t] := .cons rfl (.cons hnew .nil)
  have hcalls : (MergeIterator.new [.mem ⟨twoKeys.table.nodes⟩, .sst c] >>= Call.onAll [.next]) = .ok it := by
    rw [hit₀]
    exact hon
  obtain ⟨hmem, fresh, it₁, es, hfresh₁, hit₁, hy, hmerge⟩ := positions_iff twoKeys hb
  -- the fresh iterator is the one that was run
  obtain rfl := ChildIterator.fresh_unique hfresh hfresh₁
  obtain rfl := Except.ok.inj (hit₀.symm.trans hit₁)
  obtain rfl := MergeIterator.eq_of_drainTagged hy hdrain (by decide)
  obtain ⟨hseek, hfirst⟩ := hmerge _ [.next] it (ChildIterator.over_of_fresh hfresh hb) hcalls
  obtain ⟨c₀, cs, hcs, hc₀, hrest⟩ := List.map_eq_cons_iff.1 hchildren
  obtain ⟨c₁, rfl, hc₁⟩ := List.map_eq_singleton_iff.1 hrest
  obtain ⟨hkey₀, hfound₀⟩ := Prod.mk.inj hc₀
  obtain ⟨-, hfound₁⟩ := Prod.mk.inj hc₁
  refine ⟨t, _, it, hopen, hfresh, hcalls, (hseek [98]).2 fun i c hc => ?_, fun h => ?_, _, rfl, ?_⟩
  · rw [hcs] at hc
    rw [ChildIterator.leads_iff]
    match i, hc with
    | 0, rfl => exact hfound₀
    | 1, rfl => exact hfound₁
  · obtain ⟨-, hkey, -⟩ := hfirst.1 h 0 c₀ (by rw [hcs]; rfl)
    exact absurd (hkey₀.symm.trans hkey) (by decide)
  · obtain ⟨passed, hpassed, hseek, hfirst⟩ := hmem [.next] _ rfl
    obtain rfl : twoKeys.table.nodes.take 1 = passed :=
      List.append_cancel_right ((List.take_append_drop 1 _).trans hpassed)
    refine ⟨?_, fun h => absurd (hfirst.1 h) (by decide)⟩
    obtain ⟨it', hit', hrest⟩ := (hseek [98]).2 ⟨by decide, by decide⟩
    exact ⟨it', hit', by rw [hrest]; decide⟩

/-- A memtable iterator that went one node on is brought to the second node by both calls, and so
is a merge iterator over one. -/
theorem positions_depend :
    Call.onAll [.next, .seekToFirst] (⟨twoNodes⟩ : MemTableIterator) = .ok ⟨twoNodes.drop 1⟩ ∧
    Call.onAll [.next, .seek [97]] (⟨twoNodes⟩ : MemTableIterator) = .ok ⟨twoNodes.drop 1⟩ ∧
    Call.onAll [.seek [97]] (⟨twoNodes⟩ : MemTableIterator) = .ok ⟨twoNodes⟩ ∧
    ∀ calls ∈ [[Call.next, .seekToFirst], [.next, .seek [97]]], ∃ it,
      (MergeIterator.new [ChildIterator.mem ⟨twoNodes⟩] >>= Call.onAll calls) = .ok it ∧
        MergeIterator.YieldsTagged it [(0, makeInternalKey [98] 2 .value, [50])] := by
  refine ⟨rfl, rfl, rfl, fun calls hcalls => ?_⟩
  simp only [List.mem_cons, List.not_mem_nil, or_false] at hcalls
  rcases hcalls with rfl | rfl
  · exact ⟨_, rfl, rfl, rfl, rfl, _, rfl, rfl⟩
  · exact ⟨_, rfl, rfl, rfl, rfl, _, rfl, rfl⟩

end MiniLSM
