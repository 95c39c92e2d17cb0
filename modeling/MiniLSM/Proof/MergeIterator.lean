import Mathlib.Data.List.Forall2
import Mathlib.Data.List.Nodup
import MiniLSM.Lib.Merge
import MiniLSM.Proof.Iterator

/-!
# The merge iterator is a greedy merge

`MergeIterator.Ready.yieldsTagged`: an iterator whose children yield `ls` yields the
greedy merge of `ls` by internal key, and of each child the entries in its order. `Advance` clears
`current_` before its loop, so the branch that skips an entry of the user key returned last is
never taken.
-/

namespace MiniLSM

open Merge

namespace MergeIterator

variable {α : Type} [Iterator α]

/-- `IterWrapper::operator<` is the order by key, then by index. -/
theorem before_iff {children : List α} {i j : ℕ} :
    before children i j = true ↔ childKey children i < childKey children j ∨
      childKey children i = childKey children j ∧ i < j := by
  rw [before]
  rcases lt_trichotomy (childKey children i) (childKey children j) with h | h | h
  · rw [Slice.compare_eq_lt.2 h]; simp [h]
  · rw [Slice.compare_eq_eq.2 h]; simp [h]
  · rw [Slice.compare_eq_gt.2 h]; simp [h.not_gt, h.ne']

/-- The top of a heap is in it, and no other index leaves before it. -/
theorem top_spec {children : List α} {heap : List ℕ} (hne : heap ≠ []) :
    ∃ m ∈ heap, top children heap = some m ∧
      ∀ j ∈ heap, childKey children m < childKey children j ∨
        childKey children m = childKey children j ∧ m ≤ j := by
  induction heap with
  | nil => exact absurd rfl hne
  | cons i heap ih =>
    by_cases hheap : heap = []
    · subst hheap
      refine ⟨i, List.mem_cons_self, rfl, fun j hj => ?_⟩
      obtain rfl := List.mem_singleton.1 hj
      exact Or.inr ⟨rfl, le_refl _⟩
    · obtain ⟨m, hm, htop, hleast⟩ := ih hheap
      by_cases hb : before children m i = true
      · refine ⟨m, List.mem_cons_of_mem _ hm, by rw [top, htop]; simp [hb], fun j hj => ?_⟩
        rcases List.mem_cons.1 hj with rfl | hj
        · rcases before_iff.1 hb with h | ⟨h, hlt⟩
          · exact Or.inl h
          · exact Or.inr ⟨h, hlt.le⟩
        · exact hleast j hj
      · refine ⟨i, List.mem_cons_self, by rw [top, htop]; simp [hb], fun j hj => ?_⟩
        have hmi : childKey children i < childKey children m ∨
            childKey children i = childKey children m ∧ i ≤ m := by
          rw [before_iff, not_or, not_lt] at hb
          rcases lt_or_eq_of_le hb.1 with h | h
          · exact Or.inl h
          · exact Or.inr ⟨h, not_lt.1 fun hlt => hb.2 ⟨h.symm, hlt⟩⟩
        rcases List.mem_cons.1 hj with rfl | hj
        · exact Or.inr ⟨rfl, le_refl _⟩
        · rcases hmi with h1 | ⟨h1, h1'⟩ <;> rcases hleast j hj with h2 | ⟨h2, h2'⟩
          · exact Or.inl (h1.trans h2)
          · exact Or.inl (h2 ▸ h1)
          · exact Or.inl (h1 ▸ h2)
          · exact Or.inr ⟨h1.trans h2, h1'.trans h2'⟩

/-- The children yield `ls`, and the heap holds those with an entry left. -/
structure Ready (it : MergeIterator α) (ls : List (List (Bytes × Bytes))) : Prop where
  yields : List.Forall₂ Yields it.children ls
  heap : ∀ j, j ∈ it.heap ↔ ∃ e es, ls[j]? = some (e :: es)
  nodup : it.heap.Nodup

theorem forall₂_getElem? {β γ : Type} {R : β → γ → Prop} {as : List β} {bs : List γ}
    (h : List.Forall₂ R as bs) {j : ℕ} {b : γ} (hj : bs[j]? = some b) :
    ∃ a, as[j]? = some a ∧ R a b := by
  induction h generalizing j with
  | nil => simp at hj
  | @cons a b' as bs hab _ ih =>
    cases j with
    | zero =>
      obtain rfl : b' = b := by simpa using hj
      exact ⟨a, rfl, hab⟩
    | succ j => exact ih hj

theorem forall₂_set {β γ : Type} {R : β → γ → Prop} {as : List β} {bs : List γ}
    (h : List.Forall₂ R as bs) {a : β} {b : γ} (hab : R a b) (j : ℕ) :
    List.Forall₂ R (as.set j a) (bs.set j b) := by
  induction h generalizing j with
  | nil => simp
  | @cons a' b' as bs hab' htail ih =>
    cases j with
    | zero => exact .cons hab htail
    | succ j => exact .cons hab' (ih j)

variable {it : MergeIterator α} {ls : List (List (Bytes × Bytes))}

theorem Ready.childKey_eq (h : Ready it ls) {j : ℕ} {e : Bytes × Bytes} {es : List (Bytes × Bytes)}
    (hj : ls[j]? = some (e :: es)) : childKey it.children j = e.1 := by
  obtain ⟨c, hc, hy⟩ := forall₂_getElem? h.yields hj
  rw [childKey, hc, Option.map_some, Option.getD_some, hy.2.1]

/-- **`Advance` returns the first head** and takes its child off the heap. -/
theorem Ready.advance_first (h : Ready it ls) {i : ℕ} {e : Bytes × Bytes}
    {es : List (Bytes × Bytes)} (hf : First Prod.fst ls i e es) :
    advance it = .ok { it with
      heap := it.heap.erase i
      current := some i
      currentKeyBuf := e.1
      currentValueBuf := e.2 } := by
  have hi : i ∈ it.heap := (h.heap i).2 ⟨e, es, hf.head⟩
  obtain ⟨m, hm, htop, hleast⟩ :
      ∃ m ∈ it.heap, top it.children it.heap = some m ∧ ∀ j ∈ it.heap,
        childKey it.children m < childKey it.children j ∨
          childKey it.children m = childKey it.children j ∧ m ≤ j :=
    top_spec (List.ne_nil_of_mem hi)
  obtain ⟨f, fs, hmf⟩ := (h.heap m).1 hm
  have hmi : m = i := by
    have hle := hf.le m f fs hmf
    have hl := hleast i hi
    rw [h.childKey_eq hmf, h.childKey_eq hf.head] at hl
    rcases hl with hlt | ⟨heq, hmi⟩
    · exact absurd hle (not_le.2 hlt)
    · rcases lt_or_eq_of_le hmi with hlt | heq'
      · exact absurd heq (hf.lt m f fs hlt hmf).ne'
      · exact heq'
  subst hmi
  obtain ⟨c, hc, hy⟩ := forall₂_getElem? h.yields hf.head
  simp only [advance, advanceLoop, htop, hc, Checked.ofOption_some, bind, Except.bind, ne_eq,
    not_true_eq_false, false_and, if_false, hy.2.1, hy.2.2.1]
  rfl

theorem Ready.advance_done (h : Ready it ls) (hnil : ∀ l ∈ ls, l = []) :
    advance it = .ok { it with current := none } := by
  have hheap : it.heap = [] := by
    rw [List.eq_nil_iff_forall_not_mem]
    intro j hj
    obtain ⟨e, es, hj⟩ := (h.heap j).1 hj
    exact absurd (hnil _ (List.mem_of_getElem? hj)) (by simp)
  simp only [advance, advanceLoop, hheap, top]
  rfl

/-- **`Next` puts the child back** if it has another entry, and advances. -/
theorem Ready.next_eq (h : Ready it ls) {i : ℕ} {e : Bytes × Bytes} {es : List (Bytes × Bytes)}
    (hf : First Prod.fst ls i e es) :
    ∃ it', next { it with
        heap := it.heap.erase i
        current := some i
        currentKeyBuf := e.1
        currentValueBuf := e.2 } = advance it' ∧ Ready it' (ls.set i es) := by
  obtain ⟨c, hc, -, -, -, c', hnext, hy⟩ := forall₂_getElem? h.yields hf.head
  have hi : i ∈ it.heap := (h.heap i).2 ⟨e, es, hf.head⟩
  have hget : (ls.set i es)[i]? = some es := List.getElem?_set_self (by
    obtain ⟨h, -⟩ := List.getElem?_eq_some_iff.1 hf.head; exact h)
  have herase : ∀ j, j ∈ it.heap.erase i ↔ j ≠ i ∧ ∃ e es', (ls.set i es)[j]? = some (e :: es') := by
    intro j
    rw [h.nodup.mem_erase_iff]
    refine and_congr_right fun hne => ?_
    rw [List.getElem?_set_ne (Ne.symm hne), h.heap j]
  set it' : MergeIterator α := { it with
    heap := it.heap.erase i
    current := some i
    currentKeyBuf := e.1
    currentValueBuf := e.2
    children := it.children.set i c' } with hit'
  refine ⟨if Iterator.valid c' then { it' with heap := it'.heap ++ [i] } else it', ?_, ?_⟩
  · simp only [next, hc, Checked.ofOption_some, bind, Except.bind, hnext]
    rfl
  -- child `i` comes back into the heap if it has another entry
  have hys : List.Forall₂ Yields (it.children.set i c') (ls.set i es) := forall₂_set h.yields hy i
  have hvalid : ∀ b, Iterator.valid c' = b → (b = true ↔ es ≠ []) := by
    rintro b rfl
    cases es with
    | nil => simp [show Iterator.valid c' = false from hy]
    | cons f fs => simp [hy.1]
  have hnodup : (it.heap.erase i).Nodup := h.nodup.erase i
  split
  · rename_i hv
    obtain ⟨f, fs, rfl⟩ := List.exists_cons_of_ne_nil ((hvalid _ rfl).1 hv)
    refine ⟨hys, fun j => ?_, ?_⟩
    · simp only [hit', List.mem_append, List.mem_singleton, herase j]
      rcases eq_or_ne j i with rfl | hne
      · simp [hget]
      · simp [hne]
    · simp only [hit']
      rw [List.nodup_append]
      refine ⟨hnodup, List.nodup_singleton i, fun a ha b hb => ?_⟩
      obtain rfl := List.mem_singleton.1 hb
      rintro rfl
      exact ((herase a).1 ha).1 rfl
  · rename_i hv
    obtain rfl : es = [] := by
      by_contra hne; exact hv ((hvalid _ rfl).2 hne)
    refine ⟨hys, fun j => ?_, hnodup⟩
    simp only [hit', herase j]
    rcases eq_or_ne j i with rfl | hne
    · simp [hget]
    · simp [hne]

/-- `Advance` leaves the children where they are. -/
theorem advance_children {it it' : MergeIterator α} (h : advance it = .ok it') :
    it'.children = it.children := by
  unfold advance at h
  rw [advanceLoop] at h
  split at h
  · obtain rfl := Except.ok.inj h
    rfl
  · obtain ⟨child, -, h⟩ := Checked.bind_eq_ok h
    rw [if_neg (by simp)] at h
    obtain rfl := Except.ok.inj h
    rfl

/-- **`Next` moves one child.** -/
theorem next_children {it it' : MergeIterator α} (h : next it = .ok it') :
    it'.children = it.children ∨ ∃ i c c', it.children[i]? = some c ∧ Iterator.next c = .ok c' ∧
      it'.children = it.children.set i c' := by
  unfold next at h
  split at h
  · obtain rfl := Except.ok.inj h
    exact Or.inl rfl
  · rename_i i hi
    obtain ⟨c, hc, h⟩ := Checked.bind_eq_ok h
    obtain ⟨c', hc', h⟩ := Checked.bind_eq_ok h
    refine Or.inr ⟨i, c, c', ?_, hc', ?_⟩
    · cases hget : it.children[i]? with
      | none => rw [hget] at hc; cases hc
      | some c₀ => rw [hget] at hc; exact congrArg some (Except.ok.inj hc)
    · rw [advance_children h]
      split <;> rfl

/-- Walking `it` gives the entries `es`, each from the child of its index, and ends. -/
def YieldsTagged : MergeIterator α → List (ℕ × Bytes × Bytes) → Prop
  | it, [] => it.current = none
  | it, e :: es => it.current = some e.1 ∧ it.currentKeyBuf = e.2.1 ∧ it.currentValueBuf = e.2.2 ∧
      ∃ it', next it = .ok it' ∧ YieldsTagged it' es

theorem YieldsTagged.yields {it : MergeIterator α} {es : List (ℕ × Bytes × Bytes)}
    (h : YieldsTagged it es) : Yields it (es.map Prod.snd) := by
  induction es generalizing it with
  | nil =>
    show it.current.isSome = false
    rw [show it.current = none from h]; rfl
  | cons e es ih =>
    obtain ⟨hcur, hk, hv, it', hnext, hy⟩ := h
    exact ⟨show it.current.isSome = true by rw [hcur]; rfl, hk, hv, it', hnext, ih hy⟩

/-- **The loop over a merge iterator collects what it yields**, with the children, up to its
bound. -/
theorem drainTagged_of_yields {it : MergeIterator α} {es : List (ℕ × Bytes × Bytes)}
    (h : YieldsTagged it es) (n : ℕ) : drainTagged n it = .ok (es.take n) := by
  induction es generalizing it n with
  | nil =>
    cases n with
    | zero => rfl
    | succ n =>
      have hcur : it.current = none := h
      simp only [drainTagged, hcur]
      rfl
  | cons e es ih =>
    obtain ⟨hcur, hk, hv, it', hnext, hy⟩ := h
    cases n with
    | zero => rfl
    | succ n =>
      simp only [drainTagged, hcur, hnext, bind, Except.bind, ih hy n, hk, hv]
      rfl

/-- A loop that ends before its bound has collected all of it. -/
theorem eq_of_drainTagged {it : MergeIterator α} {es es' : List (ℕ × Bytes × Bytes)} (h : YieldsTagged it es)
    {n : ℕ} (hdrain : drainTagged n it = .ok es') (hlt : es'.length < n) : es = es' := by
  have htake : es.take n = es' := Except.ok.inj ((drainTagged_of_yields h n).symm.trans hdrain)
  have hlen := congrArg List.length htake
  rw [List.length_take] at hlen
  rwa [List.take_of_length_le (by omega)] at htake

/-- The entries that come from child `i`. -/
def fromChild (i : ℕ) (es : List (ℕ × Bytes × Bytes)) : List (Bytes × Bytes) :=
  (es.filter fun e => e.1 = i).map Prod.snd

/-- **The merge iterator yields the greedy merge of what its children yield.** -/
theorem Ready.yieldsTagged (h : Ready it ls) {es : List (ℕ × Bytes × Bytes)}
    (hm : Tagged Prod.fst ls es) : ∃ it', advance it = .ok it' ∧ YieldsTagged it' es := by
  induction hm generalizing it with
  | done hnil => exact ⟨_, h.advance_done hnil, rfl⟩
  | take hf _ ih =>
    obtain ⟨it', hnext, hready⟩ := h.next_eq hf
    obtain ⟨it'', hadv, hy⟩ := ih hready
    exact ⟨_, h.advance_first hf, rfl, rfl, rfl, it'', hnext.trans hadv, hy⟩

/-- Doing something with one child after the other. -/
theorem mapM_eq_ok_iff {β γ : Type} {f : β → Checked γ} {bs : List β} {cs : List γ} :
    bs.mapM f = .ok cs ↔ List.Forall₂ (fun b c => f b = .ok c) bs cs := by
  induction bs generalizing cs with
  | nil =>
    rw [List.forall₂_nil_left_iff]
    exact ⟨fun h => (Except.ok.inj h).symm, fun h => h ▸ rfl⟩
  | cons b bs ih =>
    rw [List.mapM_cons, List.forall₂_cons_left_iff]
    cases hb : f b with
    | error e => simp [bind, Except.bind]
    | ok c =>
      cases hbs : bs.mapM f with
      | error e =>
        simp only [bind, Except.bind, reduceCtorEq, Except.ok.injEq, false_iff]
        rintro ⟨c', cs', -, hcs, -⟩
        rw [← ih, hbs] at hcs
        cases hcs
      | ok cs' =>
        simp only [bind, Except.bind, pure, Except.pure, Except.ok.injEq]
        constructor
        · rintro rfl
          exact ⟨c, cs', rfl, ih.1 hbs, rfl⟩
        · rintro ⟨c', cs'', rfl, hcs, rfl⟩
          rw [← ih, hbs] at hcs
          rw [Except.ok.inj hcs]

/-- **Filling the heap** with the children that have an entry. -/
theorem fillHeap_ready {seek : α → Checked α} {children children' : List α}
    (hmap : children.mapM seek = .ok children') (hys : List.Forall₂ Yields children' ls) :
    ∃ heap, fillHeap seek children = .ok (children', heap) ∧
      ∀ it : MergeIterator α, Ready { it with children := children', heap := heap } ls := by
  set heap := (List.range children'.length).filter fun i =>
    (children'[i]?.map Iterator.valid).getD false with hheap
  refine ⟨heap, ?_, fun it => ⟨hys, fun j => ?_, List.nodup_range.filter _⟩⟩
  · simp only [fillHeap, hmap, bind, Except.bind, pure, Except.pure]
    rfl
  simp only [hheap, List.mem_filter, List.mem_range]
  constructor
  · rintro ⟨hj, hv⟩
    have hlen := hys.length_eq
    obtain ⟨l, hl⟩ : ∃ l, ls[j]? = some l := ⟨_, List.getElem?_eq_getElem (by omega)⟩
    obtain ⟨c, hc, hy⟩ := forall₂_getElem? hys hl
    rw [hc, Option.map_some, Option.getD_some] at hv
    cases l with
    | nil => rw [show Iterator.valid c = false from hy] at hv; exact absurd hv (by decide)
    | cons e es => exact ⟨e, es, hl⟩
  · rintro ⟨e, es, hl⟩
    obtain ⟨c, hc, hy⟩ := forall₂_getElem? hys hl
    have hj : j < children'.length := by
      obtain ⟨h, -⟩ := List.getElem?_eq_some_iff.1 hc; exact h
    exact ⟨hj, by rw [hc, Option.map_some, Option.getD_some]; exact hy.1⟩

theorem mapM_seek {seek : α → Checked α} {children : List α}
    (h : List.Forall₂ (fun c l => ∃ c', seek c = .ok c' ∧ Yields c' l) children ls) :
    ∃ children', children.mapM seek = .ok children' ∧ List.Forall₂ Yields children' ls := by
  induction h with
  | nil => exact ⟨[], rfl, .nil⟩
  | cons hc _ ih =>
    obtain ⟨c', hseek, hy⟩ := hc
    obtain ⟨children', hmap, hys⟩ := ih
    rw [mapM_eq_ok_iff] at hmap
    exact ⟨c' :: children', mapM_eq_ok_iff.2 (.cons hseek hmap), .cons hy hys⟩

/-- **A new merge iterator yields the greedy merge of its children**, and of each child the
entries in its order. -/
theorem new_yieldsTagged {children : List α}
    (h : List.Forall₂ (fun c l => ∃ c', Iterator.seekToFirst c = .ok c' ∧ Yields c' l) children ls)
    {out : List (Bytes × Bytes)} (hm : Merged Prod.fst ls out) :
    ∃ it es, new children = .ok it ∧ YieldsTagged it es ∧ es.map Prod.snd = out ∧
      ∀ i, fromChild i es = (ls[i]?).getD [] := by
  obtain ⟨children', hmap, hys⟩ := mapM_seek h
  obtain ⟨heap, hfill, hready⟩ := fillHeap_ready hmap hys
  obtain ⟨es, ht, hout⟩ := hm.exists_tagged
  obtain ⟨it, hadv, hy⟩ := (hready { children := [] }).yieldsTagged ht
  refine ⟨it, es, ?_, hy, hout, ht.of_list⟩
  simp only [new, hfill, bind, Except.bind]
  exact hadv

theorem new_yields {children : List α} {ls : List (List (Bytes × Bytes))}
    (h : List.Forall₂ (fun c l => ∃ c', Iterator.seekToFirst c = .ok c' ∧ Yields c' l) children ls)
    {out : List (Bytes × Bytes)} (hm : Merged Prod.fst ls out) :
    ∃ it, new children = .ok it ∧ Yields it out := by
  obtain ⟨it, es, hnew, hy, hout, -⟩ := new_yieldsTagged h hm
  exact ⟨it, hnew, hout ▸ hy.yields⟩

/-- **A merge loses nothing**: whatever entries the children have, the loop over a new merge
iterator ends, it emits of every child exactly its entries in their order, and in increasing
order if every child does. -/
theorem drains_children {children : List α} {ls : List (List (Bytes × Bytes))}
    (h : List.Forall₂ (fun c l => ∃ c', Iterator.seekToFirst c = .ok c' ∧ Yields c' l) children ls) :
    ∃ it es, new children = .ok it ∧
      (∀ n, es.length ≤ n → drainTagged n it = .ok es ∧ drain n it = .ok (es.map Prod.snd)) ∧
      (∀ i, fromChild i es = (ls[i]?).getD []) ∧
      ((∀ l ∈ ls, l.Pairwise fun e f => e.1 ≤ f.1) →
        (es.map Prod.snd).Pairwise fun e f => e.1 ≤ f.1) := by
  obtain ⟨out, hm⟩ := Merged.exists_merged Prod.fst ls
  obtain ⟨it, es, hnew, hy, hout, hchild⟩ := new_yieldsTagged h hm
  refine ⟨it, es, hnew, fun n hn => ⟨?_, ?_⟩, hchild, fun hsorted => ?_⟩
  · rw [drainTagged_of_yields hy n, List.take_of_length_le hn]
  · exact drain_of_yields hy.yields (by rwa [List.length_map])
  · rw [hout]
    exact hm.sorted (fun _ _ _ _ hlt => hlt) hsorted

/-- Two memtable iterators that are not in order. -/
theorem drains_children_two : ∃ it es,
    new [MemTableIterator.mk [⟨[2], [], 1⟩, ⟨[1], [], 1⟩], ⟨[⟨[1], [7], 1⟩]⟩] = .ok it ∧
      (∀ n, es.length ≤ n → drainTagged n it = .ok es ∧ drain n it = .ok (es.map Prod.snd)) ∧
      (∀ i, fromChild i es = ([[([2], []), ([1], [])], [([1], [7])]][i]?).getD []) ∧
      ((∀ l ∈ [[([2], []), ([1], [])], [([1], [7])]], l.Pairwise fun e f : Bytes × Bytes => e.1 ≤ f.1) →
        (es.map Prod.snd).Pairwise fun e f => e.1 ≤ f.1) :=
  drains_children (.cons ⟨_, rfl, MemTableIterator.yields _⟩
    (.cons ⟨_, rfl, MemTableIterator.yields _⟩ .nil))

/-! ## Versions of one key -/

/-- Each user key is emitted once, with its least internal key over all children, the child in
front winning a tie. -/
structure Deduplicated (ls : List (List (Bytes × Bytes))) (es : List (ℕ × Bytes × Bytes)) : Prop where
  once : (es.map fun e => extractUserKey e.2.1).Nodup
  least : ∀ e ∈ es, ∀ j l f, ls[j]? = some l → f ∈ l → extractUserKey f.1 = extractUserKey e.2.1 →
    e.2.1 < f.1 ∨ e.2.1 = f.1 ∧ e.1 ≤ j

/-- What comes from child `i` is one of its entries. -/
theorem mem_fromChild {i : ℕ} {e : Bytes × Bytes} {es : List (ℕ × Bytes × Bytes)} :
    e ∈ fromChild i es ↔ (i, e) ∈ es := by
  rw [fromChild, List.mem_map]
  constructor
  · rintro ⟨⟨j, f⟩, hf, rfl⟩
    obtain ⟨hf', hj⟩ := List.mem_filter.1 hf
    obtain rfl : j = i := by simpa using hj
    exact hf'
  · intro h
    exact ⟨(i, e), List.mem_filter.2 ⟨h, by simp⟩, rfl⟩

/-- **The merge de-duplicates exactly when there is nothing to do**: no user key occurs twice,
neither in one child nor in two. -/
theorem deduplicated_iff {children : List α} {ls : List (List (Bytes × Bytes))}
    (h : List.Forall₂ (fun c l => ∃ c', Iterator.seekToFirst c = .ok c' ∧ Yields c' l) children ls) :
    ∃ it es, new children = .ok it ∧ (∀ n, es.length ≤ n → drainTagged n it = .ok es) ∧
      (Deduplicated ls es ↔ (ls.flatten.map fun e => extractUserKey e.1).Nodup) := by
  obtain ⟨out, hm⟩ := Merged.exists_merged Prod.fst ls
  obtain ⟨it, es, hnew, hy, hout, hchild⟩ := new_yieldsTagged h hm
  have hkeys : (es.map fun e => extractUserKey e.2.1) = out.map fun e => extractUserKey e.1 := by
    rw [← hout, List.map_map]; rfl
  have hperm := hm.perm.map fun e => extractUserKey e.1
  refine ⟨it, es, hnew, fun n hn => ?_, fun hd => ?_, fun hnd => ?_⟩
  · rw [drainTagged_of_yields hy n, List.take_of_length_le hn]
  · rw [← hperm.nodup_iff, ← hkeys]
    exact hd.once
  refine ⟨by rw [hkeys]; exact hperm.nodup_iff.2 hnd, fun e he j l f hl hf hkey => ?_⟩
  obtain ⟨i, e⟩ := e
  have hei := mem_fromChild.2 he
  rw [hchild] at hei
  obtain ⟨m, hm', hem⟩ : ∃ m, ls[i]? = some m ∧ e ∈ m := by
    cases hi : ls[i]? with
    | none => rw [hi] at hei; simp at hei
    | some m => exact ⟨m, rfl, by rw [hi] at hei; exact hei⟩
  -- two places with one user key are one place
  rw [List.map_flatten, List.nodup_flatten, List.pairwise_map, List.pairwise_iff_getElem] at hnd
  obtain ⟨hin, hacross⟩ := hnd
  obtain ⟨hi, rfl⟩ := List.getElem?_eq_some_iff.1 hm'
  obtain ⟨hj, rfl⟩ := List.getElem?_eq_some_iff.1 hl
  have heu := List.mem_map_of_mem (f := fun e : Bytes × Bytes => extractUserKey e.1) hem
  have hfu := List.mem_map_of_mem (f := fun e : Bytes × Bytes => extractUserKey e.1) hf
  rcases lt_trichotomy i j with hlt | rfl | hgt
  · exact absurd (hkey ▸ hfu) (hacross i j hi hj hlt heu)
  · have heq := List.inj_on_of_nodup_map (hin _ (List.mem_map_of_mem (List.getElem_mem hi))) hf hem hkey
    exact Or.inr ⟨by rw [heq], le_refl _⟩
  · exact absurd (hkey ▸ heu) (hacross j i hj hi hgt hfu)

/-- Two memtable iterators with one key each. -/
theorem deduplicated_two : ∃ it es,
    new [MemTableIterator.mk [⟨makeInternalKey [97] 1 .value, [49], 1⟩],
      ⟨[⟨makeInternalKey [98] 1 .value, [50], 1⟩]⟩] = .ok it ∧
      (∀ n, es.length ≤ n → drainTagged n it = .ok es) ∧
      (Deduplicated [[(makeInternalKey [97] 1 .value, [49])], [(makeInternalKey [98] 1 .value, [50])]] es ↔
        ([[(makeInternalKey [97] 1 .value, [49])], [(makeInternalKey [98] 1 .value, [50])]].flatten.map
          fun e : Bytes × Bytes => extractUserKey e.1).Nodup) :=
  deduplicated_iff (.cons ⟨_, rfl, MemTableIterator.yields _⟩
    (.cons ⟨_, rfl, MemTableIterator.yields _⟩ .nil))

/-- **Two versions of a key are both emitted.** -/
theorem merge_repeats : (new [MemTableIterator.mk [⟨makeInternalKey [97] 2 .value, [50], 1⟩],
      ⟨[⟨makeInternalKey [97] 1 .value, [49], 1⟩]⟩] >>= drainTagged 3) =
      .ok [(0, makeInternalKey [97] 2 .value, [50]), (1, makeInternalKey [97] 1 .value, [49])] ∧
    ¬Deduplicated [[(makeInternalKey [97] 2 .value, [50])], [(makeInternalKey [97] 1 .value, [49])]]
      [(0, makeInternalKey [97] 2 .value, [50]), (1, makeInternalKey [97] 1 .value, [49])] := by
  refine ⟨by rfl, fun hd => ?_⟩
  have honce := hd.once
  revert honce
  decide

end MergeIterator

/-! ## Children -/

theorem ChildIterator.yields_mem {it : MemTableIterator} {es : List (Bytes × Bytes)}
    (h : Yields it es) : Yields (ChildIterator.mem it) es := by
  induction es generalizing it with
  | nil => exact h
  | cons e es ih =>
    obtain ⟨hv, hk, hval, it', hnext, hy⟩ := h
    refine ⟨hv, hk, hval, .mem it', ?_, ih hy⟩
    show ChildIterator.mem <$> Iterator.next it = _
    rw [hnext]
    rfl

theorem ChildIterator.yields_sst {it : SSTableIterator} {es : List (Bytes × Bytes)}
    (h : Yields it es) : Yields (ChildIterator.sst it) es := by
  induction es generalizing it with
  | nil => exact h
  | cons e es ih =>
    obtain ⟨hv, hk, hval, it', hnext, hy⟩ := h
    refine ⟨hv, hk, hval, .sst it', ?_, ih hy⟩
    show ChildIterator.sst <$> Iterator.next it = _
    rw [hnext]
    rfl

end MiniLSM
