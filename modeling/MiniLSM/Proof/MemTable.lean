import MiniLSM.Spec.MemTable
import MiniLSM.Proof.TableGet

/-!
# What a memtable holds and finds

* `WF`: the chain of a memtable is strictly increasing and its keys are internal keys of the
  type of their value; `add_wf` keeps it.
* `get_of_inMemTable`, `get_of_not_inMemTable`: when `Get` finds the first entry of a key.
* `lookup_add`: an entry put before all versions of its user key is the one found for it.
* `get_eq_lookup`: between user keys that stay apart, `Get` finds the first entry of a key.
-/

namespace MiniLSM

/-- User keys none of which continues another by a type byte. -/
def AllApart (ps : List (Bytes × Bytes)) : Prop := ∀ p ∈ ps, ∀ q ∈ ps, Apart p.1 q.1

/-- Between user keys that stay apart, increasing keys have increasing user keys. -/
theorem userPairs_sorted {es : List (Bytes × Bytes)} (hs : ∀ e ∈ es, Stored e)
    (hsorted : es.Pairwise fun e f => e.1 < f.1) (ha : AllApart (userPairs es)) :
    (userPairs es).Pairwise fun p q => p.1 ≤ q.1 := by
  rw [userPairs, List.pairwise_map]
  refine hsorted.imp_of_mem fun {e f} he hf hlt => ?_
  by_contra hgt
  obtain ⟨u, s, hu⟩ := hs e he
  have hlt' := (hs f hf).lt_of_apart (k := extractUserKey e.1) (not_le.1 hgt)
    (ha _ (List.mem_map_of_mem hf) _ (List.mem_map_of_mem he)) (trailer s (typeOf e.2))
  rw [hu, extractUserKey_makeInternalKey, ← makeInternalKey_eq, ← hu] at hlt'
  exact absurd hlt (not_lt.2 hlt'.le)

/-- Entries of user keys that are sorted and stay apart are below the lookup key of `k` if
they belong to a smaller user key. -/
theorem Stored.lt_lookup {es : List (Bytes × Bytes)} {e f : Bytes × Bytes} {k : Bytes}
    (he : Stored e) (ha : AllApart (userPairs es)) (hes : e ∈ es) (hfs : f ∈ es)
    (hf : extractUserKey f.1 = k) (hlt : extractUserKey e.1 < k) : e.1 < makeLookupKey k :=
  he.lt_of_apart hlt (hf ▸ ha _ (List.mem_map_of_mem hes) _ (List.mem_map_of_mem hfs)) _

section sorted

variable {bs : List (List (Bytes × Bytes))} {k : Bytes}

/-- Where block `i` ends. -/
theorem endsBelow_iff {i : ℕ} {b : List (Bytes × Bytes)} (hb : bs[i]? = some b) (hne : b ≠ []) :
    endsBelow k bs i = true ↔ (b.getLast hne).1 < makeLookupKey k := by
  rw [endsBelow, List.getD_eq_getElem?_getD, hb, Option.getD_some, List.getLast?_eq_some_getLast hne]
  simp

/-- Between sorted user keys no block from the first one of `k` on ends below its lookup key. -/
theorem endsBelow_of_sorted (hne : ∀ b ∈ bs, b ≠ []) (hs : ∀ e ∈ bs.flatten, Stored e)
    (hsorted : (userPairs bs.flatten).Pairwise fun p q => p.1 ≤ q.1)
    (hk : k ∈ (userPairs bs.flatten).map Prod.fst) {i : ℕ} (hi : firstBlock k bs ≤ i)
    (hilt : i < bs.length) : endsBelow k bs i = false := by
  obtain ⟨b, hb, hkb, -⟩ := firstBlock_spec hk
  obtain ⟨e, ys, hes, hek, -⟩ := exists_before hkb
  obtain ⟨hblt, hbget⟩ := List.getElem?_eq_some_iff.1 hb
  have heb : e ∈ b := by rw [hes]; simp
  have hcm : bs[i] ∈ bs := List.getElem_mem hilt
  have hlm : bs[i].getLast (hne _ hcm) ∈ bs[i] := List.getLast_mem _
  rw [userPairs, List.pairwise_map, List.pairwise_flatten] at hsorted
  obtain ⟨hin, hacross⟩ := hsorted
  rw [List.pairwise_iff_getElem] at hacross
  -- the last entry of block `i` is `e` or behind it
  have hle : extractUserKey e.1 ≤ extractUserKey (bs[i].getLast (hne _ hcm)).1 := by
    rcases hi.eq_or_lt with heq | hgt
    · subst heq
      have hpw := hin _ hcm
      have hmem : e ∈ bs[firstBlock k bs] := by rw [hbget]; exact heb
      rw [← List.dropLast_append_getLast (hne _ hcm), List.pairwise_append] at hpw
      rw [← List.dropLast_append_getLast (hne _ hcm), List.mem_append, List.mem_singleton] at hmem
      rcases hmem with hmem | hmem
      · exact hpw.2.2 e hmem _ (List.mem_singleton_self _)
      · rw [hmem]
    · exact hacross _ i hblt hilt hgt e (hbget ▸ heb) _ hlm
  have hstored := hs _ (List.mem_flatten.2 ⟨_, hcm, hlm⟩)
  rw [Bool.eq_false_iff, ne_eq, endsBelow_iff (List.getElem?_eq_getElem hilt) (hne _ hcm)]
  exact not_lt.2 (hstored.le_of_le (hek ▸ hle))

/-- Between sorted user keys no greater one comes before the first entry of `k`. -/
theorem before_of_sorted (hsorted : (userPairs bs.flatten).Pairwise fun p q => p.1 ≤ q.1)
    (hk : k ∈ (userPairs bs.flatten).map Prod.fst) :
    ∀ e ∈ before k (bs.getD (firstBlock k bs) []), extractUserKey e.1 ≤ k := by
  obtain ⟨b, hb, hkb, -⟩ := firstBlock_spec hk
  obtain ⟨e, ys, hes, hek, -⟩ := exists_before hkb
  rw [userPairs, List.pairwise_map, List.pairwise_flatten] at hsorted
  intro f hf
  rw [List.getD_eq_getElem?_getD, hb, Option.getD_some] at hf
  have hpw := hsorted.1 b (List.mem_of_getElem? hb)
  rw [hes, List.pairwise_append] at hpw
  exact hek ▸ hpw.2.2 f hf e List.mem_cons_self

/-- **Between user keys that are sorted and stay apart** the search leads to every key. -/
theorem inTable_of_sorted (hne : ∀ b ∈ bs, b ≠ []) (hs : ∀ e ∈ bs.flatten, Stored e)
    (hsorted : (userPairs bs.flatten).Pairwise fun p q => p.1 ≤ q.1)
    (ha : AllApart (userPairs bs.flatten))
    (hk : k ∈ (userPairs bs.flatten).map Prod.fst) : InTable k bs := by
  refine ⟨fun i hi => ?_, before_of_sorted hsorted hk⟩
  have hilt : i < bs.length := by have := (Search.mem_probes hi).2; omega
  rcases lt_or_ge i (firstBlock k bs) with hlt | hge
  · obtain ⟨b, hb, hkb, -⟩ := firstBlock_spec hk
    obtain ⟨e, ys, hes, hek, -⟩ := exists_before hkb
    obtain ⟨hblt, hbget⟩ := List.getElem?_eq_some_iff.1 hb
    have heb : e ∈ b := by rw [hes]; simp
    have hef : e ∈ bs.flatten := List.mem_flatten.2 ⟨b, List.mem_of_getElem? hb, heb⟩
    have hcm : bs[i] ∈ bs := List.getElem_mem hilt
    have hlm : bs[i].getLast (hne _ hcm) ∈ bs[i] := List.getLast_mem _
    have hlf := List.mem_flatten.2 ⟨_, hcm, hlm⟩
    rw [userPairs, List.pairwise_map, List.pairwise_flatten] at hsorted
    have hacross := hsorted.2
    rw [List.pairwise_iff_getElem] at hacross
    have hle := hacross i _ hilt hblt hlt _ hlm e (hbget ▸ heb)
    have hnek : extractUserKey (bs[i].getLast (hne _ hcm)).1 ≠ k := fun heq =>
      not_mem_of_lt_firstBlock (List.getElem?_eq_getElem hilt) hlt
        (List.mem_map.2 ⟨_, List.mem_map_of_mem hlm, heq⟩)
    rw [endsBelow_iff (List.getElem?_eq_getElem hilt) (hne _ hcm)]
    exact iff_of_true ((hs _ hlf).lt_lookup ha hlf hef hek
      (lt_of_le_of_ne (hek ▸ hle) hnek)) hlt
  · rw [endsBelow_of_sorted hne hs hsorted hk hge hilt]
    exact iff_of_false (by simp) (not_lt.2 hge)

end sorted

/-- **A table finds the first entry of a key**, when its user keys are sorted and stay apart. -/
theorem Holds.get_eq_lookup {t : SSTable} {ps : List (Bytes × Bytes)} {blocks : List DataBlock}
    (h : Holds t ps blocks) (hsorted : ps.Pairwise fun p q => p.1 ≤ q.1) (ha : AllApart ps)
    (k : Bytes) : ∃ r, t.get k = .ok r ∧ Answers r (ps.lookup k) := by
  by_cases hk : k ∈ ps.map Prod.fst
  · have hflat : (blocks.map DataBlock.entries).flatten = tableEntries ps := by
      rw [← List.flatMap_def, h.entries]
    have hu := userPairs_tableEntries ps
    refine h.get_of_inTable hk (inTable_of_sorted (fun b hb => ?_) (fun e he => ?_) ?_ ?_ ?_)
    · obtain ⟨c, hc, rfl⟩ := List.mem_map.1 hb
      exact (h.readable.bounded c hc).ne
    · rw [hflat] at he
      exact stored_tableEntries he
    · rwa [hflat, hu]
    · rwa [hflat, hu]
    · rwa [hflat, hu]
  · rw [lookup_eq_none hk]
    exact h.get_of_not_mem hk

/-- The entries in front of the first one of `k` are below its lookup key. -/
def InMemTable (k : Bytes) (es : List (Bytes × Bytes)) : Prop :=
  ∀ e ∈ before k es, e.1 < makeLookupKey k

instance (k : Bytes) (es : List (Bytes × Bytes)) : Decidable (InMemTable k es) :=
  inferInstanceAs (Decidable (∀ e ∈ before k es, e.1 < makeLookupKey k))

namespace MemTable

/-- The chain is strictly increasing and holds stored entries. -/
structure WF (m : MemTable) : Prop where
  sorted : m.entries.Pairwise fun e f => e.1 < f.1
  stored : ∀ e ∈ m.entries, Stored e

/-- The entries of a chain. -/
def chainEntries (nodes : List Node) : List (Bytes × Bytes) := nodes.map fun n => (n.key, n.value)

theorem entries_eq (m : MemTable) : m.entries = chainEntries m.table.nodes := rfl

@[simp] theorem entries_add (m : MemTable) (u v : Bytes) (height : ℕ) :
    (m.add u v height).entries = chainEntries (SkipList.insertChain
      (makeInternalKey u (m.lastSeq + 1) (typeOf v)) v height m.table.nodes) := rfl

@[simp] theorem lastSeq_add (m : MemTable) (u v : Bytes) (height : ℕ) :
    (m.add u v height).lastSeq = m.lastSeq + 1 := rfl

/-- The members of the chain after an insertion. -/
theorem mem_insertChain {key value : Bytes} {height : ℕ} {nodes : List Node} {e : Bytes × Bytes}
    (h : e ∈ chainEntries (SkipList.insertChain key value height nodes)) :
    e = (key, value) ∨ e ∈ chainEntries nodes := by
  induction nodes with
  | nil => simpa [SkipList.insertChain, chainEntries] using h
  | cons x xs ih =>
    rw [SkipList.insertChain] at h
    split at h
    · rcases List.mem_cons.1 h with rfl | h
      · exact Or.inr List.mem_cons_self
      · exact (ih h).imp_right (List.mem_cons_of_mem _)
    · rename_i heq
      rw [Slice.compare_eq_eq] at heq
      rcases List.mem_cons.1 h with rfl | h
      · exact Or.inl (by simp [heq])
      · exact Or.inr (List.mem_cons_of_mem _ h)
    · rcases List.mem_cons.1 h with rfl | h
      · exact Or.inl rfl
      · exact Or.inr h

theorem insertChain_sorted {key value : Bytes} {height : ℕ} {nodes : List Node}
    (h : (chainEntries nodes).Pairwise fun e f => e.1 < f.1) :
    (chainEntries (SkipList.insertChain key value height nodes)).Pairwise fun e f => e.1 < f.1 := by
  induction nodes with
  | nil => simp [SkipList.insertChain, chainEntries]
  | cons x xs ih =>
    rw [chainEntries, List.map_cons, List.pairwise_cons] at h
    rw [SkipList.insertChain]
    split
    · rename_i hlt
      rw [Slice.compare_eq_lt] at hlt
      rw [chainEntries, List.map_cons, List.pairwise_cons]
      refine ⟨fun e he => ?_, ih h.2⟩
      rcases mem_insertChain he with rfl | he
      · exact hlt
      · exact h.1 e he
    · rename_i heq
      rw [chainEntries, List.map_cons, List.pairwise_cons]
      exact ⟨h.1, h.2⟩
    · rename_i hgt
      rw [Slice.compare_eq_gt] at hgt
      rw [chainEntries, List.map_cons, List.map_cons, List.pairwise_cons, List.pairwise_cons]
      refine ⟨fun e he => ?_, h⟩
      rcases List.mem_cons.1 he with rfl | he
      · exact hgt
      · exact hgt.trans (h.1 e he)

theorem new_wf : WF new := ⟨List.Pairwise.nil, by simp [entries, new, SkipList.new]⟩

/-- **`Add` keeps the memtable well formed.** -/
theorem add_wf {m : MemTable} (h : m.WF) (u v : Bytes) (height : ℕ) : (m.add u v height).WF := by
  refine ⟨insertChain_sorted h.sorted, fun e he => ?_⟩
  rcases mem_insertChain he with rfl | he
  · exact ⟨u, _, rfl⟩
  · exact h.stored e he

/-- `Get` looks at the first entry from the lookup key on. -/
theorem get_eq (m : MemTable) (k : Bytes) :
    m.get k = (m.entries.find? fun e => !decide (e.1 < makeLookupKey k)).bind fun e =>
      if extractUserKey e.1 = k then some e.2 else none := by
  have hp : (fun n : Node => decide (Slice.compare n.key (makeLookupKey k) ≠ .lt)) =
      (fun e : Bytes × Bytes => !decide (e.1 < makeLookupKey k)) ∘ fun n => (n.key, n.value) := by
    funext n
    simp only [Function.comp, ne_eq, Slice.compare_eq_lt, decide_not]
  rw [get, SkipList.findGreaterOrEqual, entries, List.find?_map, hp]
  cases m.table.nodes.find? _ with
  | none => rfl
  | some n => simp only [Option.map_some, Option.bind_some, ne_eq, Slice.compare_eq_eq, ite_not]

/-- `Get` never answers for a user key that was not added. -/
theorem get_of_not_mem {m : MemTable} {k : Bytes} (hk : k ∉ m.pairs.map Prod.fst) :
    m.get k = none := by
  rw [get_eq]
  cases he : m.entries.find? fun e => !decide (e.1 < makeLookupKey k) with
  | none => rfl
  | some e =>
    rw [Option.bind_some, if_neg]
    exact fun heq => hk (List.mem_map.2 ⟨_, List.mem_map_of_mem (List.mem_of_find?_eq_some he), heq⟩)

/-- **`Get` finds the first entry of a key** behind entries below the lookup key. -/
theorem get_of_inMemTable {m : MemTable} (h : m.WF) {k : Bytes} (hk : k ∈ m.pairs.map Prod.fst)
    (hin : InMemTable k m.entries) : m.get k = m.pairs.lookup k := by
  obtain ⟨e, ys, hes, hek, hlook⟩ := exists_before hk
  have hle := (h.stored e (by rw [hes]; simp)).le_of_le hek.ge
  have hnone : (before k m.entries).find? (fun e => !decide (e.1 < makeLookupKey k)) = none := by
    rw [List.find?_eq_none]
    intro x hx
    simpa using hin x hx
  rw [get_eq, hes, List.find?_append, hnone, Option.none_or, List.find?_cons_of_pos (by simpa using hle),
    Option.bind_some, if_pos hek, pairs, hlook]

/-- **Otherwise it finds nothing.** -/
theorem get_of_not_inMemTable {m : MemTable} {k : Bytes} (hin : ¬InMemTable k m.entries) :
    m.get k = none := by
  rw [InMemTable] at hin
  push Not at hin
  obtain ⟨f, hf, hfk⟩ := hin
  have hmem : ∃ g ∈ before k m.entries, (before k m.entries).find?
      (fun e => !decide (e.1 < makeLookupKey k)) = some g := by
    cases hg : (before k m.entries).find? fun e => !decide (e.1 < makeLookupKey k) with
    | none =>
      rw [List.find?_eq_none] at hg
      exact absurd (hg f hf) (by simpa using hfk)
    | some g => exact ⟨g, List.mem_of_find?_eq_some hg, rfl⟩
  obtain ⟨g, hg, hfind⟩ := hmem
  have hes : m.entries = before k m.entries ++ m.entries.dropWhile fun e => extractUserKey e.1 ≠ k :=
    List.takeWhile_append_dropWhile.symm
  rw [get_eq, hes, List.find?_append, hfind, Option.some_or, Option.bind_some,
    if_neg (ne_of_mem_before hg)]

/-- **`Get` finds the first entry of a key**, when the user keys stay apart. -/
theorem get_eq_lookup {m : MemTable} (h : m.WF) (ha : AllApart m.pairs) (k : Bytes) :
    m.get k = m.pairs.lookup k := by
  by_cases hk : k ∈ m.pairs.map Prod.fst
  · refine get_of_inMemTable h hk fun e he => ?_
    obtain ⟨f, ys, hes, hfk, -⟩ := exists_before hk
    have hem : e ∈ m.entries := by rw [hes]; exact List.mem_append_left _ he
    have hfm : f ∈ m.entries := by rw [hes]; simp
    have hsorted := userPairs_sorted h.stored h.sorted ha
    rw [userPairs, List.pairwise_map, hes, List.pairwise_append] at hsorted
    have hle := hsorted.2.2 e he f List.mem_cons_self
    exact (h.stored e hem).lt_lookup ha hem hfm hfk (lt_of_le_of_ne (hfk ▸ hle) (ne_of_mem_before he))
  · rw [get_of_not_mem hk, lookup_eq_none hk]

/-- **An insertion changes what is found for its key**, the keys seen through `f`, when it comes
in front of all nodes that look the same, and nothing else. -/
theorem lookup_insertChain (f : Bytes → Bytes) {key value : Bytes} {height : ℕ} {nodes : List Node}
    (hfirst : ∀ n ∈ nodes, f n.key = f key → key ≤ n.key) (k : Bytes) :
    ((SkipList.insertChain key value height nodes).map fun n => (f n.key, n.value)).lookup k =
      if k = f key then some value else (nodes.map fun n => (f n.key, n.value)).lookup k := by
  have hcons : ∀ (n : Node) (ns : List Node), ((n :: ns).map fun n => (f n.key, n.value)).lookup k =
      if k = f n.key then some n.value else (ns.map fun n => (f n.key, n.value)).lookup k := by
    intro n ns
    rw [List.map_cons, List.lookup_cons]
    by_cases hn : k = f n.key
    · simp [hn]
    · rw [if_neg hn, beq_false_of_ne hn]
  induction nodes with
  | nil => rw [SkipList.insertChain, hcons]
  | cons x xs ih =>
    have hx := hfirst x List.mem_cons_self
    rw [SkipList.insertChain]
    split
    · rename_i hlt
      -- a node in front of the new one does not look the same
      rw [Slice.compare_eq_lt] at hlt
      rw [hcons, ih fun n hn => hfirst n (List.mem_cons_of_mem _ hn), hcons]
      by_cases hk : k = f key
      · rw [if_pos hk, if_pos hk, if_neg fun heq => absurd hlt (not_lt.2 (hx (heq.symm.trans hk)))]
      · rw [if_neg hk, if_neg hk]
    · rename_i heq
      rw [Slice.compare_eq_eq] at heq
      rw [hcons, hcons, heq]
      by_cases hk : k = f key
      · rw [if_pos hk, if_pos hk]
      · rw [if_neg hk, if_neg hk, if_neg hk]
    · rw [hcons]

/-- **An entry that no version of its user key precedes** is the one found for it. -/
theorem lookup_add {m : MemTable} {u v : Bytes} {height : ℕ}
    (hfirst : ∀ e ∈ m.entries, extractUserKey e.1 = u →
      makeInternalKey u (m.lastSeq + 1) (typeOf v) ≤ e.1) (k : Bytes) :
    (m.add u v height).pairs.lookup k = if k = u then some v else m.pairs.lookup k := by
  have huk : extractUserKey (makeInternalKey u (m.lastSeq + 1) (typeOf v)) = u :=
    extractUserKey_makeInternalKey u _ _
  have hpairs : ∀ nodes : List Node,
      userPairs (chainEntries nodes) = nodes.map fun n => (extractUserKey n.key, n.value) := by
    intro nodes
    rw [userPairs, chainEntries, List.map_map]
    rfl
  have hinsert := @lookup_insertChain extractUserKey (makeInternalKey u (m.lastSeq + 1) (typeOf v)) v height
    m.table.nodes (fun n hn heq => hfirst _ (List.mem_map_of_mem hn) (heq.trans huk)) k
  rw [huk, ← hpairs, ← hpairs] at hinsert
  exact hinsert

end MemTable

end MiniLSM
