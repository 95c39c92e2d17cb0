import MiniLSM.Proof.MemTable
import MiniLSM.Proof.Output

/-!
# The tables of a level

* `getTables_eq`: looking through tables in order finds what a lookup in their entries does,
  when the user keys of each table are sorted and stay apart.
* `Level`: tables in order of their user keys, no two of which overlap.
* `Level.getLevel_eq`: on such a level the binary search of `Get` finds the same.
* `level_sortLevel`: sorting tables that do not overlap gives such a level.
-/

namespace MiniLSM

open DB

/-! ## One table -/

/-- What an answer means for `Get`. -/
theorem Answers.tableResult {r : Status × Option Bytes} {v : Option Bytes} (h : Answers r v) :
    tableResult r = v.map DB.found := by
  cases v with
  | none =>
    have hcode := h.missing rfl
    simp [DB.tableResult, Status.isOk, Status.isNotFound, hcode]
  | some v =>
    have hok := h.found (by simp)
    rw [DB.tableResult, hok, if_pos (by rfl), h.value]
    rfl

/-- A table that can be read, with sorted user keys that stay apart. -/
structure SSTable.Sorted (t : SSTable) : Prop where
  sound : t.Sound
  sorted : t.pairs.Pairwise fun p q => p.1 ≤ q.1
  apart : AllApart t.pairs

theorem SSTable.Sorted.get_eq {t : SSTable} (h : t.Sorted) (k : Bytes) :
    ∃ r, t.get k = .ok r ∧ tableResult r = (t.pairs.lookup k).map found := by
  obtain ⟨blocks, hholds⟩ := h.sound
  obtain ⟨r, hr, hans⟩ := hholds.get_eq_lookup h.sorted h.apart k
  exact ⟨r, hr, hans.tableResult⟩

/-- The entries of some tables, in their order. -/
def allPairs (ts : List SSTable) : List (Bytes × Bytes) := ts.flatMap SSTable.pairs

theorem allPairs_cons (t : SSTable) (ts : List SSTable) : allPairs (t :: ts) = t.pairs ++ allPairs ts :=
  List.flatMap_cons

theorem allPairs_append (ts us : List SSTable) : allPairs (ts ++ us) = allPairs ts ++ allPairs us :=
  List.flatMap_append

theorem mem_allPairs {ts : List SSTable} {p : Bytes × Bytes} :
    p ∈ allPairs ts ↔ ∃ t ∈ ts, p ∈ t.pairs := List.mem_flatMap

theorem lookup_append (ps qs : List (Bytes × Bytes)) (k : Bytes) :
    (ps ++ qs).lookup k = (ps.lookup k).or (qs.lookup k) := List.lookup_append

/-- **Looking through tables in order** is a lookup in their entries. -/
theorem getTables_eq {ts : List SSTable} (h : ∀ t ∈ ts, t.Sorted) (k : Bytes) :
    getTables k ts = .ok (((allPairs ts).lookup k).map found) := by
  induction ts with
  | nil => rfl
  | cons t ts ih =>
    obtain ⟨r, hr, hres⟩ := (h t List.mem_cons_self).get_eq k
    have hts := ih fun s hs => h s (List.mem_cons_of_mem _ hs)
    rw [allPairs_cons, lookup_append]
    simp only [getTables, hr, bind, Except.bind, hres, hts]
    cases t.pairs.lookup k with
    | none => simp
    | some v => rfl

/-! ## First and last keys -/

theorem SSTable.Built.firstKey_eq {t : SSTable} (h : t.Built) :
    t.firstKey = (t.contents.head?.map Prod.fst).getD [] := by
  obtain ⟨blocks, hlaid⟩ := h
  rw [hlaid.contents_eq, ← hlaid.entries, hlaid.table]
  rfl

theorem SSTable.Built.lastKey_eq {t : SSTable} (h : t.Built) :
    t.lastKey = (t.contents.getLast?.map Prod.fst).getD [] := by
  obtain ⟨blocks, hlaid⟩ := h
  rw [hlaid.contents_eq, ← hlaid.entries, hlaid.table]
  rfl

theorem SSTable.Sound.stored {t : SSTable} (h : t.Sound) : ∀ e ∈ t.contents, Stored e := by
  obtain ⟨blocks, hholds⟩ := h
  rw [hholds.contents_eq]
  exact fun e he => stored_tableEntries he

/-- The bounds of a table's keys, as entries of it. -/
theorem SSTable.Sorted.bounds {t : SSTable} (h : t.Sorted) (hne : t.pairs ≠ []) :
    ∃ f ∈ t.contents, ∃ l ∈ t.contents, t.firstKey = f.1 ∧ t.lastKey = l.1 ∧
      ∀ p ∈ t.pairs, extractUserKey f.1 ≤ p.1 ∧ p.1 ≤ extractUserKey l.1 := by
  have hcne : t.contents ≠ [] := fun hnil => hne (by rw [SSTable.pairs, hnil]; rfl)
  have hsorted := h.sorted
  rw [SSTable.pairs, userPairs, List.pairwise_map] at hsorted
  refine ⟨t.contents.head hcne, List.head_mem hcne, t.contents.getLast hcne, List.getLast_mem hcne, ?_,
    ?_, fun p hp => ?_⟩
  · rw [h.sound.built.firstKey_eq, List.head?_eq_some_head hcne]; rfl
  · rw [h.sound.built.lastKey_eq, List.getLast?_eq_some_getLast hcne]; rfl
  · obtain ⟨e, he, rfl⟩ := List.mem_map.1 hp
    constructor
    · rw [← List.cons_head_tail hcne, List.pairwise_cons] at hsorted
      rw [← List.cons_head_tail hcne, List.mem_cons] at he
      rcases he with rfl | he
      · exact le_refl _
      · exact hsorted.1 e he
    · rw [← List.dropLast_append_getLast hcne, List.pairwise_append] at hsorted
      rw [← List.dropLast_append_getLast hcne, List.mem_append, List.mem_singleton] at he
      rcases he with he | rfl
      · exact hsorted.2.2 e he _ (List.mem_singleton_self _)
      · exact le_refl _

/-! ## Levels -/

/-- All user keys of `a` are below those of `b`. -/
def Below (a b : SSTable) : Prop := ∀ p ∈ a.pairs, ∀ q ∈ b.pairs, p.1 < q.1

/-- Tables with entries, in order of their user keys. -/
structure Level (ts : List SSTable) : Prop where
  sound : ∀ t ∈ ts, t.Sound
  short : ∀ t ∈ ts, Short t.pairs
  nonempty : ∀ t ∈ ts, t.pairs ≠ []
  sorted : ∀ t ∈ ts, t.pairs.Pairwise fun p q => p.1 ≤ q.1
  apart : AllApart (allPairs ts)
  below : ts.Pairwise Below

theorem AllApart.of_subset {ps qs : List (Bytes × Bytes)} (h : AllApart qs) (hsub : ps ⊆ qs) :
    AllApart ps := fun p hp q hq => h p (hsub hp) q (hsub hq)

theorem pairs_subset_allPairs {t : SSTable} {ts : List SSTable} (ht : t ∈ ts) : t.pairs ⊆ allPairs ts :=
  fun _ hp => mem_allPairs.2 ⟨t, ht, hp⟩

theorem allPairs_subset {ts us : List SSTable} (h : ts ⊆ us) : allPairs ts ⊆ allPairs us := by
  intro p hp
  obtain ⟨t, ht, hpt⟩ := mem_allPairs.1 hp
  exact mem_allPairs.2 ⟨t, h ht, hpt⟩

theorem Level.table {ts : List SSTable} (h : Level ts) {t : SSTable} (ht : t ∈ ts) : t.Sorted :=
  ⟨h.sound t ht, h.sorted t ht, h.apart.of_subset (pairs_subset_allPairs ht)⟩

theorem Level.nil : Level [] where
  sound := by simp
  short := by simp
  nonempty := by simp
  sorted := by simp
  apart := by simp [AllApart, allPairs]
  below := List.Pairwise.nil

/-- On which side of a table with entries `k` lies. -/
theorem levelSide_eq {ts : List SSTable} {i : ℕ} {t : SSTable} (hi : ts[i]? = some t) (k : Bytes) :
    (levelSide k ts i = .lt ↔ k < extractUserKey t.firstKey) ∧
      (levelSide k ts i = .gt ↔ extractUserKey t.firstKey ≤ k ∧ extractUserKey t.lastKey < k) := by
  rw [levelSide, hi]
  simp only [Slice.compare_eq_lt, Slice.compare_eq_gt]
  by_cases hlt : k < extractUserKey t.firstKey
  · simp [hlt]
  · rw [if_neg hlt]
    by_cases hgt : extractUserKey t.lastKey < k
    · simp [hlt, hgt, not_lt.1 hlt]
    · simp [hlt, hgt]

/-- The user keys of a table of a level lie between those of its first and its last key. -/
theorem Level.between {ts : List SSTable} (h : Level ts) {t : SSTable} (ht : t ∈ ts) :
    (∃ p ∈ t.pairs, extractUserKey t.firstKey = p.1) ∧ (∃ q ∈ t.pairs, extractUserKey t.lastKey = q.1) ∧
      ∀ p ∈ t.pairs, extractUserKey t.firstKey ≤ p.1 ∧ p.1 ≤ extractUserKey t.lastKey := by
  obtain ⟨f, hf, l, hl, hfk, hlk, hb⟩ := (h.table ht).bounds (h.nonempty t ht)
  rw [hfk, hlk]
  exact ⟨⟨_, List.mem_map_of_mem hf, rfl⟩, ⟨_, List.mem_map_of_mem hl, rfl⟩, hb⟩

/-- The tables of a level are below each other in their order. -/
theorem Level.below_of_lt {ts : List SSTable} (h : Level ts) {i j : ℕ} {a b : SSTable}
    (hi : ts[i]? = some a) (hj : ts[j]? = some b) (hij : i < j) : Below a b := by
  obtain ⟨hil, rfl⟩ := List.getElem?_eq_some_iff.1 hi
  obtain ⟨hjl, rfl⟩ := List.getElem?_eq_some_iff.1 hj
  exact List.pairwise_iff_getElem.1 h.below i j hil hjl hij

/-- The search goes left at a table only if it does at the next ones, and right only if it does
at the ones before. -/
theorem Level.side_mono {ts : List SSTable} (h : Level ts) {k : Bytes} {i j : ℕ} (hij : i ≤ j)
    (hj : j < ts.length) : (levelSide k ts i = .lt → levelSide k ts j = .lt) ∧
      (levelSide k ts j = .gt → levelSide k ts i = .gt) := by
  rcases hij.eq_or_lt with rfl | hlt
  · exact ⟨id, id⟩
  have hia := List.getElem?_eq_getElem (hlt.trans hj)
  have hjb := List.getElem?_eq_getElem hj
  have hbelow := h.below_of_lt hia hjb hlt
  obtain ⟨⟨p, hp, hpk⟩, ⟨p', hp', hpk'⟩, -⟩ := h.between (List.mem_of_getElem? hia)
  obtain ⟨⟨q, hq, hqk⟩, -, -⟩ := h.between (List.mem_of_getElem? hjb)
  rw [(levelSide_eq hia k).1, (levelSide_eq hjb k).1, (levelSide_eq hia k).2, (levelSide_eq hjb k).2,
    hpk, hpk', hqk]
  exact ⟨fun hlt => hlt.trans (hbelow p hp q hq), fun ⟨hle, _⟩ =>
    ⟨(hbelow p hp q hq).le.trans hle, (hbelow p' hp' q hq).trans_le hle⟩⟩

/-- A key that no other table has is looked up in the one table. -/
theorem lookup_of_split {us vs : List SSTable} {t : SSTable} {k : Bytes}
    (h : ∀ s, s ∈ us ∨ s ∈ vs → ∀ q ∈ s.pairs, q.1 ≠ k) :
    (allPairs (us ++ t :: vs)).lookup k = t.pairs.lookup k := by
  have hnot : ∀ ts : List SSTable, (∀ s ∈ ts, s ∈ us ∨ s ∈ vs) → k ∉ (allPairs ts).map Prod.fst := by
    intro ts hts hk
    obtain ⟨q, hq, heq⟩ := List.mem_map.1 hk
    obtain ⟨s, hs, hqs⟩ := mem_allPairs.1 hq
    exact h s (hts s hs) q hqs heq
  rw [allPairs_append, allPairs_cons, lookup_append, lookup_append,
    lookup_eq_none (hnot us fun _ => Or.inl), lookup_eq_none (hnot vs fun _ => Or.inr),
    Option.none_or, Option.or_none]

/-- A key between the first and the last of a table is in no other table. -/
theorem Level.lookup_of_between {ts : List SSTable} (h : Level ts) {t : SSTable} {k : Bytes}
    (ht : t ∈ ts) (hlo : extractUserKey t.firstKey ≤ k) (hhi : k ≤ extractUserKey t.lastKey) :
    (allPairs ts).lookup k = t.pairs.lookup k := by
  obtain ⟨us, vs, rfl⟩ := List.append_of_mem ht
  have hbelow := h.below
  rw [List.pairwise_append, List.pairwise_cons] at hbelow
  obtain ⟨⟨p, hp, hpk⟩, ⟨q, hq, hqk⟩, -⟩ := h.between ht
  refine lookup_of_split ?_
  rintro s (hs | hs) x hx rfl
  · exact absurd (hbelow.2.2 s hs t List.mem_cons_self x hx p hp) (not_lt.2 (hpk ▸ hlo))
  · exact absurd (hbelow.2.1.1 s hs q hq x hx) (not_lt.2 (hqk ▸ hhi))

/-- **The binary search of a level finds what a lookup in all its entries does.** -/
theorem Level.getLevel_eq {ts : List SSTable} (h : Level ts) (k : Bytes) :
    getLevel k ts = .ok (((allPairs ts).lookup k).map found) := by
  rw [getLevel]
  cases hs : Search.bisect (levelSide k ts) ts.length 0 ts.length with
  | none =>
    have hnot : ∀ i, i < ts.length → levelSide k ts i ≠ .eq := fun i hi =>
      Search.bisect_eq_none (le_of_eq (Nat.sub_zero _)) (fun i j hij hj => (h.side_mono hij hj).1)
        (fun i j hij hj => (h.side_mono hij hj).2) hs (Nat.zero_le i) hi
    have hk : k ∉ (allPairs ts).map Prod.fst := by
      intro hk
      obtain ⟨p, hp, rfl⟩ := List.mem_map.1 hk
      obtain ⟨t, ht, hpt⟩ := mem_allPairs.1 hp
      obtain ⟨i, hi⟩ := List.getElem?_of_mem ht
      obtain ⟨hlt, -⟩ := List.getElem?_eq_some_iff.1 hi
      obtain ⟨hlo, hhi⟩ := (h.between ht).2.2 p hpt
      refine hnot i hlt ?_
      cases hside : levelSide p.1 ts i with
      | eq => rfl
      | lt => exact absurd ((levelSide_eq hi p.1).1.1 hside) (not_lt.2 hlo)
      | gt => exact absurd ((levelSide_eq hi p.1).2.1 hside).2 (not_lt.2 hhi)
    rw [lookup_eq_none hk]
    rfl
  | some m =>
    obtain ⟨-, hm, hside⟩ := Search.bisect_eq_some hs
    have hmt := List.getElem?_eq_getElem hm
    obtain ⟨r, hr, hres⟩ := (h.table (List.getElem_mem hm)).get_eq k
    obtain ⟨hlt, hgt⟩ := levelSide_eq hmt k
    have hlo : extractUserKey ts[m].firstKey ≤ k := by
      by_contra hlo
      rw [hlt.2 (not_le.1 hlo)] at hside
      cases hside
    have hhi : k ≤ extractUserKey ts[m].lastKey := by
      by_contra hhi
      rw [hgt.2 ⟨hlo, not_le.1 hhi⟩] at hside
      cases hside
    simp only [hmt, Checked.ofOption_some, bind, Except.bind, hr,
      h.lookup_of_between (List.getElem_mem hm) hlo hhi, hres]
    rfl

/-- **The search of a level and a scan of its tables agree.** -/
theorem Level.getLevel_eq_getTables {ts : List SSTable} (h : Level ts) (k : Bytes) :
    getLevel k ts = getTables k ts := by
  rw [h.getLevel_eq, getTables_eq fun t ht => h.table ht]

/-! ## Sorting a level -/

theorem sortLevel_perm (ts : List SSTable) : (sortLevel ts).Perm ts := List.perm_insertionSort _ _

theorem sortLevel_sorted (ts : List SSTable) :
    (sortLevel ts).Pairwise fun a b => a.firstKey ≤ b.firstKey := by
  have htotal : Std.Total fun a b : SSTable => Slice.compare b.firstKey a.firstKey ≠ .lt :=
    ⟨fun a b => by
      simp only [ne_eq, Slice.compare_eq_lt, not_lt]
      exact le_total _ _⟩
  have htrans : IsTrans SSTable fun a b => Slice.compare b.firstKey a.firstKey ≠ .lt :=
    ⟨fun a b c => by
      simp only [ne_eq, Slice.compare_eq_lt, not_lt]
      exact le_trans⟩
  refine (List.pairwise_insertionSort _ ts).imp fun {a b} hab => ?_
  simpa only [ne_eq, Slice.compare_eq_lt, not_lt] using hab

/-- The internal keys of a smaller user key are smaller, between keys that stay apart. -/
theorem stored_lt {es : List (Bytes × Bytes)} {e f : Bytes × Bytes} (hs : ∀ e ∈ es, Stored e)
    (ha : AllApart (userPairs es)) (he : e ∈ es) (hf : f ∈ es)
    (hlt : extractUserKey e.1 < extractUserKey f.1) : e.1 < f.1 := by
  obtain ⟨u, s, hu⟩ := hs f hf
  have h := (hs e he).lt_of_apart hlt
    (ha _ (List.mem_map_of_mem he) _ (List.mem_map_of_mem hf)) (trailer s (typeOf f.2))
  rwa [hu, extractUserKey_makeInternalKey, ← makeInternalKey_eq, ← hu] at h

/-- Internal keys in order have user keys in order, between keys that stay apart. -/
theorem userKey_le {es : List (Bytes × Bytes)} {e f : Bytes × Bytes} (hs : ∀ e ∈ es, Stored e)
    (ha : AllApart (userPairs es)) (he : e ∈ es) (hf : f ∈ es) (hle : e.1 ≤ f.1) :
    extractUserKey e.1 ≤ extractUserKey f.1 := by
  by_contra hgt
  exact absurd hle (not_le.2 (stored_lt hs ha hf he (not_le.1 hgt)))

/-- The entries of some tables. -/
def allContents (ts : List SSTable) : List (Bytes × Bytes) := ts.flatMap SSTable.contents

theorem userPairs_allContents (ts : List SSTable) : userPairs (allContents ts) = allPairs ts := by
  rw [userPairs, allContents, List.map_flatMap]
  rfl

theorem allContents_stored {ts : List SSTable} (h : ∀ t ∈ ts, t.Sound) :
    ∀ e ∈ allContents ts, Stored e := by
  intro e he
  obtain ⟨t, ht, het⟩ := List.mem_flatMap.1 he
  exact (h t ht).stored e het

section Keys

variable {ts : List SSTable} (hts : ∀ t ∈ ts, t.Sorted) (ha : AllApart (allPairs ts))

include hts ha

/-- A table below another one has smaller first and last keys. -/
theorem Below.keys_lt {a b : SSTable} (h : Below a b) (hat : a ∈ ts) (hbt : b ∈ ts)
    (hane : a.pairs ≠ []) (hbne : b.pairs ≠ []) : a.firstKey < b.firstKey ∧ a.lastKey < b.lastKey := by
  obtain ⟨f, hf, l, hl, hfk, hlk, -⟩ := (hts a hat).bounds hane
  obtain ⟨f', hf', l', hl', hfk', hlk', -⟩ := (hts b hbt).bounds hbne
  have hlt : ∀ {e e'}, e ∈ a.contents → e' ∈ b.contents → e.1 < e'.1 := fun he he' =>
    stored_lt (allContents_stored fun t ht => (hts t ht).sound) (by rwa [userPairs_allContents])
      (List.mem_flatMap.2 ⟨a, hat, he⟩) (List.mem_flatMap.2 ⟨b, hbt, he'⟩)
      (h _ (List.mem_map_of_mem he) _ (List.mem_map_of_mem he'))
  rw [hfk, hlk, hfk', hlk']
  exact ⟨hlt hf hf', hlt hl hl'⟩

/-- A table that ends before another one starts has no greater user key than that. -/
theorem userKeys_le {a b : SSTable} (hat : a ∈ ts) (hbt : b ∈ ts) (hle : a.lastKey ≤ b.firstKey)
    {p q : Bytes × Bytes} (hp : p ∈ a.pairs) (hq : q ∈ b.pairs) : p.1 ≤ q.1 := by
  obtain ⟨_, _, l, hl, _, hlk, hpl⟩ := (hts a hat).bounds (List.ne_nil_of_mem hp)
  obtain ⟨f, hf, _, _, hfk, _, hfq⟩ := (hts b hbt).bounds (List.ne_nil_of_mem hq)
  rw [hlk, hfk] at hle
  have hlf := userKey_le (allContents_stored fun t ht => (hts t ht).sound)
    (by rwa [userPairs_allContents]) (List.mem_flatMap.2 ⟨a, hat, hl⟩)
    (List.mem_flatMap.2 ⟨b, hbt, hf⟩) hle
  exact (hpl p hp).2.trans (hlf.trans (hfq q hq).1)

end Keys

/-- Two tables of a level, one of which is below the other. -/
theorem Level.compare {ts : List SSTable} (h : Level ts) {a b : SSTable} (ha : a ∈ ts) (hb : b ∈ ts)
    (hne : a ≠ b) : Below a b ∨ Below b a := by
  obtain ⟨i, hi⟩ := List.getElem?_of_mem ha
  obtain ⟨j, hj⟩ := List.getElem?_of_mem hb
  rcases lt_trichotomy i j with hlt | rfl | hlt
  · exact Or.inl (h.below_of_lt hi hj hlt)
  · exact absurd (Option.some.inj (hi.symm.trans hj)) hne
  · exact Or.inr (h.below_of_lt hj hi hlt)

/-- **Tables that can be told apart make a level** once they are sorted. -/
theorem level_sortLevel {ts : List SSTable} (hsound : ∀ t ∈ ts, t.Sound)
    (hshort : ∀ t ∈ ts, Short t.pairs) (hne : ∀ t ∈ ts, t.pairs ≠ [])
    (hsorted : ∀ t ∈ ts, t.pairs.Pairwise fun p q => p.1 ≤ q.1) (ha : AllApart (allPairs ts))
    (hcmp : ts.Pairwise fun a b => Below a b ∨ Below b a) : Level (sortLevel ts) := by
  have hperm := sortLevel_perm ts
  have hmem : ∀ {t}, t ∈ sortLevel ts → t ∈ ts := fun ht => hperm.mem_iff.1 ht
  have hts : ∀ t ∈ ts, t.Sorted := fun t ht =>
    ⟨hsound t ht, hsorted t ht, ha.of_subset (pairs_subset_allPairs ht)⟩
  refine ⟨fun t ht => hsound t (hmem ht), fun t ht => hshort t (hmem ht), fun t ht => hne t (hmem ht),
    fun t ht => hsorted t (hmem ht), ha.of_subset (allPairs_subset fun t ht => hmem ht), ?_⟩
  have hcmp' := (hperm.pairwise_iff (fun h => Or.symm h)).2 hcmp
  refine ((sortLevel_sorted ts).and hcmp').imp_of_mem fun {a b} hat hbt ⟨hle, hab⟩ => ?_
  refine hab.resolve_right fun hba => ?_
  have hlt := (hba.keys_lt hts ha (hmem hbt) (hmem hat) (hne b (hmem hbt)) (hne a (hmem hat))).1
  exact absurd hle (not_le.2 hlt)

end MiniLSM
