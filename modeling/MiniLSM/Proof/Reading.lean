import MiniLSM.Proof.Ordered

/-!
# `Get` as one lookup

* `DB.versions`: all entries of a database, in the order in which `Get` looks at their places.
* `Ranged.get_eq`: `Get` finds the first version of a key, when the user keys stay apart.
* `Agree`, `agree_answer`: when two answers mean the same.
-/

namespace MiniLSM

open DB

/-! ## Answers -/

/-- The answer of `Get` for the first version of a key. -/
def answer (v : Option Bytes) : Status × Option Bytes := (v.map found).getD (.notFound "", none)

/-- The value that a version stands for: none for a tombstone. -/
def present (v : Option Bytes) : Option Bytes := v.filter fun value => value ≠ []

@[simp] theorem present_none : present none = none := rfl

@[simp] theorem present_nil : present (some []) = none := rfl

theorem present_some {v : Bytes} (hv : v ≠ []) : present (some v) = some v := by
  simp [present, hv]

/-- Two answers with one status code, and with one value if it is OK. -/
def Agree (r r' : Status × Option Bytes) : Prop :=
  r.1.code = r'.1.code ∧ (r.1.isOk = true → r.2 = r'.2)

instance (r r' : Status × Option Bytes) : Decidable (Agree r r') := by unfold Agree; infer_instance

/-- An answer is OK with the value that is present, or not found. -/
theorem answer_spec (v : Option Bytes) :
    (∃ value, present v = some value ∧ answer v = (.OK, some value)) ∨
      present v = none ∧ (answer v).1.code = .notFound := by
  rcases v with _ | value
  · exact Or.inr ⟨rfl, rfl⟩
  · by_cases hv : value = []
    · subst hv; exact Or.inr ⟨rfl, rfl⟩
    · exact Or.inl ⟨value, present_some hv, by simp [answer, found, hv]⟩

/-- **Answers agree if and only if the same value is present.** -/
theorem agree_answer {u v : Option Bytes} : Agree (answer u) (answer v) ↔ present u = present v := by
  rcases answer_spec u with ⟨a, hu, hau⟩ | ⟨hu, hau⟩ <;>
    rcases answer_spec v with ⟨b, hv, hbv⟩ | ⟨hv, hbv⟩
  · rw [hu, hv, hau, hbv]
    simp [Agree, Status.isOk, Status.OK]
  · rw [hu, hv, hau]
    simp [Agree, Status.OK, hbv]
  · rw [hu, hv, hbv]
    simp [Agree, Status.OK, hau]
  · rw [hu, hv]
    simp [Agree, Status.isOk, hau, hbv]

/-! ## Versions -/

/-- The entries of the memtables, the newer ones first. -/
def DB.memVersions (db : DB) : List (Bytes × Bytes) :=
  db.mem.pairs ++ (db.imm.map MemTable.pairs).getD []

/-- All entries, in the order in which `Get` looks at their places. -/
def DB.versions (db : DB) : List (Bytes × Bytes) :=
  db.memVersions ++ (allPairs db.levels.l0.reverse ++ allPairs db.levels.l1)

theorem getLevel_nil (k : Bytes) : getLevel k [] = .ok none := rfl

namespace World

variable {w : World}

/-- Parts of the versions. -/
theorem versions_parts {db : DB} (ha : AllApart db.versions) : AllApart db.mem.pairs ∧
    (∀ m ∈ db.imm, AllApart m.pairs) ∧ AllApart (allPairs (db.levels.l0 ++ db.levels.l1)) := by
  refine ⟨ha.of_subset fun p hp => ?_, fun m hm => ha.of_subset fun p hp => ?_,
    ha.of_subset fun p hp => ?_⟩
  · exact List.mem_append_left _ (List.mem_append_left _ hp)
  · refine List.mem_append_left _ (List.mem_append_right _ ?_)
    rw [Option.mem_def.1 hm]
    exact hp
  · rw [allPairs_append, List.mem_append] at hp
    refine List.mem_append_right _ (List.mem_append.2 (hp.imp_left fun hp => ?_))
    exact allPairs_subset (fun t ht => List.mem_reverse.2 ht) hp

/-- **`Get` answers with the first version of a key**, when the user keys stay apart. -/
theorem Ranged.get_eq (h : w.Ranged) (hfiles : w.Files) (ha : AllApart w.db.versions) (k : Bytes) :
    w.db.get k = .ok (answer (w.db.versions.lookup k)) := by
  obtain ⟨hamem, haimm, hatables⟩ := versions_parts ha
  have hmem := MemTable.get_eq_lookup h.mem hamem k
  have himm : w.db.imm.bind (·.get k) = ((w.db.imm.map MemTable.pairs).getD []).lookup k := by
    cases hi : w.db.imm with
    | none => rfl
    | some m => exact MemTable.get_eq_lookup (h.imm m hi) (haimm m hi) k
  have hl0 := @getTables_eq w.db.levels.l0.reverse (fun t ht =>
    tables_sorted h.l0 h.l1 hatables t (List.mem_append_left _ (List.mem_reverse.1 ht))) k
  have hl1 := h.l1.getLevel_eq k
  rw [DB.get, hmem, himm, DB.versions, DB.memVersions, lookup_append, lookup_append, lookup_append]
  cases w.db.mem.pairs.lookup k with
  | some v => rfl
  | none =>
    simp only [Option.none_or]
    cases ((w.db.imm.map MemTable.pairs).getD []).lookup k with
    | some v => rfl
    | none =>
      simp only [hl0, bind, Except.bind, Option.none_or]
      cases (allPairs w.db.levels.l0.reverse).lookup k with
      | some v => rfl
      | none =>
        simp only [hfiles.deeper, getLevels, hl1, getLevel_nil, bind, Except.bind, Option.none_or,
          Option.map_none]
        cases (allPairs w.db.levels.l1).lookup k <;> rfl

end World

end MiniLSM
