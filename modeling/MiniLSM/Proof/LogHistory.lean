import MiniLSM.Lib.Transition
import MiniLSM.Proof.Recover

/-!
# The history of a log file

The writer appends, and `Recover` stops at the first record that it cannot read. So a record
that a failure or a crash has torn hides whatever is written behind it.

* `AtEnd f e`: the event `e` puts no byte behind a torn record.
* `Layout.step`: such events keep the file in the shape of whole records with at most one torn
  record behind them.
* `recoverFile_history`: then `Recover` delivers just the records that were acknowledged and
  not cut, after any number of failures, crashes and openings.
* `recoverFile_misses`: one byte left by a failed call hides an acknowledged record.
-/

namespace MiniLSM

open Transition WALWriter WALReader

instance (r : Record) : Decidable r.Sized :=
  decidable_of_iff (r.key.length < 2 ^ 32 ∧ r.value.length < 2 ^ 32)
    ⟨fun h => ⟨h.1, h.2⟩, fun h => ⟨h.key, h.value⟩⟩

namespace LogFile

/-- The file holds no part of a record. -/
def Clean (f : LogFile) : Prop := ∀ a ∈ f, a.kept = true

/-- An event that puts no byte behind a torn record, and acknowledges no record that is too
long to read. -/
def AtEnd (f : LogFile) : LogEvent → Prop
  | .addRecord r none => r.Short ∧ f.Clean
  | .addRecord r (some n) => 0 < n → r.Sized ∧ f.Clean
  | _ => True

instance (f : LogFile) : Decidable f.Clean := List.decidableBAll _ _

instance (f : LogFile) (e : LogEvent) : Decidable (f.AtEnd e) := by
  unfold AtEnd
  split <;> infer_instance

/-- Whole records. -/
def whole (rs : List Record) : LogFile := rs.map fun r => ⟨r, addRecord r, true⟩

/-- Whole records, and behind them the part `p` of another, which may be empty. -/
structure Layout (f : LogFile) (rs : List Record) (r : Record) (p : Bytes) : Prop where
  eq : f = whole rs ++ torn r p
  short : ∀ r ∈ rs, r.Short
  sized : r.Sized
  part : ∃ q ≠ [], addRecord r = p ++ q

theorem torn_nil (r : Record) : torn r [] = [] := if_pos rfl

theorem torn_eq {r : Record} {p : Bytes} (h : p ≠ []) : torn r p = [⟨r, p, false⟩] := if_neg h

theorem file_torn (r : Record) (p : Bytes) : file (torn r p) = p := by
  by_cases h : p = []
  · rw [h, torn_nil]; rfl
  · rw [torn_eq h, file]; simp

theorem kept_torn (r : Record) (p : Bytes) : kept (torn r p) = [] := by
  by_cases h : p = []
  · rw [h, torn_nil]; rfl
  · rw [torn_eq h]; rfl

theorem file_append (f g : LogFile) : file (f ++ g) = file f ++ file g := by simp [file]

theorem kept_append (f g : LogFile) : kept (f ++ g) = kept f ++ kept g := by simp [kept]

theorem file_whole (rs : List Record) : file (whole rs) = logBytes rs := by
  simp [file, whole, logBytes, Function.comp_def]

theorem kept_whole (rs : List Record) : kept (whole rs) = rs := by
  induction rs with
  | nil => rfl
  | cons r rs ih => simpa [kept, whole] using ih

section layout

variable {f : LogFile} {rs : List Record} {r : Record} {p : Bytes}

/-- `Recover` on whole records with a torn one behind them. -/
theorem Layout.recoverFile (h : f.Layout rs r p) :
    recoverFile (some f.file) = (.OK, f.kept) := by
  obtain ⟨q, hq, hpq⟩ := h.part
  rw [h.eq, file_append, kept_append, file_whole, kept_whole, file_torn, kept_torn,
    WALReader.recoverFile, recover_append h.short (stops_of_part h.sized hpq hq), List.append_nil]

/-- No part of a record is in a clean file. -/
theorem Layout.part_eq_nil (h : f.Layout rs r p) (hclean : f.Clean) : p = [] := by
  by_contra hp
  have := hclean ⟨r, p, false⟩ (by rw [h.eq, torn_eq hp]; simp)
  cases this

theorem Layout.clean (h : f.Layout rs r p) (hclean : f.Clean) : f = whole rs := by
  rw [h.eq, h.part_eq_nil hclean, torn_nil, List.append_nil]

theorem part_take {q : Bytes} {n : ℕ} (hq : q ≠ []) (hpq : addRecord r = p ++ q) :
    ∃ q' ≠ [], addRecord r = p.take n ++ q' := by
  refine ⟨p.drop n ++ q, ?_, ?_⟩
  · intro h; exact hq (List.append_eq_nil_iff.1 h).2
  · rw [← List.append_assoc, List.take_append_drop, hpq]

theorem part_of_lt {n : ℕ} (hn : n < (addRecord r).length) :
    ∃ q ≠ [], addRecord r = (addRecord r).take n ++ q := by
  refine ⟨(addRecord r).drop n, ?_, (List.take_append_drop n _).symm⟩
  intro h
  rw [List.drop_eq_nil_iff] at h
  omega

/-- Whole records only, with the empty part of any record behind them. -/
theorem layout_whole (hshort : ∀ r ∈ rs, r.Short) : (whole rs).Layout rs ⟨0, [], []⟩ [] where
  eq := by rw [torn_nil, List.append_nil]
  short := hshort
  sized := ⟨by decide, by decide⟩
  part := ⟨_, addRecord_ne_nil _, rfl⟩

/-- **One event** that puts nothing behind a torn record keeps the shape of the file. -/
theorem Layout.step {f' : LogFile} {e : LogEvent} (h : f.Layout rs r p) (hok : f.AtEnd e)
    (hs : f.step e = some f') : ∃ rs' r' p', f'.Layout rs' r' p' := by
  cases e with
  | addRecord r₁ fails =>
    cases fails with
    | none =>
      obtain ⟨hshort, hclean⟩ := hok
      obtain rfl := Option.some.inj hs
      rw [h.clean hclean]
      have hall : ∀ r ∈ rs ++ [r₁], r.Short := by
        intro r hr
        rcases List.mem_append.1 hr with hr | hr
        · exact h.short r hr
        · rw [List.mem_singleton.1 hr]; exact hshort
      have := layout_whole hall
      rw [whole, List.map_append] at this
      exact ⟨_, _, _, this⟩
    | some n =>
      rw [LogFile.step] at hs
      split at hs
      · rename_i hn
        obtain rfl := Option.some.inj hs
        rcases Nat.eq_zero_or_pos n with rfl | hpos
        · -- nothing of the record was written
          rw [List.take_zero, torn_nil, List.append_nil]
          exact ⟨rs, r, p, h⟩
        · obtain ⟨hsized, hclean⟩ := hok hpos
          exact ⟨rs, r₁, _, by rw [h.clean hclean], h.short, hsized, part_of_lt hn⟩
      · cases hs
  | crash n =>
    rw [LogFile.step] at hs
    split at hs
    case h_2 => cases hs
    case h_1 a ha =>
      split at hs
      case isFalse => cases hs
      case isTrue hn =>
        obtain rfl := Option.some.inj hs
        by_cases hp : p = []
        · -- the last record is whole
          rw [h.eq, hp, torn_nil, List.append_nil] at ha ⊢
          obtain ⟨rs₀, r₀, rfl⟩ : ∃ rs₀ r₀, rs = rs₀ ++ [r₀] := by
            rcases List.eq_nil_or_concat rs with rfl | ⟨rs₀, r₀, hrs⟩
            · cases ha
            · exact ⟨rs₀, r₀, by simpa using hrs⟩
          rw [whole, List.map_append] at ha ⊢
          simp only [List.map_cons, List.map_nil, List.getLast?_append, List.getLast?_singleton,
            Option.some_or, Option.some.injEq] at ha
          subst ha
          refine ⟨rs₀, r₀, (addRecord r₀).take n, ?_, fun r hr => h.short r (by simp [hr]),
            (h.short r₀ (by simp)).sized, part_of_lt hn⟩
          simp [whole]
        · -- the last record is torn already
          rw [h.eq, torn_eq hp] at ha ⊢
          simp only [List.getLast?_append, List.getLast?_singleton, Option.some_or,
            Option.some.injEq] at ha
          subst ha
          obtain ⟨q, hq, hpq⟩ := h.part
          refine ⟨rs, r, p.take n, ?_, h.short, h.sized, part_take hq hpq⟩
          simp
  | reopen =>
    obtain rfl := Option.some.inj hs
    exact ⟨rs, r, p, h⟩

end layout

/-- **`Recover` after any history**: as long as no byte is written behind a torn record, it
delivers, in order, just the records that were acknowledged and not cut by a crash. -/
theorem recoverFile_history {f : LogFile} (h : Reach LogFile.step AtEnd [] f) :
    recoverFile (some f.file) = (.OK, f.kept) := by
  have hinv : ∃ rs r p, f.Layout rs r p := by
    apply Reach.invariant (I := fun f : LogFile => ∃ rs r p, f.Layout rs r p) _ _ h
    · have hnil : ∀ r ∈ ([] : List Record), r.Short := by simp
      exact ⟨_, _, _, layout_whole hnil⟩
    · rintro f e f' ⟨rs, r, p, hf⟩ hok hs
      exact hf.step hok hs
  obtain ⟨rs, r, p, hf⟩ := hinv
  exact hf.recoverFile

/-- Two records, the second of them cut by a crash, and the file opened again. -/
theorem recoverFile_history_crash : ∃ f : LogFile, f.kept = [⟨1, [107], [118]⟩] ∧
    f.file.length = 14 ∧ recoverFile (some f.file) = (.OK, f.kept) := by
  have hrun : (run LogFile.step AtEnd [] [.addRecord ⟨1, [107], [118]⟩ none,
      .addRecord ⟨2, [107], []⟩ none, .crash 5, .reopen]).map (fun f => (f.kept, f.file.length)) =
      some ([⟨1, [107], [118]⟩], 14) := by decide +kernel
  obtain ⟨f, hf, heq⟩ := Option.map_eq_some_iff.1 hrun
  obtain ⟨hkept, hlen⟩ := Prod.ext_iff.1 heq
  exact ⟨f, hkept, hlen, recoverFile_history (reach_of_run hf)⟩

/-- **A torn record hides what is behind it**: after a call that fails with one byte written,
the next call returns OK, and `Recover` does not deliver its record. -/
theorem recoverFile_misses : ∃ f : LogFile, Reach LogFile.step (fun _ _ => True) [] f ∧
    f.kept = [⟨2, [107], [118]⟩] ∧ recoverFile (some f.file) = (.OK, []) := by
  have hrun : (run LogFile.step (fun _ _ => True) [] [.addRecord ⟨1, [97], [98]⟩ (some 1), .reopen,
      .addRecord ⟨2, [107], [118]⟩ none]).map (fun f => (f.kept, recoverFile (some f.file))) =
      some ([⟨2, [107], [118]⟩], (.OK, [])) := by decide +kernel
  obtain ⟨f, hf, heq⟩ := Option.map_eq_some_iff.1 hrun
  obtain ⟨hkept, hrec⟩ := Prod.ext_iff.1 heq
  exact ⟨f, reach_of_run hf, hkept, hrec⟩

end LogFile

end MiniLSM
