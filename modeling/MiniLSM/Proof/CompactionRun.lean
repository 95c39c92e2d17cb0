import MiniLSM.Proof.RefCount
import MiniLSM.Spec.CompactionRun

/-!
# A compaction whose output fails

The statements of `BackgroundCompaction` are inverted once, in `Does`; the invariants of its
locals are proved from that, whatever other calls do in between.

* `Aimed`: where `current_builder` points at each place, and what the status is there.
* `Touched`: the outputs are the only files it has touched, and those it does not own any more are gone.
* `Balanced`: the references it has taken and not given back are the ones it holds.
* `failed_output`: all of this at the end of a compaction one of whose outputs has failed.
-/

namespace MiniLSM

open Transition RefCount

/-! ## Statuses of `Open` -/

theorem Disk.openPath_ok {disk : Disk} {number : ℕ} {opens : Bool} {t : SSTable}
    (h : disk.openPath number opens = some (.ok t)) : t.number = number := by
  simp only [openPath] at h
  split at h
  case h_1 file _ =>
    split at h
    case h_1 heq =>
      cases h
      exact (SSTable.openFile_ok heq).1
    all_goals cases h
  case h_2 => cases h

theorem Disk.openPath_error {disk : Disk} {number : ℕ} {opens : Bool} {s : Status}
    (h : disk.openPath number opens = some (.error s)) : s.isOk = false := by
  simp only [openPath] at h
  split at h
  case h_1 file _ =>
    split at h
    case h_2 heq =>
      cases h
      exact SSTable.openFile_status heq
    all_goals cases h
  case h_2 =>
    cases h
    rfl

/-- `Finish` marks the builder, whatever its status. -/
theorem BuilderObject.finish_finished (o : BuilderObject) : o.finish.2.2.builder.finished = true := by
  show o.builder.finish.2.finished = true
  have hflush : ∀ b : SSTableBuilder, b.finished = true → b.flushBlock.finished = true := by
    intro b hb
    rw [SSTableBuilder.flushBlock]
    split
    · exact hb
    simp only
    split <;> exact hb
  rw [SSTableBuilder.finish]
  split
  · assumption
  simp only
  have hb : (if 0 < o.builder.entryCountInBlock then
      SSTableBuilder.flushBlock { o.builder with finished := true }
      else { o.builder with finished := true }).finished = true := by
    split
    · exact hflush _ rfl
    · rfl
  generalize (if 0 < o.builder.entryCountInBlock then
    SSTableBuilder.flushBlock { o.builder with finished := true }
    else { o.builder with finished := true }) = b at hb
  split
  · exact hb
  split
  · exact hb
  split <;> exact hb

namespace CompactionRun

/-! ## Inversion of a statement -/

variable {c : CompactionRun} {db : DB} {disk : Disk} {e : Effect}

/-- What each statement does, one constructor for each outcome. -/
inductive Does (c : CompactionRun) (db : DB) : Effect → Prop
  | iterators : c.place = .iterators → Does c db
      { run := { c with place := .loop }, db := db, refs := c.inputs.map fun t => .ref t.number }
  | leavesLoop : c.place = .loop → (c.rest = [] ∨ c.compactionStatus.isOk = false) →
      Does c db { run := { c with place := .last }, db := db }
  | skips : c.place = .loop → c.rest ≠ [] → c.compactionStatus.isOk = true →
      Does c db { run := { c with place := .next }, db := db }
  | makesFirst : c.place = .loop → c.rest ≠ [] → c.compactionStatus.isOk = true →
      c.currentBuilder = none → Does c db { run := { c with place := .make }, db := db }
  | goesOn {o : BuilderObject} {place : CompactionPlace} : c.place = .loop → c.rest ≠ [] →
      c.compactionStatus.isOk = true → c.builder = some o → place = .finish .switch ∨ place = .add →
      Does c db { run := { c with place := place }, db := db }
  | finished {b : FinishBlock} {o : BuilderObject} : c.place = .finish b → c.builder = some o →
      o.finish.1.isOk = true → Does c db
        { run := { c.setBuilder (some o.finish.2.2) with
            compactionStatus := o.finish.1, place := .openTable b }
          db := db, files := o.finish.2.1 }
  | finishFailed {b : FinishBlock} {o : BuilderObject} : c.place = .finish b → c.builder = some o →
      o.finish.1.isOk = false → Does c db
        { run := { c.setBuilder (some o.finish.2.2) with
            compactionStatus := o.finish.1, place := .abandon b }
          db := db, files := o.finish.2.1 }
  | abandoned {b : FinishBlock} {o : BuilderObject} : c.place = .abandon b → c.builder = some o →
      Does c db { run := { c.setBuilder (some o.abandon.2) with place := .delete b false }
                  db := db, files := o.abandon.1 }
  | opened {b : FinishBlock} {t : SSTable} : c.place = .openTable b → t.number = c.currentBuilderPath →
      Does c db { run := { c with newLevel1 := c.newLevel1 ++ [t], place := .delete b false }
                  db := db, refs := [.make t.number] }
  | openFailed {b : FinishBlock} {s : Status} {place : CompactionPlace} : c.place = .openTable b →
      s.isOk = false → b = .switch ∧ place = .delete .switch true ∨ b = .last ∧ place = .unlink .last →
      Does c db { run := { c with compactionStatus := s, place := place }, db := db }
  | deleted {b : FinishBlock} {unlinks : Bool} {o : BuilderObject} : c.place = .delete b unlinks →
      c.builder = some o → Does c db
        { run := { c.setBuilder none with place := if unlinks then .unlink b else .null b }
          db := db, files := o.destroy }
  | unlinked {b : FinishBlock} {place : CompactionPlace} : c.place = .unlink b →
      b = .switch ∧ place = .null .switch ∨ b = .last ∧ place = .delete .last false →
      Does c db { run := { c with place := place }, db := db, files := [.unlinkSst c.currentBuilderPath] }
  | nulled {b : FinishBlock} {place : CompactionPlace} : c.place = .null b →
      b = .switch ∧ place = (if c.compactionStatus.isOk then .make else .next) ∨
        b = .last ∧ place = .deleteIterators →
      Does c db { run := { c with currentBuilder := none, place := place }, db := db }
  | made {opens : Bool} {faults : ℕ → Option ℕ} : c.place = .make → Does c db
      { run := { c with
          currentBuilderPath := db.nextFileNumber
          currentBuilder := some c.heap.length
          heap := c.heap ++ [some (BuilderObject.new db.nextFileNumber opens faults)]
          outputs := c.outputs ++ [db.nextFileNumber]
          place := .add }
        db := { db with nextFileNumber := db.nextFileNumber + 1 }
        files := (BuilderObject.new db.nextFileNumber opens faults).writes }
  | added {o : BuilderObject} {b : SSTableBuilder} : c.place = .add → c.builder = some o → Does c db
      { run := { c.setBuilder (some { o with builder := b }) with place := .next }
        db := db, files := ({ o with builder := b } : BuilderObject).writes }
  | advanced : c.place = .next → Does c db { run := { c with rest := c.rest.tail, place := .loop }, db := db }
  | finishesLast : c.place = .last → c.currentBuilder ≠ none → c.compactionStatus.isOk = true →
      Does c db { run := { c with place := .finish .last }, db := db }
  | hasNoLast : c.place = .last → c.currentBuilder = none ∨ c.compactionStatus.isOk = false →
      Does c db { run := { c with place := .deleteIterators }, db := db }
  | deletedIterators : c.place = .deleteIterators → Does c db
      { run := { c with place := if c.compactionStatus.isOk then .commit else .cleanUp }
        db := db, refs := c.inputs.map fun t => .unref t.number }
  | cleanedUp : c.place = .cleanUp → Does c db
      { run := { c with place := .cleanedUp }
        db := db
        files := c.newLevel1.map fun t => .unlinkSst t.number
        refs := (c.newLevel1 ++ c.inputs).map fun t => .unref t.number }
  | committed : c.place = .commit → Does c db
      { run := { c with place := .committed }
        db := (db.compactCommit c.l0Snapshot c.l1Indices c.newLevel1).1
        files := (db.compactCommit c.l0Snapshot c.l1Indices c.newLevel1).2
        refs := (db.commitUnrefs c.job).map fun t => .unref t.number }

/-- **Inversion of a statement.** -/
theorem exec_does {opens : Bool} {faults : ℕ → Option ℕ} (h : c.exec db disk opens faults = some e) :
    Does c db e := by
  cases hp : c.place with
  | iterators =>
    simp only [exec, hp, Option.some.injEq] at h
    exact h ▸ .iterators hp
  | loop =>
    simp only [exec, hp] at h
    split at h
    · rename_i hrest
      cases h
      exact .leavesLoop hp (Or.inl hrest)
    rename_i hrest
    have hne : c.rest ≠ [] := by rw [hrest]; exact List.cons_ne_nil _ _
    split at h
    · rename_i hs
      cases h
      exact .leavesLoop hp (Or.inr (by simpa using hs))
    rename_i hs
    replace hs : c.compactionStatus.isOk = true := by simpa using hs
    split at h
    · cases h
      exact .skips hp hne hs
    split at h
    · rename_i hnone
      cases h
      exact .makesFirst hp hne hs (Option.isNone_iff_eq_none.1 hnone)
    -- the output is full, or the entry is added to it
    · obtain ⟨o, ho, h⟩ := Option.bind_eq_some_iff.1 h
      cases h
      refine .goesOn hp hne hs ho ?_
      split
      · exact Or.inl rfl
      · exact Or.inr rfl
  | finish b =>
    simp only [exec, hp, Option.bind_eq_bind] at h
    obtain ⟨o, ho, h⟩ := Option.bind_eq_some_iff.1 h
    cases h
    cases hok : o.finish.1.isOk with
    | true => simpa [hok] using Does.finished hp ho hok
    | false => simpa [hok] using Does.finishFailed hp ho hok
  | abandon b =>
    simp only [exec, hp, Option.bind_eq_bind] at h
    obtain ⟨o, ho, h⟩ := Option.bind_eq_some_iff.1 h
    cases h
    exact .abandoned hp ho
  | openTable b =>
    simp only [exec, hp, Option.bind_eq_bind] at h
    obtain ⟨r, hr, h⟩ := Option.bind_eq_some_iff.1 h
    cases r with
    | ok t =>
      cases h
      exact .opened hp (Disk.openPath_ok hr)
    | error s =>
      cases h
      refine .openFailed hp (Disk.openPath_error hr) ?_
      cases b with
      | switch => exact Or.inl ⟨rfl, rfl⟩
      | last => exact Or.inr ⟨rfl, rfl⟩
  | delete b unlinks =>
    simp only [exec, hp, Option.bind_eq_bind] at h
    obtain ⟨o, ho, h⟩ := Option.bind_eq_some_iff.1 h
    cases h
    exact .deleted hp ho
  | unlink b =>
    simp only [exec, hp, Option.some.injEq] at h
    subst h
    refine .unlinked hp ?_
    cases b with
    | switch => exact Or.inl ⟨rfl, rfl⟩
    | last => exact Or.inr ⟨rfl, rfl⟩
  | null b =>
    simp only [exec, hp, Option.some.injEq] at h
    subst h
    refine .nulled hp ?_
    cases b with
    | switch => exact Or.inl ⟨rfl, rfl⟩
    | last => exact Or.inr ⟨rfl, rfl⟩
  | make =>
    simp only [exec, hp, Option.some.injEq] at h
    exact h ▸ .made hp
  | add =>
    simp only [exec, hp, Option.bind_eq_bind] at h
    obtain ⟨o, ho, h⟩ := Option.bind_eq_some_iff.1 h
    obtain ⟨p, -, h⟩ := Option.bind_eq_some_iff.1 h
    cases h
    exact .added hp ho
  | next =>
    simp only [exec, hp, Option.some.injEq] at h
    exact h ▸ .advanced hp
  | last =>
    simp only [exec, hp, Option.some.injEq] at h
    subst h
    by_cases hgo : (c.currentBuilder.isSome && c.compactionStatus.isOk) = true
    · rw [if_pos hgo]
      rw [Bool.and_eq_true, Option.isSome_iff_ne_none] at hgo
      exact .finishesLast hp hgo.1 hgo.2
    · rw [if_neg hgo]
      refine .hasNoLast hp ?_
      rw [Bool.and_eq_true, not_and_or, Option.isSome_iff_ne_none, not_not] at hgo
      exact hgo.imp_right fun h => by simpa using h
  | deleteIterators =>
    simp only [exec, hp, Option.some.injEq] at h
    exact h ▸ .deletedIterators hp
  | cleanUp =>
    simp only [exec, hp, Option.some.injEq] at h
    exact h ▸ .cleanedUp hp
  | commit =>
    simp only [exec, hp, Option.some.injEq] at h
    exact h ▸ .committed hp
  | cleanedUp => simp [exec, hp] at h
  | committed => simp [exec, hp] at h

/-! ## Where `current_builder` points -/

/-- The run behind a statement, with what it has done. -/
def behind (c : CompactionRun) (e : Effect) : CompactionRun :=
  { e.run with fileOps := c.fileOps ++ e.files, refOps := c.refOps ++ e.refs }

/-- `current_builder` points to a live builder, that of `current_builder_path`. -/
def Live (c : CompactionRun) : Prop := ∃ o, c.builder = some o ∧ o.number = c.currentBuilderPath

/-- The live builder has been through `Finish`. -/
def LiveFinished (c : CompactionRun) : Prop :=
  ∃ o, c.builder = some o ∧ o.number = c.currentBuilderPath ∧ o.builder.finished = true

theorem LiveFinished.live (h : c.LiveFinished) : c.Live := by
  obtain ⟨o, ho, hn, -⟩ := h
  exact ⟨o, ho, hn⟩

/-- **Where `current_builder` points at each place**, and what the status is there. -/
def Aimed (c : CompactionRun) : Prop :=
  match c.place with
  | .iterators => c.currentBuilder = none ∧ c.compactionStatus.isOk = true
  | .loop | .next | .last => c.currentBuilder = none ∨ c.Live ∧ c.compactionStatus.isOk = true
  | .finish _ | .add => c.Live ∧ c.compactionStatus.isOk = true
  | .openTable _ => c.LiveFinished ∧ c.compactionStatus.isOk = true
  | .abandon _ => c.LiveFinished ∧ c.compactionStatus.isOk = false
  | .delete b unlinks => c.LiveFinished ∧ (unlinks = true → b = .switch ∧ c.compactionStatus.isOk = false)
  | .unlink b => c.compactionStatus.isOk = false ∧ (b = .last → c.LiveFinished)
  | .null _ => True
  | .make => c.currentBuilder = none ∧ c.compactionStatus.isOk = true
  | .deleteIterators => c.currentBuilder = none
  | .cleanUp | .cleanedUp => c.currentBuilder = none ∧ c.compactionStatus.isOk = false
  | .commit | .committed => c.currentBuilder = none ∧ c.compactionStatus.isOk = true

/-- The pointer sees what is stored through it. -/
theorem builder_setBuilder {o : BuilderObject} (h : c.builder = some o) (o' : Option BuilderObject) :
    (c.setBuilder o').builder = o' := by
  obtain ⟨p, hp, hjoin⟩ := Option.bind_eq_some_iff.1 h
  obtain ⟨hlt, -⟩ := List.getElem?_eq_some_iff.1 (Option.join_eq_some_iff.1 hjoin)
  rw [builder, setBuilder, hp, Option.bind_some]
  simp [hlt]

theorem LiveFinished.setBuilder {o o' : BuilderObject} (h : c.builder = some o)
    (hn : o'.number = c.currentBuilderPath) (hf : o'.builder.finished = true) :
    (c.setBuilder (some o')).LiveFinished := ⟨o', builder_setBuilder h _, hn, hf⟩

theorem Live.number (h : c.Live) {o : BuilderObject} (ho : c.builder = some o) :
    o.number = c.currentBuilderPath := by
  obtain ⟨o', ho', hn⟩ := h
  rw [← Option.some.inj (ho'.symm.trans ho)]
  exact hn

theorem LiveFinished.finished (h : c.LiveFinished) {o : BuilderObject} (ho : c.builder = some o) :
    o.builder.finished = true := by
  obtain ⟨o', ho', -, hf⟩ := h
  rw [← Option.some.inj (ho'.symm.trans ho)]
  exact hf

theorem exists_currentBuilder {o : BuilderObject} (h : c.builder = some o) : ∃ p, c.currentBuilder = some p := by
  obtain ⟨p, hp, -⟩ := Option.bind_eq_some_iff.1 h
  exact ⟨p, hp⟩

/-- Behind the loop without an output to finish. -/
theorem Aimed.noLast (h : c.Aimed) (hp : c.place = .last)
    (hnone : c.currentBuilder = none ∨ c.compactionStatus.isOk = false) : c.currentBuilder = none := by
  simp only [Aimed, hp] at h
  rcases hnone with hnone | hbad
  · exact hnone
  · exact h.resolve_right fun hlive => absurd (hbad.symm.trans hlive.2) Bool.false_ne_true

/-- **Every statement leaves `current_builder` as the next place expects it.** -/
theorem Aimed.does (h : c.Aimed) (hd : Does c db e) : (c.behind e).Aimed := by
  cases hd with
  | iterators hp =>
    simp only [Aimed, hp] at h
    exact Or.inl h.1
  | leavesLoop hp
  | skips hp =>
    simp only [Aimed, hp] at h
    exact h
  | makesFirst hp _ hok hnone => exact ⟨hnone, hok⟩
  | goesOn hp _ hok ho hplace =>
    simp only [Aimed, hp] at h
    have hlive : c.Live := by
      refine (h.resolve_left fun hnone => ?_).1
      obtain ⟨p, hcur⟩ := exists_currentBuilder ho
      cases hnone.symm.trans hcur
    rcases hplace with rfl | rfl
    · exact ⟨hlive, hok⟩
    · exact ⟨hlive, hok⟩
  | @finished b o hp ho hok
  | @finishFailed b o hp ho hok =>
    simp only [Aimed, hp] at h
    have hnum : o.number = c.currentBuilderPath := h.1.number ho
    exact ⟨LiveFinished.setBuilder ho hnum o.finish_finished, hok⟩
  | @abandoned b o hp ho =>
    simp only [Aimed, hp] at h
    have hnum : o.number = c.currentBuilderPath := h.1.live.number ho
    exact ⟨LiveFinished.setBuilder ho hnum rfl, fun hf => absurd hf Bool.false_ne_true⟩
  | opened hp hnum =>
    simp only [Aimed, hp] at h
    exact ⟨h.1, fun hf => absurd hf Bool.false_ne_true⟩
  | openFailed hp hs hplace =>
    simp only [Aimed, hp] at h
    rcases hplace with ⟨rfl, rfl⟩ | ⟨rfl, rfl⟩
    · exact ⟨h.1, fun _ => ⟨rfl, hs⟩⟩
    · exact ⟨hs, fun _ => h.1⟩
  | @deleted b unlinks o hp ho =>
    simp only [Aimed, hp] at h
    cases unlinks with
    | true =>
      obtain ⟨rfl, hs⟩ := h.2 rfl
      exact ⟨hs, nofun⟩
    -- the builder is gone and `current_builder` still points at it: `null` comes next
    | false => trivial
  | unlinked hp hplace =>
    simp only [Aimed, hp] at h
    rcases hplace with ⟨rfl, rfl⟩ | ⟨rfl, rfl⟩
    · trivial
    · exact ⟨h.2 rfl, fun hf => absurd hf Bool.false_ne_true⟩
  | nulled hp hplace =>
    rcases hplace with ⟨rfl, rfl⟩ | ⟨rfl, rfl⟩
    · cases hok : c.compactionStatus.isOk with
      | true => exact ⟨rfl, hok⟩
      | false => exact Or.inl rfl
    · rfl
  | @made opens faults hp =>
    simp only [Aimed, hp] at h
    refine ⟨⟨BuilderObject.new db.nextFileNumber opens faults, ?_, rfl⟩, h.2⟩
    simp [builder, behind]
  | @added o b hp ho =>
    simp only [Aimed, hp] at h
    have hnum : o.number = c.currentBuilderPath := h.1.number ho
    exact Or.inr ⟨⟨_, builder_setBuilder ho _, hnum⟩, h.2⟩
  | advanced hp =>
    simp only [Aimed, hp] at h
    exact h
  | finishesLast hp hne hok =>
    simp only [Aimed, hp] at h
    exact ⟨(h.resolve_left hne).1, hok⟩
  | hasNoLast hp hnone => exact h.noLast hp hnone
  | deletedIterators hp =>
    simp only [Aimed, hp] at h
    cases hok : c.compactionStatus.isOk with
    | true => simp only [Aimed, behind, hok, if_true]; exact ⟨h, trivial⟩
    | false => simp only [Aimed, behind, hok, Bool.false_eq_true, if_false]; exact ⟨h, trivial⟩
  | cleanedUp hp
  | committed hp =>
    simp only [Aimed, hp] at h
    exact h

/-- A status other than OK is kept to the end. -/
theorem Aimed.failed (h : c.Aimed) (hd : Does c db e) (hbad : c.compactionStatus.isOk = false) :
    (c.behind e).compactionStatus.isOk = false := by
  cases hd with
  | finished hp =>
    simp only [Aimed, hp] at h
    exact absurd (hbad.symm.trans h.2) Bool.false_ne_true
  | finishFailed _ _ hs => exact hs
  | openFailed _ hs => exact hs
  | _ => exact hbad

/-! ## The files it has touched -/

/-- The output that is being built, unless it is among the new tables or unlinked. -/
def pending (c : CompactionRun) : List ℕ :=
  match c.place with
  | .finish _ | .abandon _ | .openTable _ | .unlink _ | .add => [c.currentBuilderPath]
  | .delete _ unlinks => if unlinks then [c.currentBuilderPath] else []
  | .loop | .next | .last => if c.currentBuilder.isSome then [c.currentBuilderPath] else []
  | _ => []

/-- The outputs that may still be there. -/
def left (c : CompactionRun) : List ℕ :=
  match c.place with
  | .cleanedUp => []
  | _ => c.newLevel1.map (·.number) ++ c.pending

/-- Operations that touch no file but these tables. -/
structure Within (outputs : List ℕ) (ops : List FsOp) : Prop where
  logs : ∀ disk : Disk, (disk.run ops).logs = disk.logs
  manifest : ∀ disk : Disk, (disk.run ops).manifest = disk.manifest
  ssts : ∀ (disk : Disk) (n : ℕ), n ∉ outputs → (disk.run ops).ssts n = disk.ssts n

theorem Within.nil (outputs : List ℕ) : Within outputs [] := ⟨fun _ => rfl, fun _ => rfl, fun _ _ _ => rfl⟩

theorem Within.append {outputs : List ℕ} {ops ops' : List FsOp} (h : Within outputs ops)
    (h' : Within outputs ops') : Within outputs (ops ++ ops') where
  logs disk := by rw [Disk.run_append, h'.logs, h.logs]
  manifest disk := by rw [Disk.run_append, h'.manifest, h.manifest]
  ssts disk n hn := by rw [Disk.run_append, h'.ssts _ n hn, h.ssts _ n hn]

theorem Within.mono {outputs outputs' : List ℕ} {ops : List FsOp} (h : Within outputs ops)
    (hsub : outputs ⊆ outputs') : Within outputs' ops :=
  ⟨h.logs, h.manifest, fun disk n hn => h.ssts disk n fun hmem => hn (hsub hmem)⟩

theorem Within.writes {outputs : List ℕ} {o : BuilderObject} (h : o.number ∈ outputs) :
    Within outputs o.writes := by
  rw [BuilderObject.writes]
  split
  · refine ⟨fun _ => rfl, fun _ => rfl, fun disk n hn => Function.update_of_ne ?_ _ _⟩
    rintro rfl
    exact hn h
  · exact Within.nil _

theorem Within.unlink {outputs : List ℕ} {n : ℕ} (h : n ∈ outputs) : Within outputs [.unlinkSst n] := by
  refine ⟨fun _ => rfl, fun _ => rfl, fun disk m hm => Function.update_of_ne ?_ _ _⟩
  rintro rfl
  exact hm h

theorem Within.unlinks {outputs : List ℕ} {ts : List SSTable} (h : ∀ t ∈ ts, t.number ∈ outputs) :
    Within outputs (ts.map fun t => .unlinkSst t.number) := by
  refine ⟨fun disk => (Disk.run_unlink disk ts).1, fun disk => (Disk.run_unlink disk ts).2.1, fun disk n hn => ?_⟩
  rw [(Disk.run_unlink disk ts).2.2, if_neg]
  rintro hmem
  obtain ⟨t, ht, rfl⟩ := List.mem_map.1 hmem
  exact hn (h t ht)

/-- **The outputs are all it has touched**, and those that are not left any more are gone. -/
structure Touched (c : CompactionRun) : Prop where
  known : ∀ n ∈ c.left, n ∈ c.outputs
  within : Within c.outputs c.fileOps
  gone : ∀ (disk : Disk) (n : ℕ), n ∈ c.outputs → n ∉ c.left → (disk.run c.fileOps).ssts n = none

/-- A statement that touches outputs only, and leaves of the others what it does not unlink. -/
theorem Touched.next (h : c.Touched) (hsub : c.outputs ⊆ e.run.outputs)
    (hleft : ∀ n ∈ (c.behind e).left, n ∈ e.run.outputs) (hwithin : Within e.run.outputs e.files)
    (hgone : ∀ (disk : Disk) (n : ℕ), n ∈ e.run.outputs → n ∉ (c.behind e).left →
      (disk.run e.files).ssts n = none ∨
        n ∈ c.outputs ∧ n ∉ c.left ∧ (disk.run e.files).ssts n = disk.ssts n) : (c.behind e).Touched where
  known := hleft
  within := (h.within.mono hsub).append hwithin
  gone disk n hn hl := by
    show (disk.run (c.fileOps ++ e.files)).ssts n = none
    rw [Disk.run_append]
    rcases hgone (disk.run c.fileOps) n hn hl with hnone | ⟨hout, hl', hsame⟩
    · exact hnone
    · rw [hsame]
      exact h.gone disk n hout hl'

/-- A statement without file operations that gives up nothing. -/
theorem Touched.quiet (h : c.Touched) (hfiles : e.files = []) (hout : e.run.outputs = c.outputs)
    (hleft : (c.behind e).left = c.left) : (c.behind e).Touched := by
  refine h.next (by rw [hout]; exact List.Subset.refl _) (fun n hn => ?_) (by rw [hfiles]; exact Within.nil _)
    fun disk n hn hl => Or.inr ?_
  · rw [hout]
    exact h.known n (hleft ▸ hn)
  · rw [hfiles]
    exact ⟨hout ▸ hn, hleft ▸ hl, rfl⟩

/-- A statement that writes the output under way. -/
theorem Touched.wrote (h : c.Touched) {o : BuilderObject} (hfiles : e.files = o.writes)
    (hout : e.run.outputs = c.outputs) (hleft : (c.behind e).left = c.left) (ho : o.number ∈ c.left) :
    (c.behind e).Touched := by
  refine h.next (by rw [hout]; exact List.Subset.refl _) (fun n hn => ?_) ?_ fun disk n hn hl => Or.inr ?_
  · rw [hout]
    exact h.known n (hleft ▸ hn)
  · rw [hfiles, hout]
    exact Within.writes (h.known _ ho)
  · rw [hleft] at hl
    have hone : Within [o.number] e.files := hfiles ▸ Within.writes (List.mem_singleton_self _)
    refine ⟨hout ▸ hn, hl, hone.ssts disk n fun hmem => ?_⟩
    rw [List.mem_singleton.1 hmem] at hl
    exact hl ho

/-- A statement that unlinks the output under way. -/
theorem Touched.unlinked (h : c.Touched) {m : ℕ} (hfiles : e.files = [.unlinkSst m])
    (hout : e.run.outputs = c.outputs) (hm : m ∈ c.outputs)
    (hleft : ∀ n, n ∈ (c.behind e).left → n ∈ c.left)
    (hgone : ∀ n, n ∈ c.left → n ∉ (c.behind e).left → n = m) : (c.behind e).Touched := by
  refine h.next (by rw [hout]; exact List.Subset.refl _) (fun n hn => ?_) ?_ fun disk n hn hl => ?_
  · rw [hout]
    exact h.known n (hleft n hn)
  · rw [hfiles, hout]
    exact Within.unlink hm
  · rw [hfiles]
    by_cases hnm : n = m
    · subst hnm
      exact Or.inl (Function.update_self _ _ _)
    · exact Or.inr ⟨hout ▸ hn, fun hc => hnm (hgone n hc hl), Function.update_of_ne hnm _ _⟩

/-- A statement that makes an output. -/
theorem Touched.made (h : c.Touched) {o : BuilderObject} (hfiles : e.files = o.writes)
    (hout : e.run.outputs = c.outputs ++ [o.number]) (hleft : (c.behind e).left = c.left ++ [o.number]) :
    (c.behind e).Touched := by
  have hnew : o.number ∈ c.outputs ++ [o.number] := List.mem_append_right _ (List.mem_singleton_self _)
  refine h.next (by rw [hout]; exact List.subset_append_left _ _) (fun n hn => ?_)
    (by rw [hfiles, hout]; exact Within.writes hnew) fun disk n hn hl => Or.inr ?_
  · rw [hout]
    rw [hleft] at hn
    rcases List.mem_append.1 hn with hn | hn
    · exact List.mem_append_left _ (h.known n hn)
    · exact List.mem_append_right _ hn
  · rw [hleft, List.mem_append, not_or] at hl
    rw [hout] at hn
    have hone : Within [o.number] e.files := hfiles ▸ Within.writes (List.mem_singleton_self _)
    exact ⟨(List.mem_append.1 hn).resolve_right hl.2, hl.1, hone.ssts disk n hl.2⟩

/-- A statement that unlinks all that is left. -/
theorem Touched.cleanedUp (h : c.Touched) (hfiles : e.files = c.newLevel1.map fun t => .unlinkSst t.number)
    (hout : e.run.outputs = c.outputs) (hold : c.left = c.newLevel1.map (·.number))
    (hleft : (c.behind e).left = []) : (c.behind e).Touched := by
  have hall : ∀ t ∈ c.newLevel1, t.number ∈ c.outputs := fun t ht =>
    h.known _ (by rw [hold]; exact List.mem_map_of_mem ht)
  refine h.next (by rw [hout]; exact List.Subset.refl _) (fun n hn => ?_)
    (by rw [hfiles, hout]; exact Within.unlinks hall) fun disk n hn _ => ?_
  · rw [hleft] at hn
    cases hn
  · have hssts := (Disk.run_unlink disk c.newLevel1).2.2 n
    rw [hfiles]
    by_cases hmem : n ∈ c.newLevel1.map (·.number)
    · rw [if_pos hmem] at hssts
      exact Or.inl hssts
    · rw [if_neg hmem] at hssts
      exact Or.inr ⟨hout ▸ hn, by rw [hold]; exact hmem, hssts⟩

/-- **Every statement but the commit keeps what is touched and what is left.** -/
theorem Touched.does (h : c.Touched) (hpt : c.Aimed) (hd : Does c db e) (hc : c.place ≠ .commit) :
    (c.behind e).Touched := by
  cases hd with
  | iterators hp =>
    simp only [Aimed, hp] at hpt
    exact h.quiet rfl rfl (by simp [left, pending, behind, hp, hpt.1])
  | leavesLoop hp
  | skips hp => exact h.quiet rfl rfl (by simp [left, pending, behind, hp])
  | makesFirst hp _ _ hnone => exact h.quiet rfl rfl (by simp [left, pending, behind, hp, hnone])
  | goesOn hp _ _ ho hplace =>
    obtain ⟨p, hcur⟩ := exists_currentBuilder ho
    rcases hplace with rfl | rfl
    · exact h.quiet rfl rfl (by simp [left, pending, behind, hp, hcur])
    · exact h.quiet rfl rfl (by simp [left, pending, behind, hp, hcur])
  | @finished b o hp ho _
  | @finishFailed b o hp ho _ =>
    simp only [Aimed, hp] at hpt
    have hnum : o.number = c.currentBuilderPath := hpt.1.number ho
    refine h.wrote (o := { o with builder := o.builder.finish.2 }) rfl rfl
      (by simp [left, pending, behind, hp, setBuilder]) ?_
    simp [left, pending, hp, hnum]
  | @abandoned b o hp ho =>
    simp only [Aimed, hp] at hpt
    have hnum : o.number = c.currentBuilderPath := hpt.1.live.number ho
    have hmem : o.number ∈ c.left := by simp [left, pending, hp, hnum]
    refine h.unlinked rfl rfl (h.known _ hmem) (fun n hn => ?_) fun n hn hl => ?_
    · simp only [left, pending, behind, hp, setBuilder] at hn ⊢
      exact List.mem_append_left _ (by simpa using hn)
    · simp only [left, pending, behind, hp, setBuilder, List.mem_append, List.mem_singleton] at hn hl
      rw [hnum]
      exact hn.resolve_left fun hn => hl (Or.inl hn)
  | @opened b t hp hnum =>
    exact h.quiet rfl rfl (by simp [left, pending, behind, hp, hnum])
  | openFailed hp _ hplace =>
    rcases hplace with ⟨rfl, rfl⟩ | ⟨rfl, rfl⟩
    · exact h.quiet rfl rfl (by simp [left, pending, behind, hp])
    · exact h.quiet rfl rfl (by simp [left, pending, behind, hp])
  | @deleted b unlinks o hp ho =>
    simp only [Aimed, hp] at hpt
    -- the destructor of a finished builder does not unlink
    have hdestroy : o.destroy = [] := by simp [BuilderObject.destroy, hpt.1.finished ho]
    cases unlinks with
    | true => exact h.quiet hdestroy rfl (by simp [left, pending, behind, hp, setBuilder])
    | false => exact h.quiet hdestroy rfl (by simp [left, pending, behind, hp, setBuilder])
  | @unlinked b place hp hplace =>
    have hmem : c.currentBuilderPath ∈ c.left := by simp [left, pending, hp]
    have hleft : (c.behind
        { run := { c with place := place }, db := db, files := [.unlinkSst c.currentBuilderPath] }).left =
        c.newLevel1.map (·.number) := by
      rcases hplace with ⟨rfl, rfl⟩ | ⟨rfl, rfl⟩
      · simp [left, pending, behind]
      · simp [left, pending, behind]
    refine h.unlinked rfl rfl (h.known _ hmem) (fun n hn => ?_) fun n hn hl => ?_
    · rw [hleft] at hn
      simp only [left, hp]
      exact List.mem_append_left _ hn
    · rw [hleft] at hl
      simp only [left, pending, hp, List.mem_append, List.mem_singleton] at hn
      exact hn.resolve_left hl
  | nulled hp hplace =>
    rcases hplace with ⟨rfl, rfl⟩ | ⟨rfl, rfl⟩
    · cases hok : c.compactionStatus.isOk with
      | true => exact h.quiet rfl rfl (by simp [left, pending, behind, hp])
      | false => exact h.quiet rfl rfl (by simp [left, pending, behind, hp])
    · exact h.quiet rfl rfl (by simp [left, pending, behind, hp])
  | @made opens faults hp =>
    exact h.made (o := BuilderObject.new db.nextFileNumber opens faults) rfl rfl (by
      simp [left, pending, behind, hp, BuilderObject.new])
  | @added o b hp ho =>
    simp only [Aimed, hp] at hpt
    have hnum : o.number = c.currentBuilderPath := hpt.1.number ho
    obtain ⟨p, hcur⟩ := exists_currentBuilder ho
    refine h.wrote (o := { o with builder := b }) rfl rfl
      (by simp [left, pending, behind, hp, setBuilder, hcur]) ?_
    simp [left, pending, hp, hnum]
  | advanced hp => exact h.quiet rfl rfl (by simp [left, pending, behind, hp])
  | finishesLast hp hne _ =>
    obtain ⟨p, hcur⟩ := Option.ne_none_iff_exists'.1 hne
    exact h.quiet rfl rfl (by simp [left, pending, behind, hp, hcur])
  | hasNoLast hp hnone =>
    have hnull := hpt.noLast hp hnone
    exact h.quiet rfl rfl (by simp [left, pending, behind, hp, hnull])
  | deletedIterators hp =>
    cases hok : c.compactionStatus.isOk with
    | true => exact h.quiet rfl rfl (by simp [left, pending, behind, hp])
    | false => exact h.quiet rfl rfl (by simp [left, pending, behind, hp])
  | cleanedUp hp =>
    exact h.cleanedUp rfl rfl (by simp [left, pending, hp]) (by simp [left, behind])
  | committed hp => exact absurd hp hc

/-- A statement makes a table of no file but the output under way. -/
theorem Does.makes (h : Does c db e) : c.outputs ⊆ e.run.outputs ∧ ∀ n, Op.make n ∈ e.refs → n ∈ c.left := by
  cases h with
  | opened hp hnum =>
    refine ⟨List.Subset.refl _, fun n hn => ?_⟩
    obtain rfl := Op.make.inj (List.mem_singleton.1 hn)
    simp [left, pending, hp, hnum]
  | made => exact ⟨List.subset_append_left _ _, fun n hn => nomatch hn⟩
  | iterators => exact ⟨List.Subset.refl _, fun n hn => by simp at hn⟩
  | deletedIterators => exact ⟨List.Subset.refl _, fun n hn => by simp at hn⟩
  | cleanedUp => exact ⟨List.Subset.refl _, fun n hn => by simp at hn⟩
  | committed => exact ⟨List.Subset.refl _, fun n hn => by simp at hn⟩
  | _ => exact ⟨List.Subset.refl _, fun n hn => nomatch hn⟩

/-! ## The references it has taken -/

/-- The tables it holds, once for each reference: its snapshot, what its iterators read, and its
outputs. -/
def heldTables (c : CompactionRun) : List SSTable :=
  match c.place with
  | .cleanedUp | .committed => []
  | .iterators | .cleanUp | .commit => c.inputs ++ c.newLevel1
  | _ => c.inputs ++ (c.inputs ++ c.newLevel1)

/-- **The references taken and not given back** are those to the tables it holds. -/
def Balanced (c : CompactionRun) : Prop :=
  ∀ n, net n c.refOps = ((c.heldTables.map (·.number)).count n : ℤ)

theorem net_takes (ts : List SSTable) (n : ℕ) :
    net n (ts.map fun t => .ref t.number) = ((ts.map (·.number)).count n : ℤ) := by
  rw [RefWorld.map_ref, net_refs]

theorem net_gives (ts : List SSTable) (n : ℕ) :
    net n (ts.map fun t => .unref t.number) = -((ts.map (·.number)).count n : ℤ) := by
  rw [RefWorld.map_unref, net_unrefs]

/-- A statement on no references. -/
theorem Balanced.quiet (h : c.Balanced) (hrefs : e.refs = []) (hheld : (c.behind e).heldTables = c.heldTables) :
    (c.behind e).Balanced := by
  intro n
  have hops : (c.behind e).refOps = c.refOps := by rw [behind, hrefs, List.append_nil]
  rw [hops, hheld]
  exact h n

/-- A statement that takes or gives back references. -/
theorem Balanced.moves (h : c.Balanced) {d : ℕ → ℤ} (hrefs : ∀ n, net n e.refs = d n)
    (hheld : ∀ n, (((c.behind e).heldTables.map (·.number)).count n : ℤ) =
      ((c.heldTables.map (·.number)).count n : ℤ) + d n) : (c.behind e).Balanced := by
  intro n
  have hops : (c.behind e).refOps = c.refOps ++ e.refs := rfl
  rw [hops, net_append, h n, hrefs n, hheld n]

/-- **Every statement but the commit keeps the references balanced.** -/
theorem Balanced.does (h : c.Balanced) (hd : Does c db e) (hc : c.place ≠ .commit) : (c.behind e).Balanced := by
  cases hd with
  | iterators hp =>
    refine h.moves (net_takes c.inputs) fun n => ?_
    simp only [heldTables, behind, hp, inputs, List.map_append, List.count_append, Nat.cast_add]
    omega
  | leavesLoop hp | skips hp | makesFirst hp | made hp | advanced hp | finishesLast hp | hasNoLast hp =>
    exact h.quiet rfl (by simp [heldTables, behind, hp, inputs])
  | finished hp | finishFailed hp | abandoned hp | added hp =>
    exact h.quiet rfl (by simp [heldTables, behind, hp, inputs, setBuilder])
  | goesOn hp _ _ _ hplace =>
    rcases hplace with rfl | rfl <;> exact h.quiet rfl (by simp [heldTables, behind, hp, inputs])
  | @opened b t hp =>
    refine h.moves (fun n => net_make n t.number) fun n => ?_
    simp only [heldTables, behind, hp, inputs, List.map_append, List.count_append, Nat.cast_add,
      List.map_singleton]
    omega
  | openFailed hp _ hplace =>
    rcases hplace with ⟨rfl, rfl⟩ | ⟨rfl, rfl⟩ <;>
      exact h.quiet rfl (by simp [heldTables, behind, hp, inputs])
  | @deleted b unlinks o hp =>
    cases unlinks <;> exact h.quiet rfl (by simp [heldTables, behind, hp, inputs, setBuilder])
  | unlinked hp hplace =>
    rcases hplace with ⟨rfl, rfl⟩ | ⟨rfl, rfl⟩ <;>
      exact h.quiet rfl (by simp [heldTables, behind, hp, inputs])
  | nulled hp hplace =>
    rcases hplace with ⟨rfl, rfl⟩ | ⟨rfl, rfl⟩
    · cases hok : c.compactionStatus.isOk <;> exact h.quiet rfl (by simp [heldTables, behind, hp, inputs])
    · exact h.quiet rfl (by simp [heldTables, behind, hp, inputs])
  | deletedIterators hp =>
    refine h.moves (net_gives c.inputs) fun n => ?_
    cases hok : c.compactionStatus.isOk <;>
    · simp only [heldTables, behind, hp, inputs, List.map_append, List.count_append, Nat.cast_add, if_true,
        Bool.false_eq_true, if_false]
      omega
  | cleanedUp hp =>
    refine h.moves (net_gives (c.newLevel1 ++ c.inputs)) fun n => ?_
    simp only [heldTables, behind, hp, inputs, List.map_append, List.count_append, Nat.cast_add, List.map_nil,
      List.count_nil]
    omega
  | committed hp => exact absurd hp hc

/-! ## The loop comes to its end -/

/-- Inside a turn of the loop there is an entry. -/
def Turning (c : CompactionRun) : Prop :=
  match c.place with
  | .finish .switch | .abandon .switch | .openTable .switch | .delete .switch _ | .unlink .switch
  | .null .switch | .make | .add | .next => c.rest ≠ []
  | _ => True

/-- How many statements of its turn, or behind the loop, are left at most. -/
def rank : CompactionPlace → ℕ
  | .iterators => 15
  | .loop => 14
  | .finish .switch => 13
  | .abandon .switch | .openTable .switch => 12
  | .delete .switch true => 11
  | .unlink .switch => 10
  | .delete .switch false => 9
  | .null .switch => 8
  | .make => 7
  | .add => 6
  | .next => 5
  | .last => 13
  | .finish .last => 12
  | .abandon .last | .openTable .last => 11
  | .unlink .last => 10
  | .delete .last _ => 9
  | .null .last => 8
  | .deleteIterators => 3
  | .cleanUp | .commit => 2
  | .cleanedUp | .committed => 1

/-- A bound on the statements to come. -/
def measure (c : CompactionRun) : ℕ := 10 * c.rest.length + rank c.place

theorem Turning.does (h : c.Turning) (hpt : c.Aimed) (hd : Does c db e) :
    (c.behind e).Turning ∧ (c.behind e).measure < c.measure := by
  cases hd with
  | iterators hp | leavesLoop hp | finishesLast hp | hasNoLast hp | cleanedUp hp | committed hp =>
    exact ⟨trivial, by simp [measure, rank, behind, hp]⟩
  | skips hp hne | makesFirst hp hne => exact ⟨hne, by simp [measure, rank, behind, hp]⟩
  | goesOn hp hne _ _ hplace =>
    rcases hplace with rfl | rfl
    · exact ⟨hne, by simp [measure, rank, behind, hp]⟩
    · exact ⟨hne, by simp [measure, rank, behind, hp]⟩
  | @finished b o hp | @finishFailed b o hp | @abandoned b o hp =>
    cases b <;> simp only [Turning, hp] at h <;>
      exact ⟨h, by simp [measure, rank, behind, hp, setBuilder]⟩
  | @opened b t hp =>
    cases b <;> simp only [Turning, hp] at h <;> exact ⟨h, by simp [measure, rank, behind, hp]⟩
  | openFailed hp _ hplace =>
    simp only [Turning, hp] at h
    rcases hplace with ⟨rfl, rfl⟩ | ⟨rfl, rfl⟩
    · exact ⟨h, by simp [measure, rank, behind, hp]⟩
    · exact ⟨trivial, by simp [measure, rank, behind, hp]⟩
  | @deleted b unlinks o hp =>
    simp only [Aimed, hp] at hpt
    cases unlinks with
    | true =>
      obtain ⟨rfl, -⟩ := hpt.2 rfl
      simp only [Turning, hp] at h
      exact ⟨h, by simp [measure, rank, behind, hp, setBuilder]⟩
    | false =>
      cases b <;> simp only [Turning, hp] at h <;>
        exact ⟨h, by simp [measure, rank, behind, hp, setBuilder]⟩
  | unlinked hp hplace =>
    simp only [Turning, hp] at h
    rcases hplace with ⟨rfl, rfl⟩ | ⟨rfl, rfl⟩
    · exact ⟨h, by simp [measure, rank, behind, hp]⟩
    · exact ⟨trivial, by simp [measure, rank, behind, hp]⟩
  | nulled hp hplace =>
    simp only [Turning, hp] at h
    rcases hplace with ⟨rfl, rfl⟩ | ⟨rfl, rfl⟩
    · cases hok : c.compactionStatus.isOk with
      | true => exact ⟨h, by simp [measure, rank, behind, hp]⟩
      | false => exact ⟨h, by simp [measure, rank, behind, hp]⟩
    · exact ⟨trivial, by simp [measure, rank, behind, hp]⟩
  | made hp =>
    simp only [Turning, hp] at h
    exact ⟨h, by simp [measure, rank, behind, hp]⟩
  | added hp =>
    simp only [Turning, hp] at h
    exact ⟨h, by simp [measure, rank, behind, hp, setBuilder]⟩
  | advanced hp =>
    simp only [Turning, hp] at h
    -- one entry less outweighs the statements of a turn
    have hpos : 0 < c.rest.length := List.length_pos_iff.2 h
    refine ⟨trivial, ?_⟩
    simp only [measure, rank, behind, hp, List.length_tail]
    omega
  | deletedIterators hp =>
    cases hok : c.compactionStatus.isOk with
    | true => exact ⟨trivial, by simp [measure, rank, behind, hp]⟩
    | false => exact ⟨trivial, by simp [measure, rank, behind, hp]⟩

/-! ## No statement is stuck -/

/-- The statement goes through `current_builder`. -/
def UsesBuilder (c : CompactionRun) : Prop :=
  match c.place with
  | .loop => c.currentBuilder ≠ none
  | .finish _ | .abandon _ | .delete _ _ | .add => True
  | _ => False

/-- The compaction has returned. -/
def Ended (c : CompactionRun) : Prop := c.place = .cleanedUp ∨ c.place = .committed

theorem Live.isSome (h : c.Live) : ∃ o, c.builder = some o := by
  obtain ⟨o, ho, -⟩ := h
  exact ⟨o, ho⟩

/-- **No statement uses a builder that has been deleted.** -/
theorem Aimed.builder (h : c.Aimed) (huse : c.UsesBuilder) : ∃ o, c.builder = some o := by
  unfold UsesBuilder at huse
  split at huse
  case h_1 hp =>
    simp only [Aimed, hp] at h
    exact (h.resolve_left huse).1.isSome
  case h_2 hp =>
    simp only [Aimed, hp] at h
    exact h.1.isSome
  case h_3 hp =>
    simp only [Aimed, hp] at h
    exact h.1.live.isSome
  case h_4 hp =>
    simp only [Aimed, hp] at h
    exact h.1.live.isSome
  case h_5 hp =>
    simp only [Aimed, hp] at h
    exact h.1.isSome
  case h_6 => exact huse.elim

/-- **No statement is stuck**, where a table either opens or gives a status. -/
theorem Aimed.exec_isSome (h : c.Aimed) (ht : c.Turning) (hne : ¬c.Ended) (db : DB) (disk : Disk)
    (faults : ℕ → Option ℕ) {opens : Bool} (hopen : (disk.openPath c.currentBuilderPath opens).isSome = true) :
    (c.exec db disk opens faults).isSome = true := by
  have hlive := h.builder
  cases hp : c.place with
  | loop =>
    simp only [exec, hp]
    split
    · rfl
    split
    · rfl
    split
    · rfl
    split
    · rfl
    rename_i hcur
    obtain ⟨o, ho⟩ := hlive (by simpa [UsesBuilder, hp] using hcur)
    simp [ho]
  | finish b =>
    obtain ⟨o, ho⟩ := hlive (by simp [UsesBuilder, hp])
    simp [exec, hp, ho]
  | abandon b =>
    obtain ⟨o, ho⟩ := hlive (by simp [UsesBuilder, hp])
    simp [exec, hp, ho]
  | openTable b =>
    obtain ⟨r, hr⟩ := Option.isSome_iff_exists.1 hopen
    cases r <;> simp [exec, hp, hr]
  | delete b unlinks =>
    obtain ⟨o, ho⟩ := hlive (by simp [UsesBuilder, hp])
    simp [exec, hp, ho]
  | add =>
    obtain ⟨o, ho⟩ := hlive (by simp [UsesBuilder, hp])
    simp only [Turning, hp] at ht
    obtain ⟨p, rest, hrest⟩ := List.exists_cons_of_ne_nil ht
    simp [exec, hp, ho, hrest]
  | cleanedUp => exact absurd (Or.inl hp) hne
  | committed => exact absurd (Or.inr hp) hne
  | _ => simp [exec, hp]

/-! ## The loop fills an output as `World` does -/

/-- A statement that no other call matters to. -/
def Next (c c' : CompactionRun) : Prop :=
  ∀ db disk, ∃ e, c.exec db disk true (fun _ => none) = some e ∧ e.db = db ∧ c' = c.behind e

theorem exec_add {o : BuilderObject} {k v : Bytes} {rest : List (Bytes × Bytes)} (hplace : c.place = .add)
    (ho : c.builder = some o) (hrest : c.rest = (k, v) :: rest) (opens : Bool) (faults : ℕ → Option ℕ) :
    c.exec db disk opens faults = some
      { run := { c.setBuilder (some { o with builder := o.builder.add (extractUserKey k) v }) with place := .next }
        db := db
        files := ({ o with builder := o.builder.add (extractUserKey k) v } : BuilderObject).writes } := by
  simp only [exec, hplace, ho, hrest]
  rfl

/-- **From a live builder on, the loop runs to the block that finishes it** with the builder and
the entries that `fillOutput` gives. -/
theorem fills {o : BuilderObject} (hplace : c.place = .loop) (ho : c.builder = some o)
    (hok : c.compactionStatus.isOk = true) :
    ∃ c' o' b, Relation.ReflTransGen Next c c' ∧ c'.place = .finish b ∧ c'.builder = some o' ∧
      o'.number = o.number ∧ (o'.builder, c'.rest) = DB.fillOutput o.builder c.rest := by
  induction hrest : c.rest generalizing c o with
  | nil =>
    obtain ⟨p, hcur⟩ := exists_currentBuilder ho
    have hlast : Next c { c with place := .last } := fun db disk =>
      ⟨{ run := { c with place := .last }, db := db }, by simp [exec, hplace, hrest], rfl, by simp [behind]⟩
    have hfinish : Next { c with place := .last } { c with place := .finish .last } := fun db disk =>
      ⟨{ run := { c with place := .finish .last }, db := db }, by simp [exec, hcur, hok], rfl, by simp [behind]⟩
    exact ⟨_, o, .last, .tail (.single hlast) hfinish, rfl, ho, rfl, by rw [hrest]; rfl⟩
  | cons p rest ih =>
    obtain ⟨k, v⟩ := p
    obtain ⟨p, hcur⟩ := exists_currentBuilder ho
    by_cases hv : v = []
    · subst hv
      have hskip : Next c { c with place := .next } := fun db disk =>
        ⟨{ run := { c with place := .next }, db := db }, by simp [exec, hplace, hrest, hok], rfl, by simp [behind]⟩
      have hnext : Next { c with place := .next } { c with rest := rest, place := .loop } := fun db disk =>
        ⟨{ run := { c with rest := rest, place := .loop }, db := db }, by simp [exec, hrest], rfl, by simp [behind]⟩
      obtain ⟨c', o', b, hrun, hp, ho', hn, hfill⟩ :=
        ih (c := { c with rest := rest, place := .loop }) rfl ho hok rfl
      exact ⟨c', o', b, .head hskip (.head hnext hrun), hp, ho', hn, by rw [hfill]; simp [DB.fillOutput]⟩
    by_cases hfull : DB.maxOutputSize ≤ o.builder.fileSize
    · have hswitch : Next c { c with place := .finish .switch } := fun db disk =>
        ⟨{ run := { c with place := .finish .switch }, db := db },
          by simp [exec, hplace, hrest, hok, hv, ho, hfull, hcur], rfl, by simp [behind]⟩
      exact ⟨_, o, .switch, .single hswitch, rfl, ho, rfl, by rw [hrest]; simp [DB.fillOutput, hv, hfull]⟩
    · set o₁ : BuilderObject := { o with builder := o.builder.add (extractUserKey k) v } with ho₁
      have hadd : Next c { c with place := .add } := fun db disk =>
        ⟨{ run := { c with place := .add }, db := db },
          by simp [exec, hplace, hrest, hok, hv, ho, hfull, hcur], rfl, by simp [behind]⟩
      have hadded : Next { c with place := .add }
          { c.setBuilder (some o₁) with place := .next, fileOps := c.fileOps ++ o₁.writes } := fun db disk =>
        ⟨{ run := { ({ c with place := .add } : CompactionRun).setBuilder (some o₁) with place := .next }
           db := db, files := o₁.writes },
          exec_add (c := { c with place := .add }) rfl ho hrest _ _, rfl, by simp [behind, setBuilder]⟩
      have hnext : Next { c.setBuilder (some o₁) with place := .next, fileOps := c.fileOps ++ o₁.writes }
          { c.setBuilder (some o₁) with rest := rest, place := .loop, fileOps := c.fileOps ++ o₁.writes } :=
        fun db disk =>
          ⟨{ run := { c.setBuilder (some o₁) with rest := rest, place := .loop, fileOps := c.fileOps ++ o₁.writes }
             db := db }, by simp [exec, setBuilder, hrest], rfl, by simp [behind, setBuilder]⟩
      obtain ⟨c', o', b, hrun, hp, ho', hn, hfill⟩ := ih
        (c := { c.setBuilder (some o₁) with rest := rest, place := .loop, fileOps := c.fileOps ++ o₁.writes })
        (o := o₁) rfl (builder_setBuilder ho _) hok rfl
      exact ⟨c', o', b, .head hadd (.head hadded (.head hnext hrun)), hp, ho', hn,
        by rw [hfill]; simp [DB.fillOutput, hv, hfull, ho₁]⟩

end CompactionRun

/-! ## Runs with other calls in between -/

namespace Compacting

open CompactionRun

variable {s s' : Compacting}

/-- The numbers of outputs are taken after those of the inputs, and all below the next one. -/
structure Numbered (c : CompactionRun) (next : ℕ) : Prop where
  outputs : ∀ n ∈ c.outputs, n < next
  inputs : ∀ t ∈ c.inputs, t.number < next ∧ ∀ n ∈ c.outputs, t.number < n

theorem Numbered.mono {c : CompactionRun} {next next' : ℕ} (h : Numbered c next) (hle : next ≤ next') :
    Numbered c next' :=
  ⟨fun n hn => (h.outputs n hn).trans_le hle, fun t ht => ⟨(h.inputs t ht).1.trans_le hle, (h.inputs t ht).2⟩⟩

theorem Numbered.does {c : CompactionRun} {db : DB} {e : Effect} (h : Numbered c db.nextFileNumber)
    (hd : Does c db e) : Numbered (c.behind e) e.db.nextFileNumber ∧ db.nextFileNumber ≤ e.db.nextFileNumber := by
  cases hd with
  | @made opens faults hp =>
    refine ⟨⟨fun n hn => ?_, fun t ht => ⟨(h.inputs t ht).1.trans (Nat.lt_succ_self _), fun n hn => ?_⟩⟩,
      Nat.le_succ _⟩
    · rcases List.mem_append.1 hn with hn | hn
      · exact (h.outputs n hn).trans (Nat.lt_succ_self _)
      · rw [List.mem_singleton.1 hn]
        exact Nat.lt_succ_self _
    · rcases List.mem_append.1 hn with hn | hn
      · exact (h.inputs t ht).2 n hn
      · rw [List.mem_singleton.1 hn]
        exact (h.inputs t ht).1
  | committed => exact ⟨⟨h.outputs, h.inputs⟩, le_refl _⟩
  | _ => exact ⟨⟨h.outputs, h.inputs⟩, le_refl _⟩

/-- The invariants of the locals. -/
structure RunSound (c : CompactionRun) (next : ℕ) : Prop where
  pointed : c.Aimed
  turning : c.Turning
  numbered : Numbered c next
  touched : c.place ≠ .committed → c.Touched
  balanced : c.place ≠ .committed → c.Balanced
  makes : ∀ n, Op.make n ∈ c.refOps → n ∈ c.outputs

/-- Every table has a number below the next one, and the compaction under way is in order. -/
structure Sound (s : Compacting) : Prop where
  tables : ∀ t ∈ s.base.world.db.levels.tables, t.number < s.base.world.db.nextFileNumber
  flushes : ∀ job ∈ s.base.world.flushes, job.number < s.base.world.db.nextFileNumber ∧
    ∀ t ∈ job.table, t.number = job.number
  run : ∀ c, s.run = some c → RunSound c s.base.world.db.nextFileNumber

theorem Sound.change (h : s.Sound) {base : RefWorld} {w : World} (hbase : base.world = w)
    (hnext : s.base.world.db.nextFileNumber ≤ w.db.nextFileNumber)
    (htables : ∀ t ∈ w.db.levels.tables, t ∈ s.base.world.db.levels.tables ∨ t.number < w.db.nextFileNumber)
    (hflushes : ∀ job ∈ w.flushes, job ∈ s.base.world.flushes ∨
      job.number < w.db.nextFileNumber ∧ ∀ t ∈ job.table, t.number = job.number) :
    Sound { s with base := base } := by
  subst hbase
  refine ⟨fun t ht => ?_, fun job hjob => ?_, fun c hc => ?_⟩
  · rcases htables t ht with ht | ht
    · exact (h.tables t ht).trans_le hnext
    · exact ht
  · rcases hflushes job hjob with hjob | hjob
    · exact ⟨(h.flushes job hjob).1.trans_le hnext, (h.flushes job hjob).2⟩
    · exact hjob
  · have hrun := h.run c hc
    exact ⟨hrun.pointed, hrun.turning, hrun.numbered.mono hnext, hrun.touched, hrun.balanced, hrun.makes⟩

/-- A section of another call leaves the numbers taken alone. -/
theorem Sound.world (h : s.Sound) {w : World} {l : Label} (hl : isOther (.db l) = true)
    (hstep : s.base.world.step l = some w) {base : RefWorld} (hbase : base.world = w) :
    Sound { s with base := base } := by
  cases World.step_event hstep with
  | wrote | waits | rotated | rotateFailed =>
    exact h.change hbase (le_refl _) (fun t ht => Or.inl ht) fun job hjob => Or.inl hjob
  | flushBegun =>
    refine h.change hbase (Nat.le_succ _) (fun t ht => Or.inl ht) fun job hjob => ?_
    rcases List.mem_append.1 hjob with hjob | hjob
    · exact Or.inl hjob
    · obtain rfl := List.mem_singleton.1 hjob
      exact Or.inr ⟨Nat.lt_succ_self _, fun t ht => nomatch ht⟩
  | @flushBuilt i job faults t hi _ _ hopen =>
    refine h.change hbase (le_refl _) (fun t ht => Or.inl ht) fun job' hjob' => ?_
    rcases List.mem_or_eq_of_mem_set hjob' with hjob' | rfl
    · exact Or.inl hjob'
    · refine Or.inr ⟨(h.flushes job (List.mem_of_getElem? hi)).1, fun t' ht' => ?_⟩
      obtain rfl : t = t' := Option.some.inj ht'
      exact (SSTable.openFile_ok hopen).1
  | @flushNotBuilt i job faults opens ops hi =>
    refine h.change hbase (le_refl _) (fun t ht => Or.inl ht) fun job' hjob' => ?_
    rcases List.mem_or_eq_of_mem_set hjob' with hjob' | rfl
    · exact Or.inl hjob'
    · exact Or.inr ⟨(h.flushes job (List.mem_of_getElem? hi)).1, fun t ht => nomatch ht⟩
  | @flushCommitted i job t m hi hres =>
    refine h.change hbase (le_refl _) (fun t' ht' => ?_) fun job hjob => Or.inl (List.mem_of_mem_eraseIdx hjob)
    have hmem : t' = t ∨ t' ∈ s.base.world.db.levels.tables := by
      simp only [World.flushCommitted, Levels.tables, Levels.toList, List.flatten_cons, List.mem_append,
        List.mem_singleton] at ht' ⊢
      tauto
    rcases hmem with rfl | ht'
    · obtain ⟨hlt, hnum⟩ := h.flushes job (List.mem_of_getElem? hi)
      refine Or.inr ?_
      rw [hnum t' (by rw [FlushJob.table, hres]; rfl)]
      exact hlt
    · exact Or.inl ht'
  | flushFailed | flushDropped =>
    exact h.change hbase (le_refl _) (fun t ht => Or.inl ht) fun job hjob => Or.inl (List.mem_of_mem_eraseIdx hjob)
  | _ => cases hl

/-- What a section of another call does to the database. -/
theorem other_world {l : RefLabel} {base base' : RefWorld} (hl : isOther l = true)
    (hstep : base.step l = some base') : base'.world = base.world ∨
      ∃ l', isOther (.db l') = true ∧ base.world.step l' = some base'.world := by
  cases l with
  | db l =>
    have hre : ∀ o hs, l ≠ .reopen o hs := by
      rintro o hs rfl
      cases hl
    obtain ⟨w, hw, rfl⟩ := RefWorld.step_db hre hstep
    exact Or.inr ⟨l, hl, hw⟩
  | acquire =>
    obtain rfl := Option.some.inj hstep
    exact Or.inl rfl
  | release i =>
    obtain ⟨ts, -, h⟩ := Option.bind_eq_some_iff.1 hstep
    obtain rfl := Option.some.inj h
    exact Or.inl rfl
  | newIterator =>
    obtain rfl := Option.some.inj hstep
    exact Or.inl rfl
  | mergeIterator i => cases hl
  | deleteIterator i =>
    obtain ⟨ts, -, h⟩ := Option.bind_eq_some_iff.1 hstep
    obtain rfl := Option.some.inj h
    exact Or.inl rfl

/-- A statement of the compaction, with its effect on the database. -/
theorem step_exec {opens : Bool} {faults : ℕ → Option ℕ} (h : s.step (.exec opens faults) = some s') :
    ∃ c e, s.run = some c ∧ Does c s.base.world.db e ∧ s'.run = some (c.behind e) ∧
      s'.base.world.db = e.db ∧ s'.base.world.disk = s.base.world.disk.run e.files ∧
      s'.base.world.flushes = s.base.world.flushes ∧ s'.base.refs = s.base.refs.run e.refs := by
  obtain ⟨c, hc, h⟩ := Option.bind_eq_some_iff.1 h
  obtain ⟨e, he, h⟩ := Option.bind_eq_some_iff.1 h
  obtain rfl := Option.some.inj h
  exact ⟨c, e, hc, exec_does he, rfl, rfl, rfl, rfl, rfl⟩

/-- Only the commit changes `levels_`. -/
theorem Does.levels {c : CompactionRun} {db : DB} {e : Effect} (h : Does c db e) (hc : c.place ≠ .commit) :
    e.db.levels = db.levels ∧ (c.behind e).place ≠ .committed := by
  cases h with
  | committed hp => exact absurd hp hc
  | goesOn _ _ _ _ hplace => rcases hplace with rfl | rfl <;> exact ⟨rfl, nofun⟩
  | openFailed _ _ hplace => rcases hplace with ⟨rfl, rfl⟩ | ⟨rfl, rfl⟩ <;> exact ⟨rfl, nofun⟩
  | @deleted b unlinks => cases unlinks <;> exact ⟨rfl, nofun⟩
  | unlinked _ hplace => rcases hplace with ⟨rfl, rfl⟩ | ⟨rfl, rfl⟩ <;> exact ⟨rfl, nofun⟩
  | nulled _ hplace =>
    rcases hplace with ⟨rfl, rfl⟩ | ⟨rfl, rfl⟩
    · cases hok : c.compactionStatus.isOk <;> exact ⟨rfl, by simp [behind]⟩
    · exact ⟨rfl, nofun⟩
  | deletedIterators =>
    cases hok : c.compactionStatus.isOk <;> exact ⟨rfl, by simp [behind]⟩
  | _ => exact ⟨rfl, nofun⟩

/-- Only the commit changes the MANIFEST. -/
theorem Does.manifest {c : CompactionRun} {db : DB} {e : Effect} (h : Does c db e) (hc : c.place ≠ .commit)
    (disk : Disk) : (disk.run e.files).manifest = disk.manifest := by
  have hwrites : ∀ o : BuilderObject, (disk.run o.writes).manifest = disk.manifest := fun o =>
    (Within.writes (List.mem_singleton_self o.number)).manifest disk
  cases h with
  | finished | finishFailed | made | added => exact hwrites _
  | @deleted b unlinks o =>
    simp only [BuilderObject.destroy]
    split <;> rfl
  | cleanedUp => exact (Disk.run_unlink disk c.newLevel1).2.1
  | committed hp => exact absurd hp hc
  | _ => rfl

/-- The commit ends the compaction, and it has not ended before a statement. -/
theorem Does.ends {c : CompactionRun} {db : DB} {e : Effect} (h : Does c db e) :
    (c.place = .commit → (c.behind e).place = .committed) ∧ c.place ≠ .committed ∧ c.place ≠ .cleanedUp := by
  cases h <;> simp_all [behind]

/-- A statement keeps the invariants of the locals. -/
theorem RunSound.does {c : CompactionRun} {db : DB} {e : Effect} (h : RunSound c db.nextFileNumber)
    (hd : Does c db e) : RunSound (c.behind e) e.db.nextFileNumber := by
  have hcommit : (c.behind e).place ≠ .committed → c.place ≠ .commit := fun hne hc => hne ((Does.ends hd).1 hc)
  have hopen := (Does.ends hd).2.1
  exact
    { pointed := h.pointed.does hd
      turning := (h.turning.does h.pointed hd).1
      numbered := (h.numbered.does hd).1
      touched := fun hne => (h.touched hopen).does h.pointed hd (hcommit hne)
      balanced := fun hne => (h.balanced hopen).does hd (hcommit hne)
      makes := by
        intro n hn
        obtain ⟨hsub, hmakes⟩ := hd.makes
        rcases List.mem_append.1 hn with hn | hn
        · exact hsub (h.makes n hn)
        · exact hsub ((h.touched hopen).known n (hmakes n hn)) }

/-- After the commit every table of `levels_` was there before or is an output. -/
theorem compactCommit_tables_mem {db : DB} {c : CompactionRun} {t : SSTable}
    (ht : t ∈ (db.compactCommit c.l0Snapshot c.l1Indices c.newLevel1).1.levels.tables) :
    t ∈ db.levels.tables ∨ t ∈ c.newLevel1 := by
  obtain ⟨gone0, gone1, hperm0, hperm1, -⟩ :=
    World.compactCommit_spec db c.l0Snapshot c.l1Indices c.newLevel1
  have hdeeper : (db.compactCommit c.l0Snapshot c.l1Indices c.newLevel1).1.levels.deeper = db.levels.deeper := rfl
  simp only [Levels.tables, Levels.toList, List.flatten_cons, List.mem_append, hdeeper] at ht ⊢
  rcases ht with ht | ht | ht
  · exact Or.inl (Or.inl (hperm0.mem_iff.2 (List.mem_append_right _ ht)))
  · rcases List.mem_append.1 (hperm1.mem_iff.2 (List.mem_append_right _ ht)) with ht | ht
    · exact Or.inl (Or.inr (Or.inl ht))
    · exact Or.inr ht
  · exact Or.inl (Or.inr (Or.inr ht))

/-- **No step breaks the invariants.** -/
theorem Sound.step (h : s.Sound) {l : CompactingLabel} (hstep : s.step l = some s') : s'.Sound := by
  cases l with
  | other l =>
    simp only [Compacting.step] at hstep
    split at hstep
    case isFalse => cases hstep
    rename_i hl
    obtain ⟨base, hbase, rfl⟩ := Option.map_eq_some_iff.1 hstep
    rcases other_world hl hbase with heq | ⟨l', hl', hw⟩
    · exact h.change heq (le_refl _) (fun t ht => Or.inl ht) fun job hjob => Or.inl hjob
    · exact h.world hl' hw rfl
  | begin reads =>
    simp only [Compacting.step] at hstep
    split at hstep
    · cases hstep
    split at hstep
    case h_2 => cases hstep
    obtain rfl := Option.some.inj hstep
    refine ⟨h.tables, h.flushes, fun c hc => ?_⟩
    obtain rfl := Option.some.inj hc
    refine ⟨⟨rfl, rfl⟩, trivial, ⟨by simp, fun t ht => ⟨h.tables t ?_, by simp⟩⟩, fun _ => ⟨by simp [left, pending],
      Within.nil _, by simp⟩, fun _ n => ?_, fun n hn => by simp at hn⟩
    · rcases List.mem_append.1 ht with ht | ht
      · exact World.l0_subset_tables ht
      · obtain ⟨i, -, hi⟩ := List.mem_filterMap.1 ht
        exact World.l1_subset_tables (List.mem_of_getElem? hi)
    · refine (net_takes _ n).trans ?_
      simp [heldTables, CompactionRun.inputs]
  | exec opens faults =>
    obtain ⟨c, e, hc, hd, hrun, hdb, -, hflushes, -⟩ := step_exec hstep
    have hsound := h.run c hc
    have hnext := (hsound.numbered.does hd).2
    refine ⟨fun t ht => ?_, fun job hjob => ?_, fun c' hc' => ?_⟩
    · rw [hdb] at ht ⊢
      -- only the commit brings tables into `levels_`, and these are outputs
      by_cases hplace : c.place = .commit
      · cases hd with
        | committed hp =>
          rcases compactCommit_tables_mem ht with ht | ht
          · exact h.tables t ht
          · have hleft : t.number ∈ c.left := by
              simp only [left, hp, List.mem_append]
              exact Or.inl (List.mem_map_of_mem ht)
            exact hsound.numbered.outputs _ ((hsound.touched (by rw [hp]; nofun)).known _ hleft)
        | _ => simp_all
      · rw [(Does.levels hd hplace).1] at ht
        exact (h.tables t ht).trans_le hnext
    · rw [hflushes] at hjob
      rw [hdb]
      exact ⟨(h.flushes job hjob).1.trans_le hnext, (h.flushes job hjob).2⟩
    · obtain rfl : c.behind e = c' := Option.some.inj (hrun.symm.trans hc')
      rw [hdb]
      exact hsound.does hd
  | returns =>
    obtain ⟨c, hc, hstep⟩ := Option.bind_eq_some_iff.1 hstep
    split at hstep
    · obtain rfl := Option.some.inj hstep
      exact ⟨h.tables, h.flushes, fun c hc => by cases hc⟩
    · cases hstep

theorem sound_of_reach {options : Options}
    (h : Reach step (fun _ _ => True) { base := { world := World.fresh options } } s) : s.Sound := by
  refine Reach.invariant ⟨?_, ?_, fun c hc => by cases hc⟩ (fun _ _ _ hi _ hs => hi.step hs) h
  · simp [World.fresh, Levels.tables, Levels.toList]
  · simp [World.fresh]

/-- **A compaction one of whose outputs fails** leaves everything as it was. At every statement
`current_builder` is live where it is used, and no statement but the commit of a compaction that has
not failed changes `levels_` or the MANIFEST; the statements come to an end, and at the end of a
failed compaction its outputs are gone, no other file is touched, and it has given back the
references that it took. -/
theorem failed_output {options : Options}
    (h : Reach step (fun _ _ => True) { base := { world := World.fresh options } } s) {c : CompactionRun}
    (hc : s.run = some c) :
    (c.UsesBuilder → ∃ o, c.builder = some o) ∧
      (¬c.Ended → ∀ faults, (s.step (.exec false faults)).isSome = true) ∧
      (∀ opens faults s', s.step (.exec opens faults) = some s' → ∃ c', s'.run = some c' ∧
        c'.measure < c.measure ∧ (c.compactionStatus.isOk = false → c'.compactionStatus.isOk = false) ∧
        (s'.base.world.db.levels = s.base.world.db.levels ∧
            s'.base.world.disk.manifest = s.base.world.disk.manifest ∨
          c.place = .commit ∧ c.compactionStatus.isOk = true)) ∧
      (c.Ended → c.compactionStatus.isOk = false →
        (∀ (disk : Disk) (n : ℕ), (disk.run c.fileOps).ssts n = if n ∈ c.outputs then none else disk.ssts n) ∧
        (∀ disk : Disk, (disk.run c.fileOps).manifest = disk.manifest ∧ (disk.run c.fileOps).logs = disk.logs) ∧
        (∀ t ∈ c.inputs, t.number ∉ c.outputs) ∧
        (∀ n, net n c.refOps = 0) ∧
        ∀ t ∈ c.inputs, ∀ counts : Counts ℕ, (counts.run c.refOps).count t.number = counts.count t.number) := by
  have hsound := (sound_of_reach h).run c hc
  have hinputs : ∀ t ∈ c.inputs, t.number ∉ c.outputs := fun t ht hmem =>
    absurd ((hsound.numbered.inputs t ht).2 _ hmem) (lt_irrefl _)
  refine ⟨hsound.pointed.builder, fun hend faults => ?_, fun opens faults s' hstep => ?_, fun hend hbad => ?_⟩
  · have hopen : (s.base.world.disk.openPath c.currentBuilderPath false).isSome = true := by
      simp [Disk.openPath]
    obtain ⟨e, he⟩ := Option.isSome_iff_exists.1
      (hsound.pointed.exec_isSome hsound.turning hend s.base.world.db s.base.world.disk faults hopen)
    simp [Compacting.step, hc, he]
  · obtain ⟨c₁, e, hc₁, hd, hrun, hdb, hdisk, -, -⟩ := step_exec hstep
    obtain rfl : c = c₁ := Option.some.inj (hc.symm.trans hc₁)
    refine ⟨_, hrun, (hsound.turning.does hsound.pointed hd).2, hsound.pointed.failed hd, ?_⟩
    have hpointed := hsound.pointed
    by_cases hcommit : c.place = .commit
    · simp only [Aimed, hcommit] at hpointed
      exact Or.inr ⟨hcommit, hpointed.2⟩
    · exact Or.inl ⟨by rw [hdb, (Does.levels hd hcommit).1], by rw [hdisk, Does.manifest hd hcommit]⟩
  -- a compaction that has failed does not come to the commit
  · have hplace : c.place = .cleanedUp := by
      rcases hend with hp | hp
      · exact hp
      · have hpointed := hsound.pointed
        simp only [Aimed, hp] at hpointed
        exact absurd (hbad.symm.trans hpointed.2) Bool.false_ne_true
    have hopen : c.place ≠ .committed := by rw [hplace]; nofun
    have htouched := hsound.touched hopen
    have hleft : c.left = [] := by simp [left, hplace]
    have hnet : ∀ n, net n c.refOps = 0 := by
      intro n
      rw [hsound.balanced hopen n]
      simp [heldTables, hplace]
    refine ⟨fun disk n => ?_, fun disk => ⟨htouched.within.manifest disk, htouched.within.logs disk⟩, hinputs, hnet,
      fun t ht counts => ?_⟩
    · split
      · rename_i hn
        exact htouched.gone disk n hn (by rw [hleft]; exact List.not_mem_nil)
      · rename_i hn
        exact htouched.within.ssts disk n hn
    · rw [count_run counts fun hmake => hinputs t ht (hsound.makes _ hmake), hnet, add_zero]

/-- Two flushes, and a compaction of their tables the only output of which cannot be written, with
a `Get` and a third flush in between. -/
def failedRun : List CompactingLabel :=
  [.other (.db (.write (.put [107] [118]) 1 true)), .other (.db (.flushBegin .background)),
    .other (.db (.flushBuild 0 (fun _ => none) true)), .other (.db (.flushEnd 0)),
    .other (.db (.write (.put [108] [118]) 1 true)), .other (.db (.flushBegin .background)),
    .other (.db (.flushBuild 0 (fun _ => none) true)), .other (.db (.flushEnd 0)),
    .begin SSTable.data, .exec true fun _ => none, .other .acquire, .exec true fun _ => none,
    .other (.db (.write (.put [109] [118]) 1 true)), .other (.db (.flushBegin .compactRange)),
    .exec true fun _ => some 0] ++ List.replicate 5 (.exec true fun _ => none) ++
  [.other (.release 0), .other (.db (.flushBuild 0 (fun _ => none) true)), .other (.db (.flushEnd 0))] ++
  List.replicate 5 (.exec true fun _ => none)

theorem failed_output_failedRun : ∃ s c,
    Reach step (fun _ _ => True)
      { base := { world := World.fresh { writeBufferSize := 1, l0CompactionTrigger := 2 } } } s ∧
      s.run = some c ∧ c.outputs = [4] ∧ c.inputs.map (·.number) = [1, 2] ∧
      s.base.world.db.levels.l0.map (·.number) = [1, 2, 3] ∧
      (∀ disk : Disk, (disk.run c.fileOps).ssts 4 = none) ∧ ∀ n, net n c.refOps = 0 := by
  have hrun : ((Transition.run step (fun _ _ => True)
      { base := { world := World.fresh { writeBufferSize := 1, l0CompactionTrigger := 2 } } } failedRun).bind
        fun s => s.run.map fun c => decide (c.place = .cleanedUp ∧ c.compactionStatus.isOk = false ∧
          c.outputs = [4] ∧ c.inputs.map (·.number) = [1, 2] ∧
          s.base.world.db.levels.l0.map (·.number) = [1, 2, 3])) = some true := by
    decide +kernel
  obtain ⟨s, hs, heq⟩ := Option.bind_eq_some_iff.1 hrun
  obtain ⟨c, hc, heq⟩ := Option.map_eq_some_iff.1 heq
  obtain ⟨hplace, hbad, hout, hin, hl0⟩ := of_decide_eq_true heq
  obtain ⟨-, -, -, hend⟩ := failed_output (reach_of_run hs) hc
  obtain ⟨hgone, -, -, hnet, -⟩ := hend (Or.inl hplace) hbad
  exact ⟨s, c, reach_of_run hs, hc, hout, hin, hl0, fun disk => by rw [hgone, hout]; rfl, hnet⟩

end Compacting

end MiniLSM
