import MiniLSM.Spec.FileIo
import MiniLSM.Proof.LogHistory

/-!
# The log through system calls

The model of the log lets an append put a part of its record into the file and fail, and lets the
reader take as many bytes as it needs. Here both come from loops over calls that move a part of what
they are asked for.

* `writeFull_spec`: whatever the calls do, `WriteFull` leaves all bytes in the file, or a proper part
  and returns false.
* `stepBy_step`: so an `AddRecord` through calls is one of the model.
* `Tracks m f`: `m` reads what `f` does from the bytes in front of it, or a call has failed and it
  returns early.
* `recover_history`: after any history of calls, `Recover` delivers a part from the front of the
  records that were acknowledged, and all of them if no call of `read` fails.
-/

namespace MiniLSM

open Transition

/-! ## Writing -/

namespace WriteFd

variable {fd fd' : WriteFd} {buf : Bytes} {fuel count w : ℕ}

/-- A call puts the front of its bytes into the file. -/
theorem osWrite_some (h : fd.osWrite buf count = (some w, fd')) :
    fd'.file = fd.file ++ buf.take w ∧ fd'.results = fd.results ∧ w ≤ count ∧ w ≤ buf.length := by
  unfold osWrite at h
  split at h
  · cases h
  · rename_i n hn
    obtain ⟨hw, rfl⟩ := Prod.ext_iff.1 h
    obtain rfl := Option.some.inj hw
    rw [List.length_take, ← List.take_eq_take_min]
    exact ⟨rfl, rfl, by omega, by omega⟩

theorem osWrite_none (h : fd.osWrite buf count = (none, fd')) : fd'.file = fd.file := by
  unfold osWrite at h
  split at h
  · cases h
    rfl
  · cases h

/-- **What `WriteFull` leaves in the file** when it returns. -/
theorem writeFull_spec {ok : Bool} (h : writeFull fuel fd buf = some (ok, fd')) :
    ∃ k, fd'.file = fd.file ++ buf.take k ∧ if ok then k = buf.length else k < buf.length := by
  induction fuel generalizing fd buf with
  | zero =>
    rw [writeFull] at h
    split at h
    · cases h
      exact ⟨buf.length, by simp [*], rfl⟩
    · cases h
  | succ fuel ih =>
    rw [writeFull] at h
    split at h
    · cases h
      exact ⟨buf.length, by simp [*], rfl⟩
    rename_i hne
    have hpos := List.length_pos_iff.2 hne
    rcases hcall : fd.osWrite buf buf.length with ⟨_ | w, fd₁⟩
    · rw [hcall] at h
      cases h
      exact ⟨0, by simp [osWrite_none hcall], hpos⟩
    · rw [hcall] at h
      obtain ⟨hfile, -, hle, -⟩ := osWrite_some hcall
      obtain ⟨k, hrest, hk⟩ := ih h
      refine ⟨w + k, by rw [hrest, hfile, List.append_assoc, ← List.take_add], ?_⟩
      rw [List.length_drop] at hk
      cases ok <;> simp only [Bool.false_eq_true, if_false, if_true] at hk ⊢ <;> omega

/-- `WriteFull` ends within as many calls as there are bytes, if every call takes some or fails. -/
theorem writeFull_ends (h : ∀ k, fd.results k ≠ some 0) (hfuel : buf.length ≤ fuel) :
    (writeFull fuel fd buf).isSome := by
  induction fuel generalizing fd buf with
  | zero =>
    rw [writeFull, if_pos (List.length_eq_zero_iff.1 (by omega))]
    rfl
  | succ fuel ih =>
    rw [writeFull]
    split
    · rfl
    rename_i hne
    have hpos := List.length_pos_iff.2 hne
    rcases hcall : fd.osWrite buf buf.length with ⟨_ | w, fd₁⟩
    · rfl
    · have hw : 0 < w := by
        unfold osWrite at hcall
        split at hcall
        · cases hcall
        · rename_i n hn
          obtain rfl := Option.some.inj (Prod.ext_iff.1 hcall).1
          have hn0 : n ≠ 0 := fun hn0 => h _ (hn0 ▸ hn)
          rw [List.length_take, maxTransfer]
          omega
      refine ih ((osWrite_some hcall).2.1 ▸ h) ?_
      rw [List.length_drop]
      omega

/-- What can happen to a buffer of `length` bytes: it is written, or the first `n` bytes of it. No call takes
more than the low half of the count, so that the high half never gets less. -/
def Possible (length : ℕ) : Option ℕ → Prop
  | none => length < 2 ^ 32
  | some n => n < length ∧ n ≤ length % 2 ^ 32

/-- **What `FdWriteFull` leaves in the file.** -/
theorem fdWriteFull_spec (fd : WriteFd) (hfuel : buf.length ≤ fuel) :
    ∃ k, (fdWriteFull fuel fd buf).2.file = fd.file ++ buf.take k ∧
      if (fdWriteFull fuel fd buf).1 then k = buf.length ∧ Possible buf.length none
      else Possible buf.length (some k) := by
  have hnil : ∀ {buf : Bytes}, buf = [] → buf.length < 2 ^ 32 := by
    rintro _ rfl
    decide
  simp only [Possible]
  induction fuel generalizing fd buf with
  | zero =>
    obtain rfl : buf = [] := List.length_eq_zero_iff.1 (by omega)
    exact ⟨0, (List.append_nil _).symm, rfl, by decide⟩
  | succ fuel ih =>
    rw [fdWriteFull]
    split
    · exact ⟨buf.length, by simp [*], rfl, hnil ‹_›⟩
    rename_i hne
    have hpos := List.length_pos_iff.2 hne
    rcases hcall : fd.osWrite buf (buf.length % 2 ^ 32) with ⟨_ | _ | w, fd₁⟩
    · exact ⟨0, by simp [osWrite_none hcall], hpos, Nat.zero_le _⟩
    · exact ⟨0, by simp [(osWrite_some hcall).1], hpos, Nat.zero_le _⟩
    · simp only [Nat.add_one_ne_zero, if_false]
      obtain ⟨hfile, -, hcount, hle⟩ := osWrite_some hcall
      obtain ⟨k, hrest, hk⟩ := @ih (buf.drop (w + 1)) fd₁ (by rw [List.length_drop]; omega)
      refine ⟨w + 1 + k, by rw [hrest, hfile, List.append_assoc, ← List.take_add], ?_⟩
      rw [List.length_drop] at hk
      split at hk
      · rw [if_pos ‹_›]
        omega
      · rw [if_neg ‹_›]
        omega

/-- `k` calls that take a byte each, and one that fails. -/
theorem fdWriteFull_bytes {k : ℕ} (hres : fd.results = fun i => if i < fd.calls + k then some 1 else none)
    (hk : k ≤ buf.length % 2 ^ 32) (hfuel : buf.length ≤ fuel) :
    (fdWriteFull fuel fd buf).1 = decide (k = buf.length) ∧
      (fdWriteFull fuel fd buf).2.file = fd.file ++ buf.take k := by
  induction fuel generalizing fd buf k with
  | zero =>
    obtain rfl : buf = [] := List.length_eq_zero_iff.1 (by omega)
    obtain rfl : k = 0 := by simpa using hk
    exact ⟨rfl, (List.append_nil _).symm⟩
  | succ fuel ih =>
    by_cases hne : buf = []
    · subst hne
      obtain rfl : k = 0 := by simpa using hk
      exact ⟨rfl, (List.append_nil _).symm⟩
    have hpos := List.length_pos_iff.2 hne
    cases k with
    | zero =>
      have hcall : fd.osWrite buf (buf.length % 2 ^ 32) = (none, { fd with calls := fd.calls + 1 }) := by
        rw [osWrite, hres]
        simp
      rw [fdWriteFull, if_neg hne, hcall]
      exact ⟨(decide_eq_false (by omega)).symm, (List.append_nil _).symm⟩
    | succ k =>
      have hcall : fd.osWrite buf (buf.length % 2 ^ 32) =
          (some 1, { fd with file := fd.file ++ buf.take 1, calls := fd.calls + 1 }) := by
        have hmin : min (min 1 maxTransfer) (buf.length % 2 ^ 32) = 1 := by
          rw [maxTransfer]
          omega
        rw [osWrite, hres]
        simp only [Nat.lt_add_right_iff_pos, Nat.succ_pos, if_true, hmin, List.length_take]
        congr 2
        omega
      rw [fdWriteFull, if_neg hne, hcall]
      dsimp only
      rw [if_neg Nat.one_ne_zero]
      have hrest := @ih { fd with file := fd.file ++ buf.take 1, calls := fd.calls + 1 } (buf.drop 1) k
        (by simp only [hres]; funext i; congr 1; rw [eq_iff_iff]; omega)
        (by rw [List.length_drop]; omega) (by rw [List.length_drop]; omega)
      refine ⟨?_, ?_⟩
      · rw [hrest.1, List.length_drop]
        exact decide_eq_decide.2 (by omega)
      · rw [hrest.2]
        rw [List.append_assoc, ← List.take_add, Nat.add_comm]

/-- **`FdWriteFull` is the write of the model**, with the faults that are possible for its length and with no
others: below 2^32 bytes any proper part may be written, from there on it never succeeds. -/
theorem fdWriteFull_outcomes (file buf file' : Bytes) (ok : Bool) :
    (∃ results, let r := fdWriteFull buf.length { file := file, results := results } buf
      r.1 = ok ∧ r.2.file = file') ↔
    ∃ fault, Possible buf.length fault ∧
      let r := Fd.writeFull { file := file, faults := fun _ => fault } buf
      r.1 = ok ∧ r.2.file = file' := by
  constructor
  · rintro ⟨results, hok, hfile⟩
    obtain ⟨k, hk, hcase⟩ := fdWriteFull_spec { file := file, results := results } (le_refl buf.length)
    rw [hok] at hcase
    rw [hfile] at hk
    cases ok with
    | true =>
      obtain ⟨rfl, hlt⟩ := hcase
      refine ⟨none, hlt, ?_⟩
      rw [Fd.writeFull]
      split
      · exact ⟨rfl, by simp_all⟩
      · exact ⟨rfl, by simp [hk]⟩
    | false =>
      refine ⟨some k, hcase, ?_⟩
      have hne : buf ≠ [] := List.length_pos_iff.1 (Nat.zero_lt_of_lt hcase.1)
      rw [Fd.writeFull, if_neg hne]
      exact ⟨rfl, hk.symm⟩
  · rintro ⟨fault, hpossible, hok, hfile⟩
    cases fault with
    | none =>
      obtain ⟨hall, hput⟩ := @fdWriteFull_bytes
        { file := file, results := fun i => if i < buf.length then some 1 else none }
        buf buf.length buf.length (by simp) (Nat.mod_eq_of_lt hpossible).ge le_rfl
      refine ⟨_, hall.trans ?_, hput.trans ?_⟩
      · rw [← hok, Fd.writeFull]
        split <;> simp
      · rw [← hfile, Fd.writeFull, List.take_length]
        split
        · simp_all
        · rfl
    | some n =>
      obtain ⟨hlt, hle⟩ := hpossible
      have hne : buf ≠ [] := List.length_pos_iff.1 (Nat.zero_lt_of_lt hlt)
      obtain ⟨hall, hput⟩ := @fdWriteFull_bytes
        { file := file, results := fun i => if i < n then some 1 else none }
        buf buf.length n (by simp) hle le_rfl
      rw [Fd.writeFull, if_neg hne] at hok hfile
      exact ⟨_, hall.trans ((decide_eq_false (by omega)).trans hok), hput.trans hfile⟩

end WriteFd

namespace LogFile

variable {f f' : LogFile} {fuel : ℕ}

/-- A call that puts its record behind whole records only, and one that the reader takes. -/
def AtEndCall (f : LogFile) : LogCall → Prop
  | .addRecord r _ => r.Short ∧ f.Clean
  | _ => True

/-- **An `AddRecord` through calls** is one of the model. -/
theorem addRecordBy_spec {r : Record} {results : ℕ → Option ℕ} {ok : Bool}
    (h : f.addRecordBy r results fuel = some (ok, f')) :
    ∃ fails, f.step (.addRecord r fails) = some f' ∧ (ok = true ↔ fails = none) := by
  obtain ⟨⟨ok', fd⟩, hwrite, heq⟩ := Option.bind_eq_some_iff.1 h
  cases heq
  obtain ⟨k, hfile, hk⟩ := WriteFd.writeFull_spec hwrite
  have hwritten : fd.file.drop f.file.length = (WALWriter.addRecord r).take k := by
    rw [hfile]
    exact List.drop_left
  cases ok
  · refine ⟨some k, ?_, by simp⟩
    rw [step, if_pos (by simpa using hk)]
    simp [hwritten]
  · refine ⟨none, ?_, by simp⟩
    have hall : k = (WALWriter.addRecord r).length := by simpa using hk
    rw [step]
    simp [hwritten, hall]

/-- **One event through calls** is one event of the model. -/
theorem stepBy_step {c : LogCall} (hok : f.AtEndCall c) (h : f.stepBy fuel c = some f') :
    ∃ e, f.AtEnd e ∧ f.step e = some f' := by
  cases c with
  | addRecord r results =>
    obtain ⟨⟨ok, f₁⟩, hadd, rfl⟩ := Option.map_eq_some_iff.1 h
    obtain ⟨fails, hstep, -⟩ := addRecordBy_spec hadd
    refine ⟨_, ?_, hstep⟩
    cases fails with
    | none => exact hok
    | some n => exact fun _ => ⟨hok.1.sized, hok.2⟩
  | crash n => exact ⟨.crash n, trivial, h⟩
  | reopen => exact ⟨.reopen, trivial, h⟩

end LogFile

/-! ## Reading -/

namespace ReadFd

/-- One of the calls of `read` between `fd` and `fd'` has failed. -/
def Failed (fd fd' : ReadFd) : Prop := ∃ k, fd.calls ≤ k ∧ k < fd'.calls ∧ fd.results k = none

/-- `fd'` is `fd` after some calls. -/
structure Later (fd fd' : ReadFd) : Prop where
  results : fd'.results = fd.results
  calls : fd.calls ≤ fd'.calls

variable {fd fd' fd'' : ReadFd} {α β : Type}

theorem Later.refl (fd : ReadFd) : fd.Later fd := ⟨rfl, le_rfl⟩

theorem Later.trans (h : fd.Later fd') (h' : fd'.Later fd'') : fd.Later fd'' :=
  ⟨h'.results.trans h.results, h.calls.trans h'.calls⟩

theorem Failed.before (h : fd.Failed fd') (hlater : fd'.Later fd'') : fd.Failed fd'' := by
  obtain ⟨k, hle, hlt, hnone⟩ := h
  exact ⟨k, hle, lt_of_lt_of_le hlt hlater.calls, hnone⟩

theorem Failed.after (hlater : fd.Later fd') (h : fd'.Failed fd'') : fd.Failed fd'' := by
  obtain ⟨k, hle, hlt, hnone⟩ := h
  exact ⟨k, hlater.calls.trans hle, hlt, hlater.results ▸ hnone⟩

theorem osRead_later (count : ℕ) (fd : ReadFd) : fd.Later (osRead count fd).2 := by
  unfold osRead
  split <;> exact ⟨rfl, Nat.le_succ _⟩

theorem osRead_none {count : ℕ} (h : (osRead count fd).1 = none) : fd.Failed (osRead count fd).2 := by
  unfold osRead at h ⊢
  split at h
  · rename_i hnone
    exact ⟨fd.calls, le_rfl, Nat.lt_succ_self _, hnone⟩
  · cases h

/-- What a call gives is the front of what is left: nothing only at the end of the file. -/
theorem osRead_some {count : ℕ} {bytes : Bytes} (h : (osRead count fd).1 = some bytes) :
    fd.rest = bytes ++ (osRead count fd).2.rest ∧ bytes.length ≤ count ∧
      (bytes = [] → count = 0 ∨ fd.rest = []) := by
  unfold osRead at h ⊢
  split at h
  · cases h
  · rename_i n hn
    obtain rfl := Option.some.inj h
    refine ⟨(List.take_append_drop _ _).symm, ?_, fun hnil => ?_⟩
    · rw [List.length_take]
      omega
    · have hlen := congrArg List.length hnil
      rw [List.length_take, List.length_nil, maxTransfer] at hlen
      rcases Nat.eq_zero_or_pos fd.rest.length with hrest | hrest
      · exact .inr (List.length_eq_zero_iff.1 hrest)
      · exact .inl (by omega)

theorem state_bind {m : StateM ReadFd α} {k : α → StateM ReadFd β} : (m >>= k) fd = k (m fd).1 (m fd).2 := rfl

/-- One turn of `ReadFull`. -/
theorem readFull_succ (fuel n : ℕ) (buf : Bytes) (fd : ReadFd) : readFull (fuel + 1) n buf fd =
    if n = 0 then (some buf, fd)
    else
      match (osRead n fd).1 with
      | none => (none, (osRead n fd).2)
      | some bytes =>
        if bytes = [] then (none, (osRead n fd).2)
        else readFull fuel (n - bytes.length) (buf ++ bytes) (osRead n fd).2 := by
  by_cases hn : n = 0
  · rw [readFull, if_pos hn, if_pos hn]
    rfl
  · rw [readFull, if_neg hn, if_neg hn, state_bind]
    cases (osRead n fd).1 with
    | none => rfl
    | some bytes =>
      by_cases hnil : bytes = []
      · simp only [hnil, if_true]
        rfl
      · simp only [hnil, if_false]

/-- **`ReadFull`** gets its bytes unless a call fails or the file is too short. -/
theorem readFull_spec {fuel n : ℕ} (hfuel : n ≤ fuel) (buf : Bytes) (fd : ReadFd) :
    fd.Later (readFull fuel n buf fd).2 ∧
      ((fd.Failed (readFull fuel n buf fd).2 ∧ (readFull fuel n buf fd).1 = none) ∨
        match WALReader.readFull fd.rest n with
        | some (a, rest) => (readFull fuel n buf fd).1 = some (buf ++ a) ∧ (readFull fuel n buf fd).2.rest = rest
        | none => (readFull fuel n buf fd).1 = none) := by
  induction fuel generalizing n buf fd with
  | zero =>
    obtain rfl : n = 0 := by omega
    refine ⟨.refl fd, .inr ?_⟩
    rw [WALReader.readFull, if_neg (by omega)]
    exact ⟨by rw [List.take_zero, List.append_nil]; rfl, rfl⟩
  | succ fuel ih =>
    rw [readFull_succ]
    split
    · rename_i hn
      refine ⟨.refl fd, .inr ?_⟩
      rw [WALReader.readFull, if_neg (by omega), hn]
      exact ⟨by simp, rfl⟩
    rename_i hn
    have hlater := osRead_later n fd
    cases hread : (osRead n fd).1 with
    | none => exact ⟨hlater, .inl ⟨osRead_none hread, rfl⟩⟩
    | some bytes =>
      obtain ⟨hrest, hle, hend⟩ := osRead_some hread
      dsimp only
      split
      · rename_i hnil
        refine ⟨hlater, .inr ?_⟩
        rw [(hend hnil).resolve_left hn, WALReader.readFull, if_pos (by simpa using Nat.pos_of_ne_zero hn)]
      · rename_i hne
        have hpos := List.length_pos_iff.2 hne
        obtain ⟨hlater', hcases⟩ := @ih (n - bytes.length) (by omega) (buf ++ bytes) (osRead n fd).2
        refine ⟨hlater.trans hlater', hcases.imp (fun h => ⟨h.1.after hlater, h.2⟩) fun h => ?_⟩
        -- the rest of the bytes comes from what this call has left
        rw [hrest]
        unfold WALReader.readFull at h ⊢
        rw [List.length_append]
        by_cases hshort : bytes.length + (osRead n fd).2.rest.length < n
        · rw [if_pos (by omega)] at h
          rw [if_pos hshort]
          exact h
        · rw [if_neg (by omega)] at h
          rw [if_neg hshort]
          refine ⟨?_, ?_⟩
          · rw [h.1, List.append_assoc, List.take_append, List.take_of_length_le hle]
          · rw [h.2, List.drop_append, List.drop_of_length_le hle, List.nil_append]

/-- **`m` reads what `f` does** from the bytes in front of it, or a call fails and it returns early. -/
def Tracks (m : ReadM α) (f : Bytes → Except Status (α × Bytes)) : Prop :=
  ∀ fd : ReadFd, fd.Later (m fd).2 ∧
    ((fd.Failed (m fd).2 ∧ ∃ e, (m fd).1 = .error e) ∨
      (m fd).1.map (fun a => (a, (m fd).2.rest)) = f fd.rest)

theorem tracks_pure (a : α) : Tracks (pure a) fun rest => .ok (a, rest) := fun fd => ⟨.refl fd, .inr rfl⟩

theorem tracks_throw (e : Status) : Tracks (throw e : ReadM α) fun _ => .error e :=
  fun fd => ⟨.refl fd, .inr rfl⟩

theorem bind_error {m : ReadM α} {k : α → ReadM β} {e : Status} (h : (m fd).1 = .error e) :
    (m >>= k) fd = (.error e, (m fd).2) := by
  simp only [Bind.bind, ExceptT.bind, ExceptT.mk, StateT.bind]
  generalize m fd = x at h ⊢
  obtain ⟨r, fd'⟩ := x
  obtain rfl : r = .error e := h
  rfl

theorem bind_ok {m : ReadM α} {k : α → ReadM β} {a : α} (h : (m fd).1 = .ok a) :
    (m >>= k) fd = k a (m fd).2 := by
  simp only [Bind.bind, ExceptT.bind, ExceptT.mk, StateT.bind]
  generalize m fd = x at h ⊢
  obtain ⟨r, fd'⟩ := x
  obtain rfl : r = .ok a := h
  rfl

/-- **Reading one thing after another.** -/
theorem Tracks.bind {m : ReadM α} {f : Bytes → Except Status (α × Bytes)} {k : α → ReadM β}
    {g : α → Bytes → Except Status (β × Bytes)} (hm : Tracks m f) (hk : ∀ a, Tracks (k a) (g a)) :
    Tracks (m >>= k) fun rest => f rest >>= fun p => g p.1 p.2 := by
  intro fd
  obtain ⟨hlater, hcases⟩ := hm fd
  cases hres : (m fd).1 with
  | error e =>
    rw [bind_error hres]
    rw [hres] at hcases
    refine ⟨hlater, hcases.imp (fun h => ⟨h.1, e, rfl⟩) fun h => ?_⟩
    dsimp only
    rw [← h]
    rfl
  | ok a =>
    rw [bind_ok hres]
    rw [hres] at hcases
    obtain ⟨hlater', hcases'⟩ := hk a (m fd).2
    refine ⟨hlater.trans hlater', ?_⟩
    rcases hcases with ⟨-, e, he⟩ | h
    · cases he
    · refine hcases'.imp (fun h => ⟨h.1.after hlater, h.2⟩) fun h' => ?_
      dsimp only
      rw [← h]
      exact h'

theorem lift_bind {m : StateM ReadFd α} {k : α → ReadM β} :
    ((liftM m : ReadM α) >>= k) fd = k (m fd).1 (m fd).2 := rfl

/-- The bytes of a field. -/
theorem readField_tracks (n : ℕ) (field : String) : Tracks (readField n field) fun rest =>
    match WALReader.readFull rest n with
    | some p => .ok p
    | none => .error (.corruption ("WALReader: unexpected EOF reading " ++ field)) := by
  intro fd
  obtain ⟨hlater, hcases⟩ := readFull_spec le_rfl [] fd
  rw [readField, lift_bind]
  cases hres : (readFull n n [] fd).1 with
  | none =>
    refine ⟨hlater, hcases.imp (fun h => ⟨h.1, _, rfl⟩) fun h => ?_⟩
    dsimp only
    cases hpure : WALReader.readFull fd.rest n with
    | none => rfl
    | some p =>
      rw [hpure, hres] at h
      cases h.1
  | some bytes =>
    rw [hres] at hcases
    refine ⟨hlater, hcases.imp (fun h => (nomatch h.2)) fun h => ?_⟩
    dsimp only
    cases hpure : WALReader.readFull fd.rest n with
    | none =>
      rw [hpure] at h
      cases h
    | some p =>
      rw [hpure] at h
      obtain ⟨hbytes, hrest⟩ := h
      obtain rfl : bytes = p.1 := Option.some.inj hbytes
      exact congrArg (fun rest => Except.ok (p.1, rest)) hrest

/-- **The bytes of a length.** -/
theorem readLength_tracks (field : String) {fuel shift : ℕ} (hfuel : 35 ≤ shift + 7 * fuel) (hshift : shift < 35)
    (len : ℕ) (raw : Bytes) : Tracks (readLength field fuel shift len raw) fun rest =>
      (WALReader.readLength field rest shift len raw).map fun p => ((p.1, p.2.1), p.2.2) := by
  induction fuel generalizing shift len raw with
  | zero => omega
  | succ fuel ih =>
    intro fd
    have hlater := osRead_later 1 fd
    rw [readLength, lift_bind]
    cases hread : (osRead 1 fd).1 with
    | none => exact ⟨hlater, .inl ⟨osRead_none hread, _, rfl⟩⟩
    | some bytes =>
      obtain ⟨hrest, hle, hend⟩ := osRead_some hread
      cases bytes with
      | nil =>
        refine ⟨hlater, .inr ?_⟩
        dsimp only
        rw [(hend rfl).resolve_left (by decide), WALReader.readLength]
        rfl
      | cons b bytes =>
        obtain rfl : bytes = [] := by
          rw [List.length_cons] at hle
          exact List.length_eq_zero_iff.1 (by omega)
        dsimp only
        rw [hrest, List.singleton_append, WALReader.readLength]
        by_cases hover : 35 ≤ shift + 7
        · rw [if_pos hover, if_pos hover]
          exact ⟨hlater, .inr rfl⟩
        rw [if_neg hover, if_neg hover]
        by_cases hb : b &&& 0x80 = 0
        · rw [if_pos hb, if_pos hb]
          exact ⟨hlater, .inr rfl⟩
        · rw [if_neg hb, if_neg hb]
          obtain ⟨hlater', hcases⟩ := @ih (shift + 7) (by omega) (by omega) (len ||| Leb128.payload 32 shift b)
            (raw ++ [b]) (osRead 1 fd).2
          exact ⟨hlater.trans hlater', hcases.imp (fun h => ⟨h.1.after hlater, h.2⟩) id⟩

/-- A check that returns early. -/
theorem tracks_ite {p : Prop} [Decidable p] {m m' : ReadM α} {f f' : Bytes → Except Status (α × Bytes)}
    (h : p → Tracks m f) (h' : ¬p → Tracks m' f') :
    Tracks (if p then m else m') fun rest => if p then f rest else f' rest := by
  by_cases hp : p
  · simpa only [hp, if_true] using h hp
  · simpa only [hp, if_false] using h' hp

/-- **`ReadRecord`** behind the type byte. -/
theorem record_tracks (type : UInt8) : Tracks (do
    let (keyLen, raw) ← readLength "key_len" 5 0 0 [type]
    let key ← readField keyLen "key"
    let (valueLen, raw) ← readLength "value_len" 5 0 0 (raw ++ key)
    let value ← readField valueLen "value"
    let crcBuf ← readField 4 "CRC"
    if decodeFixed32 crcBuf ≠ some (crc32 (raw ++ value)) then
      throw (.corruption "WALReader: CRC mismatch")
    return some ⟨type, key, value⟩) fun rest =>
      (WALReader.readRecord (type :: rest)).map fun o => (o.map Prod.fst, (o.map Prod.snd).getD []) := by
  have h := (readLength_tracks "key_len" (show 35 ≤ 0 + 7 * 5 by decide) (by decide) 0 [type]).bind
    fun p => (readField_tracks p.1 "key").bind
    fun key => (readLength_tracks "value_len" (show 35 ≤ 0 + 7 * 5 by decide) (by decide) 0 (p.2 ++ key)).bind
    fun q => (readField_tracks q.1 "value").bind
    fun value => (readField_tracks 4 "CRC").bind
    fun crcBuf => tracks_ite (p := decodeFixed32 crcBuf ≠ some (crc32 (q.2 ++ value)))
      (fun _ => @tracks_throw (Option Record) (.corruption "WALReader: CRC mismatch"))
      fun _ => tracks_pure (some (⟨type, key, value⟩ : Record))
  refine Eq.mp (congrArg₂ Tracks rfl (funext fun rest => ?_)) h
  -- one case for each early return
  simp only [WALReader.readRecord, bind, Except.bind]
  cases WALReader.readLength "key_len" rest 0 0 [type] with
  | error e => rfl
  | ok p =>
    obtain ⟨keyLen, raw, rest⟩ := p
    simp only [Except.map]
    cases WALReader.readFull rest keyLen with
    | none => rfl
    | some p =>
      obtain ⟨key, rest⟩ := p
      dsimp only
      cases WALReader.readLength "value_len" rest 0 0 (raw ++ key) with
      | error e => rfl
      | ok p =>
        obtain ⟨valueLen, raw', rest⟩ := p
        dsimp only
        cases WALReader.readFull rest valueLen with
        | none => rfl
        | some p =>
          obtain ⟨value, rest⟩ := p
          dsimp only
          cases WALReader.readFull rest 4 with
          | none => rfl
          | some p =>
            dsimp only
            by_cases hcrc : decodeFixed32 p.1 ≠ some (crc32 (raw' ++ value))
            · rw [if_pos hcrc, if_pos hcrc]
              rfl
            · rw [if_neg hcrc, if_neg hcrc]
              rfl

/-- **`ReadRecord`** reads what the model does, or a call fails. -/
theorem readRecord_tracks : Tracks readRecord fun rest =>
    (WALReader.readRecord rest).map fun o => (o.map Prod.fst, (o.map Prod.snd).getD []) := by
  intro fd
  have hlater := osRead_later 1 fd
  rw [readRecord, lift_bind]
  cases hread : (osRead 1 fd).1 with
  | none => exact ⟨hlater, .inl ⟨osRead_none hread, _, rfl⟩⟩
  | some bytes =>
    obtain ⟨hrest, hle, hend⟩ := osRead_some hread
    cases bytes with
    | nil =>
      have hnil := (hend rfl).resolve_left (by decide)
      have hafter : (osRead 1 fd).2.rest = [] := by rw [← hnil, hrest, List.nil_append]
      refine ⟨hlater, .inr ?_⟩
      dsimp only
      rw [hnil]
      exact congrArg (fun rest => Except.ok (none, rest)) hafter
    | cons type bytes =>
      obtain rfl : bytes = [] := by
        rw [List.length_cons] at hle
        exact List.length_eq_zero_iff.1 (by omega)
      obtain ⟨hlater', hcases⟩ := record_tracks type (osRead 1 fd).2
      dsimp only
      rw [hrest]
      exact ⟨hlater.trans hlater', hcases.imp (fun h => ⟨h.1.after hlater, h.2⟩) id⟩

/-- **The loop of `Recover`** delivers a part from the front of what it delivers without failures. -/
theorem recoverLoop_spec (n : ℕ) (fd : ReadFd) :
    (recoverLoop n fd).1 <+: WALReader.recoverLoop n fd.rest ∧
      ((∀ k, fd.results k ≠ none) → (recoverLoop n fd).1 = WALReader.recoverLoop n fd.rest) := by
  induction n generalizing fd with
  | zero => exact ⟨List.prefix_rfl, fun _ => rfl⟩
  | succ n ih =>
    obtain ⟨hlater, hcases⟩ := readRecord_tracks fd
    dsimp only at hcases
    rw [recoverLoop, state_bind, WALReader.recoverLoop]
    cases hres : (readRecord.run fd).1 with
    | error e =>
      refine ⟨List.nil_prefix, fun hnone => ?_⟩
      rcases hcases with ⟨⟨k, -, -, hk⟩, -⟩ | h
      · exact absurd hk (hnone k)
      · rw [show (readRecord fd).1 = .error e from hres] at h
        cases hpure : WALReader.readRecord fd.rest with
        | error e' => rfl
        | ok o =>
          rw [hpure] at h
          cases h
    | ok o =>
      rw [show (readRecord fd).1 = .ok o from hres] at hcases
      have h := hcases.resolve_left (by
        rintro ⟨-, e, he⟩
        cases he)
      cases hpure : WALReader.readRecord fd.rest with
      | error e' =>
        rw [hpure] at h
        cases h
      | ok o' =>
        rw [hpure] at h
        have heq := Prod.ext_iff.1 (Except.ok.inj h)
        cases o' with
        | none =>
          obtain rfl : o = none := heq.1
          exact ⟨List.prefix_rfl, fun _ => rfl⟩
        | some p =>
          obtain ⟨r, rest⟩ := p
          obtain rfl : o = some r := heq.1
          obtain rfl : (readRecord fd).2.rest = rest := heq.2
          obtain ⟨hfront, hall⟩ := ih (readRecord fd).2
          exact ⟨List.cons_prefix_cons.2 ⟨rfl, hfront⟩,
            fun hnone => congrArg (List.cons r) (hall (hlater.results ▸ hnone))⟩

end ReadFd

/-! ## Histories -/

namespace LogFile

/-- **The log through system calls.** Take any history of a log file made of `AddRecord` calls, whatever
each of their calls of `write` does, of crashes and of openings, in which no byte is put behind a torn
record. Then `Recover`, whatever its calls of `read` do, delivers a part from the front of the records
whose `AddRecord` returned OK and that no crash cut, and all of them if no call fails. And an `AddRecord`
each of whose calls takes a byte or fails returns within as many calls as its record has bytes. -/
theorem recover_history {f : LogFile} {fuel : ℕ} (h : Reach (stepBy fuel) AtEndCall [] f) :
    (∀ results, (ReadFd.recover { rest := f.file, results := results }).2 <+: f.kept ∧
      ((∀ k, results k ≠ none) → (ReadFd.recover { rest := f.file, results := results }).2 = f.kept)) ∧
    ∀ (r : Record) (results : ℕ → Option ℕ), (∀ k, results k ≠ some 0) →
      (f.addRecordBy r results (WALWriter.addRecord r).length).isSome := by
  have hreach : Reach LogFile.step AtEnd [] f := h.map id fun _ _ _ hok hs => by
    obtain ⟨e, hend, hstep⟩ := stepBy_step hok hs
    exact .next .start hend hstep
  have hkept : WALReader.recover f.file = f.kept := (Prod.ext_iff.1 (recoverFile_history hreach)).2
  refine ⟨fun results => ?_, fun r results hsome => ?_⟩
  · rw [← hkept]
    exact ReadFd.recoverLoop_spec f.file.length { rest := f.file, results := results }
  · have hends := @WriteFd.writeFull_ends { file := f.file, results := results } _ _ hsome
      (le_refl (WALWriter.addRecord r).length)
    obtain ⟨p, hp⟩ := Option.isSome_iff_exists.1 hends
    rw [addRecordBy, hp]
    rfl

instance (f : LogFile) (c : LogCall) : Decidable (f.AtEndCall c) := by
  unfold AtEndCall
  split <;> infer_instance

/-- Two records by calls of three bytes each and a third that fails behind its sixth byte, which a crash takes
away. -/
def shortCalls : List LogCall :=
  [.addRecord ⟨1, [107], [118]⟩ fun _ => some 3, .addRecord ⟨2, [107], []⟩ fun _ => some 3,
    .addRecord ⟨1, [108], [119]⟩ fun k => if k = 2 then none else some 3, .crash 0, .reopen]

/-- What a read of it delivers that fails in its fourteenth call. -/
theorem recover_history_shortCalls : ∃ f, run (stepBy 11) AtEndCall [] shortCalls = some f ∧
    f.kept = [⟨1, [107], [118]⟩, ⟨2, [107], []⟩] ∧
    (ReadFd.recover { rest := f.file, results := fun k => if k = 13 then none else some 0 }).2 <+: f.kept ∧
    (ReadFd.recover { rest := f.file, results := fun _ => some 0 }).2 = f.kept := by
  have hrun : (run (stepBy 11) AtEndCall [] shortCalls).map kept =
      some [⟨1, [107], [118]⟩, ⟨2, [107], []⟩] := by
    decide +kernel
  obtain ⟨f, hf, hkept⟩ := Option.map_eq_some_iff.1 hrun
  have hreads := (recover_history (reach_of_run hf)).1
  exact ⟨f, hf, hkept, (hreads _).1, (hreads _).2 fun k => by simp⟩

end LogFile

end MiniLSM
