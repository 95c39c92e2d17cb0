import MiniLSM.Spec.BlockReads
import MiniLSM.Lib.Transition

/-!
# Reading blocks from many threads

* `Sound s`: the call inside `ReadBlock` holds the lock, and the position of the file is where it left it.
* `Sound.step`: every step keeps that.
* `readBlock_apart`: so each call gets what it would get alone, and the lock is always given back.
-/

namespace MiniLSM

open Transition

/-- Between taking and releasing the lock. -/
def ReadPlace.inside : ReadPlace → Bool
  | .seek | .loop _ | .unlock _ _ => true
  | _ => false

/-- How many steps a call of `size` bytes has left inside, at most. -/
def ReadPlace.left (size : ℕ) : ReadPlace → ℕ
  | .seek => size + 3
  | .loop buf => size - buf.length + 2
  | .unlock _ _ => 1
  | _ => 0

/-- What `ReadBlock` returns, by the bytes that are there. -/
theorem readBlock_eq (t : SSTable) {offset size : ℕ} (h : offset < 2 ^ 63) (hsize : size < 2 ^ 63) :
    t.readBlock offset size =
      if ((t.data.drop offset).take size).length = size then .ok ((t.data.drop offset).take size)
      else .error (.status (.ioError "SSTable::ReadBlock: fread failed")) := by
  rw [SSTable.readBlock, filePRead, fileRead, if_neg (by omega), if_neg (by omega)]
  by_cases hlen : ((t.data.drop offset).take size).length = size <;> simp only [hlen, if_true, if_false]

theorem readBlock_large (t : SSTable) {offset size : ℕ} (h : 2 ^ 63 ≤ offset) (hsize : size < 2 ^ 63) :
    t.readBlock offset size = .error (.status (.ioError "SSTable::ReadBlock: fread failed")) := by
  rw [SSTable.readBlock, filePRead, fileRead, if_neg (by omega), if_pos h]

namespace BlockCall

variable {t : SSTable} {offset size : ℕ} {failed ok : Bool} {buf : Bytes}

/-- **What a call gets**: all bytes, and OK, or the front of them. Without failures it is what a call
alone gets. -/
structure Reads (t : SSTable) (offset size : ℕ) (failed ok : Bool) (buf : Bytes) : Prop where
  front : buf <+: (t.data.drop offset).take size
  alone : failed = false → buf = (fileRead t.data size offset).getD []
  whole : ok = true → t.readBlock offset size = .ok buf
  refused : ok = false → failed = true ∨
    t.readBlock offset size = .error (.status (.ioError "SSTable::ReadBlock: fread failed"))

/-- What a call has read so far is right. -/
def Right (t : SSTable) (c : BlockCall) : Prop :=
  c.size < 2 ^ 63 ∧ match c.place with
  | .lock | .seek => c.failed = false
  | .loop buf => c.failed = false ∧ c.offset < 2 ^ 63 ∧ buf.length ≤ c.size ∧
      buf = (t.data.drop c.offset).take buf.length
  | .unlock ok buf | .returned ok buf => Reads t c.offset c.size c.failed ok buf

/-- `fseek` refuses. -/
theorem reads_of_fseek (hsize : size < 2 ^ 63) (h : failed = decide (offset < 2 ^ 63)) :
    Reads t offset size failed false [] where
  front := List.nil_prefix
  alone hfailed := by
    rw [hfailed] at h
    rw [fileRead, if_pos (by simpa using h.symm)]
    rfl
  whole h := nomatch h
  refused _ := by
    by_cases hlt : offset < 2 ^ 63
    · exact .inl (by rw [h, decide_eq_true hlt])
    · exact .inr (readBlock_large t (by omega) hsize)

/-- The loop ends with all bytes. -/
theorem reads_of_full (hsize : size < 2 ^ 63) (hlt : offset < 2 ^ 63) (hlen : buf.length = size)
    (hbuf : buf = (t.data.drop offset).take buf.length) : Reads t offset size failed true buf := by
  rw [hlen] at hbuf
  refine ⟨hbuf ▸ List.prefix_rfl, fun _ => ?_, fun _ => ?_, fun h => nomatch h⟩
  · rw [fileRead, if_neg (by omega)]
    exact hbuf
  · rw [readBlock_eq t hlt hsize, ← hbuf, if_pos hlen]

/-- The loop ends because `fread` gives nothing. -/
theorem reads_of_short (hsize : size < 2 ^ 63) (hlt : offset < 2 ^ 63) (hlen : buf.length < size)
    (hbuf : buf = (t.data.drop offset).take buf.length)
    (hfailed : failed = decide (offset + buf.length < t.data.length)) :
    Reads t offset size failed false buf := by
  have hend : t.data.length ≤ offset + buf.length → (t.data.drop offset).take size = buf := by
    intro hle
    have hdrop : (t.data.drop offset).length ≤ buf.length := by
      rw [List.length_drop]
      omega
    rw [List.take_of_length_le (hdrop.trans hlen.le), ← List.take_of_length_le hdrop, ← hbuf]
  refine ⟨?_, fun h => ?_, fun h => (nomatch h), fun _ => ?_⟩
  · rw [hbuf]
    exact List.take_prefix_take_left hlen.le
  · rw [hfailed, decide_eq_false_iff_not] at h
    rw [fileRead, if_neg (by omega)]
    exact (hend (by omega)).symm
  · rw [hfailed, decide_eq_true_eq]
    by_cases hmore : offset + buf.length < t.data.length
    · exact .inl hmore
    · refine .inr ?_
      rw [readBlock_eq t hlt hsize, hend (by omega), if_neg (by omega)]

end BlockCall

namespace BlockReads

variable {s s' : BlockReads} {i : ℕ} {c c' : BlockCall}

/-- **Whoever is inside holds the lock**, and the position of the file is behind what it has read. -/
structure Sound (s : BlockReads) : Prop where
  inside : ∀ i c, s.calls[i]? = some c → (c.place.inside = true ↔ s.owner = some i)
  owner : ∀ i, s.owner = some i → i < s.calls.length
  pos : ∀ (i : ℕ) c buf, s.calls[i]? = some c → c.place = .loop buf → s.pos = c.offset + buf.length
  right : ∀ c ∈ s.calls, c.Right s.table

theorem start_sound (t : SSTable) : Sound { table := t } where
  inside _ _ h := nomatch h
  owner _ h := nomatch h
  pos _ _ _ h := nomatch h
  right := by simp

/-- A thread calls `ReadBlock`. -/
theorem Sound.call (h : s.Sound) (offset : ℕ) {size : ℕ} (hsize : size < 2 ^ 63) :
    Sound { s with calls := s.calls ++ [{ offset := offset, size := size }] } := by
  have hcases : ∀ {i : ℕ} {c}, (s.calls ++ [({ offset := offset, size := size } : BlockCall)])[i]? = some c →
      s.calls[i]? = some c ∨ i = s.calls.length ∧ c.place = .lock := by
    intro i c hi
    rw [List.getElem?_append] at hi
    split at hi
    · exact .inl hi
    · obtain ⟨hlt, rfl⟩ := List.getElem?_eq_some_iff.1 hi
      rw [List.length_singleton] at hlt
      exact .inr ⟨by omega, by simp⟩
  refine ⟨fun i c hi => ?_, fun i hi => ?_, fun i c buf hi hloop => ?_, fun c hc => ?_⟩
  · rcases hcases hi with hi | ⟨rfl, hplace⟩
    · exact h.inside i c hi
    · rw [hplace]
      refine ⟨fun hin => (nomatch hin), fun hown => absurd (h.owner _ hown) (lt_irrefl _)⟩
  · exact lt_of_lt_of_le (h.owner i hi) (by simp)
  · rcases hcases hi with hi | ⟨-, hplace⟩
    · exact h.pos i c buf hi hloop
    · rw [hplace] at hloop
      cases hloop
  · rcases List.mem_append.1 hc with hc | hc
    · exact h.right c hc
    · rw [List.mem_singleton.1 hc]
      exact ⟨hsize, rfl⟩

/-- **The holder goes on**, or takes a free lock. -/
theorem Sound.goTo (h : s.Sound) (hi : s.calls[i]? = some c) (hown : s.owner = some i ∨ s.owner = none)
    (hcalls : s'.calls = s.calls.set i c') (htable : s'.table = s.table)
    (howner : s'.owner = if c'.place.inside then some i else none)
    (hpos : ∀ buf, c'.place = .loop buf → s'.pos = c'.offset + buf.length) (hright : c'.Right s.table) :
    s'.Sound := by
  have hlt : i < s.calls.length := (List.getElem?_eq_some_iff.1 hi).1
  have hcases : ∀ {j d}, s'.calls[j]? = some d → j = i ∧ d = c' ∨ j ≠ i ∧ s.calls[j]? = some d := by
    intro j d hj
    rw [hcalls] at hj
    by_cases heq : j = i
    · subst heq
      rw [List.getElem?_set_self hlt] at hj
      exact .inl ⟨rfl, (Option.some.inj hj).symm⟩
    · rw [List.getElem?_set_ne (Ne.symm heq)] at hj
      exact .inr ⟨heq, hj⟩
  -- nobody else is inside
  have hout : ∀ {j d}, j ≠ i → s.calls[j]? = some d → d.place.inside = false := by
    intro j d hne hj
    by_contra hin
    have := (h.inside j d hj).1 (by simpa using hin)
    rcases hown with hown | hown <;> rw [hown] at this
    · exact hne (Option.some.inj this).symm
    · cases this
  refine ⟨fun j d hj => ?_, fun j hj => ?_, fun j d buf hj hloop => ?_, fun d hd => ?_⟩
  · rcases hcases hj with ⟨rfl, rfl⟩ | ⟨hne, hj⟩
    · rw [howner]
      split <;> simp [*]
    · rw [hout hne hj, howner]
      split <;> simp [Ne.symm hne]
  · rw [howner] at hj
    split at hj
    · rw [hcalls, List.length_set, ← Option.some.inj hj]
      exact hlt
    · cases hj
  · rcases hcases hj with ⟨rfl, rfl⟩ | ⟨hne, hj⟩
    · exact hpos buf hloop
    · have := hout hne hj
      rw [hloop] at this
      cases this
  · rw [htable]
    rw [hcalls] at hd
    rcases List.mem_or_eq_of_mem_set hd with hd | rfl
    · exact h.right d hd
    · exact hright

/-- **No step disturbs a read.** -/
theorem Sound.step (h : s.Sound) {l : ReadLabel} (hs : s.step l = some s') : s'.Sound := by
  cases l with
  | call offset size =>
    rw [BlockReads.step] at hs
    split at hs
    · cases hs
    · obtain rfl := Option.some.inj hs
      exact h.call offset (by omega)
  | lock i =>
    rw [BlockReads.step] at hs
    split at hs
    · rename_i c hi hown
      split at hs
      · rename_i hplace
        obtain rfl := Option.some.inj hs
        have hright := h.right c (List.mem_of_getElem? hi)
        rw [BlockCall.Right, hplace] at hright
        exact h.goTo hi (.inr hown) rfl rfl rfl (fun _ h => nomatch h) hright
      · cases hs
    · cases hs
  | fseek i ok =>
    rw [BlockReads.step] at hs
    split at hs
    · rename_i c hi
      split at hs
      · rename_i hplace
        have hown := (h.inside i c hi).1 (by rw [hplace]; rfl)
        have hright := h.right c (List.mem_of_getElem? hi)
        rw [BlockCall.Right, hplace] at hright
        split at hs
        · rename_i hok
          obtain rfl := Option.some.inj hs
          rw [Bool.and_eq_true, decide_eq_true_eq] at hok
          refine h.goTo hi (.inl hown) rfl rfl hown (fun buf hloop => ?_)
            ⟨hright.1, hright.2, hok.2, Nat.zero_le _, rfl⟩
          obtain rfl := ReadPlace.loop.inj hloop
          rfl
        · obtain rfl := Option.some.inj hs
          exact h.goTo hi (.inl hown) rfl rfl hown (fun _ h => nomatch h)
            ⟨hright.1, BlockCall.reads_of_fseek hright.1 (by rw [show c.failed = false from hright.2,
              Bool.false_or])⟩
      · cases hs
    · cases hs
  | turn i n =>
    rw [BlockReads.step] at hs
    split at hs
    · rename_i c hi
      split at hs
      · rename_i buf hplace
        have hown := (h.inside i c hi).1 (by rw [hplace]; rfl)
        have hpos := h.pos i c buf hi hplace
        have hright := h.right c (List.mem_of_getElem? hi)
        rw [BlockCall.Right, hplace] at hright
        obtain ⟨hsize, hfailed, hlt, hle, hbuf⟩ := hright
        rw [hpos] at hs
        split at hs
        · rename_i hshort
          dsimp only at hs
          split at hs
          · obtain rfl := Option.some.inj hs
            exact h.goTo hi (.inl hown) rfl rfl hown (fun _ h => nomatch h)
              ⟨hsize, BlockCall.reads_of_short hsize hlt hshort hbuf (by rw [hfailed, Bool.false_or])⟩
          · obtain rfl := Option.some.inj hs
            set bytes := (s.table.data.drop (c.offset + buf.length)).take (min n (c.size - buf.length)) with hbytes
            have hlen : bytes.length ≤ c.size - buf.length := by
              rw [hbytes, List.length_take]
              omega
            have htake : bytes = (s.table.data.drop (c.offset + buf.length)).take bytes.length := by
              rw [hbytes, List.length_take, ← List.take_eq_take_min]
            refine h.goTo hi (.inl hown) rfl rfl hown (fun buf' hloop => ?_) ⟨hsize, hfailed, hlt, ?_, ?_⟩
            · obtain rfl := ReadPlace.loop.inj hloop
              rw [List.length_append, ← Nat.add_assoc]
              rfl
            · rw [List.length_append]
              exact Nat.add_le_of_le_sub' hle hlen
            · rw [List.length_append, List.take_add, ← hbuf, List.drop_drop, ← htake]
        · have hfull : buf.length = c.size := by omega
          obtain rfl := Option.some.inj hs
          exact h.goTo hi (.inl hown) rfl rfl hown (fun _ h => nomatch h)
            ⟨hsize, BlockCall.reads_of_full hsize hlt hfull hbuf⟩
      · cases hs
    · cases hs
  | unlock i =>
    rw [BlockReads.step] at hs
    split at hs
    · rename_i c hi
      split at hs
      · rename_i ok buf hplace
        obtain rfl := Option.some.inj hs
        have hown := (h.inside i c hi).1 (by rw [hplace]; rfl)
        have hright := h.right c (List.mem_of_getElem? hi)
        rw [BlockCall.Right, hplace] at hright
        exact h.goTo hi (.inl hown) rfl rfl rfl (fun _ h => nomatch h) hright
      · cases hs
    · cases hs

theorem sound_of_reach {t : SSTable} (h : Reach step (fun _ _ => True) { table := t } s) :
    s.Sound ∧ s.table = t := by
  refine h.invariant (I := fun s => s.Sound ∧ s.table = t) ⟨start_sound t, rfl⟩ fun s l s' ⟨hsound, ht⟩ _ hs =>
    ⟨hsound.step hs, ?_⟩
  rw [← ht]
  cases l <;> simp only [BlockReads.step] at hs <;> (repeat' split at hs) <;> cases hs <;> rfl

/-! ## The lock is given back -/

/-- How many steps the holder of the lock has left, at most. -/
def left (s : BlockReads) : ℕ := ((s.owner.bind (s.calls[·]?)).map fun c => ReadPlace.left c.size c.place).getD 0

theorem left_eq (hi : s.calls[i]? = some c) (hown : s.owner = some i) : s.left = ReadPlace.left c.size c.place := by
  rw [left, hown, Option.bind_some, hi]
  rfl

theorem left_goTo (hi : s.calls[i]? = some c) (hown : s.owner = some i) (d : BlockCall) (place : ReadPlace) :
    (s.goTo i d place).left = place.left d.size :=
  @left_eq (s.goTo i d place) i { d with place := place }
    (List.getElem?_set_self (List.getElem?_eq_some_iff.1 hi).1) hown

/-- **Every step of the holder** brings it closer to giving the lock back, and nobody else has one but new
callers. -/
theorem Sound.step_left (h : s.Sound) (hown : s.owner = some i) {l : ReadLabel} (hs : s.step l = some s') :
    (∃ offset size, l = .call offset size) ∧ s'.owner = some i ∧ s'.left = s.left ∨ s'.left < s.left := by
  have hself : ∀ {j c}, s.calls[j]? = some c → c.place.inside = true → s.owner = some j := fun hj hin =>
    (h.inside _ _ hj).1 hin
  cases l with
  | call offset size =>
    rw [BlockReads.step] at hs
    split at hs
    · cases hs
    · obtain rfl := Option.some.inj hs
      refine .inl ⟨⟨offset, size, rfl⟩, hown, ?_⟩
      rw [left, left, hown, Option.bind_some, Option.bind_some, List.getElem?_append_left (h.owner i hown)]
  | lock j =>
    rw [BlockReads.step, hown] at hs
    split at hs
    · cases ‹_ = none›
    · cases hs
  | fseek j ok =>
    rw [BlockReads.step] at hs
    split at hs
    · rename_i c hj
      split at hs
      · rename_i hplace
        have hj' := hself hj (by rw [hplace]; rfl)
        refine .inr ?_
        rw [left_eq hj hj', hplace]
        split at hs <;> obtain rfl := Option.some.inj hs
        · rw [left_goTo (s := { s with pos := c.offset }) hj hj']
          simp [ReadPlace.left]
        · rw [left_goTo hj hj']
          simp [ReadPlace.left]
      · cases hs
    · cases hs
  | turn j n =>
    rw [BlockReads.step] at hs
    split at hs
    · rename_i c hj
      split at hs
      · rename_i buf hplace
        have hj' := hself hj (by rw [hplace]; rfl)
        refine .inr ?_
        rw [left_eq hj hj', hplace]
        split at hs
        · rename_i hshort
          dsimp only at hs
          generalize (s.table.data.drop s.pos).take (min n (c.size - buf.length)) = bytes at hs
          split at hs
          · obtain rfl := Option.some.inj hs
            rw [left_goTo hj hj']
            simp [ReadPlace.left]
          · rename_i hne
            obtain rfl := Option.some.inj hs
            have hpos := List.length_pos_iff.2 hne
            rw [left_goTo (s := { s with pos := s.pos + bytes.length }) hj hj']
            simp only [ReadPlace.left, List.length_append]
            omega
        · obtain rfl := Option.some.inj hs
          rw [left_goTo hj hj']
          simp [ReadPlace.left]
      · cases hs
    · cases hs
  | unlock j =>
    rw [BlockReads.step] at hs
    split at hs
    · rename_i c hj
      split at hs
      · rename_i ok buf hplace
        obtain rfl := Option.some.inj hs
        rw [left_eq hj (hself hj (by rw [hplace]; rfl)), hplace]
        exact .inr Nat.one_pos
      · cases hs
    · cases hs

/-- **The holder can go on.** -/
theorem Sound.holder_can (h : s.Sound) (hown : s.owner = some i) :
    ∃ l, (∀ offset size, l ≠ .call offset size) ∧ (s.step l).isSome := by
  obtain ⟨c, hi⟩ : ∃ c, s.calls[i]? = some c := ⟨_, List.getElem?_eq_getElem (h.owner i hown)⟩
  have hin := (h.inside i c hi).2 hown
  cases hplace : c.place with
  | lock | returned => rw [hplace] at hin; cases hin
  | seek =>
    refine ⟨.fseek i false, (fun _ _ h => nomatch h), ?_⟩
    simp [BlockReads.step, hi, hplace]
  | loop buf =>
    refine ⟨.turn i 0, (fun _ _ h => nomatch h), ?_⟩
    by_cases hshort : buf.length < c.size <;> simp [BlockReads.step, hi, hplace, hshort]
  | unlock ok buf =>
    refine ⟨.unlock i, (fun _ _ h => nomatch h), ?_⟩
    simp [BlockReads.step, hi, hplace]

theorem Sound.left_le (h : s.Sound) (hown : s.owner = some i) :
    ∃ c, s.calls[i]? = some c ∧ s.left ≤ c.size + 3 := by
  obtain ⟨c, hi⟩ : ∃ c, s.calls[i]? = some c := ⟨_, List.getElem?_eq_getElem (h.owner i hown)⟩
  refine ⟨c, hi, ?_⟩
  rw [left_eq hi hown]
  cases c.place <;> simp only [ReadPlace.left] <;> omega

/-- **Reads of one table do not disturb each other.** Let any number of threads call `ReadBlock` on a table, with
their steps in any order, `fseek` refusing at will and `fread` giving as few bytes as it likes. Then every call
that has returned has got what it would get alone, up to failures of its own; at most one is inside; when nobody
is, every call at the lock can go in; and when one is, some step can be taken, and every step but a new call
brings it closer to giving the lock back, from which it is at most three steps more than its size away. -/
theorem readBlock_apart {t : SSTable} (h : Reach step (fun _ _ => True) { table := t } s) :
    (∀ c ∈ s.calls, ∀ ok buf, c.place = .returned ok buf → BlockCall.Reads t c.offset c.size c.failed ok buf) ∧
    (∀ (i j : ℕ) c d, s.calls[i]? = some c → s.calls[j]? = some d → c.place.inside = true →
      d.place.inside = true → i = j) ∧
    (s.owner = none → ∀ (i : ℕ) c, s.calls[i]? = some c → c.place = .lock → (s.step (.lock i)).isSome) ∧
    ∀ i, s.owner = some i →
      (∃ l, (∀ offset size, l ≠ .call offset size) ∧ (s.step l).isSome) ∧
      (∃ c, s.calls[i]? = some c ∧ s.left ≤ c.size + 3) ∧
      ∀ l s', s.step l = some s' →
        (∃ offset size, l = .call offset size) ∧ s'.owner = some i ∧ s'.left = s.left ∨ s'.left < s.left := by
  obtain ⟨hsound, rfl⟩ := sound_of_reach h
  refine ⟨fun c hc ok buf hplace => ?_, fun i j c d hi hj hc hd => ?_, fun hown i c hi hplace => ?_,
    fun i hown => ⟨hsound.holder_can hown, hsound.left_le hown, fun l s' hs => hsound.step_left hown hs⟩⟩
  · have hright := hsound.right c hc
    rw [BlockCall.Right, hplace] at hright
    exact hright.2
  · have hown := (hsound.inside i c hi).1 hc
    rw [(hsound.inside j d hj).1 hd] at hown
    exact (Option.some.inj hown).symm
  · simp [step, hi, hown, hplace]

/-- Three calls, of which the second comes first, a call of `fread` fails in the third, and the first reads
past the end. -/
def overlapping : List ReadLabel :=
  [.call 4 3, .call 1 3, .lock 1, .fseek 1 true, .turn 1 2, .call 0 2, .turn 1 9, .turn 1 0, .unlock 1, .lock 2,
    .fseek 2 true, .turn 2 1, .turn 2 0, .unlock 2, .lock 0, .fseek 0 true, .turn 0 7, .turn 0 7, .unlock 0]

/-- What the three calls get. -/
theorem readBlock_apart_overlapping : ∃ s,
    run step (fun _ _ => True) { table := { number := 1, data := [10, 11, 12, 13, 14, 15] } } overlapping = some s ∧
    s.calls.map (fun c => (c.place, c.failed)) =
      [(.returned false [14, 15], false), (.returned true [11, 12, 13], false), (.returned false [10], true)] ∧
    ∀ c ∈ s.calls, ∀ ok buf, c.place = .returned ok buf →
      BlockCall.Reads s.table c.offset c.size c.failed ok buf := by
  have hrun : (run step (fun _ _ => True) { table := { number := 1, data := [10, 11, 12, 13, 14, 15] } }
      overlapping).map (fun s => s.calls.map fun c => (c.place, c.failed)) =
      some [(.returned false [14, 15], false), (.returned true [11, 12, 13], false),
        (.returned false [10], true)] := by
    decide +kernel
  obtain ⟨s, hs, heq⟩ := Option.map_eq_some_iff.1 hrun
  have hreach := reach_of_run hs
  have htable := (sound_of_reach hreach).2
  exact ⟨s, hs, heq, htable ▸ (readBlock_apart hreach).1⟩

end BlockReads

end MiniLSM
