import MiniLSM.Proof.Recover

/-!
# Reading an arbitrary log

* `readRecord_split`: a record that is read takes the front of the file, and takes it alone.
* `recover_wellFormed`: whatever a log file holds, what `Recover` delivers stands in its front, record by
  record, and could have been written by `AddRecord`.
-/

namespace MiniLSM

open WALWriter WALReader

namespace WALReader

/-- **The bytes of a length**: at most four of them, whatever is behind. -/
theorem readLength_split {field : String} {fd : Bytes} {shift len : ℕ} {raw : Bytes} {v : ℕ} {raw' rest : Bytes}
    (h : readLength field fd shift len raw = .ok (v, raw', rest)) (hlen : len < 2 ^ shift) :
    ∃ used, fd = used ++ rest ∧ 1 ≤ used.length ∧ shift + 7 * used.length < 35 ∧
      v < 2 ^ (shift + 7 * used.length) ∧ readLength field used shift len raw = .ok (v, raw', []) := by
  induction fd generalizing shift len raw with
  | nil => rw [readLength] at h; cases h
  | cons b fd ih =>
    rw [readLength] at h
    split at h
    · cases h
    rename_i hshift
    have hdigit : (b &&& 0x7F).toNat < 2 ^ 7 := by
      rw [Leb128.and_127_toNat]
      exact Nat.mod_lt _ (by decide)
    have hnext : len ||| Leb128.payload 32 shift b < 2 ^ (shift + 7) := by
      refine Nat.or_lt_two_pow (hlen.trans_le (Nat.pow_le_pow_right (by decide) (by omega))) ?_
      calc Leb128.payload 32 shift b ≤ (b &&& 0x7F).toNat <<< shift := Nat.mod_le _ _
        _ = (b &&& 0x7F).toNat * 2 ^ shift := Nat.shiftLeft_eq _ _
        _ < 2 ^ 7 * 2 ^ shift := Nat.mul_lt_mul_of_pos_right hdigit (Nat.two_pow_pos _)
        _ = 2 ^ (shift + 7) := by rw [Nat.pow_add, Nat.mul_comm]
    split at h
    · rename_i hb
      cases h
      refine ⟨[b], rfl, le_rfl, not_le.1 hshift, hnext, ?_⟩
      rw [readLength, if_neg hshift, if_pos hb]
    · rename_i hb
      obtain ⟨used, rfl, hpos, hless, hv, hused⟩ := ih h hnext
      refine ⟨b :: used, rfl, by simp, ?_, ?_, ?_⟩
      · rw [List.length_cons]
        omega
      · rw [List.length_cons]
        convert hv using 2
        omega
      · rw [readLength, if_neg hshift, if_neg hb]
        exact hused

/-- **A record that is read** takes the front of the file, is as long as its fields say, and is read there
whatever is behind. -/
theorem readRecord_split {fd rest : Bytes} {r : Record} (h : readRecord fd = .ok (some (r, rest))) :
    ∃ used, fd = used ++ rest ∧ (∀ more, readRecord (used ++ more) = .ok (some (r, more))) ∧ r.Short ∧
      r.key.length + r.value.length + 7 ≤ used.length ∧ used.length ≤ r.key.length + r.value.length + 13 := by
  obtain ⟨fd₀, fd₁, fd₂, fd₃, fd₄, raw, raw', crcBuf, keyLen, valueLen, rfl, hk, hkey, hv, hvalue, hc, hcrc⟩ :=
    fields_of_readRecord h
  obtain ⟨used, rfl, hpos, hless, hkeyLen, hused⟩ := readLength_split hk (by decide)
  obtain ⟨rfl, hklen⟩ := readFull_eq_some.1 hkey
  obtain ⟨used', rfl, hpos', hless', hvalueLen, hused'⟩ := readLength_split hv (by decide)
  obtain ⟨rfl, hvlen⟩ := readFull_eq_some.1 hvalue
  obtain ⟨rfl, hclen⟩ := readFull_eq_some.1 hc
  have hshort : ∀ {v n : ℕ}, v < 2 ^ (0 + 7 * n) → 0 + 7 * n < 35 → v < 2 ^ 28 := fun hv hn =>
    lt_of_lt_of_le hv (Nat.pow_le_pow_right (by decide) (by omega))
  refine ⟨r.type :: (used ++ (r.key ++ (used' ++ (r.value ++ crcBuf)))), by simp, fun more => ?_,
    ⟨hklen ▸ hshort hkeyLen hless, hvlen ▸ hshort hvalueLen hless'⟩, ?_, ?_⟩
  · subst hklen hvlen
    have hread := readRecord_of_fields (readLength_append hused (r.key ++ (used' ++ (r.value ++ (crcBuf ++ more)))))
      (readFull_append r.key _) (readLength_append hused' (r.value ++ (crcBuf ++ more)))
      (readFull_append r.value _) (hclen ▸ readFull_append crcBuf more) hcrc
    simpa using hread
  · simp only [List.length_cons, List.length_append]
    omega
  · simp only [List.length_cons, List.length_append]
    omega

/-- **What `Recover` delivers is well formed.** Whatever the bytes of a log file, they are records one after
the other and a tail of which no record can be read; `Recover` delivers just these records; each of them is
read wherever its bytes stand, takes 7 to 13 bytes beside its key and its value, and has lengths below 2^28; so
that the records delivered, when they are written to a new log, are delivered again. -/
theorem recover_wellFormed (file : Bytes) : ∃ (parts : List (Bytes × Record)) (tail : Bytes),
    file = (parts.map Prod.fst).flatten ++ tail ∧ recover file = parts.map Prod.snd ∧ Stops tail ∧
    (∀ p ∈ parts, (∀ more, readRecord (p.1 ++ more) = .ok (some (p.2, more))) ∧
      p.2.key.length + p.2.value.length + 7 ≤ p.1.length ∧ p.1.length ≤ p.2.key.length + p.2.value.length + 13 ∧
      p.2.Short) ∧
    recover (logBytes (recover file)) = recover file := by
  have hloop : ∀ (n : ℕ) (fd : Bytes), fd.length ≤ n → ∃ (parts : List (Bytes × Record)) (tail : Bytes),
      fd = (parts.map Prod.fst).flatten ++ tail ∧ recoverLoop n fd = parts.map Prod.snd ∧ Stops tail ∧
      ∀ p ∈ parts, (∀ more, readRecord (p.1 ++ more) = .ok (some (p.2, more))) ∧
        p.2.key.length + p.2.value.length + 7 ≤ p.1.length ∧ p.1.length ≤ p.2.key.length + p.2.value.length + 13 ∧
        p.2.Short := by
    intro n
    induction n with
    | zero =>
      intro fd hfd
      obtain rfl : fd = [] := List.length_eq_zero_iff.1 (by omega)
      exact ⟨[], [], rfl, rfl, stops_nil, by simp⟩
    | succ n ih =>
      intro fd hfd
      by_cases hstops : Stops fd
      · exact ⟨[], fd, rfl, hstops.recoverLoop _, hstops, by simp⟩
      · obtain ⟨⟨r, rest⟩, hread⟩ := not_forall_not.1 hstops
        obtain ⟨used, rfl, hall, hshort, hge, hle⟩ := readRecord_split hread
        rw [List.length_append] at hfd
        obtain ⟨parts, tail, rfl, hrec, htail, hparts⟩ := ih rest (by omega)
        refine ⟨(used, r) :: parts, tail, by simp, ?_, htail, ?_⟩
        · rw [recoverLoop, hread]
          exact congrArg (List.cons r) hrec
        · intro p hp
          rcases List.mem_cons.1 hp with rfl | hp
          · exact ⟨hall, hge, hle, hshort⟩
          · exact hparts p hp
  obtain ⟨parts, tail, hfile, hrec, htail, hparts⟩ := hloop file.length file le_rfl
  refine ⟨parts, tail, hfile, hrec, htail, hparts, ?_⟩
  refine recover_addRecords fun r hr => ?_
  rw [WALReader.recover, hrec] at hr
  obtain ⟨p, hp, rfl⟩ := List.mem_map.1 hr
  exact (hparts p hp).2.2.2

end WALReader

end MiniLSM
