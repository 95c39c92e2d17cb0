import MiniLSM.Spec.Bloom
import MiniLSM.Proof.InternalKey

/-!
# The Bloom filter has no false negatives

* `mayContain_createFilter`: the filter decoded from `CreateFilter` contains every key it was
  built from, as long as its bits are counted in 32 bits.
* `reports_all`: so it does after any calls of `Add` and any round trips, with the keys added.
* `mayContain_of_head`: with `2 ^ 32 + 8` bits it is asked for those of its first byte only.
-/

namespace MiniLSM

@[simp] theorem setBit_length (bits : Bytes) (pos : ℕ) : (setBit bits pos).length = bits.length := by
  simp [setBit]

theorem or_and_eq_zero {a b m : UInt8} (h : (a ||| b) &&& m = 0) : a &&& m = 0 ∧ b &&& m = 0 := by
  rw [← UInt8.or_eq_zero_iff, ← h, ← UInt8.toBitVec_inj]
  ext i hi
  simp [Bool.and_or_distrib_right]

/-- Setting a bit clears none. -/
theorem testBit_setBit_of_testBit {bits : Bytes} {pos pos' : ℕ} (h : testBit bits pos = true) :
    testBit (setBit bits pos') pos = true := by
  simp only [testBit, setBit, List.getD_eq_getElem?_getD, List.getElem?_modify, bne_iff_ne] at h ⊢
  cases hb : bits[pos / 8]? with
  | none => simp [hb] at h
  | some b =>
    simp only [hb, Option.getD_some] at h
    split
    · exact fun h0 => h (or_and_eq_zero h0).1
    · simpa using h

theorem testBit_setBit_self {bits : Bytes} {pos : ℕ} (h : pos / 8 < bits.length) :
    testBit (setBit bits pos) pos = true := by
  have hm : ∀ i < 8, (1 : UInt8) <<< UInt8.ofNat i ≠ 0 := by decide
  have hne := hm (pos % 8) (Nat.mod_lt _ (by decide))
  simp only [testBit, setBit, List.getD_eq_getElem?_getD, List.getElem?_modify, bne_iff_ne,
    List.getElem?_eq_getElem h, if_true]
  intro h0
  have := (or_and_eq_zero h0).2
  rw [UInt8.and_self] at this
  exact hne this

/-- Setting a bit from the second byte on leaves the first byte as it is. -/
theorem setBit_head {bits : Bytes} {pos : ℕ} (h : 8 ≤ pos) :
    (setBit bits pos).getD 0 0 = bits.getD 0 0 := by
  have hne : pos / 8 ≠ 0 := by omega
  rw [setBit, List.getD_eq_getElem?_getD, List.getD_eq_getElem?_getD, List.getElem?_modify]
  simp [hne]

namespace BloomFilter

@[simp] theorem setProbes_length (delta : UInt32) (n : ℕ) (h : UInt32) (filter : Bytes) :
    (setProbes delta n h filter).length = filter.length := by
  induction n generalizing h filter with
  | zero => rfl
  | succ n ih => simp [setProbes, ih]

theorem setProbes_mono {delta : UInt32} {pos : ℕ} (n : ℕ) (h : UInt32) {filter : Bytes}
    (hp : testBit filter pos = true) : testBit (setProbes delta n h filter) pos = true := by
  induction n generalizing h filter with
  | zero => exact hp
  | succ n ih => exact ih _ (testBit_setBit_of_testBit hp)

/-- The `i`-th probe sets the bit that the reader tests for `i`. -/
theorem setProbes_testBit (delta : UInt32) (n : ℕ) (h : UInt32) {filter : Bytes}
    (hf : filter ≠ []) {i : ℕ} (hi : i < n) :
    testBit (setProbes delta n h filter)
      ((h + UInt32.ofNat i * delta).toNat % (filter.length * 8)) = true := by
  have hpos := List.length_pos_iff.2 hf
  induction n generalizing h filter i with
  | zero => omega
  | succ n ih =>
    rw [setProbes]
    cases i with
    | zero =>
      apply setProbes_mono
      have h0 : h + UInt32.ofNat 0 * delta = h := by simp
      rw [h0]
      apply testBit_setBit_self
      rw [Nat.div_lt_iff_lt_mul (by decide)]
      exact Nat.mod_lt _ (by omega)
    | succ i =>
      have hstep : h + UInt32.ofNat (i + 1) * delta = h + delta + UInt32.ofNat i * delta := by
        rw [UInt32.ofNat_add]; grind
      have hne : setBit filter (h.toNat % (filter.length * 8)) ≠ [] := by
        rw [← List.length_pos_iff]; simpa using hpos
      have := ih (h + delta) hne (i := i) (by omega) (List.length_pos_iff.2 hne)
      rw [setBit_length] at this
      rw [hstep]; exact this

/-- The fold over the keys keeps the length and sets the probes of each key. -/
theorem foldl_probes (n : ℕ) (keys : List Bytes) (filter : Bytes) :
    let g := fun filter key => setProbes (bloomDelta (fnvHash key)) n (fnvHash key) filter
    (keys.foldl g filter).length = filter.length ∧
      (∀ pos, testBit filter pos = true → testBit (keys.foldl g filter) pos = true) ∧
      (filter ≠ [] → ∀ key ∈ keys, ∀ i < n, testBit (keys.foldl g filter)
        ((fnvHash key + UInt32.ofNat i * bloomDelta (fnvHash key)).toNat %
          (filter.length * 8)) = true) := by
  intro g
  induction keys generalizing filter with
  | nil => exact ⟨rfl, fun _ h => h, by simp⟩
  | cons key keys ih =>
    obtain ⟨h1, h2, h3⟩ := ih (g filter key)
    have hlen : (g filter key).length = filter.length := setProbes_length _ _ _ _
    refine ⟨h1.trans hlen, fun pos h => h2 pos (setProbes_mono _ _ h), fun hf key' hk i hi => ?_⟩
    rcases List.mem_cons.1 hk with rfl | hk
    · exact h2 _ (setProbes_testBit _ _ _ hf hi)
    · have hne : g filter key ≠ [] := by
        rw [← List.length_pos_iff, hlen, List.length_pos_iff]; exact hf
      have := h3 hne key' hk i hi
      rwa [hlen] at this

theorem filterBits_length (keys : List Bytes) (bpk : ℕ) :
    (filterBits keys bpk).length = (max 64 (keys.length * bpk) + 7) / 8 := by
  have := (foldl_probes (numProbes bpk) keys
    (List.replicate ((max 64 (keys.length * bpk) + 7) / 8) 0)).1
  simpa [filterBits] using this

theorem createFilter_length (keys : List Bytes) (bpk : ℕ) :
    (createFilter keys bpk).length = 8 + (max 64 (keys.length * bpk) + 7) / 8 := by
  simp [createFilter, filterBits_length]; omega

theorem toInt_numProbes (bpk : ℕ) : toInt (toUInt32 (numProbes bpk)) = numProbes bpk := by
  have h30 : numProbes bpk ≤ 30 := by unfold numProbes; omega
  rw [toInt, toUInt32_toNat (by omega), if_pos (by omega)]

/-- What `Decode` finds behind the two numbers of a header. -/
theorem decode_header (bitsPerKey k : UInt32) (bits : Bytes) :
    decode (encodeFixed32 bitsPerKey ++ encodeFixed32 k ++ bits) =
      some ⟨toInt bitsPerKey, toInt k, bits⟩ := by
  rw [List.append_assoc]
  have hlen : ¬ (encodeFixed32 bitsPerKey ++ (encodeFixed32 k ++ bits)).length < 8 := by
    simp only [List.length_append, encodeFixed32_length]
    omega
  have hd4 : (encodeFixed32 bitsPerKey ++ (encodeFixed32 k ++ bits)).drop 4 = encodeFixed32 k ++ bits := rfl
  have hd8 : (encodeFixed32 bitsPerKey ++ (encodeFixed32 k ++ bits)).drop 8 = bits := rfl
  rw [decode, if_neg hlen, hd4, hd8]
  simp only [decodeFixed32_encode, bind, Option.bind]

/-- What `Decode` finds in the output of `CreateFilter`. -/
theorem decode_createFilter (keys : List Bytes) (bpk : ℕ) :
    decode (createFilter keys bpk) = some ⟨toInt (toUInt32 bpk), numProbes bpk,
      filterBits keys bpk⟩ := by
  rw [createFilter, decode_header, toInt_numProbes]

theorem filterBits_ne_nil (keys : List Bytes) (bpk : ℕ) : filterBits keys bpk ≠ [] := by
  rw [← List.length_pos_iff, filterBits_length]
  omega

section counted

variable {f : BloomFilter}

theorem mayContain_iff {key : Bytes} : f.mayContain key = true ↔
    f.bits ≠ [] ∧ ∀ i < f.k.toNat, testBit f.bits (f.hash i key) = true := by
  simp [mayContain]

/-- The place of a probe, where the bits are counted in 32 bits. -/
theorem hash_eq (hne : f.bits ≠ []) (hlt : f.bits.length * 8 < 2 ^ 32) (i : ℕ) (key : Bytes) :
    f.hash i key = (fnvHash key + UInt32.ofNat i * bloomDelta (fnvHash key)).toNat % (f.bits.length * 8) := by
  have hpos := List.length_pos_iff.2 hne
  rw [hash]
  simp only [toUInt32_toNat hlt]
  rw [if_neg (by omega)]

theorem hash_lt (hne : f.bits ≠ []) (hlt : f.bits.length * 8 < 2 ^ 32) (i : ℕ) (key : Bytes) :
    f.hash i key / 8 < f.bits.length := by
  have hpos := List.length_pos_iff.2 hne
  rw [hash_eq hne hlt, Nat.div_lt_iff_lt_mul (by decide)]
  exact Nat.mod_lt _ (by omega)

theorem dividesByZero_eq_false (hne : f.bits ≠ []) (hlt : f.bits.length * 8 < 2 ^ 32) :
    f.dividesByZero = false := by
  have hpos := List.length_pos_iff.2 hne
  have hu : toUInt32 (f.bits.length * 8) ≠ 0 := by
    rw [ne_eq, ← UInt32.toNat_inj, toUInt32_toNat hlt, UInt32.toNat_zero]
    omega
  rw [dividesByZero, decide_eq_false hu, Bool.and_false]

end counted

theorem not_dividesByZero {keys : List Bytes} {bpk : ℕ}
    (hbits : (max 64 (keys.length * bpk) + 7) / 8 * 8 < 2 ^ 32) (b k : ℤ) :
    dividesByZero ⟨b, k, filterBits keys bpk⟩ = false :=
  dividesByZero_eq_false (filterBits_ne_nil keys bpk) (by rw [filterBits_length]; exact hbits)

/-- **No false negatives.** A filter decoded from `CreateFilter` reports every key it was
built from. -/
theorem mayContain_createFilter {keys : List Bytes} {bpk : ℕ}
    (hbits : (max 64 (keys.length * bpk) + 7) / 8 * 8 < 2 ^ 32) {f : BloomFilter}
    (hf : decode (createFilter keys bpk) = some f) {key : Bytes} (hk : key ∈ keys) :
    f.mayContain key = true := by
  rw [decode_createFilter] at hf
  obtain rfl := Option.some.inj hf
  have hlen := filterBits_length keys bpk
  have hne := filterBits_ne_nil keys bpk
  refine mayContain_iff.2 ⟨hne, fun i hi => ?_⟩
  have hprobe := (foldl_probes (numProbes bpk) keys
    (List.replicate ((max 64 (keys.length * bpk) + 7) / 8) 0)).2.2
    (by rw [← List.length_pos_iff]; simp) key hk i (by simpa using hi)
  rw [List.length_replicate] at hprobe
  rw [hash_eq hne (by rw [hlen]; exact hbits), hlen]
  exact hprobe

/-! ## Further calls -/

theorem ofInt_toInt (v : UInt32) : UInt32.ofInt (toInt v) = v := by
  have hv := v.toNat_lt
  rw [← UInt32.toNat_inj, UInt32.ofInt, toInt]
  split <;> rw [UInt32.toNat_ofNat'] <;> omega

/-- A filter whose numbers are those of a file and whose bits are counted in 32 bits. -/
structure Counted (f : BloomFilter) : Prop where
  bitsPerKey : ∃ v, f.bitsPerKey = toInt v
  k : ∃ v, f.k = toInt v
  ne : f.bits ≠ []
  lt : f.bits.length * 8 < 2 ^ 32

/-- `Decode` undoes `Encode`. -/
theorem Counted.decode_encode {f : BloomFilter} (h : f.Counted) : decode f.encode = some f := by
  obtain ⟨v, hv⟩ := h.bitsPerKey
  obtain ⟨w, hw⟩ := h.k
  rw [encode, decode_header, hv, hw, ofInt_toInt, ofInt_toInt, ← hv, ← hw]

/-- Setting bits one after the other keeps the length and those that are set. -/
theorem foldl_setBit (g : ℕ → ℕ) (is : List ℕ) (bits : Bytes) :
    let bits' := is.foldl (fun bits i => setBit bits (g i)) bits
    bits'.length = bits.length ∧ (∀ pos, testBit bits pos = true → testBit bits' pos = true) ∧
      ∀ i ∈ is, g i / 8 < bits.length → testBit bits' (g i) = true := by
  intro bits'
  induction is generalizing bits with
  | nil => exact ⟨rfl, fun _ h => h, by simp⟩
  | cons j is ih =>
    obtain ⟨hlen, hmono, hset⟩ := ih (setBit bits (g j))
    refine ⟨hlen.trans (setBit_length _ _), fun pos h => hmono pos (testBit_setBit_of_testBit h), ?_⟩
    intro i hi hlt
    rcases List.mem_cons.1 hi with rfl | hi
    · exact hmono _ (testBit_setBit_self hlt)
    · exact hset i hi (by rwa [setBit_length])

/-- What `Add` does to a filter with bits: the probes of its key are set, and none is cleared. -/
theorem Counted.add_spec {f : BloomFilter} (h : f.Counted) (key : Bytes) :
    (f.add key).Counted ∧ (f.add key).mayContain key = true ∧
      ∀ x, f.mayContain x = true → (f.add key).mayContain x = true := by
  obtain ⟨hlen, hmono, hset⟩ := foldl_setBit (fun i => f.hash i key) (List.range f.k.toNat) f.bits
  have hadd : f.add key = { f with
      bits := (List.range f.k.toNat).foldl (fun bits i => setBit bits (f.hash i key)) f.bits } := by
    rw [add, if_neg h.ne]
  -- the place of a probe depends on the number of bits only
  have hhash : ∀ i x, (f.add key).hash i x = f.hash i x := fun i x => by
    rw [hash, hash, hadd]
    simp only [hlen]
  have hne : (f.add key).bits ≠ [] := by
    rw [← List.length_pos_iff, hadd, hlen]
    exact List.length_pos_iff.2 h.ne
  have hk : (f.add key).k = f.k := by rw [hadd]
  refine ⟨⟨by rw [hadd]; exact h.bitsPerKey, by rw [hk]; exact h.k, hne, ?_⟩, ?_, fun x hx => ?_⟩
  · rw [hadd, hlen]
    exact h.lt
  · refine mayContain_iff.2 ⟨hne, fun i hi => ?_⟩
    rw [hhash, hadd]
    exact hset i (List.mem_range.2 (by rwa [hk] at hi)) (hash_lt h.ne h.lt i key)
  · refine mayContain_iff.2 ⟨hne, fun i hi => ?_⟩
    rw [hhash, hadd]
    exact hmono _ ((mayContain_iff.1 hx).2 i (by rwa [hk] at hi))

/-- **A run of calls** keeps what is reported and reports every key that it adds. -/
theorem Counted.ops {f : BloomFilter} (h : f.Counted) (os : List Op) :
    ∃ f', f.ops os = some f' ∧ f'.Counted ∧ (∀ x, f.mayContain x = true → f'.mayContain x = true) ∧
      ∀ key, .add key ∈ os → f'.mayContain key = true := by
  induction os generalizing f with
  | nil => exact ⟨f, rfl, h, fun _ hx => hx, by simp⟩
  | cons o os ih =>
    cases o with
    | add key =>
      obtain ⟨hcounted, hself, hkeep⟩ := h.add_spec key
      obtain ⟨f', hops, hf', hmono, hadded⟩ := ih hcounted
      refine ⟨f', hops, hf', fun x hx => hmono x (hkeep x hx), fun x hx => ?_⟩
      rcases List.mem_cons.1 hx with heq | hx
      · obtain rfl := Op.add.inj heq
        exact hmono x hself
      · exact hadded x hx
    | reload =>
      obtain ⟨f', hops, hf', hmono, hadded⟩ := ih h
      refine ⟨f', ?_, hf', hmono, fun x hx => hadded x (by simpa using hx)⟩
      rw [BloomFilter.ops, List.foldlM_cons, op, h.decode_encode]
      exact hops

theorem counted_of_decode {keys : List Bytes} {bpk : ℕ} {f : BloomFilter}
    (hbits : (filterBits keys bpk).length * 8 < 2 ^ 32)
    (hf : decode (createFilter keys bpk) = some f) : f.Counted := by
  rw [decode_createFilter] at hf
  obtain rfl := Option.some.inj hf
  exact ⟨⟨_, rfl⟩, ⟨_, (toInt_numProbes bpk).symm⟩, filterBits_ne_nil keys bpk, hbits⟩

/-- **No false negatives over any run of calls**: a filter decoded from `CreateFilter`, after any
number of `Add` calls and `Encode` and `Decode` round trips in any order, reports every key that it
was built from or that was added. -/
theorem reports_all (keys : List Bytes) (bpk : ℕ) (hbits : (filterBits keys bpk).length * 8 < 2 ^ 32)
    (os : List Op) : ∃ f f', decode (createFilter keys bpk) = some f ∧ f.ops os = some f' ∧
      f'.dividesByZero = false ∧ ∀ key, key ∈ keys ∨ .add key ∈ os → f'.mayContain key = true := by
  obtain ⟨f, hf⟩ : ∃ f, decode (createFilter keys bpk) = some f := ⟨_, decode_createFilter keys bpk⟩
  obtain ⟨f', hops, hcounted, hmono, hadded⟩ := (counted_of_decode hbits hf).ops os
  refine ⟨f, f', hf, hops, dividesByZero_eq_false hcounted.ne hcounted.lt, fun key hkey => ?_⟩
  rcases hkey with hkey | hkey
  · rw [filterBits_length] at hbits
    exact hmono key (mayContain_createFilter hbits hf hkey)
  · exact hadded key hkey

theorem reports_all_two : ∃ f f', decode (createFilter [[97], [98]] 10) = some f ∧
    f.ops [.add [99], .reload] = some f' ∧ f'.dividesByZero = false ∧
    ∀ key, key ∈ [[97], [98]] ∨ .add key ∈ [Op.add [99], .reload] → f'.mayContain key = true :=
  reports_all [[97], [98]] 10 (by decide +kernel) [.add [99], .reload]

/-! ## Bits that are not counted in 32 bits -/

/-- Probes from the second byte on leave the first one as it is. -/
theorem setProbes_head {delta h : UInt32} {n : ℕ} {filter : Bytes}
    (hp : ∀ i < n, 8 ≤ (h + UInt32.ofNat i * delta).toNat % (filter.length * 8)) :
    (setProbes delta n h filter).getD 0 0 = filter.getD 0 0 := by
  induction n generalizing h filter with
  | zero => rfl
  | succ n ih =>
    have h0 := hp 0 (by omega)
    rw [show h + UInt32.ofNat 0 * delta = h by simp] at h0
    rw [setProbes, ih, setBit_head h0]
    intro i hi
    have hstep : h + delta + UInt32.ofNat i * delta = h + UInt32.ofNat (i + 1) * delta := by
      rw [UInt32.ofNat_add]; grind
    rw [setBit_length, hstep]
    exact hp (i + 1) (by omega)

/-- The first byte of a filter over one key that sets no bit in it. -/
theorem filterBits_replicate_head {key : Bytes} {n bpk : ℕ}
    (hp : ∀ i < numProbes bpk, 8 ≤ (fnvHash key + UInt32.ofNat i * bloomDelta (fnvHash key)).toNat %
      ((max 64 (n * bpk) + 7) / 8 * 8)) : (filterBits (List.replicate n key) bpk).getD 0 0 = 0 := by
  have hfold : ∀ (m : ℕ) (filter : Bytes), filter.length = (max 64 (n * bpk) + 7) / 8 →
      ((List.replicate m key).foldl (fun filter key =>
        setProbes (bloomDelta (fnvHash key)) (numProbes bpk) (fnvHash key) filter) filter).getD 0 0 =
        filter.getD 0 0 := by
    intro m
    induction m with
    | zero => intro filter _; rfl
    | succ m ih =>
      intro filter hlen
      rw [List.replicate_succ, List.foldl_cons, ih _ (by rw [setProbes_length, hlen]),
        setProbes_head (by rw [hlen]; exact hp)]
  rw [filterBits, List.length_replicate, hfold n _ List.length_replicate]
  cases (max 64 (n * bpk) + 7) / 8 <;> rfl

/-- **A filter of `2 ^ 32 + 8` bits** is asked for one of its first eight bits only. -/
theorem mayContain_of_head {f : BloomFilter} (hk : 0 < f.k)
    (hlen : f.bits.length = 2 ^ 29 + 1) (hhead : f.bits.getD 0 0 = 0) (key : Bytes) :
    f.mayContain key = false := by
  have hu : (toUInt32 (f.bits.length * 8)).toNat = 8 := by
    rw [hlen, toUInt32, UInt32.toNat_ofNat']
    omega
  have hprobe : testBit f.bits (f.hash 0 key) = false := by
    have hlt : f.hash 0 key / 8 = 0 := by
      rw [hash]
      simp only [hu]
      split <;> omega
    rw [testBit, hlt, hhead]
    simp
  rw [mayContain, Bool.and_eq_false_iff]
  right
  rw [List.all_eq_false]
  exact ⟨0, by simpa using hk, by rw [hprobe]; decide⟩

end BloomFilter

end MiniLSM
