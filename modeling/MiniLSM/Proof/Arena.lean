import MiniLSM.Spec.Arena
import Mathlib.Algebra.BigOperators.Group.List.Basic
import Mathlib.Algebra.Ring.Nat
import Mathlib.Order.Nat

/-!
# The arena hands out disjoint ranges

What is left of the current block lies behind every range that was cut from it, and a block of its
own is cut once.

* `Sound a rs`: the ranges `rs` that were handed out lie in the blocks of `a`, apart from each other
  and from what is left.
* `Sound.call`: every call hands out one more range.
* `allocations_apart`: over any calls, wherever the blocks lie.
-/

namespace MiniLSM

namespace Arena

/-- A range of bytes in a block. -/
structure Range where
  block : ℕ
  offset : ℕ
  size : ℕ

namespace Range

/-- Two ranges do not overlap. -/
def Apart (r s : Range) : Prop :=
  r.block ≠ s.block ∨ r.offset + r.size ≤ s.offset ∨ s.offset + s.size ≤ r.offset

/-- The range lies in one of the blocks. -/
def Inside (r : Range) (blocks : List ℕ) : Prop :=
  ∃ size, blocks[r.block]? = some size ∧ r.offset + r.size ≤ size

theorem Inside.lt {r : Range} {blocks : List ℕ} (h : r.Inside blocks) : r.block < blocks.length := by
  obtain ⟨size, hsize, -⟩ := h
  exact (List.getElem?_eq_some_iff.1 hsize).1

theorem Inside.append {r : Range} {blocks : List ℕ} (h : r.Inside blocks) (size : ℕ) :
    r.Inside (blocks ++ [size]) := by
  have hlt := h.lt
  obtain ⟨m, hm, hle⟩ := h
  exact ⟨m, by rw [List.getElem?_append_left hlt, hm], hle⟩

end Range

/-- **The ranges handed out and what is left of the current block** lie apart, inside the blocks. -/
structure Sound (a : Arena) (rs : List Range) : Prop where
  usage : a.memoryUsage = a.blocks.sum
  inside : ∀ r ∈ rs, r.Inside a.blocks
  apart : rs.Pairwise Range.Apart
  null : a.allocPtr = none → a.allocBytesRemaining = 0
  current : ∀ p, a.allocPtr = some p → a.blocks[p.block]? = some kBlockSize ∧
    p.offset + a.allocBytesRemaining = kBlockSize
  behind : ∀ p, a.allocPtr = some p → ∀ r ∈ rs, r.block = p.block → r.offset + r.size ≤ p.offset

variable {a : Arena} {rs : List Range} {n : ℕ}

theorem sound_empty : ({} : Arena).Sound [] where
  usage := rfl
  inside := by simp
  apart := .nil
  null _ := rfl
  current _ h := nomatch h
  behind _ h := nomatch h

/-- Moving forward inside the current block. -/
theorem Sound.advance (h : a.Sound rs) (hn : n ≤ a.allocBytesRemaining) : (a.advance n).Sound rs where
  usage := h.usage
  inside := h.inside
  apart := h.apart
  null hnone := by
    rw [Arena.advance, Option.map_eq_none_iff] at hnone
    simp only [Arena.advance, h.null hnone, Nat.zero_sub]
  current q hq := by
    obtain ⟨p, hp, rfl⟩ := Option.map_eq_some_iff.1 hq
    obtain ⟨hblock, hleft⟩ := h.current p hp
    simp only [Arena.advance]
    exact ⟨hblock, by omega⟩
  behind q hq r hr hblock := by
    obtain ⟨p, hp, rfl⟩ := Option.map_eq_some_iff.1 hq
    have := h.behind p hp r hr hblock
    simp only
    omega

/-- A range is cut from the current block. -/
theorem Sound.cut {p : ArenaPtr} (h : a.Sound rs) (hp : a.allocPtr = some p)
    (hn : n ≤ a.allocBytesRemaining) : (a.advance n).Sound (⟨p.block, p.offset, n⟩ :: rs) := by
  obtain ⟨hblock, hleft⟩ := h.current p hp
  have hadvance := h.advance hn
  refine { hadvance with
    inside := ?_
    apart := List.pairwise_cons.2 ⟨fun r hr => ?_, h.apart⟩
    behind := fun q hq r hr hr' => ?_ }
  · intro r hr
    rcases List.mem_cons.1 hr with rfl | hr
    · exact ⟨kBlockSize, hblock, by simp only; omega⟩
    · exact h.inside r hr
  · by_cases hsame : r.block = p.block
    · exact .inr (.inr (h.behind p hp r hr hsame))
    · exact .inl (Ne.symm hsame)
  · rcases List.mem_cons.1 hr with rfl | hr
    · obtain ⟨p', hp', rfl⟩ := Option.map_eq_some_iff.1 hq
      obtain rfl := Option.some.inj (hp.symm.trans hp')
      exact le_rfl
    · exact hadvance.behind q hq r hr hr'

/-- The first range of a new block is apart from all others. -/
theorem Sound.first (h : a.Sound rs) {size : ℕ} (hn : n ≤ size) :
    (∀ r ∈ ⟨a.blocks.length, 0, n⟩ :: rs, r.Inside (a.blocks ++ [size])) ∧
      (⟨a.blocks.length, 0, n⟩ :: rs).Pairwise Range.Apart := by
  constructor
  · intro r hr
    rcases List.mem_cons.1 hr with rfl | hr
    · exact ⟨size, by simp, by simpa using hn⟩
    · exact (h.inside r hr).append size
  · exact List.pairwise_cons.2 ⟨fun r hr => .inl (h.inside r hr).lt.ne', h.apart⟩

/-- The fallback cuts its range from the start of a new block. -/
theorem Sound.fallback (h : a.Sound rs) (n : ℕ) : ∃ b, (a.allocateFallback n).1 = some ⟨b, 0⟩ ∧
    (a.allocateFallback n).2.Sound (⟨b, 0, n⟩ :: rs) := by
  rw [allocateFallback]
  split
  · obtain ⟨hinside, hapart⟩ := h.first (le_refl n)
    refine ⟨a.blocks.length, rfl, ?_⟩
    exact {
      usage := by simp [allocateNewBlock, h.usage]
      inside := hinside
      apart := hapart
      null := h.null
      current := fun p hp => by
        obtain ⟨hblock, hleft⟩ := h.current p hp
        have hlt := (List.getElem?_eq_some_iff.1 hblock).1
        exact ⟨by rw [allocateNewBlock, List.getElem?_append_left hlt, hblock], hleft⟩
      -- the current block is an older one
      behind := fun p hp r hr hr' => by
        rcases List.mem_cons.1 hr with rfl | hr
        · have hlt := (List.getElem?_eq_some_iff.1 (h.current p hp).1).1
          exact absurd hr' hlt.ne'
        · exact h.behind p hp r hr hr' }
  · rename_i hsmall
    have hle : n ≤ kBlockSize := (not_lt.1 hsmall).trans (Nat.div_le_self _ _)
    obtain ⟨hinside, hapart⟩ := h.first hle
    refine ⟨a.blocks.length, rfl, ?_⟩
    exact {
      usage := by simp [h.usage]
      inside := hinside
      apart := hapart
      null := fun hnone => nomatch hnone
      current := fun p hp => by
        obtain rfl := Option.some.inj hp
        exact ⟨by simp, Nat.add_sub_cancel' hle⟩
      behind := fun p hp r hr hr' => by
        obtain rfl := Option.some.inj hp
        rcases List.mem_cons.1 hr with rfl | hr
        · simp
        · exact absurd hr' (h.inside r hr).lt.ne }

/-! ## The two calls -/

theorem Sound.allocate (h : a.Sound rs) (hn : 0 < n) : ∃ p, (a.allocate n).1 = some p ∧
    (a.allocate n).2.Sound (⟨p.block, p.offset, n⟩ :: rs) ∧
    (p.offset = 0 ∨ n ≤ a.allocBytesRemaining ∧ a.allocPtr = some p) := by
  rw [Arena.allocate, if_neg hn.ne']
  split
  · rename_i hle
    cases hp : a.allocPtr with
    | none =>
      have := h.null hp
      omega
    | some p => exact ⟨p, rfl, h.cut hp hle, .inr ⟨hle, rfl⟩⟩
  · obtain ⟨b, hb, hsound⟩ := h.fallback n
    exact ⟨⟨b, 0⟩, hb, hsound, .inl rfl⟩

/-- The padding is left in the current block, since its size is a multiple of eight. -/
theorem Sound.allocateAligned (h : a.Sound rs) (hn : 0 < n) : ∃ p, (a.allocateAligned n).1 = some p ∧
    (a.allocateAligned n).2.Sound (⟨p.block, p.offset, n⟩ :: rs) ∧ p.offset % 8 = 0 := by
  simp only [Arena.allocateAligned]
  generalize hpad : (if (a.allocPtr.elim 0 ArenaPtr.offset) % 8 = 0 then 0
    else 8 - (a.allocPtr.elim 0 ArenaPtr.offset) % 8) = padding
  have hleft : padding ≤ a.allocBytesRemaining := by
    cases hp : a.allocPtr with
    | none =>
      rw [hp] at hpad
      simp at hpad
      omega
    | some p =>
      have := (h.current p hp).2
      rw [hp, Option.elim_some] at hpad
      rw [kBlockSize] at this
      split at hpad <;> omega
  split
  · obtain ⟨p, hp, hsound, hplace⟩ := (h.advance hleft).allocate hn
    refine ⟨p, hp, hsound, ?_⟩
    rcases hplace with h0 | ⟨-, hcur⟩
    · rw [h0]
    · obtain ⟨q, hq, rfl⟩ := Option.map_eq_some_iff.1 hcur
      rw [hq, Option.elim_some] at hpad
      simp only
      split at hpad <;> omega
  · obtain ⟨b, hb, hsound⟩ := h.fallback n
    exact ⟨⟨b, 0⟩, hb, hsound, rfl⟩

theorem Sound.call (h : a.Sound rs) {c : Call} (hc : 0 < c.size) : ∃ p, (a.call c).1 = some p ∧
    (a.call c).2.Sound (⟨p.block, p.offset, c.size⟩ :: rs) ∧
    ∀ n, c = .allocateAligned n → p.offset % 8 = 0 := by
  cases c with
  | allocate n =>
    obtain ⟨p, hp, hsound, -⟩ := h.allocate hc
    exact ⟨p, hp, hsound, fun _ heq => nomatch heq⟩
  | allocateAligned n =>
    obtain ⟨p, hp, hsound, halign⟩ := h.allocateAligned hc
    exact ⟨p, hp, hsound, fun _ _ => halign⟩

/-! ## Any calls -/

/-- The ranges that calls handed out. -/
def ranges (xs : List (Call × Option ArenaPtr)) : List Range :=
  xs.filterMap fun x => x.2.map fun p => ⟨p.block, p.offset, x.1.size⟩

theorem Sound.calls {cs : List Call} {xs : List (Call × Option ArenaPtr)} {a' : Arena} (h : a.Sound rs)
    (hpos : ∀ c ∈ cs, 0 < c.size) (hcalls : a.calls cs = (xs, a')) :
    xs.map Prod.fst = cs ∧ a'.Sound ((ranges xs).reverse ++ rs) ∧
      ∀ x ∈ xs, ∃ p, x.2 = some p ∧ ∀ n, x.1 = .allocateAligned n → p.offset % 8 = 0 := by
  induction cs generalizing a rs xs a' with
  | nil =>
    cases hcalls
    exact ⟨rfl, h, by simp⟩
  | cons c cs ih =>
    obtain ⟨p, hp, hsound, halign⟩ := h.call (hpos c List.mem_cons_self)
    obtain ⟨hmap, hrest, hall⟩ := ih hsound (fun c' hc' => hpos c' (List.mem_cons_of_mem _ hc')) rfl
    cases hcalls
    refine ⟨by rw [List.map_cons, hmap], ?_, fun x hx => ?_⟩
    · rw [ranges, List.filterMap_cons, hp, Option.map_some, List.reverse_cons, List.append_assoc]
      exact hrest
    · rcases List.mem_cons.1 hx with rfl | hx
      · exact ⟨p, hp, halign⟩
      · exact hall x hx

/-- Where the blocks lie: each at a multiple of eight, and no two of them overlap. -/
structure Placed (base : ℕ → ℕ) (blocks : List ℕ) : Prop where
  aligned : ∀ i, 8 ∣ base i
  apart : ∀ i j m n, blocks[i]? = some m → blocks[j]? = some n → i ≠ j →
    base i + m ≤ base j ∨ base j + n ≤ base i

end Arena

/-- The address of a pointer, when the blocks begin at `base`. -/
def ArenaPtr.address (p : ArenaPtr) (base : ℕ → ℕ) : ℕ := base p.block + p.offset

namespace Arena

theorem Placed.apart_ranges {base : ℕ → ℕ} {blocks : List ℕ} (h : Placed base blocks) {p q : ArenaPtr}
    {m n : ℕ} (hp : (⟨p.block, p.offset, m⟩ : Range).Inside blocks)
    (hq : (⟨q.block, q.offset, n⟩ : Range).Inside blocks)
    (hapart : Range.Apart ⟨p.block, p.offset, m⟩ ⟨q.block, q.offset, n⟩) :
    p.address base + m ≤ q.address base ∨ q.address base + n ≤ p.address base := by
  obtain ⟨k, hk, hkle⟩ := hp
  obtain ⟨l, hl, hlle⟩ := hq
  simp only [ArenaPtr.address]
  simp only at hk hkle hl hlle
  by_cases hsame : p.block = q.block
  · have := hapart.resolve_left (not_not.2 hsame)
    rw [hsame]
    simp only at this
    omega
  · have := h.apart _ _ _ _ hk hl hsame
    omega

/-- **Whatever is asked for, one range after the other, and wherever the blocks lie**: each range lies
in a block, no two overlap, those of `AllocateAligned` begin at a multiple of eight, and
`MemoryUsage` is the size of the blocks. -/
theorem allocations_apart {cs : List Call} {xs : List (Call × Option ArenaPtr)} {a : Arena}
    (hpos : ∀ c ∈ cs, 1 ≤ c.size) (hcalls : ({} : Arena).calls cs = (xs, a)) {base : ℕ → ℕ}
    (hplaced : Placed base a.blocks) :
    xs.map Prod.fst = cs ∧
    (∀ x ∈ xs, ∃ p size, x.2 = some p ∧ a.blocks[p.block]? = some size ∧
      base p.block ≤ p.address base ∧ p.address base + x.1.size ≤ base p.block + size ∧
      ∀ n, x.1 = .allocateAligned n → 8 ∣ p.address base) ∧
    xs.Pairwise (fun x y => ∀ p ∈ x.2, ∀ q ∈ y.2,
      p.address base + x.1.size ≤ q.address base ∨ q.address base + y.1.size ≤ p.address base) ∧
    a.memoryUsage = a.blocks.sum := by
  obtain ⟨hmap, hsound, hall⟩ := sound_empty.calls hpos hcalls
  rw [List.append_nil] at hsound
  have hinside : ∀ x ∈ xs, ∀ p ∈ x.2, (⟨p.block, p.offset, x.1.size⟩ : Range).Inside a.blocks := by
    intro x hx p hp
    refine hsound.inside _ (List.mem_reverse.2 (List.mem_filterMap.2 ⟨x, hx, ?_⟩))
    rw [Option.mem_def.1 hp, Option.map_some]
  refine ⟨hmap, fun x hx => ?_, ?_, hsound.usage⟩
  · obtain ⟨p, hp, halign⟩ := hall x hx
    obtain ⟨size, hsize, hle⟩ := hinside x hx p hp
    refine ⟨p, size, hp, hsize, Nat.le_add_right _ _, ?_, fun n hn => ?_⟩
    · rw [ArenaPtr.address, Nat.add_assoc]
      exact Nat.add_le_add_left hle _
    · exact Nat.dvd_add (hplaced.aligned _) (Nat.dvd_of_mod_eq_zero (halign n hn))
  · have hapart := List.pairwise_filterMap.1 (List.pairwise_reverse.1 hsound.apart)
    refine hapart.imp_of_mem fun {x y} hx hy hxy p hp q hq => ?_
    have hqp := hxy _ (by rw [Option.mem_def.1 hp, Option.map_some]) _ (by rw [Option.mem_def.1 hq, Option.map_some])
    exact (hplaced.apart_ranges (hinside y hy q hq) (hinside x hx p hp) hqp).symm

/-- A small range, an aligned one behind it and a large one in a block of its own. -/
theorem allocations_apart_three : ∃ xs a,
    ({} : Arena).calls [.allocate 3, .allocateAligned 5, .allocate 5000] = (xs, a) ∧
    xs.map Prod.snd = [some ⟨0, 0⟩, some ⟨0, 8⟩, some ⟨1, 0⟩] ∧ a.blocks = [4096, 5000] ∧
    xs.Pairwise (fun x y => ∀ p ∈ x.2, ∀ q ∈ y.2,
      p.address (8192 * ·) + x.1.size ≤ q.address (8192 * ·) ∨
        q.address (8192 * ·) + y.1.size ≤ p.address (8192 * ·)) ∧
    a.memoryUsage = a.blocks.sum := by
  have hplaced : Placed (8192 * ·) [4096, 5000] := by
    refine ⟨fun i => ⟨1024 * i, by omega⟩, fun i j m n hi hj hij => ?_⟩
    have hm := List.mem_of_getElem? hi
    have hn := List.mem_of_getElem? hj
    simp only [List.mem_cons, List.not_mem_nil, or_false] at hm hn
    omega
  have hpos : ∀ c ∈ [Call.allocate 3, .allocateAligned 5, .allocate 5000], 1 ≤ c.size := by decide
  obtain ⟨-, -, hapart, husage⟩ := allocations_apart hpos rfl hplaced
  exact ⟨_, _, rfl, rfl, rfl, hapart, husage⟩

end Arena

end MiniLSM
