import Mathlib.Data.List.Basic
import Mathlib.Data.List.Perm.Basic
import Mathlib.Order.Lattice
import Mathlib.Order.Nat

/-!
# The greedy merge of many lists

`Merged key ls out`: `out` comes from taking, again and again, the first element with the
least key among the heads of `ls`, the leftmost list winning a tie. The lists need not be
sorted.

* `Merged.exists_merged`, `Merged.perm`: there is such a list, and it permutes the input.
* `Merged.sorted`: when a class `cls` orders the keys of different classes, and every list
  goes through its classes in order, so does the merge.
* `Tagged.unique`, `Tagged.of_append`: with the list each element comes from, there is one merge,
  and what is left of it is the merge of what is left.
* `Merged.find`: the first element with a property is the one at which no other list can
  show another one first.
* `Merged.find?_eq`: when all else is taken before, it is the least of the first ones of the
  lists.
-/

namespace Merge

variable {E K C : Type*} [LinearOrder K] [LinearOrder C] {key : E → K} {cls : E → C}

/-- List `i` starts with `e`, and no head is taken before it. -/
structure First (key : E → K) (ls : List (List E)) (i : ℕ) (e : E) (es : List E) : Prop where
  head : ls[i]? = some (e :: es)
  le : ∀ (j : ℕ) (e' : E) (es' : List E), ls[j]? = some (e' :: es') → key e ≤ key e'
  lt : ∀ (j : ℕ) (e' : E) (es' : List E), j < i → ls[j]? = some (e' :: es') → key e < key e'

/-- The greedy merge. -/
inductive Merged (key : E → K) : List (List E) → List E → Prop
  | done {ls : List (List E)} : (∀ l ∈ ls, l = []) → Merged key ls []
  | take {ls : List (List E)} {i : ℕ} {e : E} {es out : List E} :
      First key ls i e es → Merged key (ls.set i es) out → Merged key ls (e :: out)

/-! ## Taking an element -/

theorem flatten_perm_set {ls : List (List E)} {i : ℕ} {e : E} {es : List E}
    (h : ls[i]? = some (e :: es)) : ls.flatten.Perm (e :: (ls.set i es).flatten) := by
  induction ls generalizing i with
  | nil => simp at h
  | cons l ls ih =>
    cases i with
    | zero =>
      obtain rfl : l = e :: es := by simpa using h
      simp
    | succ i =>
      have hi := ih (by simpa using h)
      simp only [List.flatten_cons, List.set_cons_succ]
      exact (hi.append_left l).trans List.perm_middle

theorem First.perm {ls : List (List E)} {i : ℕ} {e : E} {es : List E} (h : First key ls i e es) :
    ls.flatten.Perm (e :: (ls.set i es).flatten) := flatten_perm_set h.head

/-- The head of a list stays one when another list loses an element. -/
theorem getElem?_set_cons {ls : List (List E)} {i j : ℕ} {es l : List E}
    (h : (ls.set i es)[j]? = some l) : (j = i ∧ l = es) ∨ (j ≠ i ∧ ls[j]? = some l) := by
  rcases eq_or_ne j i with rfl | hne
  · rw [List.getElem?_set_self'] at h
    cases hj : ls[j]? with
    | none => simp [hj] at h
    | some l' => exact Or.inl ⟨rfl, by simpa [hj] using h.symm⟩
  · rw [List.getElem?_set_ne (Ne.symm hne)] at h
    exact Or.inr ⟨hne, h⟩

/-- One of the nonempty lists has the first head. -/
theorem exists_first {ls : List (List E)} (h : ∃ l ∈ ls, l ≠ []) : ∃ i e es, First key ls i e es := by
  induction ls with
  | nil => obtain ⟨l, hl, -⟩ := h; simp at hl
  | cons l ls ih =>
    by_cases hls : ∃ l ∈ ls, l ≠ []
    · obtain ⟨i, e, es, hf⟩ := ih hls
      cases l with
      | nil =>
        refine ⟨i + 1, e, es, hf.head, fun j e' es' hj => ?_, fun j e' es' hlt hj => ?_⟩
        · cases j with
          | zero => simp at hj
          | succ j => exact hf.le j e' es' hj
        · cases j with
          | zero => simp at hj
          | succ j => exact hf.lt j e' es' (by omega) hj
      | cons a as =>
        rcases lt_or_ge (key e) (key a) with hlt | hge
        · refine ⟨i + 1, e, es, hf.head, fun j e' es' hj => ?_, fun j e' es' hji hj => ?_⟩
          · cases j with
            | zero =>
              obtain ⟨rfl, rfl⟩ : a = e' ∧ as = es' := by simpa using hj
              exact hlt.le
            | succ j => exact hf.le j e' es' hj
          · cases j with
            | zero =>
              obtain ⟨rfl, rfl⟩ : a = e' ∧ as = es' := by simpa using hj
              exact hlt
            | succ j => exact hf.lt j e' es' (by omega) hj
        · refine ⟨0, a, as, rfl, fun j e' es' hj => ?_, fun j e' es' hji hj => by omega⟩
          cases j with
          | zero =>
            obtain ⟨rfl, rfl⟩ : a = e' ∧ as = es' := by simpa using hj
            exact le_refl _
          | succ j => exact hge.trans (hf.le j e' es' hj)
    · obtain ⟨l', hl', hne⟩ := h
      rcases List.mem_cons.1 hl' with rfl | hl'
      · obtain ⟨a, as, rfl⟩ := List.exists_cons_of_ne_nil hne
        refine ⟨0, a, as, rfl, fun j e' es' hj => ?_, fun j e' es' hji hj => by omega⟩
        cases j with
        | zero =>
          obtain ⟨rfl, rfl⟩ : a = e' ∧ as = es' := by simpa using hj
          exact le_refl _
        | succ j => exact absurd ⟨_, List.mem_of_getElem? hj, by simp⟩ hls
      · exact absurd ⟨l', hl', hne⟩ hls

namespace Merged

/-- **The merge permutes its input.** -/
theorem perm {ls : List (List E)} {out : List E} (h : Merged key ls out) : out.Perm ls.flatten := by
  induction h with
  | done hnil => rw [List.flatten_eq_nil_iff.2 hnil]
  | take hf _ ih => exact (ih.cons _).trans hf.perm.symm

/-- **Every input has a merge.** -/
theorem exists_merged (key : E → K) (ls : List (List E)) : ∃ out, Merged key ls out := by
  induction hn : ls.flatten.length generalizing ls with
  | zero =>
    exact ⟨[], .done fun l hl => List.flatten_eq_nil_iff.1 (List.length_eq_zero_iff.1 hn) l hl⟩
  | succ n ih =>
    have hne : ∃ l ∈ ls, l ≠ [] := by
      by_contra hall
      have : ls.flatten = [] := List.flatten_eq_nil_iff.2 fun l hl => by
        by_contra h; exact hall ⟨l, hl, h⟩
      rw [this] at hn; simp at hn
    obtain ⟨i, e, es, hf⟩ : ∃ i e es, First key ls i e es := exists_first hne
    have hlen := hf.perm.length_eq
    obtain ⟨out, hout⟩ := ih (ls.set i es) (by rw [hn, List.length_cons] at hlen; omega)
    exact ⟨e :: out, .take hf hout⟩

theorem mem_iff {ls : List (List E)} {out : List E} (h : Merged key ls out) {e : E} :
    e ∈ out ↔ ∃ l ∈ ls, e ∈ l := by rw [h.perm.mem_iff, List.mem_flatten]

/-- **The merge goes through the classes in order**, when the lists do. -/
theorem sorted {ls : List (List E)} {out : List E} (h : Merged key ls out)
    (hcls : ∀ x ∈ ls.flatten, ∀ y ∈ ls.flatten, cls x < cls y → key x < key y)
    (hls : ∀ l ∈ ls, l.Pairwise fun x y => cls x ≤ cls y) :
    out.Pairwise fun x y => cls x ≤ cls y := by
  induction h with
  | done _ => exact List.Pairwise.nil
  | @take ls i e es out hf hm ih =>
    have hmem : ∀ x, x ∈ (ls.set i es).flatten → x ∈ ls.flatten := fun x hx =>
      hf.perm.mem_iff.2 (List.mem_cons_of_mem _ hx)
    have he : e ∈ ls.flatten := hf.perm.mem_iff.2 List.mem_cons_self
    have hes : (e :: es).Pairwise fun x y => cls x ≤ cls y := hls _ (List.mem_of_getElem? hf.head)
    refine List.Pairwise.cons (fun y hy => ?_) (ih (fun x hx y hy => hcls x (hmem x hx) y (hmem y hy))
      fun l hl => ?_)
    · -- the head of the list of `y` was not taken before `e`
      obtain ⟨l, hl, hyl⟩ := hm.mem_iff.1 hy
      obtain ⟨j, hj⟩ := List.getElem?_of_mem hl
      have hyf : y ∈ ls.flatten := hmem y (List.mem_flatten.2 ⟨l, hl, hyl⟩)
      rcases getElem?_set_cons hj with ⟨-, rfl⟩ | ⟨-, hj⟩
      · exact List.rel_of_pairwise_cons hes hyl
      · cases l with
        | nil => simp at hyl
        | cons z zs =>
          have hz : z ∈ ls.flatten :=
            List.mem_flatten.2 ⟨_, List.mem_of_getElem? hj, List.mem_cons_self⟩
          have hez : cls e ≤ cls z := by
            by_contra hlt
            exact absurd (hcls z hz e he (not_le.1 hlt)) (not_lt.2 (hf.le j z zs hj))
          rcases List.mem_cons.1 hyl with rfl | hyl
          · exact hez
          · exact hez.trans (List.rel_of_pairwise_cons (hls _ (List.mem_of_getElem? hj)) hyl)
    · obtain ⟨j, hj⟩ := List.getElem?_of_mem hl
      rcases getElem?_set_cons hj with ⟨-, rfl⟩ | ⟨-, hj⟩
      · exact (List.pairwise_cons.1 hes).2
      · exact hls l (List.mem_of_getElem? hj)

end Merged

/-! ## Where the elements come from -/

/-- The greedy merge, each element with the index of its list. -/
inductive Tagged (key : E → K) : List (List E) → List (ℕ × E) → Prop
  | done {ls : List (List E)} : (∀ l ∈ ls, l = []) → Tagged key ls []
  | take {ls : List (List E)} {i : ℕ} {e : E} {es : List E} {out : List (ℕ × E)} :
      First key ls i e es → Tagged key (ls.set i es) out → Tagged key ls ((i, e) :: out)

theorem Merged.exists_tagged {ls : List (List E)} {out : List E} (h : Merged key ls out) :
    ∃ es, Tagged key ls es ∧ es.map Prod.snd = out := by
  induction h with
  | done hnil => exact ⟨[], .done hnil, rfl⟩
  | @take ls i e es out hf _ ih =>
    obtain ⟨rest, hrest, hout⟩ := ih
    exact ⟨(i, e) :: rest, .take hf hrest, by rw [List.map_cons, hout]⟩

/-- Every list of lists has a merge. -/
theorem exists_tagged (key : E → K) (ls : List (List E)) : ∃ es, Tagged key ls es := by
  obtain ⟨out, hm⟩ := Merged.exists_merged key ls
  obtain ⟨es, ht, -⟩ := hm.exists_tagged
  exact ⟨es, ht⟩

/-- No two heads are first. -/
theorem First.unique {ls : List (List E)} {i j : ℕ} {e f : E} {es fs : List E}
    (h : First key ls i e es) (h' : First key ls j f fs) : i = j ∧ e = f ∧ es = fs := by
  rcases lt_trichotomy i j with hlt | rfl | hgt
  · exact absurd (h.le j f fs h'.head) (not_le.2 (h'.lt i e es hlt h.head))
  · have heq := Option.some.inj (h.head.symm.trans h'.head)
    exact ⟨rfl, (List.cons.inj heq).1, (List.cons.inj heq).2⟩
  · exact absurd (h'.le i e es h.head) (not_le.2 (h.lt j f fs hgt h'.head))

namespace Tagged

variable {ls : List (List E)} {out out' : List (ℕ × E)}

/-- **There is one merge.** -/
theorem unique (h : Tagged key ls out) (h' : Tagged key ls out') : out = out' := by
  induction h generalizing out' with
  | done hnil =>
    cases h' with
    | done => rfl
    | take hf => exact absurd (hnil _ (List.mem_of_getElem? hf.head)) (by simp)
  | take hf _ ih =>
    cases h' with
    | done hnil => exact absurd (hnil _ (List.mem_of_getElem? hf.head)) (by simp)
    | take hf' h' =>
      obtain ⟨rfl, rfl, rfl⟩ := hf.unique hf'
      rw [ih h']

/-- **Every list comes out in its order.** -/
theorem of_list (h : Tagged key ls out) (i : ℕ) :
    (out.filter fun e => e.1 = i).map Prod.snd = (ls[i]?).getD [] := by
  induction h with
  | @done ls hnil =>
    cases hi : ls[i]? with
    | none => rfl
    | some l => rw [hnil l (List.mem_of_getElem? hi)]; rfl
  | @take ls j e es out hf _ ih =>
    have hlt : j < ls.length := (List.getElem?_eq_some_iff.1 hf.head).1
    rcases eq_or_ne i j with rfl | hne
    · rw [List.getElem?_set_self hlt] at ih
      rw [hf.head, List.filter_cons_of_pos (by simp), List.map_cons]
      exact congrArg (e :: ·) ih
    · rw [List.getElem?_set_ne hne.symm] at ih
      rw [List.filter_cons_of_neg (by simpa using hne.symm)]
      exact ih

/-- **What is left of a merge** merges what is left of each list. -/
theorem of_append {A : List (ℕ × E)} (h : Tagged key ls (A ++ out)) {rs : List (List E)}
    (hlen : rs.length = ls.length)
    (hrs : ∀ i, (out.filter fun e => e.1 = i).map Prod.snd = (rs[i]?).getD []) : Tagged key rs out := by
  obtain ⟨qs, hqlen, hqs⟩ : ∃ qs, qs.length = ls.length ∧ Tagged key qs out := by
    clear hlen hrs
    induction A generalizing ls with
    | nil => exact ⟨ls, rfl, h⟩
    | cons a A ih =>
      cases h with
      | take hf h =>
        obtain ⟨qs, hqlen, hqs⟩ := ih h
        exact ⟨qs, by rw [hqlen, List.length_set], hqs⟩
  have heq : qs = rs := by
    refine List.ext_getElem (hqlen.trans hlen.symm) fun i hi hi' => ?_
    have := (hqs.of_list i).symm.trans (hrs i)
    rwa [List.getElem?_eq_getElem hi, List.getElem?_eq_getElem hi'] at this
  exact heq ▸ hqs

end Tagged

/-! ## The first element with a property -/

/-- `e` in list `i` is taken before `f` in list `j` when both are heads. -/
def Before (key : E → K) (i : ℕ) (e : E) (j : ℕ) (f : E) : Prop :=
  key e < key f ∨ key e = key f ∧ i < j

/-- What is taken first has nothing before it, also not behind smaller heads. -/
theorem First.not_before {ls : List (List E)} {i j : ℕ} {e f : E} {A B fs : List E}
    (hf : First key ls j f fs) (hi : ls[i]? = some (A ++ e :: B)) (hA : ∀ a ∈ A, key a < key e) :
    ¬ Before key i e j f := by
  intro hbefore
  cases A with
  | nil =>
    rcases hbefore with hlt | ⟨heq, hij⟩
    · exact absurd hlt (not_lt.2 (hf.le i e B hi))
    · exact absurd heq (hf.lt i e B hij hi).ne'
  | cons a A =>
    have hle := hf.le i a _ hi
    have hlt := hA a List.mem_cons_self
    rcases hbefore with h | ⟨h, -⟩
    · exact absurd (hle.trans_lt (hlt.trans h)) (lt_irrefl _)
    · exact absurd (hle.trans_lt (h ▸ hlt)) (lt_irrefl _)

/-- **The first element with a property** is the one at which every other list shows an
element that waits for it before showing one with the property. -/
theorem Merged.find {ls : List (List E)} {out : List E} (h : Merged key ls out) {p : E → Bool} {i : ℕ}
    {e : E} {A B : List E} (hi : ls[i]? = some (A ++ e :: B)) (hp : p e = true)
    (hA : ∀ a ∈ A, key a < key e ∧ p a = false)
    (hother : ∀ j l, j ≠ i → ls[j]? = some l → ∀ pre x post, l = pre ++ x :: post → p x = true →
      ∃ f ∈ pre ++ [x], Before key i e j f) : out.find? p = some e := by
  induction h generalizing A with
  | done hnil => exact absurd (hnil _ (List.mem_of_getElem? hi)) (by simp)
  | @take ls j f fs out hf hm ih =>
    have hnot := hf.not_before hi fun a ha => (hA a ha).1
    rcases eq_or_ne j i with rfl | hne
    · have hlist : f :: fs = A ++ e :: B := Option.some.inj (hf.head.symm.trans hi)
      cases A with
      | nil =>
        obtain ⟨rfl, rfl⟩ : f = e ∧ fs = B := by simpa using hlist
        rw [List.find?_cons_of_pos hp]
      | cons a A =>
        obtain ⟨rfl, rfl⟩ : f = a ∧ fs = A ++ e :: B := by simpa using hlist
        rw [List.find?_cons_of_neg (by simp [(hA f List.mem_cons_self).2])]
        refine ih (List.getElem?_set_self (by
          obtain ⟨h, -⟩ := List.getElem?_eq_some_iff.1 hf.head; exact h))
          (fun a ha => hA a (List.mem_cons_of_mem _ ha)) fun k l hk hl => ?_
        rw [List.getElem?_set_ne (Ne.symm hk)] at hl
        exact hother k l hk hl
    · -- an entry that leaves before `e` from another list does not count
      have hpf : p f = false := by
        rw [Bool.eq_false_iff]
        intro hpf
        obtain ⟨g, hg, hbefore⟩ := hother j _ hne hf.head [] f fs rfl hpf
        obtain rfl : g = f := by simpa using hg
        exact hnot hbefore
      rw [List.find?_cons_of_neg (by simp [hpf])]
      refine ih (by rw [List.getElem?_set_ne hne]; exact hi) hA fun k l hk hl pre x post hl' hx => ?_
      rcases getElem?_set_cons hl with ⟨rfl, rfl⟩ | ⟨-, hl⟩
      · obtain ⟨g, hg, hbefore⟩ := hother k _ hk hf.head (f :: pre) x post (by rw [hl']; rfl) hx
        rcases List.mem_cons.1 hg with rfl | hg
        · exact absurd hbefore hnot
        · exact ⟨g, hg, hbefore⟩
      · exact hother k l hk hl pre x post hl' hx

/-- The least of some candidates, the leftmost one winning a tie. -/
def least (key : E → K) : List (Option E) → Option E
  | [] => none
  | none :: cs => least key cs
  | some e :: cs =>
    match least key cs with
    | none => some e
    | some f => if key f < key e then some f else some e

theorem least_eq_none {cs : List (Option E)} (h : least key cs = none) : ∀ c ∈ cs, c = none := by
  induction cs with
  | nil => simp
  | cons c cs ih =>
    cases c with
    | none => exact List.forall_mem_cons.2 ⟨rfl, ih h⟩
    | some e =>
      rw [least] at h
      split at h
      · cases h
      · split at h <;> cases h

theorem least_eq_some {cs : List (Option E)} {e : E} (h : least key cs = some e) :
    ∃ i, cs[i]? = some (some e) ∧ ∀ (j : ℕ) (f : E), cs[j]? = some (some f) → j ≠ i →
      Before key i e j f := by
  induction cs generalizing e with
  | nil => cases h
  | cons c cs ih =>
    cases c with
    | none =>
      obtain ⟨i, hi, hleast⟩ := ih h
      refine ⟨i + 1, hi, fun j f hj hne => ?_⟩
      cases j with
      | zero => cases hj
      | succ j =>
        refine (hleast j f hj fun heq => hne (by rw [heq])).imp_right fun ⟨hk, hlt⟩ => ⟨hk, ?_⟩
        omega
    | some a =>
      rw [least] at h
      cases hcs : least key cs with
      | none =>
        rw [hcs] at h
        obtain rfl := Option.some.inj h
        refine ⟨0, rfl, fun j f hj hne => ?_⟩
        cases j with
        | zero => exact absurd rfl hne
        | succ j => cases least_eq_none hcs _ (List.mem_of_getElem? hj)
      | some g =>
        obtain ⟨i, hi, hleast⟩ := ih hcs
        rw [hcs] at h
        simp only at h
        split at h
        · rename_i hlt
          obtain rfl := Option.some.inj h
          refine ⟨i + 1, hi, fun j f hj hne => ?_⟩
          cases j with
          | zero =>
            obtain rfl : a = f := Option.some.inj (Option.some.inj hj)
            exact Or.inl hlt
          | succ j =>
            refine (hleast j f hj fun heq => hne (by rw [heq])).imp_right fun ⟨hk, hlt⟩ => ⟨hk, ?_⟩
            omega
        -- equal keys go to the list in front
        · rename_i hge
          obtain rfl := Option.some.inj h
          refine ⟨0, rfl, fun j f hj hne => ?_⟩
          cases j with
          | zero => exact absurd rfl hne
          | succ j =>
            have hgf : key g ≤ key f := by
              rcases eq_or_ne j i with rfl | hji
              · obtain rfl : g = f := Option.some.inj (Option.some.inj (hi.symm.trans hj))
                exact le_refl _
              · rcases hleast j f hj hji with hlt | ⟨heq, -⟩
                · exact hlt.le
                · exact heq.le
            rcases lt_or_eq_of_le ((not_lt.1 hge).trans hgf) with hlt | heq
            · exact Or.inl hlt
            · exact Or.inr ⟨heq, Nat.succ_pos j⟩

/-- **The first element with a property** is the least of the first ones of the lists, when all
elements in front of these are smaller than every element with the property. -/
theorem Merged.find?_eq {ls : List (List E)} {out : List E} (h : Merged key ls out) {p : E → Bool}
    (hlow : ∀ l ∈ ls, ∀ A x B, l = A ++ x :: B → (∀ a ∈ A, p a = false) → p x = true →
      ∀ a ∈ A, ∀ e ∈ ls.flatten, p e = true → key a < key e) :
    out.find? p = least key (ls.map (List.find? p)) := by
  cases hleast : least key (ls.map (List.find? p)) with
  | none =>
    rw [List.find?_eq_none]
    intro e he hpe
    obtain ⟨l, hl, hel⟩ := h.mem_iff.1 he
    have hnone := least_eq_none hleast _ (List.mem_map_of_mem hl)
    exact List.find?_eq_none.1 hnone e hel hpe
  | some e =>
    obtain ⟨i, hi, hother⟩ := least_eq_some hleast
    obtain ⟨l, hl, hfind⟩ : ∃ l, ls[i]? = some l ∧ l.find? p = some e := by
      rw [List.getElem?_map] at hi
      exact Option.map_eq_some_iff.1 hi
    obtain ⟨hpe, A, B, rfl, hA⟩ := List.find?_eq_some_iff_append.1 hfind
    have hlm := List.mem_of_getElem? hl
    have hA' : ∀ a ∈ A, p a = false := fun a ha => by simpa using hA a ha
    refine h.find hl hpe (fun a ha => ⟨hlow _ hlm A e B rfl hA' hpe a ha e
      (List.mem_flatten.2 ⟨_, hlm, by simp⟩) hpe, hA' a ha⟩) fun j l' hji hl' pre x post heq hx => ?_
    have hsome : ((pre ++ [x]).find? p).isSome := by
      rw [List.find?_isSome]
      exact ⟨x, by simp, hx⟩
    obtain ⟨f, hf⟩ := Option.isSome_iff_exists.1 hsome
    refine ⟨f, List.mem_of_find?_eq_some hf, hother j f ?_ hji⟩
    have hl'' : l' = (pre ++ [x]) ++ post := by rw [heq]; simp
    rw [List.getElem?_map, hl', Option.map_some, hl'', List.find?_append, hf, Option.some_or]

end Merge
