import MiniLSM.Lib.Chain
import MiniLSM.Lib.Search
import MiniLSM.Spec.NodeHeap
import MiniLSM.Proof.Versions

/-!
# The twelve levels of the skip list

`Linked t ps`: the nodes of `t` but the head are `ps`, in the order of their keys, and from the
head the pointers of each level lead through those of `ps` that reach above it.

* `search_spec`: the descent ends at the first node from the key on and notes, on every level,
  the last node in front of it.
* `insert_spec`: `Insert` keeps `Linked`, and does to the nodes of level 0 what `insertChain`
  does to a list.
-/

namespace MiniLSM

namespace NodeHeap

variable {t t' : NodeHeap} {ps lo hi : List ℕ} {key : Bytes}

/-! ## Looking at nodes -/

/-- `x->next[level]`, null where there is none. -/
def nextAt (t : NodeHeap) (level x : ℕ) : Option ℕ := (t.nodes[x]?.bind fun node => node.next[level]?).join

/-- `x->key`. -/
def keyAt (t : NodeHeap) (x : ℕ) : Bytes := (t.nodes[x]?.map HeapNode.key).getD []

/-- `x->height`. -/
def heightAt (t : NodeHeap) (x : ℕ) : ℕ := (t.nodes[x]?.map HeapNode.height).getD 0

/-- The node at `x` without its pointers. -/
def dataAt (t : NodeHeap) (x : ℕ) : Node :=
  ⟨t.keyAt x, (t.nodes[x]?.map HeapNode.value).getD [], t.heightAt x⟩

/-- The nodes of `ps` that reach above `level`. -/
def above (t : NodeHeap) (level : ℕ) (ps : List ℕ) : List ℕ := ps.filter fun x => level < t.heightAt x

/-- **The levels of a skip list**: `ps` are its nodes in the order of their keys. -/
structure Linked (t : NodeHeap) (ps : List ℕ) : Prop where
  top : t.heightAt head = SkipList.kMaxHeight
  room : ∀ (x : ℕ) (node : HeapNode), t.nodes[x]? = some node → node.next.length = node.height
  bound : ∀ x ∈ ps, x ≠ head ∧ x < t.nodes.length
  height : ∀ x ∈ ps, 0 < t.heightAt x ∧ t.heightAt x ≤ SkipList.kMaxHeight
  length : ps.length < t.nodes.length
  chain : ∀ level < SkipList.kMaxHeight, Chain (t.nextAt level) head (t.above level ps)
  sorted : ps.Pairwise fun x y => t.keyAt x < t.keyAt y
  prev : t.prev.length = SkipList.kMaxHeight

/-- An access to a level that a node has. -/
theorem next_eq (hroom : ∀ (x : ℕ) (node : HeapNode), t.nodes[x]? = some node → node.next.length = node.height)
    {x level : ℕ} (hlevel : level < t.heightAt x) : t.next x level = .ok (t.nextAt level x) := by
  unfold next nextAt
  rw [heightAt] at hlevel
  cases hx : t.nodes[x]? with
  | none => rw [hx] at hlevel; simp at hlevel
  | some node =>
    rw [hx] at hlevel
    have hlt : level < node.next.length := by rw [hroom x node hx]; exact hlevel
    simp only [Checked.ofOption_some, bind, Except.bind, List.getElem?_eq_getElem hlt, Option.bind_some,
      Option.join_some]

theorem isBelow_some {y : ℕ} (hy : y < t.nodes.length) :
    t.isBelow key (some y) = .ok (decide (t.keyAt y < key)) := by
  simp only [isBelow, keyAt, List.getElem?_eq_getElem hy, Checked.ofOption_some, bind, Except.bind,
    Slice.compare_eq_lt, Option.map_some, Option.getD_some]
  rfl

/-! ## The descent -/

/-- The last node in front of the key on a level, or the head. -/
def lastOn (t : NodeHeap) (level : ℕ) (lo : List ℕ) : ℕ := (t.above level lo).getLastD head

/-- Where the descent stands: behind the nodes `c`, on a level that the last of them has. -/
theorem lastOn_eq {c : List ℕ} {level : ℕ} (h : c = [] ∨ level < t.heightAt (c.getLastD head)) :
    t.lastOn level c = c.getLastD head := by
  rcases List.eq_nil_or_concat c with rfl | ⟨c', x, rfl⟩
  · rfl
  · rw [List.concat_eq_append, List.getLastD_concat] at h ⊢
    have hx := h.resolve_left (by simp)
    rw [lastOn, above, List.filter_append, List.filter_cons_of_pos (by simpa using hx), List.filter_nil,
      List.getLastD_concat]

/-- **The descent ends at the first node from the key on**, and notes the last node in front of
the key on every level. The measure is what is left of `lo` and of the levels. -/
theorem descend_spec (h : Linked t (lo ++ hi)) (hlo : ∀ x ∈ lo, t.keyAt x < key)
    (hhi : ∀ x ∈ hi, ¬t.keyAt x < key) : ∀ (n level : ℕ) (c d : List ℕ) (prev : List (Option ℕ)),
      lo = c ++ d → level < SkipList.kMaxHeight →
      (c = [] ∨ level < t.heightAt (c.getLastD head)) → d.length + level < n →
      prev.length = SkipList.kMaxHeight →
      ∃ prev', descend t key n (c.getLastD head) level prev = .ok (hi.head?, prev') ∧
        prev'.length = SkipList.kMaxHeight ∧
        (∀ j ≤ level, prev'[j]? = some (some (t.lastOn j lo))) ∧
        ∀ j, level < j → prev'[j]? = prev[j]? := by
  intro n
  induction n with
  | zero => intro level c d prev _ _ _ hn _; omega
  | succ n ih =>
    intro level c d prev hcd hlevel hc hn hprev
    set x := c.getLastD head with hx
    have hreach : level < t.heightAt x := by
      rcases hc with rfl | hc
      · rw [hx, List.getLastD_nil, h.top]; exact hlevel
      · exact hc
    -- behind `x`, the level goes on through `d` and `hi`
    have hrest : Chain (t.nextAt level) x (t.above level d ++ t.above level hi) := by
      have hchain := h.chain level hlevel
      rw [hcd, List.append_assoc, above, List.filter_append, List.filter_append] at hchain
      have hcut := hchain.cut
      rwa [← above, ← lastOn, lastOn_eq hc] at hcut
    have hnext := next_eq h.room hreach
    rw [hrest.next_eq] at hnext
    have hmem : ∀ y, y ∈ lo ∨ y ∈ hi → y < t.nodes.length := fun y hy =>
      (h.bound y (List.mem_append.2 hy)).2
    cases hd : t.above level d with
    | cons y ds =>
      obtain ⟨d₁, d₂, rfl, -, hy, -⟩ := List.filter_eq_cons_iff.1 hd
      have hylo : y ∈ lo := by rw [hcd]; simp
      have hylast : (c ++ (d₁ ++ [y])).getLastD head = y := by
        rw [← List.append_assoc, List.getLastD_concat]
      rw [hd, List.cons_append, List.head?_cons] at hnext
      obtain ⟨prev', hrun, hspec⟩ := ih level (c ++ (d₁ ++ [y])) d₂ prev (by rw [hcd]; simp) hlevel
        (Or.inr (by rw [hylast]; simpa using hy))
        (by simp only [List.length_append, List.length_cons] at hn; omega) hprev
      rw [hylast] at hrun
      refine ⟨prev', ?_, hspec⟩
      rw [descend, hnext]
      simp only [bind, Except.bind, isBelow_some (hmem y (Or.inl hylo)), hlo y hylo, decide_true,
        if_true, Checked.ofOption_some]
      exact hrun
    | nil =>
      rw [hd, List.nil_append] at hnext
      have hbelow : t.isBelow key (t.above level hi).head? = .ok false := by
        cases hhead : (t.above level hi).head? with
        | none => rfl
        | some y =>
          have hyhi : y ∈ hi := List.mem_of_mem_filter (List.mem_of_mem_head? hhead)
          rw [isBelow_some (hmem y (Or.inr hyhi)), decide_eq_false (hhi y hyhi)]
      have hlast : t.lastOn level lo = x := by
        rw [hcd, lastOn, above, List.filter_append, ← above, ← above, hd, List.append_nil, ← lastOn,
          lastOn_eq hc]
      have hset : (prev.set level (some x))[level]? = some (some (t.lastOn level lo)) := by
        rw [List.getElem?_set_self (by omega), hlast]
      rw [descend, hnext]
      simp only [bind, Except.bind, hbelow, Bool.false_eq_true, if_false]
      by_cases hzero : level = 0
      · subst hzero
        have hall : t.above 0 hi = hi := List.filter_eq_self.2 fun y hy => by
          simpa using (h.height y (List.mem_append_right _ hy)).1
        rw [if_pos rfl, hall]
        refine ⟨_, rfl, by rw [List.length_set, hprev], fun j hj => ?_, fun j hj => ?_⟩
        · obtain rfl : j = 0 := by omega
          exact hset
        · exact List.getElem?_set_ne (by omega)
      · obtain ⟨prev', hrun, hlen, hle, hgt⟩ := ih (level - 1) c d (prev.set level (some x)) hcd
          (by omega) (Or.inr (by rw [← hx]; omega)) (by omega) (by rw [List.length_set, hprev])
        rw [if_neg hzero]
        refine ⟨prev', hrun, hlen, fun j hj => ?_, fun j hj => ?_⟩
        · rcases Nat.lt_or_ge j level with hlt | hge
          · exact hle j (by omega)
          · obtain rfl : j = level := by omega
            rw [hgt j (by omega), hset]
        · rw [hgt j (by omega), List.getElem?_set_ne (by omega)]

/-- The nodes in front of a key, and those from it on. -/
theorem split_at (h : Linked t ps) (key : Bytes) :
    ∃ lo hi, ps = lo ++ hi ∧ (∀ x ∈ lo, t.keyAt x < key) ∧ ∀ x ∈ hi, ¬t.keyAt x < key := by
  have hsorted := h.sorted
  clear h
  induction ps with
  | nil => exact ⟨[], [], rfl, by simp, by simp⟩
  | cons x ps ih =>
    obtain ⟨hx, hps⟩ := List.pairwise_cons.1 hsorted
    by_cases hlt : t.keyAt x < key
    · obtain ⟨lo, hi, rfl, hlo, hhi⟩ := ih hps
      exact ⟨x :: lo, hi, rfl, List.forall_mem_cons.2 ⟨hlt, hlo⟩, hhi⟩
    · refine ⟨[], x :: ps, rfl, by simp, List.forall_mem_cons.2 ⟨hlt, fun y hy hlt' => ?_⟩⟩
      exact hlt ((hx y hy).trans hlt')

/-- **The search** from the head: there is fuel for every node and every level. -/
theorem search_spec (h : Linked t (lo ++ hi)) (hlo : ∀ x ∈ lo, t.keyAt x < key)
    (hhi : ∀ x ∈ hi, ¬t.keyAt x < key) :
    ∃ prev, t.search key = .ok (hi.head?, prev) ∧ prev.length = SkipList.kMaxHeight ∧
      ∀ j < SkipList.kMaxHeight, prev[j]? = some (some (t.lastOn j lo)) := by
  have hlen := h.length
  have hmax : SkipList.kMaxHeight = 12 := rfl
  rw [List.length_append] at hlen
  obtain ⟨prev, hrun, hprev, hle, -⟩ := descend_spec h hlo hhi (t.nodes.length + SkipList.kMaxHeight)
    (SkipList.kMaxHeight - 1) [] lo t.prev rfl (by omega) (Or.inl rfl) (by omega) h.prev
  exact ⟨prev, hrun, hprev, fun j hj => hle j (by omega)⟩

/-- **`FindGreaterOrEqual` finds the first node from the key on.** -/
theorem findGreaterOrEqual_eq (h : Linked t (lo ++ hi)) (hlo : ∀ x ∈ lo, t.keyAt x < key)
    (hhi : ∀ x ∈ hi, ¬t.keyAt x < key) : t.findGreaterOrEqual key = .ok hi.head? := by
  obtain ⟨prev, hrun, -⟩ := search_spec h hlo hhi
  rw [findGreaterOrEqual, hrun]
  rfl

/-- What `Contains` makes of the node at which its loop ends. -/
def answer (t : NodeHeap) (key : Bytes) : Option ℕ → Checked (Option Bytes)
  | none => .ok none
  | some y => do
    let node ← Checked.ofOption t.nodes[y]?
    return if Slice.compare node.key key = .eq then some node.value else none

/-- `Contains` goes down as `FindGreaterOrEqual` does. -/
theorem containsLoop_eq (n x level : ℕ) (prev : List (Option ℕ)) :
    t.containsLoop key n x level = t.descend key n x level prev >>= fun r => t.answer key r.1 := by
  induction n generalizing x level prev with
  | zero => rfl
  | succ n ih =>
    simp only [containsLoop, descend, bind, Except.bind]
    cases t.next x level with
    | error f => rfl
    | ok y =>
      simp only
      cases t.isBelow key y with
      | error f => rfl
      | ok below =>
        cases below with
        | true =>
          simp only [if_true]
          cases Checked.ofOption y with
          | error f => rfl
          | ok y => exact ih y level prev
        | false =>
          simp only [Bool.false_eq_true, if_false]
          by_cases hzero : level = 0
          · simp only [hzero, if_true]
            cases y <;> rfl
          · simp only [hzero, if_false]
            exact ih x (level - 1) _

/-- The nodes of a skip list in the order of their keys, without their pointers. -/
def chainNodes (t : NodeHeap) (ps : List ℕ) : List Node := ps.map t.dataAt

theorem chainNodes_cons (t : NodeHeap) (x : ℕ) (ps : List ℕ) :
    t.chainNodes (x :: ps) = t.dataAt x :: t.chainNodes ps := rfl

theorem chainNodes_append (t : NodeHeap) (ps qs : List ℕ) :
    t.chainNodes (ps ++ qs) = t.chainNodes ps ++ t.chainNodes qs := List.map_append

/-- Nodes of other keys do not show up in a lookup. -/
theorem lookup_chainNodes_eq_none (h : ∀ x ∈ ps, t.keyAt x ≠ key) :
    (MemTable.chainEntries (t.chainNodes ps)).lookup key = none := by
  rw [List.lookup_eq_none_iff]
  simp only [MemTable.chainEntries, chainNodes, List.map_map, List.mem_map]
  rintro - ⟨x, hx, rfl⟩
  simpa [dataAt] using (h x hx).symm

/-- **`Contains` finds the value of a key.** -/
theorem contains_eq (h : Linked t ps) (key : Bytes) : t.contains key =
    .ok ((MemTable.chainEntries (t.chainNodes ps)).lookup key) := by
  obtain ⟨lo, hi, rfl, hlo, hhi⟩ := split_at h key
  obtain ⟨prev, hrun, -⟩ := search_spec h hlo hhi
  rw [search] at hrun
  rw [contains, containsLoop_eq _ _ _ t.prev, hrun, chainNodes_append, MemTable.chainEntries,
    List.map_append, List.lookup_append, ← MemTable.chainEntries, ← MemTable.chainEntries,
    lookup_chainNodes_eq_none fun x hx => (hlo x hx).ne, Option.none_or]
  simp only [bind, Except.bind]
  cases hi with
  | nil => rfl
  | cons y hs =>
    have hy : y < t.nodes.length := (h.bound y (by simp)).2
    have hkey : t.keyAt y = t.nodes[y].key := by
      simp only [keyAt, List.getElem?_eq_getElem hy, Option.map_some, Option.getD_some]
    have hdata : MemTable.chainEntries (t.chainNodes (y :: hs)) =
        (t.nodes[y].key, t.nodes[y].value) :: MemTable.chainEntries (t.chainNodes hs) := by
      simp only [MemTable.chainEntries, chainNodes, List.map_cons, dataAt, keyAt,
        List.getElem?_eq_getElem hy, Option.map_some, Option.getD_some]
    rw [hdata, List.lookup_cons, List.head?_cons, answer, List.getElem?_eq_getElem hy]
    simp only [Checked.ofOption_some, bind, Except.bind, Slice.compare_eq_eq]
    by_cases heq : t.nodes[y].key = key
    · rw [if_pos heq, heq, beq_self_eq_true]
      rfl
    · -- the keys behind the first one are greater still
      have hgt : ∀ x ∈ hs, t.keyAt x ≠ key := by
        intro x hx
        have hyx := (List.pairwise_cons.1 (List.pairwise_append.1 h.sorted).2.1).1 x hx
        exact ((not_lt.1 (hhi y List.mem_cons_self)).trans_lt hyx).ne'
      rw [if_neg heq, beq_false_of_ne (Ne.symm heq), lookup_chainNodes_eq_none hgt]
      rfl

/-! ## Splicing a node in -/

/-- The memory after some pointers were written: all else is the same. -/
structure SameData (t t' : NodeHeap) : Prop where
  arena : t'.arena = t.arena
  prev : t'.prev = t.prev
  data : t'.dataAt = t.dataAt
  length : t'.nodes.length = t.nodes.length
  room : (∀ (x : ℕ) (node : HeapNode), t.nodes[x]? = some node → node.next.length = node.height) →
    ∀ (x : ℕ) (node : HeapNode), t'.nodes[x]? = some node → node.next.length = node.height

theorem SameData.keyAt (h : SameData t t') (x : ℕ) : t'.keyAt x = t.keyAt x :=
  congrArg Node.key (congrFun h.data x)

theorem SameData.heightAt (h : SameData t t') (x : ℕ) : t'.heightAt x = t.heightAt x :=
  congrArg Node.height (congrFun h.data x)

theorem SameData.refl (t : NodeHeap) : SameData t t := ⟨rfl, rfl, rfl, rfl, id⟩

theorem SameData.trans {t'' : NodeHeap} (h : SameData t t') (h' : SameData t' t'') : SameData t t'' :=
  ⟨h'.arena.trans h.arena, h'.prev.trans h.prev, h'.data.trans h.data, h'.length.trans h.length,
    fun hroom => h'.room (h.room hroom)⟩

/-- **Writing a pointer** changes that pointer only. -/
theorem setNext_spec (hroom : ∀ (x : ℕ) (node : HeapNode), t.nodes[x]? = some node →
      node.next.length = node.height) {p level : ℕ} (hlevel : level < t.heightAt p) (y : Option ℕ) :
    ∃ t', t.setNext p level y = .ok t' ∧ SameData t t' ∧
      ∀ j x, t'.nextAt j x = if x = p ∧ j = level then y else t.nextAt j x := by
  obtain ⟨node, hnode⟩ : ∃ node, t.nodes[p]? = some node := by
    rw [heightAt] at hlevel
    cases hp : t.nodes[p]? with
    | none => rw [hp] at hlevel; simp at hlevel
    | some node => exact ⟨node, rfl⟩
  have hlt : level < node.next.length := by
    rw [hroom p node hnode]
    rwa [heightAt, hnode] at hlevel
  have hp : p < t.nodes.length := (List.getElem?_eq_some_iff.1 hnode).1
  set node' := { node with next := node.next.set level y } with hnode'
  have hself : (t.nodes.set p node')[p]? = some node' := List.getElem?_set_self hp
  refine ⟨{ t with nodes := t.nodes.set p node' }, ?_, ⟨rfl, rfl, ?_, List.length_set, ?_⟩, ?_⟩
  · simp only [setNext, hnode, Checked.ofOption_some, bind, Except.bind,
      List.getElem?_eq_getElem hlt]
    rfl
  · funext x
    rcases eq_or_ne x p with rfl | hne
    · simp only [dataAt, NodeHeap.keyAt, NodeHeap.heightAt, hself, hnode, Option.map_some]
      rfl
    · simp only [dataAt, NodeHeap.keyAt, NodeHeap.heightAt, List.getElem?_set_ne hne.symm]
  · intro _ x m hm
    rcases eq_or_ne x p with rfl | hne
    · obtain rfl := Option.some.inj (hself.symm.trans hm)
      rw [hnode', List.length_set]
      exact hroom x node hnode
    · rw [List.getElem?_set_ne hne.symm] at hm
      exact hroom x m hm
  · intro j x
    rcases eq_or_ne x p with rfl | hne
    · simp only [nextAt, hself, hnode, Option.bind_some, true_and]
      rw [hnode']
      rcases eq_or_ne j level with rfl | hj
      · rw [List.getElem?_set_self hlt, if_pos rfl, Option.join_some]
      · rw [List.getElem?_set_ne hj.symm, if_neg hj]
    · rw [if_neg fun h => hne h.1]
      simp only [nextAt, List.getElem?_set_ne hne.symm]

/-- **One turn of the splicing** puts node `n` behind its predecessor on one level. -/
theorem link_spec (hroom : ∀ (x : ℕ) (node : HeapNode), t.nodes[x]? = some node →
      node.next.length = node.height) {n p level : ℕ} (hprev : t.prev[level]? = some (some p))
    (hp : level < t.heightAt p) (hn : level < t.heightAt n) (hne : p ≠ n) :
    ∃ t', link n t level = .ok t' ∧ SameData t t' ∧ ∀ j x, t'.nextAt j x =
      if j = level then (if x = n then t.nextAt j p else if x = p then some n else t.nextAt j x)
      else t.nextAt j x := by
  obtain ⟨t₁, hset₁, hsame₁, hnext₁⟩ := setNext_spec hroom hn (t.nextAt level p)
  have hp₁ : level < t₁.heightAt p := by rwa [hsame₁.heightAt]
  obtain ⟨t₂, hset₂, hsame₂, hnext₂⟩ := setNext_spec (hsame₁.room hroom) hp₁ (some n)
  refine ⟨t₂, ?_, hsame₁.trans hsame₂, fun j x => ?_⟩
  · simp only [link, hprev, Option.join_some, Checked.ofOption_some, bind, Except.bind, next_eq hroom hp,
      hset₁, hset₂]
  · rw [hnext₂, hnext₁]
    by_cases hj : j = level
    · subst hj
      by_cases hxn : x = n
      · simp [hxn, hne.symm]
      · rcases eq_or_ne x p with rfl | hxp
        · simp [hxn]
        · simp [hxn, hxp]
    · simp [hj]

/-- **The splicing loop**, up to level `m`. -/
theorem links_spec (hroom : ∀ (x : ℕ) (node : HeapNode), t.nodes[x]? = some node →
      node.next.length = node.height) {n : ℕ} {p : ℕ → ℕ} {m : ℕ} (hm : m ≤ t.heightAt n)
    (hprev : ∀ j < m, t.prev[j]? = some (some (p j))) (hp : ∀ j < m, j < t.heightAt (p j))
    (hne : ∀ j < m, p j ≠ n) :
    ∃ t', (List.range m).foldlM (link n) t = .ok t' ∧ SameData t t' ∧ ∀ j x, t'.nextAt j x =
      if j < m then (if x = n then t.nextAt j (p j) else if x = p j then some n else t.nextAt j x)
      else t.nextAt j x := by
  induction m with
  | zero => exact ⟨t, rfl, .refl t, fun j x => by simp⟩
  | succ m ih =>
    obtain ⟨t₁, hrun, hsame, hnext⟩ := ih (by omega) (fun j hj => hprev j (by omega))
      (fun j hj => hp j (by omega)) fun j hj => hne j (by omega)
    have hprev₁ : t₁.prev[m]? = some (some (p m)) := by rw [hsame.prev]; exact hprev m (by omega)
    have hp₁ : m < t₁.heightAt (p m) := by rw [hsame.heightAt]; exact hp m (by omega)
    have hn₁ : m < t₁.heightAt n := by rw [hsame.heightAt]; omega
    obtain ⟨t₂, hlink, hsame', hnext'⟩ :=
      link_spec (hsame.room hroom) hprev₁ hp₁ hn₁ (hne m (by omega))
    refine ⟨t₂, ?_, hsame.trans hsame', fun j x => ?_⟩
    · rw [List.range_succ, List.foldlM_append, hrun]
      simp only [bind, Except.bind, List.foldlM_cons, hlink, List.foldlM_nil, pure, Except.pure]
    · rw [hnext', hnext, hnext]
      -- level `m` is new, those below it are as before
      rcases lt_trichotomy j m with hlt | rfl | hgt
      · simp only [if_neg hlt.ne, if_pos hlt, if_pos (show j < m + 1 by omega)]
      · simp only [if_true, lt_self_iff_false, if_false, if_pos (show j < j + 1 by omega)]
      · simp only [if_neg hgt.ne', if_neg (show ¬j < m by omega), if_neg (show ¬j < m + 1 by omega)]

/-! ## `Insert` -/

/-- An insertion goes past the nodes in front of its key. -/
theorem insertChain_append {key value : Bytes} {height : ℕ} {xs ys : List Node}
    (h : ∀ x ∈ xs, x.key < key) : SkipList.insertChain key value height (xs ++ ys) =
      xs ++ SkipList.insertChain key value height ys := by
  induction xs with
  | nil => rfl
  | cons x xs ih =>
    have hx := Slice.compare_eq_lt.2 (h x List.mem_cons_self)
    rw [List.cons_append, SkipList.insertChain, hx]
    simp only
    rw [ih fun y hy => h y (List.mem_cons_of_mem _ hy), List.cons_append]

/-- The nodes of a chain are all different, the head included. -/
theorem Linked.nodup (h : Linked t ps) (level : ℕ) : (head :: t.above level ps).Nodup := by
  have hps : ps.Nodup := h.sorted.imp fun hlt heq => by
    rw [heq] at hlt
    exact lt_irrefl _ hlt
  refine List.nodup_cons.2 ⟨fun hmem => ?_, hps.filter _⟩
  exact (h.bound head (List.mem_of_mem_filter hmem)).1 rfl

/-- **The levels of a memory depend on the head and on the nodes in them** only. -/
theorem Linked.congr (h : Linked t ps)
    (hroom : ∀ (x : ℕ) (node : HeapNode), t'.nodes[x]? = some node → node.next.length = node.height)
    (hlen : t.nodes.length ≤ t'.nodes.length) (hprev : t'.prev.length = SkipList.kMaxHeight)
    (hkey : ∀ x ∈ ps, t'.keyAt x = t.keyAt x) (hheight : ∀ x ∈ head :: ps, t'.heightAt x = t.heightAt x)
    (hnext : ∀ level, ∀ x ∈ head :: ps, t'.nextAt level x = t.nextAt level x) : Linked t' ps := by
  have hps : ∀ x ∈ ps, x ∈ head :: ps := fun x hx => List.mem_cons_of_mem _ hx
  have habove : ∀ level, t'.above level ps = t.above level ps := fun level =>
    List.filter_congr fun x hx => by rw [hheight x (hps x hx)]
  refine ⟨(hheight _ List.mem_cons_self).trans h.top, hroom, fun x hx => ?_, fun x hx => ?_,
    h.length.trans_le hlen, fun level hlevel => ?_, ?_, hprev⟩
  · obtain ⟨hne, hlt⟩ := h.bound x hx
    exact ⟨hne, hlt.trans_le hlen⟩
  · rw [hheight x (hps x hx)]
    exact h.height x hx
  · rw [habove]
    exact (h.chain level hlevel).congr (hnext level _ List.mem_cons_self) fun p hp =>
      hnext level p (hps p (List.mem_of_mem_filter hp))
  · exact h.sorted.imp_of_mem fun hx hy hlt => by rwa [hkey _ hx, hkey _ hy]

/-- **An update in place** leaves all pointers as they are. -/
theorem Linked.set_value (h : Linked t ps) {y : ℕ} {node : HeapNode} (hy : t.nodes[y]? = some node)
    (value : Bytes) (arena : Arena) {prev : List (Option ℕ)} (hprev : prev.length = SkipList.kMaxHeight) :
    Linked { arena := arena, nodes := t.nodes.set y { node with value := value }, prev := prev } ps := by
  have hlt : y < t.nodes.length := (List.getElem?_eq_some_iff.1 hy).1
  set t' : NodeHeap := { arena := arena, nodes := t.nodes.set y { node with value := value }, prev := prev }
    with ht'
  have hself : t'.nodes[y]? = some { node with value := value } := List.getElem?_set_self hlt
  have hother : ∀ x, x ≠ y → t'.nodes[x]? = t.nodes[x]? := fun x hx => List.getElem?_set_ne hx.symm
  have hlen : t'.nodes.length = t.nodes.length := List.length_set
  refine h.congr (fun x m hm => ?_) hlen.ge hprev (fun x _ => ?_) (fun x _ => ?_) fun level x _ => ?_
  · rcases eq_or_ne x y with rfl | hne
    · obtain rfl := Option.some.inj (hself.symm.trans hm)
      exact h.room x node hy
    · exact h.room x m ((hother x hne).symm.trans hm)
  · rcases eq_or_ne x y with rfl | hne
    · simp only [keyAt, hself, hy, Option.map_some]
    · rw [keyAt, hother x hne, keyAt]
  · rcases eq_or_ne x y with rfl | hne
    · simp only [heightAt, hself, hy, Option.map_some]
    · rw [heightAt, hother x hne, heightAt]
  · rcases eq_or_ne x y with rfl | hne
    · simp only [nextAt, hself, hy, Option.bind_some]
    · rw [nextAt, hother x hne, nextAt]

/-- The memory behind the allocation of a node. -/
theorem Linked.push (h : Linked t ps) (key value : Bytes) (height : ℕ) (arena : Arena)
    {prev : List (Option ℕ)} (hprev : prev.length = SkipList.kMaxHeight) :
    let t' : NodeHeap := ⟨arena, t.nodes ++ [newNode key value height], prev⟩
    Linked t' ps ∧ (∀ x < t.nodes.length, t'.dataAt x = t.dataAt x) ∧
      t'.dataAt t.nodes.length = ⟨key, value, height⟩ := by
  intro t'
  have hold : ∀ x < t.nodes.length, t'.nodes[x]? = t.nodes[x]? := fun x hx =>
    List.getElem?_append_left hx
  have hnew : t'.nodes[t.nodes.length]? = some (newNode key value height) := by
    rw [List.getElem?_append_right (le_refl _), Nat.sub_self]; rfl
  have hdata : ∀ x < t.nodes.length, t'.dataAt x = t.dataAt x := fun x hx => by
    simp only [dataAt, keyAt, heightAt, hold x hx]
  have hlen : t'.nodes.length = t.nodes.length + 1 := by simp [t']
  have hbound : ∀ x ∈ head :: ps, x < t.nodes.length := by
    intro x hx
    rcases List.mem_cons.1 hx with rfl | hx
    · exact (Nat.zero_le _).trans_lt h.length
    · exact (h.bound x hx).2
  refine ⟨h.congr (fun x m hm => ?_) (by omega) hprev (fun x hx => ?_) (fun x hx => ?_)
    fun level x hx => ?_, hdata, ?_⟩
  · rcases Nat.lt_or_ge x t.nodes.length with hlt | hge
    · exact h.room x m ((hold x hlt).symm.trans hm)
    · have hx : x < t'.nodes.length := (List.getElem?_eq_some_iff.1 hm).1
      obtain rfl : x = t.nodes.length := by omega
      obtain rfl := Option.some.inj (hnew.symm.trans hm)
      exact List.length_replicate
  · exact congrArg Node.key (hdata x (hbound x (List.mem_cons_of_mem _ hx)))
  · exact congrArg Node.height (hdata x (hbound x hx))
  · rw [nextAt, hold x (hbound x hx), nextAt]
  · simp only [dataAt, keyAt, heightAt, hnew, Option.map_some, Option.getD_some, newNode]

/-- **A new node between two neighbours**, on all levels below its height. -/
theorem Linked.splice (h : Linked t (lo ++ hi)) {n height : ℕ} (hn : n ∉ head :: (lo ++ hi))
    (hlt : n < t.nodes.length) (hheight : t.heightAt n = height) (hpos : 0 < height)
    (hmax : height ≤ SkipList.kMaxHeight) (hlen : (lo ++ hi).length + 1 < t.nodes.length)
    (hprev : ∀ j < SkipList.kMaxHeight, t.prev[j]? = some (some (t.lastOn j lo)))
    (hlo : ∀ x ∈ lo, t.keyAt x < t.keyAt n) (hhi : ∀ x ∈ hi, t.keyAt n < t.keyAt x) :
    ∃ t', (List.range height).foldlM (link n) t = .ok t' ∧ SameData t t' ∧ Linked t' (lo ++ n :: hi) := by
  have hlast : ∀ j, t.lastOn j lo ∈ head :: t.above j lo := fun j => List.getLastD_mem_cons
  have hlastHead : ∀ j, t.lastOn j lo ∈ head :: (lo ++ hi) := fun j => by
    rcases List.mem_cons.1 (hlast j) with heq | hmem
    · rw [heq]
      exact List.mem_cons_self
    · exact List.mem_cons_of_mem _ (List.mem_append_left _ (List.mem_of_mem_filter hmem))
  obtain ⟨t', hrun, hsame, hnext⟩ := links_spec h.room (n := n) (p := fun j => t.lastOn j lo) (m := height)
    hheight.ge (fun j hj => hprev j (hj.trans_le hmax))
    (fun j hj => by
      rcases List.mem_cons.1 (hlast j) with heq | hmem
      · rw [heq, h.top]
        omega
      · simpa using List.of_mem_filter hmem)
    fun j _ heq => hn (heq ▸ hlastHead j)
  have hnps : n ∉ lo ++ hi := fun hmem => hn (List.mem_cons_of_mem _ hmem)
  have habove : ∀ level, t'.above level (lo ++ n :: hi) =
      t.above level lo ++ (if level < height then [n] else []) ++ t.above level hi := by
    intro level
    have hfun : (fun x => decide (level < t'.heightAt x)) = fun x => decide (level < t.heightAt x) := by
      funext x
      rw [hsame.heightAt]
    rw [above, hfun, List.filter_append, List.filter_cons, hheight, above, above]
    by_cases hl : level < height <;> simp [hl]
  refine ⟨t', hrun, hsame, ?_, hsame.room h.room, fun x hx => ?_, fun x hx => ?_, ?_, fun level hlevel => ?_, ?_,
    by rw [hsame.prev, h.prev]⟩
  · rw [hsame.heightAt]
    exact h.top
  · rw [hsame.length]
    rcases List.mem_append.1 hx with hx | hx
    · exact h.bound x (List.mem_append_left _ hx)
    rcases List.mem_cons.1 hx with rfl | hx
    · exact ⟨fun heq => hn (heq ▸ List.mem_cons_self), hlt⟩
    · exact h.bound x (List.mem_append_right _ hx)
  · rw [hsame.heightAt]
    rcases List.mem_append.1 hx with hx | hx
    · exact h.height x (List.mem_append_left _ hx)
    rcases List.mem_cons.1 hx with rfl | hx
    · rw [hheight]
      exact ⟨hpos, hmax⟩
    · exact h.height x (List.mem_append_right _ hx)
  · rw [hsame.length]
    simp only [List.length_append, List.length_cons] at hlen ⊢
    omega
  · have hchain := h.chain level hlevel
    have hnd := h.nodup level
    rw [above, List.filter_append, ← above, ← above] at hchain hnd
    have hnew : n ∉ head :: (t.above level lo ++ t.above level hi) := by
      intro hmem
      rcases List.mem_cons.1 hmem with heq | hmem
      · exact hn (heq ▸ List.mem_cons_self)
      rcases List.mem_append.1 hmem with hmem | hmem
      · exact hnps (List.mem_append_left _ (List.mem_of_mem_filter hmem))
      · exact hnps (List.mem_append_right _ (List.mem_of_mem_filter hmem))
    rw [habove]
    by_cases hl : level < height
    · rw [if_pos hl, List.append_assoc, List.singleton_append]
      refine hchain.splice hnd hnew ?_ ?_ fun p hp hpn => ?_
      · rw [hnext, if_pos hl, ← lastOn, if_neg, if_pos rfl]
        exact fun heq => hn (heq ▸ hlastHead level)
      · rw [hnext, if_pos hl, if_pos rfl]
        rfl
      · rw [← lastOn] at hp
        rw [hnext, if_pos hl, if_neg hpn, if_neg hp]
    · rw [if_neg hl, List.append_nil]
      exact hchain.congr (by rw [hnext, if_neg hl]) fun p _ => by rw [hnext, if_neg hl]
  · simp only [hsame.keyAt]
    obtain ⟨hslo, hshi, hacross⟩ := List.pairwise_append.1 h.sorted
    refine List.pairwise_append.2 ⟨hslo, List.pairwise_cons.2 ⟨hhi, hshi⟩, fun x hx y hy => ?_⟩
    rcases List.mem_cons.1 hy with rfl | hy
    · exact hlo x hx
    · exact hacross x hx y hy

/-- The skip list as the chain of its level 0. -/
def toSkipList (t : NodeHeap) (ps : List ℕ) : SkipList := ⟨t.arena, t.chainNodes ps⟩

/-- Data that agree on a chain give the same nodes. -/
theorem chainNodes_congr (h : ∀ x ∈ ps, t'.dataAt x = t.dataAt x) : t'.chainNodes ps = t.chainNodes ps :=
  List.map_congr_left h

/-- The first node from a key on, in the list of the nodes. -/
theorem toSkipList_find (hlo : ∀ x ∈ lo, t.keyAt x < key) (hhi : ∀ x ∈ hi, ¬t.keyAt x < key) :
    (t.toSkipList (lo ++ hi)).findGreaterOrEqual key = hi.head?.map t.dataAt := by
  have hnone : (t.chainNodes lo).find? (fun n => Slice.compare n.key key ≠ .lt) = none := by
    rw [List.find?_eq_none]
    intro n hn
    obtain ⟨x, hx, rfl⟩ := List.mem_map.1 hn
    simpa [dataAt] using hlo x hx
  rw [SkipList.findGreaterOrEqual, toSkipList, chainNodes_append, List.find?_append, hnone, Option.none_or]
  cases hi with
  | nil => rfl
  | cons y hs =>
    rw [chainNodes, List.map_cons, List.find?_cons_of_pos]
    · rfl
    · simpa [dataAt] using not_lt.1 (hhi y List.mem_cons_self)

/-- The nodes in front of a key. -/
theorem chainNodes_below (hlo : ∀ x ∈ lo, t.keyAt x < key) : ∀ x ∈ t.chainNodes lo, x.key < key := by
  intro n hn
  obtain ⟨x, hx, rfl⟩ := List.mem_map.1 hn
  exact hlo x hx

/-- **`Insert` of a key that is there** stores the value in its node. -/
theorem insert_found {y : ℕ} {hs : List ℕ} (h : Linked t (lo ++ y :: hs)) (hlo : ∀ x ∈ lo, t.keyAt x < key)
    (hykey : t.keyAt y = key) (value : Bytes) (height : ℕ) : ∃ t' ps', t.insert key value height = .ok t' ∧
      Linked t' ps' ∧ t'.toSkipList ps' = (t.toSkipList (lo ++ y :: hs)).insert key value height := by
  have hhi : ∀ x ∈ y :: hs, ¬t.keyAt x < key := by
    intro x hx
    rcases List.mem_cons.1 hx with rfl | hx
    · exact hykey.not_lt
    · have hsorted := (List.pairwise_append.1 h.sorted).2.1
      exact (hykey.symm.trans_lt ((List.pairwise_cons.1 hsorted).1 x hx)).not_gt
  obtain ⟨prev, hrun, hprevlen, -⟩ := search_spec h hlo hhi
  have hfind := toSkipList_find hlo hhi
  have hchain := chainNodes_below hlo
  have hy : y < t.nodes.length := (h.bound y (by simp)).2
  have hnode : t.nodes[y]? = some t.nodes[y] := List.getElem?_eq_getElem hy
  have hnodekey : t.nodes[y].key = key := by
    rwa [keyAt, hnode] at hykey
  refine ⟨_, lo ++ y :: hs, ?_, h.set_value hnode value (t.arena.allocate value.length).2 hprevlen, ?_⟩
  · simp only [insert, hrun, bind, Except.bind, List.head?_cons, hnode, Checked.ofOption_some,
      Slice.compare_eq_eq, hnodekey, if_true, pure, Except.pure]
  set t' : NodeHeap := ⟨(t.arena.allocate value.length).2,
    t.nodes.set y { t.nodes[y] with value := value }, prev⟩ with ht'
  have hdata : ∀ x, x ≠ y → t'.dataAt x = t.dataAt x := fun x hx => by
    simp only [dataAt, keyAt, heightAt, ht', List.getElem?_set_ne hx.symm]
  have hself : t'.dataAt y = { t.dataAt y with value := value } := by
    simp only [dataAt, keyAt, heightAt, ht', List.getElem?_set_self hy, hnode, Option.map_some,
      Option.getD_some]
  have hnd : (lo ++ y :: hs).Nodup := h.sorted.imp fun hlt heq => by
    rw [heq] at hlt
    exact lt_irrefl _ hlt
  have hylo : ∀ x ∈ lo, x ≠ y := fun x hx heq =>
    (List.nodup_append.1 hnd).2.2 x hx y List.mem_cons_self heq
  have hyhs : ∀ x ∈ hs, x ≠ y := fun x hx heq =>
    (List.nodup_cons.1 (List.nodup_append.1 hnd).2.1).1 (heq ▸ hx)
  have hcompare : Slice.compare (t.dataAt y).key key = .eq := Slice.compare_eq_eq.2 hykey
  rw [SkipList.insert, hfind, List.head?_cons, Option.map_some]
  simp only [hcompare, if_true]
  simp only [toSkipList]
  rw [chainNodes_append t, insertChain_append hchain, chainNodes_append t',
    chainNodes_congr fun x hx => hdata x (hylo x hx), chainNodes_cons, chainNodes_cons, hself,
    chainNodes_congr fun x hx => hdata x (hyhs x hx), SkipList.insertChain, hcompare]

/-- **`Insert` of a new key** splices a node in, in front of the first greater one. -/
theorem insert_missing (h : Linked t (lo ++ hi)) (hlo : ∀ x ∈ lo, t.keyAt x < key)
    (hgt : ∀ x ∈ hi, key < t.keyAt x) (value : Bytes) {height : ℕ} (hpos : 0 < height)
    (hmax : height ≤ SkipList.kMaxHeight) : ∃ t' ps', t.insert key value height = .ok t' ∧
      Linked t' ps' ∧ t'.toSkipList ps' = (t.toSkipList (lo ++ hi)).insert key value height := by
  have hhi : ∀ x ∈ hi, ¬t.keyAt x < key := fun x hx => (hgt x hx).not_gt
  obtain ⟨prev, hrun, hprevlen, hprev⟩ := search_spec h hlo hhi
  have hfind := toSkipList_find hlo hhi
  have hchain := chainNodes_below hlo
  set n := t.nodes.length with hn
  set arena := SkipList.newNode t.arena key value height with harena
  set t₁ : NodeHeap := ⟨arena, t.nodes ++ [newNode key value height], prev⟩ with ht₁
  obtain ⟨hlinked, hold, hnew⟩ := h.push key value height arena hprevlen
  have hinsert : t.insert key value height = (List.range height).foldlM (link n) t₁ := by
    cases hi with
    | nil => simp only [insert, hrun, bind, Except.bind, List.head?_nil, pure, Except.pure, ht₁, harena, hn]
    | cons y hs =>
      have hy : y < t.nodes.length := (h.bound y (by simp)).2
      have hkey : t.nodes[y].key ≠ key := by
        have := (hgt y List.mem_cons_self).ne'
        rwa [keyAt, List.getElem?_eq_getElem hy] at this
      simp only [insert, hrun, bind, Except.bind, List.head?_cons, List.getElem?_eq_getElem hy,
        Checked.ofOption_some, Slice.compare_eq_eq, hkey, if_false, pure, Except.pure, ht₁, harena, hn]
  have hbound : ∀ x ∈ head :: (lo ++ hi), x < n := fun x hx => by
    rcases List.mem_cons.1 hx with rfl | hx
    · exact (Nat.zero_le _).trans_lt h.length
    · exact (h.bound x hx).2
  have hkeys : ∀ x ∈ lo ++ hi, t₁.keyAt x = t.keyAt x := fun x hx =>
    congrArg Node.key (hold x (hbound x (List.mem_cons_of_mem _ hx)))
  have hlast : ∀ j, t₁.lastOn j lo = t.lastOn j lo := fun j => by
    rw [lastOn, lastOn, above, above]
    refine congrArg (List.getLastD · head) (List.filter_congr fun x hx => ?_)
    rw [show t₁.heightAt x = t.heightAt x from congrArg Node.height
      (hold x (hbound x (List.mem_cons_of_mem _ (List.mem_append_left _ hx))))]
  have hfresh : n ∉ head :: (lo ++ hi) := fun hmem => lt_irrefl _ (hbound n hmem)
  obtain ⟨t', hlinks, hsame, hlinked'⟩ := hlinked.splice hfresh (by simp [hn]) (congrArg Node.height hnew) hpos hmax
    (by have := h.length; simp only [List.length_append, List.length_singleton] at this ⊢; omega)
    (fun j hj => by rw [hlast]; exact hprev j hj)
    (fun x hx => by
      rw [hkeys x (List.mem_append_left _ hx), show t₁.keyAt n = key from congrArg Node.key hnew]
      exact hlo x hx)
    fun x hx => by
      rw [hkeys x (List.mem_append_right _ hx), show t₁.keyAt n = key from congrArg Node.key hnew]
      exact hgt x hx
  refine ⟨t', lo ++ n :: hi, hinsert.trans hlinks, hlinked', ?_⟩
  have hdata : ∀ x ∈ lo ++ hi, t'.dataAt x = t.dataAt x := fun x hx => by
    rw [hsame.data]
    exact hold x (hbound x (List.mem_cons_of_mem _ hx))
  have hnodes : t'.chainNodes (lo ++ n :: hi) =
      SkipList.insertChain key value height (t.chainNodes (lo ++ hi)) := by
    rw [chainNodes_append, chainNodes_cons, chainNodes_append, insertChain_append hchain,
      chainNodes_congr fun x hx => hdata x (List.mem_append_left _ hx),
      chainNodes_congr fun x hx => hdata x (List.mem_append_right _ hx), hsame.data, hnew]
    cases hi with
    | nil => rfl
    | cons y hs =>
      have hcompare : Slice.compare (t.dataAt y).key key = .gt :=
        Slice.compare_eq_gt.2 (hgt y List.mem_cons_self)
      rw [chainNodes_cons, SkipList.insertChain, hcompare]
  rw [SkipList.insert, hfind, toSkipList, hnodes, hsame.arena]
  cases hi with
  | nil => rfl
  | cons y hs =>
    have hne : Slice.compare (t.dataAt y).key key ≠ .eq := fun heq =>
      (hgt y List.mem_cons_self).ne' (Slice.compare_eq_eq.1 heq)
    rw [List.head?_cons, Option.map_some]
    simp only [if_neg hne]
    rfl

/-- **`Insert` on the linked levels is `insertChain` on level 0.** -/
theorem insert_spec (h : Linked t ps) (key value : Bytes) {height : ℕ} (hpos : 0 < height)
    (hmax : height ≤ SkipList.kMaxHeight) : ∃ t' ps', t.insert key value height = .ok t' ∧
      Linked t' ps' ∧ t'.toSkipList ps' = (t.toSkipList ps).insert key value height := by
  obtain ⟨lo, hi, rfl, hlo, hhi⟩ := split_at h key
  cases hi with
  | nil => exact insert_missing h hlo (by simp) value hpos hmax
  | cons y hs =>
    rcases (not_lt.1 (hhi y List.mem_cons_self)).eq_or_lt with heq | hlt
    · exact insert_found h hlo heq.symm value height
    · refine insert_missing h hlo (List.forall_mem_cons.2 ⟨hlt, fun x hx => ?_⟩) value hpos hmax
      have hsorted := (List.pairwise_append.1 h.sorted).2.1
      exact hlt.trans ((List.pairwise_cons.1 hsorted).1 x hx)

/-! ## Whole runs -/

theorem new_linked (arena : Arena) : Linked (new arena) [] := by
  refine ⟨rfl, fun x node hx => ?_, by simp, by simp, by simp [new], fun level hlevel => ?_, .nil, rfl⟩
  · obtain rfl : node = newNode [] [] SkipList.kMaxHeight := by
      have := List.mem_of_getElem? hx
      simpa [new] using this
    exact List.length_replicate
  · show (((new arena).nodes[head]?).bind fun node => node.next[level]?).join = none
    simp [new, head, newNode, hlevel]

theorem new_toSkipList (arena : Arena) : (new arena).toSkipList [] = SkipList.new arena := by
  simp only [toSkipList, new, SkipList.new, chainNodes, List.map_nil]

/-- What the last `Insert` of a key stored. -/
def lastInserted (key : Bytes) (ops : List (Bytes × Bytes × ℕ)) : Option Bytes :=
  (ops.reverse.map fun op => (op.1, op.2.1)).lookup key

/-- **Any insertions** leave linked levels whose nodes are those of the chain model. -/
theorem insertAll_spec (arena : Arena) {ops : List (Bytes × Bytes × ℕ)}
    (hops : ∀ op ∈ ops, 0 < op.2.2 ∧ op.2.2 ≤ SkipList.kMaxHeight) :
    ∃ t ps, (new arena).insertAll ops = .ok t ∧ Linked t ps ∧
      t.toSkipList ps = ops.foldl (fun s op => s.insert op.1 op.2.1 op.2.2) (SkipList.new arena) ∧
      ∀ k, (MemTable.chainEntries (t.chainNodes ps)).lookup k = lastInserted k ops := by
  induction ops using List.reverseRecOn with
  | nil => exact ⟨new arena, [], rfl, new_linked arena, new_toSkipList arena, fun k => rfl⟩
  | append_singleton ops op ih =>
    obtain ⟨t, ps, hrun, hlinked, hlist, hlook⟩ := ih fun o ho => hops o (List.mem_append_left _ ho)
    obtain ⟨hpos, hmax⟩ := hops op (List.mem_append_right _ (List.mem_singleton_self _))
    obtain ⟨t', ps', hins, hlinked', hlist'⟩ := insert_spec hlinked op.1 op.2.1 hpos hmax
    refine ⟨t', ps', ?_, hlinked', ?_, fun k => ?_⟩
    · rw [insertAll] at hrun
      rw [insertAll, List.foldlM_append, hrun]
      simp only [bind, Except.bind, List.foldlM_cons, hins, List.foldlM_nil, pure, Except.pure]
    · rw [List.foldl_append, ← hlist, hlist']
      rfl
    · have hnodes : t'.chainNodes ps' = SkipList.insertChain op.1 op.2.1 op.2.2 (t.chainNodes ps) :=
        congrArg SkipList.nodes hlist'
      have hinsert : (MemTable.chainEntries
          (SkipList.insertChain op.1 op.2.1 op.2.2 (t.chainNodes ps))).lookup k =
            if k = op.1 then some op.2.1 else (MemTable.chainEntries (t.chainNodes ps)).lookup k :=
        MemTable.lookup_insertChain id (fun n _ heq => (show n.key = op.1 from heq).ge) k
      rw [hnodes, hinsert, hlook, lastInserted, lastInserted, List.reverse_append,
        List.reverse_singleton, List.singleton_append, List.map_cons, List.lookup_cons]
      by_cases hk : k = op.1
      · simp [hk]
      · rw [if_neg hk, beq_false_of_ne hk]

/-- **Following a level** gives the nodes that reach above it. -/
theorem level_eq (h : Linked t ps) {i : ℕ} (hi : i < SkipList.kMaxHeight) :
    t.level i = .ok (t.above i ps) := by
  have hfollow : ∀ (qs : List ℕ) (n x : ℕ), Chain (t.nextAt i) x qs → i < t.heightAt x →
      (∀ q ∈ qs, i < t.heightAt q) → qs.length ≤ n → t.follow i n x = .ok qs := by
    intro qs
    induction qs with
    | nil =>
      intro n x hchain hx _ _
      cases n with
      | zero => rfl
      | succ n =>
        simp only [follow, next_eq h.room hx, show t.nextAt i x = none from hchain, bind, Except.bind]
        rfl
    | cons q qs ih =>
      intro n x hchain hx hqs hn
      obtain ⟨n, rfl⟩ : ∃ m, n = m + 1 := ⟨n - 1, by simp at hn; omega⟩
      have hrest := ih n q hchain.2 (hqs q List.mem_cons_self)
        (fun p hp => hqs p (List.mem_cons_of_mem _ hp)) (by simpa using hn)
      simp only [follow, next_eq h.room hx, hchain.1, bind, Except.bind, hrest, pure, Except.pure]
  refine hfollow _ _ _ (h.chain i hi) (by rw [h.top]; exact hi) (fun q hq => ?_) ?_
  · simpa using List.of_mem_filter hq
  · have := List.length_filter_le (fun x => decide (i < t.heightAt x)) ps
    have := h.length
    rw [above]
    omega

/-- **The iterator enumerates the nodes.** -/
theorem enumerate_eq (h : Linked t ps) {n : ℕ} (hn : ps.length ≤ n) :
    t.enumerate n = .ok (MemTable.chainEntries (t.chainNodes ps)) := by
  have hall : t.above 0 ps = ps := List.filter_eq_self.2 fun x hx => by
    simpa using (h.height x hx).1
  have hiter : ∀ (qs : List ℕ) (n x : ℕ), Chain (t.nextAt 0) x qs → (∀ q ∈ qs, q ∈ ps) → qs.length ≤ n →
      t.iterate n (t.nextAt 0 x) = .ok (MemTable.chainEntries (t.chainNodes qs)) := by
    intro qs
    induction qs with
    | nil =>
      intro n x hchain _ _
      rw [show t.nextAt 0 x = none from hchain]
      cases n <;> rfl
    | cons q qs ih =>
      intro n x hchain hqs hn
      obtain ⟨n, rfl⟩ : ∃ m, n = m + 1 := ⟨n - 1, by simp at hn; omega⟩
      have hq := hqs q List.mem_cons_self
      have hrest := ih n q hchain.2 (fun p hp => hqs p (List.mem_cons_of_mem _ hp)) (by simpa using hn)
      have hlt := (h.bound q hq).2
      have hdata : ((t.dataAt q).key, (t.dataAt q).value) = (t.nodes[q].key, t.nodes[q].value) := by
        simp only [dataAt, keyAt, List.getElem?_eq_getElem hlt, Option.map_some, Option.getD_some]
      rw [hchain.1]
      simp only [iterate, List.getElem?_eq_getElem hlt, Checked.ofOption_some, bind, Except.bind, next_eq h.room (h.height q hq).1, hrest, pure, Except.pure]
      rw [← hdata]
      rfl
  have hhead : 0 < t.heightAt head := by rw [h.top]; decide
  have hfirst := next_eq h.room hhead
  have hchain := h.chain 0 (by decide)
  rw [hall] at hchain
  simp only [enumerate, hfirst, bind, Except.bind]
  exact hiter ps n head hchain (fun q hq => hq) hn

/-- A skip list behind some insertions: `ps` are the nodes of its level 0. -/
structure HoldsMap (t : NodeHeap) (ps : List ℕ) (ops : List (Bytes × Bytes × ℕ)) : Prop where
  level0 : t.level 0 = .ok ps
  sorted : ps.Pairwise fun x y => (t.dataAt x).key < (t.dataAt y).key
  holds : ∀ key value, (∃ x ∈ ps, (t.dataAt x).key = key ∧ (t.dataAt x).value = value) ↔
    lastInserted key ops = some value
  levels : ∀ i < SkipList.kMaxHeight,
    t.level i = .ok (ps.filter fun x => i < (t.dataAt x).height)
  find : ∀ key, ∃ r, t.findGreaterOrEqual key = .ok r ∧
    (∀ x, r = some x ↔ x ∈ ps ∧ key ≤ (t.dataAt x).key ∧
      ∀ y ∈ ps, key ≤ (t.dataAt y).key → (t.dataAt x).key ≤ (t.dataAt y).key) ∧
    (r = none ↔ ∀ x ∈ ps, (t.dataAt x).key < key)
  contains : ∀ key, t.contains key = .ok (lastInserted key ops)
  iterator : ∀ n, ps.length ≤ n →
    t.enumerate n = .ok (ps.map fun x => ((t.dataAt x).key, (t.dataAt x).value))

/-- A lookup in a sorted chain finds exactly its entries. -/
theorem lookup_chainNodes_iff (h : Linked t ps) {value : Bytes} :
    (MemTable.chainEntries (t.chainNodes ps)).lookup key = some value ↔
      ∃ x ∈ ps, (t.dataAt x).key = key ∧ (t.dataAt x).value = value := by
  have hsorted := h.sorted
  clear h
  induction ps with
  | nil => simp [chainNodes, MemTable.chainEntries]
  | cons x ps ih =>
    obtain ⟨hx, hps⟩ := List.pairwise_cons.1 hsorted
    have hcons : MemTable.chainEntries (t.chainNodes (x :: ps)) =
        ((t.dataAt x).key, (t.dataAt x).value) :: MemTable.chainEntries (t.chainNodes ps) := rfl
    rw [hcons, List.lookup_cons, List.exists_mem_cons_iff]
    by_cases hk : key = (t.dataAt x).key
    · have hother : ¬∃ y ∈ ps, (t.dataAt y).key = key ∧ (t.dataAt y).value = value := by
        rintro ⟨y, hy, hyk, -⟩
        exact (hx y hy).ne (hk.symm.trans hyk.symm)
      rw [or_iff_left hother, hk, beq_self_eq_true]
      simp
    · rw [beq_false_of_ne hk, or_iff_right fun hxk => hk hxk.1.symm]
      exact ih hps

/-- **A skip list is the map of its insertions**, whatever the heights of its nodes: every level
is the part of level 0 that reaches above it, and the searches and the iterator see the whole
map. -/
theorem insertAll_holdsMap (arena : Arena) (ops : List (Bytes × Bytes × ℕ))
    (hops : ∀ op ∈ ops, 0 < op.2.2 ∧ op.2.2 ≤ SkipList.kMaxHeight) :
    ∃ t ps, (new arena).insertAll ops = .ok t ∧ HoldsMap t ps ops := by
  obtain ⟨t, ps, hrun, hlinked, -, hlook⟩ := insertAll_spec arena hops
  have hall : t.above 0 ps = ps := List.filter_eq_self.2 fun x hx => by
    simpa using (hlinked.height x hx).1
  refine ⟨t, ps, hrun, ?_, hlinked.sorted, fun key value => ?_, fun i hi => level_eq hlinked hi, fun key => ?_,
    fun key => ?_, fun n hn => ?_⟩
  · rw [level_eq hlinked (by decide), hall]
  · rw [← hlook, lookup_chainNodes_iff hlinked]
  · obtain ⟨lo, hi, rfl, hlo, hhi⟩ := split_at hlinked key
    have hfind : (lo ++ hi).find? (fun x => !decide (t.keyAt x < key)) = hi.head? := by
      have hnone : lo.find? (fun x => !decide (t.keyAt x < key)) = none := by
        rw [List.find?_eq_none]
        intro x hx
        simpa using hlo x hx
      rw [List.find?_append, hnone, Option.none_or]
      cases hi with
      | nil => rfl
      | cons y hs => rw [List.find?_cons_of_pos (by simpa using hhi y List.mem_cons_self)]; rfl
    refine ⟨hi.head?, findGreaterOrEqual_eq hlinked hlo hhi, fun x => ?_, ?_⟩
    · rw [← hfind]
      exact Search.find?_eq_some_iff hlinked.sorted fun y => by simp
    · rw [← hfind, List.find?_eq_none]
      simp [dataAt]
  · rw [contains_eq hlinked, hlook]
  · rw [enumerate_eq hlinked hn, MemTable.chainEntries, chainNodes, List.map_map]
    rfl

/-- Four insertions, one of them an update of a node of full height. -/
theorem insertAll_holdsMap_four : ∃ t ps, (new {}).insertAll
    [([98], [1], 1), ([97], [2], 12), ([99], [3], 3), ([97], [4], 2)] = .ok t ∧
    HoldsMap t ps [([98], [1], 1), ([97], [2], 12), ([99], [3], 3), ([97], [4], 2)] :=
  insertAll_holdsMap {} [([98], [1], 1), ([97], [2], 12), ([99], [3], 3), ([97], [4], 2)] (by decide)

end NodeHeap

end MiniLSM
