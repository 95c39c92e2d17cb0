import MiniLSM.Proof.NodeHeap
import MiniLSM.Lib.Transition
import MiniLSM.Spec.SharedMemTable

/-!
# Searching a memtable while it is written

`Woven t reach ps`: from the head the pointers of each level lead through those of `ps` that
`reach` above it. A node on its way into the list reaches as far as it is linked, any other one up
to its height.

* `Woven.own`, `Woven.link`: the two writes of each turn of `Insert` keep this.
* `Standing.read`: a search goes on, whatever was linked since its last read.
* `SharedMemTable.get_linearizable`: every `Get` answers from the memtable as it is at the last of
  its reads, and there is a bound on their number.
* `SharedMemTable.add_eq_insert`: whatever is read in between, the steps of an `Add` end where
  `NodeHeap.insert` does.
-/

namespace MiniLSM

namespace NodeHeap

variable {t t' : NodeHeap} {reach reach' : ℕ → ℕ} {ps lo hi : List ℕ} {key : Bytes}

/-- The nodes of `ps` that are linked on `level`. -/
def on (reach : ℕ → ℕ) (level : ℕ) (ps : List ℕ) : List ℕ := ps.filter fun x => level < reach x

theorem mem_on {level x : ℕ} : x ∈ on reach level ps ↔ x ∈ ps ∧ level < reach x := by
  simp [on]

theorem on_append (reach : ℕ → ℕ) (level : ℕ) (ps qs : List ℕ) :
    on reach level (ps ++ qs) = on reach level ps ++ on reach level qs := List.filter_append _ _

theorem on_cons (reach : ℕ → ℕ) (level x : ℕ) (ps : List ℕ) :
    on reach level (x :: ps) = if level < reach x then x :: on reach level ps else on reach level ps := by
  simp [on, List.filter_cons]

/-- **The levels of a skip list** one node of which may be on its way into it. -/
structure Woven (t : NodeHeap) (reach : ℕ → ℕ) (ps : List ℕ) : Prop where
  top : t.heightAt head = SkipList.kMaxHeight
  room : ∀ (x : ℕ) (node : HeapNode), t.nodes[x]? = some node → node.next.length = node.height
  bound : ∀ x ∈ ps, x ≠ head ∧ x < t.nodes.length
  reaches : ∀ x ∈ ps, reach x ≤ t.heightAt x
  height : ∀ x ∈ ps, t.heightAt x ≤ SkipList.kMaxHeight
  length : ps.length < t.nodes.length
  chain : ∀ level < SkipList.kMaxHeight, Chain (t.nextAt level) head (on reach level ps)
  sorted : ps.Pairwise fun x y => t.keyAt x < t.keyAt y
  prev : t.prev.length = SkipList.kMaxHeight

theorem Linked.woven (h : Linked t ps) : Woven t t.heightAt ps :=
  ⟨h.top, h.room, h.bound, fun _ _ => le_rfl, fun x hx => (h.height x hx).2, h.length, h.chain,
    h.sorted, h.prev⟩

/-- A list none of whose nodes is on its way. -/
theorem Woven.linked (h : Woven t t.heightAt ps) (hpos : ∀ x ∈ ps, 0 < t.heightAt x) : Linked t ps :=
  ⟨h.top, h.room, h.bound, fun x hx => ⟨hpos x hx, h.height x hx⟩, h.length, h.chain, h.sorted, h.prev⟩

theorem Woven.nodup (h : Woven t reach ps) : (head :: ps).Nodup := by
  refine List.nodup_cons.2 ⟨fun hmem => (h.bound head hmem).1 rfl, h.sorted.imp fun hlt heq => ?_⟩
  rw [heq] at hlt
  exact lt_irrefl _ hlt

/-- Behind a node that is linked on a level, the level goes on through the nodes from there on. -/
theorem Woven.next_eq (h : Woven t reach (lo ++ hi)) {level : ℕ} (hlevel : level < SkipList.kMaxHeight)
    (hx : lo = [] ∨ level < reach (lo.getLastD head)) :
    t.next (lo.getLastD head) level = .ok (on reach level hi).head? := by
  have hlast : (on reach level lo).getLastD head = lo.getLastD head := by
    rcases List.eq_nil_or_concat lo with rfl | ⟨lo, x, rfl⟩
    · rfl
    · rw [List.concat_eq_append, List.getLastD_concat] at hx ⊢
      have hx := hx.resolve_left (by simp)
      rw [on, List.filter_append, List.filter_cons_of_pos (by simpa using hx), List.filter_nil,
        List.getLastD_concat]
  have hroom : level < t.heightAt (lo.getLastD head) := by
    rcases List.eq_nil_or_concat lo with rfl | ⟨lo, x, rfl⟩
    · rw [List.getLastD_nil, h.top]
      exact hlevel
    · rw [List.concat_eq_append, List.getLastD_concat] at hx ⊢
      exact (hx.resolve_left (by simp)).trans_le (h.reaches x (by simp))
  have hchain := h.chain level hlevel
  rw [on_append] at hchain
  have hcut := hchain.cut
  rw [hlast] at hcut
  rw [NodeHeap.next_eq h.room hroom, hcut.next_eq]

/-! ## The writes of a turn of `Insert` -/

/-- **The pointer that a node is given before it is linked** changes no level. -/
theorem Woven.own (h : Woven t reach ps) {n : ℕ} (hn : n ≠ head) (hlevel : reach n < t.heightAt n)
    (y : Option ℕ) : ∃ t', t.setNext n (reach n) y = .ok t' ∧ SameData t t' ∧ Woven t' reach ps ∧
      t'.nextAt (reach n) n = y ∧ ∀ x, x ≠ n → t'.nextAt (reach n) x = t.nextAt (reach n) x := by
  obtain ⟨t', hset, hsame, hnext⟩ := setNext_spec h.room hlevel y
  refine ⟨t', hset, hsame, ?_, by rw [hnext, if_pos ⟨rfl, rfl⟩], fun x hx => by
    rw [hnext, if_neg fun heq => hx heq.1]⟩
  refine ⟨by rw [hsame.heightAt]; exact h.top, hsame.room h.room, fun x hx => ?_, fun x hx => ?_,
    fun x hx => ?_, by rw [hsame.length]; exact h.length, fun level hlevel => ?_, ?_, by rw [hsame.prev, h.prev]⟩
  · rw [hsame.length]
    exact h.bound x hx
  · rw [hsame.heightAt]
    exact h.reaches x hx
  · rw [hsame.heightAt]
    exact h.height x hx
  · refine (h.chain level hlevel).congr ?_ fun p hp => ?_
    · rw [hnext, if_neg fun heq => hn heq.1.symm]
    · rw [hnext, if_neg]
      rintro ⟨rfl, rfl⟩
      exact lt_irrefl _ (mem_on.1 hp).2
  · simp only [hsame.keyAt]
    exact h.sorted

/-- **The pointer that links a node** on one more level. -/
theorem Woven.link {n : ℕ} (h : Woven t reach (lo ++ n :: hi)) (hlevel : reach n < t.heightAt n)
    (hset : t.nextAt (reach n) n = t.nextAt (reach n) ((on reach (reach n) lo).getLastD head)) :
    ∃ t', t.setNext ((on reach (reach n) lo).getLastD head) (reach n) (some n) = .ok t' ∧ SameData t t' ∧
      Woven t' (Function.update reach n (reach n + 1)) (lo ++ n :: hi) := by
  set l := reach n with hl
  set p := (on reach l lo).getLastD head with hp
  have hnmem : n ∈ lo ++ n :: hi := by simp
  have hmax : l < SkipList.kMaxHeight := hlevel.trans_le (h.height n hnmem)
  have hnd := h.nodup
  have hnlo : n ∉ head :: (lo ++ hi) := by
    have hmiddle : (n :: (head :: lo ++ hi)).Nodup := List.nodup_middle.1 hnd
    exact (List.nodup_cons.1 hmiddle).1
  have hpmem : p ∈ head :: on reach l lo := List.getLastD_mem_cons
  have hpn : p ≠ n := by
    rintro heq
    refine hnlo ?_
    rw [← heq]
    rcases List.mem_cons.1 hpmem with hhead | hmem
    · rw [hhead]
      exact List.mem_cons_self
    · exact List.mem_cons_of_mem _ (List.mem_append_left _ (mem_on.1 hmem).1)
  have hproom : l < t.heightAt p := by
    rcases List.mem_cons.1 hpmem with hhead | hmem
    · rw [hhead, h.top]
      exact hmax
    · obtain ⟨hlo, hlt⟩ := mem_on.1 hmem
      exact hlt.trans_le (h.reaches p (List.mem_append_left _ hlo))
  obtain ⟨t', hrun, hsame, hnext⟩ := setNext_spec h.room hproom (some n)
  refine ⟨t', hrun, hsame, by rw [hsame.heightAt]; exact h.top, hsame.room h.room, fun x hx => ?_,
    fun x hx => ?_, fun x hx => ?_, by rw [hsame.length]; exact h.length, fun level hlevel' => ?_, ?_,
    by rw [hsame.prev, h.prev]⟩
  · rw [hsame.length]
    exact h.bound x hx
  · rw [hsame.heightAt, Function.update_apply]
    split
    case isTrue heq => rw [heq]; exact hlevel
    case isFalse => exact h.reaches x hx
  · rw [hsame.heightAt]
    exact h.height x hx
  · have hother : ∀ qs : List ℕ, n ∉ qs → on (Function.update reach n (l + 1)) level qs = on reach level qs :=
      fun qs hqs => List.filter_congr fun x hx => by
        rw [Function.update_of_ne fun heq : x = n => hqs (heq ▸ hx)]
    have hnlo' : n ∉ lo := fun hmem => hnlo (List.mem_cons_of_mem _ (List.mem_append_left _ hmem))
    have hnhi' : n ∉ hi := fun hmem => hnlo (List.mem_cons_of_mem _ (List.mem_append_right _ hmem))
    have hchain := h.chain level hlevel'
    rcases eq_or_ne level l with heq | hne
    · -- the level that the node is new on
      subst level
      have hskip : on reach l (lo ++ n :: hi) = on reach l lo ++ on reach l hi := by
        rw [on_append, on_cons, if_neg (by rw [← hl]; exact lt_irrefl l)]
      have hnew : on (Function.update reach n (l + 1)) l (lo ++ n :: hi) =
          on reach l lo ++ n :: on reach l hi := by
        rw [on_append, on_cons, if_pos (by simp), hother lo hnlo', hother hi hnhi']
      rw [hskip] at hchain
      rw [hnew]
      have hsub : List.Sublist (head :: (on reach l lo ++ on reach l hi)) (head :: (lo ++ hi)) :=
        (List.Sublist.append List.filter_sublist List.filter_sublist).cons_cons _
      refine hchain.splice (hsub.nodup ?_) (fun hmem => hnlo (hsub.subset hmem)) ?_ ?_ fun q hq _ => ?_
      · exact hnd.sublist ((List.Sublist.append_left (List.sublist_cons_self n hi) lo).cons_cons _)
      · rw [hnext, if_pos ⟨rfl, rfl⟩]
      · rw [hnext, if_neg fun heq => hpn heq.1.symm]
        exact hset
      · rw [hnext, if_neg fun heq => hq heq.1]
    · have hsame' : on (Function.update reach n (l + 1)) level (lo ++ n :: hi) = on reach level (lo ++ n :: hi) := by
        refine List.filter_congr fun x _ => ?_
        rw [Function.update_apply]
        split
        case isTrue heq =>
          rw [heq, ← hl]
          exact decide_eq_decide.2 (by omega)
        case isFalse => rfl
      rw [hsame']
      refine hchain.congr ?_ fun q _ => ?_
      all_goals rw [hnext, if_neg fun heq => hne heq.2]
  · simp only [hsame.keyAt]
    exact h.sorted

/-! ## Searches -/

/-- **Where a search stands** after some reads: on a level of the last of the nodes `lo`, all of
which are in front of the key. -/
def Standing (t : NodeHeap) (reach : ℕ → ℕ) (ps : List ℕ) (key : Bytes) (x level reads : ℕ) : Prop :=
  level < SkipList.kMaxHeight ∧ ∃ lo hi, ps = lo ++ hi ∧ lo.getLastD head = x ∧
    (lo = [] ∨ level < reach x) ∧ (∀ p ∈ lo, t.keyAt p < key) ∧
    reads + level < SkipList.kMaxHeight + lo.length

theorem Standing.start (t : NodeHeap) (reach : ℕ → ℕ) (ps : List ℕ) (key : Bytes) :
    Standing t reach ps key head (SkipList.kMaxHeight - 1) 0 :=
  ⟨by decide, [], ps, rfl, rfl, Or.inl rfl, by simp, by simp [SkipList.kMaxHeight]⟩

theorem Standing.reads_le {x level reads : ℕ} (h : Standing t reach ps key x level reads) :
    reads < SkipList.kMaxHeight + ps.length := by
  obtain ⟨-, lo, hi, rfl, -, -, -, hreads⟩ := h
  rw [List.length_append]
  omega

/-- A search goes on in a memory in which nodes reach further. -/
theorem Standing.mono {x level reads : ℕ} (h : Standing t reach ps key x level reads)
    (hkey : ∀ p ∈ ps, t'.keyAt p = t.keyAt p) (hreach : ∀ p ∈ ps, reach p ≤ reach' p) :
    Standing t' reach' ps key x level reads := by
  obtain ⟨hlevel, lo, hi, rfl, rfl, hx, hlo, hreads⟩ := h
  refine ⟨hlevel, lo, hi, rfl, rfl, ?_, fun p hp => ?_, hreads⟩
  · rcases List.eq_nil_or_concat lo with rfl | ⟨lo, x, rfl⟩
    · exact Or.inl rfl
    · rw [List.concat_eq_append, List.getLastD_concat] at hx ⊢
      exact Or.inr ((hx.resolve_left (by simp)).trans_le (hreach x (by simp)))
  · rw [hkey p (List.mem_append_left _ hp)]
    exact hlo p hp

/-- **A search goes on behind a node that is new.** -/
theorem Standing.insert {x level reads n : ℕ} (h : Standing t reach (lo ++ hi) key x level reads)
    (hsorted : (lo ++ n :: hi).Pairwise fun x y => t.keyAt x < t.keyAt y) :
    Standing t reach (lo ++ n :: hi) key x level reads := by
  obtain ⟨hlevel, lo', hi', heq, rfl, hx, hlo, hreads⟩ := h
  refine ⟨hlevel, ?_⟩
  rcases List.append_eq_append_iff.1 heq with ⟨d, rfl, rfl⟩ | ⟨d, rfl, rfl⟩
  · cases d with
    | nil =>
      rw [List.append_nil] at hx hlo hreads ⊢
      exact ⟨lo, n :: hi', rfl, rfl, hx, hlo, hreads⟩
    | cons y d =>
      -- the search is past the place of the node
      have hlast : (lo ++ n :: y :: d).getLastD head = (lo ++ y :: d).getLastD head := by
        simp [List.getLastD_eq_getLast?, List.getLast?_append]
      refine ⟨lo ++ n :: y :: d, hi', by simp, hlast, Or.inr (hx.resolve_left (by simp)), fun p hp => ?_, ?_⟩
      · rcases List.mem_append.1 hp with hp | hp
        · exact hlo p (List.mem_append_left _ hp)
        rcases List.mem_cons.1 hp with rfl | hp
        · have hny := (List.pairwise_cons.1 (List.pairwise_append.1 hsorted).2.1).1 y (by simp)
          exact hny.trans (hlo y (by simp))
        · exact hlo p (List.mem_append_right _ hp)
      · simp only [List.length_append, List.length_cons] at hreads ⊢
        omega
  · exact ⟨lo', d ++ n :: hi, by simp, rfl, hx, hlo, hreads⟩

/-- The value of the first node from the lookup key on. -/
theorem valueOf_eq {u : Bytes} (h : Woven t reach (lo ++ hi)) (hlo : ∀ p ∈ lo, t.keyAt p < makeLookupKey u)
    (hhi : ∀ p ∈ on reach 0 hi, ¬t.keyAt p < makeLookupKey u) {m : MemTable}
    (hm : m.table.nodes = t.chainNodes (on reach 0 (lo ++ hi))) :
    t.valueOf u (on reach 0 hi).head? = .ok (m.get u) := by
  have hfind : m.table.findGreaterOrEqual (makeLookupKey u) = (on reach 0 hi).head?.map t.dataAt := by
    have hlow : ∀ x ∈ on reach 0 lo, t.keyAt x < makeLookupKey u := fun x hx => hlo x (mem_on.1 hx).1
    have hlist := toSkipList_find hlow hhi
    rw [toSkipList, ← on_append, ← hm] at hlist
    exact hlist
  rw [MemTable.get, hfind]
  cases hhead : (on reach 0 hi).head? with
  | none => rfl
  | some y =>
    have hy : y < t.nodes.length :=
      (h.bound y (List.mem_append_right _ (mem_on.1 (List.mem_of_mem_head? hhead)).1)).2
    simp only [valueOf, List.getElem?_eq_getElem hy, Checked.ofOption_some, bind, Except.bind, Option.map_some,
      dataAt, keyAt, Option.getD_some]
    rfl

/-- **One turn of a search** goes on along the level, goes down, or ends with the value that the
linked nodes hold. -/
theorem Standing.read {g : PendingGet} (h : Woven t reach ps)
    (hg : Standing t reach ps (makeLookupKey g.userKey) g.x g.level g.reads) {m : MemTable}
    (hm : m.table.nodes = t.chainNodes (on reach 0 ps)) (hnone : g.result = none) :
    ∃ g', g.read t = .ok g' ∧ g'.userKey = g.userKey ∧ g'.ended = g.ended ∧ g'.reads = g.reads + 1 ∧
      (g'.result = none ∧ Standing t reach ps (makeLookupKey g.userKey) g'.x g'.level g'.reads ∨
        g'.result = some (m.get g.userKey)) := by
  obtain ⟨hlevel, lo, hi, rfl, hlast, hx, hlo, hreads⟩ := hg
  have hnext := h.next_eq hlevel (hlast ▸ hx)
  rw [hlast] at hnext
  have hmem : ∀ y ∈ hi, y < t.nodes.length := fun y hy => (h.bound y (List.mem_append_right _ hy)).2
  obtain ⟨-, hshi, -⟩ := List.pairwise_append.1 h.sorted
  by_cases hbelow : ∃ y, (on reach g.level hi).head? = some y ∧ t.keyAt y < makeLookupKey g.userKey
  · obtain ⟨y, hhead, hy⟩ := hbelow
    obtain ⟨ys, hys⟩ := List.head?_eq_some_iff.1 hhead
    obtain ⟨d, hi', rfl, -, hreach, -⟩ := List.filter_eq_cons_iff.1 hys
    refine ⟨{ g with x := y, reads := g.reads + 1 }, ?_, rfl, rfl, rfl, Or.inl ⟨hnone, hlevel, ?_⟩⟩
    · simp only [PendingGet.read, hnext, hhead, bind, Except.bind, isBelow_some (hmem y (by simp)), hy,
        decide_true, if_true, Checked.ofOption_some]
      rfl
    · refine ⟨lo ++ d ++ [y], hi', by simp, List.getLastD_concat, Or.inr (by simpa using hreach), fun p hp => ?_, ?_⟩
      · rcases List.mem_append.1 hp with hp | hp
        · rcases List.mem_append.1 hp with hp | hp
          · exact hlo p hp
          · exact ((List.pairwise_append.1 hshi).2.2 p hp y List.mem_cons_self).trans hy
        · rwa [List.mem_singleton.1 hp]
      · simp only [List.length_append, List.length_singleton]
        omega
  · have hfalse : t.isBelow (makeLookupKey g.userKey) (on reach g.level hi).head? = .ok false := by
      cases hhead : (on reach g.level hi).head? with
      | none => rfl
      | some y =>
        have hyhi : y ∈ hi := (mem_on.1 (List.mem_of_mem_head? hhead)).1
        rw [isBelow_some (hmem y hyhi), decide_eq_false fun hlt => hbelow ⟨y, hhead, hlt⟩]
    by_cases hzero : g.level = 0
    · rw [hzero] at hnext hfalse hbelow
      have hvalue := valueOf_eq h hlo (fun p hp hlt => ?_) hm
      · refine ⟨{ g with reads := g.reads + 1, result := some (m.get g.userKey) }, ?_, rfl, rfl, rfl, Or.inr rfl⟩
        simp only [PendingGet.read, hzero, hnext, bind, Except.bind, hfalse, Bool.false_eq_true, if_false, if_true,
          hvalue]
        rfl
      · -- the first of the linked nodes is the least one
        obtain ⟨y, ys, hys⟩ := List.exists_cons_of_ne_nil (List.ne_nil_of_mem hp)
        refine hbelow ⟨y, by rw [hys]; rfl, ?_⟩
        have hsorted : (y :: ys).Pairwise fun x y => t.keyAt x < t.keyAt y := hys ▸ hshi.filter _
        rw [hys] at hp
        rcases List.mem_cons.1 hp with rfl | hp
        · exact hlt
        · exact ((List.pairwise_cons.1 hsorted).1 p hp).trans hlt
    · refine ⟨{ g with reads := g.reads + 1, level := g.level - 1 }, ?_, rfl, rfl, rfl,
        Or.inl ⟨hnone, by dsimp only; omega, lo, hi, rfl, hlast, hx.imp_right fun hlt => by dsimp only; omega, hlo, ?_⟩⟩
      · simp only [PendingGet.read, hnext, bind, Except.bind, hfalse, Bool.false_eq_true, if_false, hzero]
        rfl
      · dsimp only
        omega

/-- A node that was made and is linked nowhere. -/
theorem Linked.weave (h : Linked t (lo ++ hi)) {n : ℕ} (hn : n ≠ head) (hlt : n < t.nodes.length)
    (hfresh : n ∉ lo ++ hi) (hheight : t.heightAt n ≤ SkipList.kMaxHeight)
    (hlen : (lo ++ hi).length + 1 < t.nodes.length) (hlo : ∀ x ∈ lo, t.keyAt x < t.keyAt n)
    (hhi : ∀ x ∈ hi, t.keyAt n < t.keyAt x) :
    Woven t (Function.update t.heightAt n 0) (lo ++ n :: hi) := by
  have hmem : ∀ x ∈ lo ++ n :: hi, x = n ∨ x ∈ lo ++ hi := fun x hx => by
    rcases List.mem_append.1 hx with hx | hx
    · exact Or.inr (List.mem_append_left _ hx)
    · exact (List.mem_cons.1 hx).imp_right (List.mem_append_right _)
  have hon : ∀ level, on (Function.update t.heightAt n 0) level (lo ++ n :: hi) = t.above level (lo ++ hi) := by
    intro level
    have hother : ∀ qs : List ℕ, n ∉ qs → on (Function.update t.heightAt n 0) level qs = t.above level qs :=
      fun qs hqs => List.filter_congr fun x hx => by
        rw [Function.update_of_ne fun heq : x = n => hqs (heq ▸ hx)]
    rw [on_append, on_cons, if_neg (by simp), ← on_append, hother _ hfresh]
  refine ⟨h.top, h.room, fun x hx => ?_, fun x hx => ?_, fun x hx => ?_, ?_, fun level hlevel => ?_, ?_, h.prev⟩
  · rcases hmem x hx with rfl | hx
    · exact ⟨hn, hlt⟩
    · exact h.bound x hx
  · rw [Function.update_apply]
    split
    case isTrue => exact Nat.zero_le _
    case isFalse => exact le_rfl
  · rcases hmem x hx with rfl | hx
    · exact hheight
    · exact (h.height x hx).2
  · simp only [List.length_append, List.length_cons] at hlen ⊢
    omega
  · rw [hon]
    exact h.chain level hlevel
  · obtain ⟨hslo, hshi, hacross⟩ := List.pairwise_append.1 h.sorted
    refine List.pairwise_append.2 ⟨hslo, List.pairwise_cons.2 ⟨hhi, hshi⟩, fun x hx y hy => ?_⟩
    rcases List.mem_cons.1 hy with rfl | hy
    · exact hlo x hx
    · exact hacross x hx y hy

end NodeHeap

/-! ## The steps -/

namespace SharedMemTable

variable {s s' : SharedMemTable} {ps : List ℕ}

/-- Up to which level each node is linked. -/
def reach (s : SharedMemTable) : ℕ → ℕ :=
  match s.insertion with
  | some w => Function.update s.heap.heightAt w.node w.level
  | none => s.heap.heightAt

/-- How many calls of `Add` have linked their node on level 0, where searches end. -/
def published (s : SharedMemTable) : ℕ :=
  match s.insertion with
  | some w => if w.level = 0 then s.added.length - 1 else s.added.length
  | none => s.added.length

/-- The memtable that searches see. -/
def memTable (s : SharedMemTable) : MemTable := MemTable.new.addAll (s.added.take s.published)

/-- There is a sequence number for the next `Add`. -/
def HasNumber (s : SharedMemTable) : MemTableLabel → Prop
  | .add _ _ _ => s.added.length + 1 < 2 ^ 56
  | _ => True

instance (s : SharedMemTable) (l : MemTableLabel) : Decidable (s.HasNumber l) := by
  rcases l with _ | _ | _ | _ <;> unfold HasNumber <;> infer_instance

theorem published_le (s : SharedMemTable) : s.published ≤ s.added.length := by
  unfold published
  split
  · split <;> omega
  · exact le_rfl

theorem ended_le (s : SharedMemTable) : s.ended ≤ s.published := by
  unfold ended published
  cases s.insertion with
  | none => simp
  | some w => simp only [Option.isSome_some, if_true]; split <;> omega

/-- **The node of an `Insert`** behind the nodes `lo`. -/
structure Splicing (t : NodeHeap) (lo : List ℕ) (w : Insertion) : Prop where
  height : t.heightAt w.node = w.height
  level : w.level < w.height
  prev : ∀ j < SkipList.kMaxHeight, t.prev[j]? = some (some (t.lastOn j lo))
  set : w.set = true → t.nextAt w.level w.node = t.nextAt w.level (t.lastOn w.level lo)

/-- **A call of `Get`** on its way or behind it. -/
structure Served (s : SharedMemTable) (ps : List ℕ) (g : PendingGet) : Prop where
  searching : g.result = none →
    NodeHeap.Standing s.heap s.reach ps (makeLookupKey g.userKey) g.x g.level g.reads
  answered : ∀ r, g.result = some r → ∃ n, g.ended ≤ n ∧ n ≤ s.published ∧
    r = (MemTable.new.addAll (s.added.take n)).get g.userKey
  ended : g.ended ≤ s.published
  reads : g.reads ≤ SkipList.kMaxHeight + ps.length

/-- **What holds between any two steps**: `ps` are the nodes that were made. -/
structure Consistent (s : SharedMemTable) (ps : List ℕ) : Prop where
  woven : NodeHeap.Woven s.heap s.reach ps
  pos : ∀ x ∈ ps, 0 < s.heap.heightAt x
  pending : ∀ w, s.insertion = some w →
    ∃ lo hi, ps = lo ++ w.node :: hi ∧ Splicing s.heap lo w
  nodes : s.heap.chainNodes ps = (MemTable.new.addAll s.added).table.nodes
  linked : s.heap.chainNodes (NodeHeap.on s.reach 0 ps) = s.memTable.table.nodes
  lastSeq : s.lastSeq = UInt64.ofNat s.added.length
  numbers : s.added.length < 2 ^ 56
  length : ps.length = s.added.length
  gets : ∀ g ∈ s.gets, s.Served ps g

theorem new_consistent : Consistent new [] := by
  have hlinked := NodeHeap.new_linked {}
  exact ⟨hlinked.woven, by simp, by simp [new], rfl, rfl, rfl, by decide, rfl, by simp [new]⟩

theorem Served.mono {ps' : List ℕ} {g : PendingGet} (h : s.Served ps g)
    (hstanding : ∀ key x level reads, NodeHeap.Standing s.heap s.reach ps key x level reads →
      NodeHeap.Standing s'.heap s'.reach ps' key x level reads)
    (hpub : s.published ≤ s'.published) (hadded : ∀ n ≤ s.published, s'.added.take n = s.added.take n)
    (hlen : ps.length ≤ ps'.length) : s'.Served ps' g := by
  refine ⟨fun hnone => hstanding _ _ _ _ (h.searching hnone), fun r hr => ?_, h.ended.trans hpub,
    h.reads.trans (Nat.add_le_add_left hlen _)⟩
  obtain ⟨n, hn, hle, hget⟩ := h.answered r hr
  exact ⟨n, hn, hle.trans hpub, by rw [hadded n hle]; exact hget⟩

/-- **A call of `Get` begins.** -/
theorem Consistent.get (h : Consistent s ps) (userKey : Bytes) :
    Consistent { s with gets := s.gets ++ [{ userKey := userKey, ended := s.ended }] } ps := by
  refine ⟨h.woven, h.pos, h.pending, h.nodes, h.linked, h.lastSeq, h.numbers, h.length, fun g hg => ?_⟩
  rcases List.mem_append.1 hg with hg | hg
  · exact (h.gets g hg).mono (fun _ _ _ _ hst => hst) le_rfl (fun _ _ => rfl) le_rfl
  · obtain rfl := List.mem_singleton.1 hg
    exact ⟨fun _ => NodeHeap.Standing.start _ _ _ _, fun r hr => absurd hr (by simp), ended_le s, Nat.zero_le _⟩

/-- **A read of a pointer** can always be made. -/
theorem Consistent.read (h : Consistent s ps) {i : ℕ} {g : PendingGet} (hg : s.gets[i]? = some g)
    (hnone : g.result = none) : ∃ g', s.step (.read i) = some { s with gets := s.gets.set i g' } ∧
      (g'.result = none ∨ g'.result = some (s.memTable.get g.userKey)) ∧
      Consistent { s with gets := s.gets.set i g' } ps := by
  have hserved := h.gets g (List.mem_of_getElem? hg)
  have hstanding := hserved.searching hnone
  obtain ⟨g', hread, hkey, hended, hreads, hresult⟩ := hstanding.read h.woven h.linked.symm hnone
  refine ⟨g', ?_, hresult.imp_left And.left,
    ⟨h.woven, h.pos, h.pending, h.nodes, h.linked, h.lastSeq, h.numbers, h.length, fun f hf => ?_⟩⟩
  · simp only [step, hg, hnone, hread, Option.bind_eq_bind, Option.bind_some, Option.isSome_none, Bool.false_eq_true,
      if_false]
    rfl
  rcases List.mem_or_eq_of_mem_set hf with hf | rfl
  · exact (h.gets f hf).mono (fun _ _ _ _ hst => hst) le_rfl (fun _ _ => rfl) le_rfl
  refine ⟨fun hnone' => ?_, fun r hr => ?_, by rw [hended]; exact hserved.ended, ?_⟩
  · rcases hresult with ⟨-, hst⟩ | hsome
    · rw [hkey]
      exact hst
    · rw [hnone'] at hsome
      cases hsome
  · rcases hresult with ⟨hnone', -⟩ | hsome
    · rw [hnone'] at hr
      cases hr
    · rw [hsome] at hr
      rw [hended, hkey]
      exact ⟨s.published, hserved.ended, le_rfl, (Option.some.inj hr).symm⟩
  · have := hstanding.reads_le
    omega

/-- **A new version gets a key of its own.** -/
theorem internalKey_fresh {adds : List (Bytes × Bytes × ℕ)} (h : adds.length + 1 < 2 ^ 56)
    {e : Bytes × Bytes} (he : e ∈ (MemTable.new.addAll adds).entries) (u : Bytes) (type : ValueType) :
    e.1 ≠ makeInternalKey u (UInt64.ofNat adds.length + 1) type := by
  obtain ⟨y, hy, rfl⟩ := (MemTable.mem_entries_addAll (by omega)).1 he
  obtain ⟨i, hi, hseq⟩ := MemTable.seq_lt hy
  have hnum : ∀ n < 2 ^ 56, (UInt64.ofNat n).toNat = n := fun n hn => by
    rw [UInt64.toNat_ofNat', Nat.mod_eq_of_lt (by omega)]
  have hlast : UInt64.ofNat adds.length + 1 = UInt64.ofNat (adds.length + 1) := by
    rw [UInt64.ofNat_add]; rfl
  intro heq
  have hs := congrArg extractSequence heq
  rw [hlast, Version.entry_fst, extractSequence_makeInternalKey (by rw [hseq, hnum _ (by omega)]; omega),
    extractSequence_makeInternalKey (by rw [hnum _ h]; exact h), hseq] at hs
  have := congrArg UInt64.toNat hs
  rw [hnum _ (by omega), hnum _ h] at this
  omega

/-- The nodes of a memtable behind an `Add`. -/
theorem nodes_addAll_append (adds : List (Bytes × Bytes × ℕ)) (u v : Bytes) (height : ℕ) :
    (MemTable.new.addAll (adds ++ [(u, v, height)])).table.nodes =
      SkipList.insertChain (makeInternalKey u (UInt64.ofNat adds.length + 1) (typeOf v)) v height
        (MemTable.new.addAll adds).table.nodes := by
  rw [MemTable.addAll_append, ← MemTable.lastSeq_addAll]
  rfl

/-- Nobody is inserting. -/
theorem Consistent.idle (h : Consistent s ps) (hidle : s.insertion = none) :
    s.reach = s.heap.heightAt ∧ NodeHeap.Linked s.heap ps := by
  have hreach : s.reach = s.heap.heightAt := by rw [reach, hidle]
  exact ⟨hreach, (hreach ▸ h.woven : NodeHeap.Woven s.heap s.heap.heightAt ps).linked h.pos⟩

/-- **An `Add` begins**: it makes a node that no search can see. -/
theorem Consistent.add (h : Consistent s ps) (hidle : s.insertion = none) (u v : Bytes) {height : ℕ}
    (hpos : 0 < height) (hmax : height ≤ SkipList.kMaxHeight) (hnum : s.added.length + 1 < 2 ^ 56) :
    ∃ s' ps', s.add u v height = some s' ∧ s'.added = s.added ++ [(u, v, height)] ∧ Consistent s' ps' ∧
      s'.published = s.published := by
  obtain ⟨hreach, hlinked⟩ := h.idle hidle
  set ik := makeInternalKey u (UInt64.ofNat s.added.length + 1) (typeOf v) with hik
  obtain ⟨lo, hi, rfl, hlo, hhi⟩ := NodeHeap.split_at hlinked ik
  have hfresh : ∀ x ∈ lo ++ hi, s.heap.keyAt x ≠ ik := fun x hx => by
    refine internalKey_fresh hnum (e := ((s.heap.dataAt x).key, (s.heap.dataAt x).value)) ?_ u (typeOf v)
    rw [MemTable.entries, ← h.nodes]
    exact List.mem_map_of_mem (List.mem_map_of_mem hx)
  have hgt : ∀ x ∈ hi, ik < s.heap.keyAt x := fun x hx =>
    lt_of_le_of_ne (not_lt.1 (hhi x hx)) (hfresh x (List.mem_append_right _ hx)).symm
  obtain ⟨prev, hrun, hprevlen, hprev⟩ := NodeHeap.search_spec hlinked hlo hhi
  set n := s.heap.nodes.length with hn
  set arena := SkipList.newNode s.heap.arena ik v height with harena
  set t : NodeHeap := ⟨arena, s.heap.nodes ++ [NodeHeap.newNode ik v height], prev⟩ with ht
  obtain ⟨hlinked', hold, hnew⟩ := hlinked.push ik v height arena hprevlen
  set s' : SharedMemTable := { s with
    heap := t, lastSeq := s.lastSeq + 1, insertion := some { node := n, height := height },
    added := s.added ++ [(u, v, height)] } with hs'
  have hbound : ∀ x ∈ lo ++ hi, x < n := fun x hx => (hlinked.bound x hx).2
  have hheadn : NodeHeap.head < n := (Nat.zero_le _).trans_lt hlinked.length
  have hkey : ∀ x < n, t.keyAt x = s.heap.keyAt x := fun x hx => congrArg Node.key (hold x hx)
  have hheight : ∀ x < n, t.heightAt x = s.heap.heightAt x := fun x hx => congrArg Node.height (hold x hx)
  have hnheight : t.heightAt n = height := congrArg Node.height hnew
  have hnkey : t.keyAt n = ik := congrArg Node.key hnew
  have hwoven : NodeHeap.Woven t s'.reach (lo ++ n :: hi) := by
    refine hlinked'.weave hheadn.ne' (by simp [hn]) (fun hmem => lt_irrefl _ (hbound n hmem))
      (hnheight.trans_le hmax) ?_ (fun x hx => ?_) fun x hx => ?_
    · have := hlinked.length
      simp only [List.length_append, List.length_singleton] at this ⊢
      omega
    · rw [hkey x (hbound x (List.mem_append_left _ hx)), hnkey]
      exact hlo x hx
    · rw [hkey x (hbound x (List.mem_append_right _ hx)), hnkey]
      exact hgt x hx
  have hreach' : ∀ x ∈ lo ++ hi, s'.reach x = s.heap.heightAt x := fun x hx => by
    rw [reach, hs']
    exact (Function.update_of_ne (hbound x hx).ne _ _).trans (hheight x (hbound x hx))
  have hskip : NodeHeap.on s'.reach 0 (lo ++ n :: hi) = lo ++ hi := by
    have hall : ∀ qs : List ℕ, (∀ x ∈ qs, x ∈ lo ++ hi) → NodeHeap.on s'.reach 0 qs = qs := fun qs hqs =>
      List.filter_eq_self.2 fun x hx => by
        rw [hreach' x (hqs x hx)]
        exact decide_eq_true (h.pos x (hqs x hx))
    have hzero : s'.reach n = 0 := Function.update_self _ _ _
    rw [NodeHeap.on_append, NodeHeap.on_cons, if_neg (by rw [hzero]; exact lt_irrefl 0),
      hall lo fun x hx => List.mem_append_left _ hx, hall hi fun x hx => List.mem_append_right _ hx]
  have hpub : s'.published = s.added.length := by simp [published, hs']
  have hpub' : s.published = s.added.length := by rw [published, hidle]
  have hdata : ∀ x ∈ lo ++ hi, t.dataAt x = s.heap.dataAt x := fun x hx => hold x (hbound x hx)
  refine ⟨s', lo ++ n :: hi, ?_, rfl, ⟨hwoven, fun x hx => ?_, fun w hw => ?_, ?_, ?_, ?_, ?_, ?_, fun g hg => ?_⟩,
    hpub.trans hpub'.symm⟩
  · have hany : ((hi.head?.bind fun x => s.heap.nodes[x]?).any fun node =>
        decide (Slice.compare node.key ik = .eq)) = false := by
      cases hi with
      | nil => rfl
      | cons y hs =>
        have hy : y < s.heap.nodes.length := hbound y (by simp)
        have hne := hfresh y (by simp)
        rw [NodeHeap.keyAt, List.getElem?_eq_getElem hy] at hne
        simp only [List.head?_cons, Option.bind_some, List.getElem?_eq_getElem hy, Option.any_some,
          Slice.compare_eq_eq]
        exact decide_eq_false hne
    have hguard : (s.insertion.isSome || decide (height = 0) || decide (SkipList.kMaxHeight < height)) = false := by
      simp [hidle, hpos.ne', hmax]
    rw [hik, ← h.lastSeq] at hrun hany
    rw [SharedMemTable.add]
    simp only [hguard, hrun, Except.toOption, Option.bind_eq_bind, Option.bind_some, Bool.false_eq_true, if_false,
      hany, pure]
    rw [hs', ht, harena, hik, ← h.lastSeq]
  · rcases List.mem_append.1 hx with hx | hx
    · rw [hheight x (hbound x (List.mem_append_left _ hx))]
      exact h.pos x (List.mem_append_left _ hx)
    rcases List.mem_cons.1 hx with rfl | hx
    · exact hpos.trans_eq hnheight.symm
    · rw [hheight x (hbound x (List.mem_append_right _ hx))]
      exact h.pos x (List.mem_append_right _ hx)
  · obtain rfl := Option.some.inj hw
    refine ⟨lo, hi, rfl, hnheight, hpos, fun j hj => ?_, fun hset => by cases hset⟩
    rw [show t.lastOn j lo = s.heap.lastOn j lo from congrArg (List.getLastD · NodeHeap.head)
      (List.filter_congr fun x hx => by rw [hheight x (hbound x (List.mem_append_left _ hx))])]
    exact hprev j hj
  · rw [nodes_addAll_append, ← h.nodes, NodeHeap.chainNodes_append, NodeHeap.chainNodes_append,
      NodeHeap.insertChain_append (NodeHeap.chainNodes_below hlo), NodeHeap.chainNodes_cons,
      NodeHeap.chainNodes_congr fun x hx => hdata x (List.mem_append_left _ hx),
      NodeHeap.chainNodes_congr fun x hx => hdata x (List.mem_append_right _ hx), hnew]
    cases hi with
    | nil => rfl
    | cons y hs =>
      have hcompare : Slice.compare (s.heap.dataAt y).key ik = .gt :=
        Slice.compare_eq_gt.2 (hgt y List.mem_cons_self)
      rw [NodeHeap.chainNodes_cons, SkipList.insertChain, hcompare]
  · rw [hskip, memTable, hpub, hs', List.take_left, ← h.nodes]
    exact NodeHeap.chainNodes_congr hdata
  · show s.lastSeq + 1 = UInt64.ofNat (s.added ++ [(u, v, height)]).length
    rw [h.lastSeq, List.length_append, UInt64.ofNat_add]
    rfl
  · simpa [hs'] using hnum
  · have := h.length
    simp only [hs', List.length_append, List.length_cons, List.length_nil] at this ⊢
    omega
  · refine (h.gets g hg).mono (fun key x level reads hst => ?_) ?_ (fun m hm => ?_) (by simp)
    · have hst' : NodeHeap.Standing t s'.reach (lo ++ hi) key x level reads :=
        hst.mono (fun p hp => hkey p (hbound p hp)) fun p hp => by rw [hreach, hreach' p hp]
      exact hst'.insert hwoven.sorted
    · rw [hpub]
      exact published_le s
    · rw [hs']
      exact List.take_append_of_le_length (hm.trans (published_le s))

/-- **The last node in front of the new one** on a level is linked there. -/
theorem Consistent.pred (h : Consistent s ps) {w : Insertion} (hw : s.insertion = some w) {lo hi : List ℕ}
    (hps : ps = lo ++ w.node :: hi) (hs : Splicing s.heap lo w) :
    s.reach w.node = w.level ∧ w.level < s.heap.heightAt w.node ∧ w.node ≠ NodeHeap.head ∧
      (s.heap.prev[w.level]?).join = some (s.heap.lastOn w.level lo) ∧
      w.level < s.heap.heightAt (s.heap.lastOn w.level lo) ∧
      s.heap.lastOn w.level lo = (NodeHeap.on s.reach w.level lo).getLastD NodeHeap.head := by
  subst hps
  have hreach : s.reach = Function.update s.heap.heightAt w.node w.level := by rw [reach, hw]
  have hmem : w.node ∈ lo ++ w.node :: hi := by simp
  have hlevel : w.level < s.heap.heightAt w.node := hs.level.trans_eq hs.height.symm
  have hmax : w.level < SkipList.kMaxHeight := hlevel.trans_le (h.woven.height _ hmem)
  have hlo : ∀ x ∈ lo, x ≠ w.node := fun x hx =>
    (List.nodup_append.1 (List.nodup_cons.1 h.woven.nodup).2).2.2 x hx w.node List.mem_cons_self
  refine ⟨by rw [hreach, Function.update_self], hlevel, (h.woven.bound _ hmem).1, by rw [hs.prev _ hmax]; rfl, ?_, ?_⟩
  · have hlast : s.heap.lastOn w.level lo ∈ NodeHeap.head :: s.heap.above w.level lo := List.getLastD_mem_cons
    rcases List.mem_cons.1 hlast with heq | hmem
    · rw [heq, h.woven.top]
      exact hmax
    · simpa using List.of_mem_filter hmem
  · refine congrArg (List.getLastD · NodeHeap.head) (List.filter_congr fun x hx => ?_)
    rw [hreach, Function.update_of_ne (hlo x hx)]

/-- The nodes in front of the new one do not move while it is linked. -/
theorem Splicing.congr {t t' : NodeHeap} {lo : List ℕ} {w w' : Insertion} (h : Splicing t lo w)
    (hsame : NodeHeap.SameData t t') (hnode : w'.node = w.node) (hheight : w'.height = w.height)
    (hlevel : w'.level < w'.height)
    (hset : w'.set = true → t'.nextAt w'.level w'.node = t'.nextAt w'.level (t.lastOn w'.level lo)) :
    Splicing t' lo w' := by
  have hlast : ∀ j, t'.lastOn j lo = t.lastOn j lo := fun j =>
    congrArg (List.getLastD · NodeHeap.head) (List.filter_congr fun x _ => by rw [hsame.heightAt])
  refine ⟨by rw [hsame.heightAt, hnode, h.height, hheight], hlevel, fun j hj => ?_, fun hs => ?_⟩
  · rw [hsame.prev, hlast]
    exact h.prev j hj
  · rw [hlast]
    exact hset hs

/-- A write of a pointer of a node that is linked on at least as many levels as before. -/
theorem Consistent.write (h : Consistent s ps) {t : NodeHeap} {i : Option Insertion}
    (hsame : NodeHeap.SameData s.heap t)
    (hwoven : NodeHeap.Woven t (reach { s with heap := t, insertion := i }) ps)
    (hmono : ∀ x ∈ ps, s.reach x ≤ reach { s with heap := t, insertion := i } x)
    (hpending : ∀ w, i = some w → ∃ lo hi, ps = lo ++ w.node :: hi ∧ Splicing t lo w)
    (hlinked : reach { s with heap := t, insertion := i } = s.reach ∧
        published { s with heap := t, insertion := i } = s.published ∨
      (∀ x ∈ ps, 0 < reach { s with heap := t, insertion := i } x) ∧
        published { s with heap := t, insertion := i } = s.added.length) :
    Consistent { s with heap := t, insertion := i } ps ∧
      s.published ≤ published { s with heap := t, insertion := i } := by
  set s' : SharedMemTable := { s with heap := t, insertion := i } with hs'
  have hnodes : ∀ qs, s'.heap.chainNodes qs = s.heap.chainNodes qs := fun qs =>
    NodeHeap.chainNodes_congr fun x _ => congrFun hsame.data x
  have hpub : s.published ≤ s'.published := by
    rcases hlinked with ⟨-, heq⟩ | ⟨-, heq⟩
    · exact heq.ge
    · exact (published_le s).trans_eq heq.symm
  refine ⟨⟨hwoven, fun x hx => ?_, hpending, (hnodes ps).trans h.nodes, ?_, h.lastSeq, h.numbers, h.length,
    fun g hg => (h.gets g hg).mono (fun key x level reads hst => ?_) hpub (fun _ _ => rfl) le_rfl⟩, hpub⟩
  · exact (h.pos x hx).trans_eq (hsame.heightAt x).symm
  · rw [hnodes, memTable]
    rcases hlinked with ⟨hreach, heq⟩ | ⟨hall, heq⟩
    · rw [hreach, heq]
      exact h.linked
    · rw [heq, show NodeHeap.on s'.reach 0 ps = ps from List.filter_eq_self.2 fun x hx => by simpa using hall x hx,
        hs', List.take_length]
      exact h.nodes
  · exact hst.mono (fun p _ => hsame.keyAt p) hmono

/-- **A write of `Insert`** can always be made. -/
theorem Consistent.link (h : Consistent s ps) {w : Insertion} (hw : s.insertion = some w) :
    ∃ s', s.link = some s' ∧ s'.added = s.added ∧ Consistent s' ps ∧ s.published ≤ s'.published := by
  obtain ⟨lo, hi, hps, hs⟩ := h.pending w hw
  obtain ⟨hreach, hlevel, hhead, hprev, hproom, hlast⟩ := h.pred hw hps hs
  set p := s.heap.lastOn w.level lo with hp
  have hreachs : s.reach = Function.update s.heap.heightAt w.node w.level := by rw [reach, hw]
  by_cases hset : w.set = true
  · -- the predecessor gets the new node
    have hnext := hs.set hset
    rw [← hp, hlast, ← hreach] at hnext
    obtain ⟨t, hrun, hsame, hwoven⟩ := NodeHeap.Woven.link (hps ▸ h.woven) (hreach ▸ hlevel) hnext
    rw [hreach, ← hlast] at hrun
    rw [hreach, ← hps] at hwoven
    set i : Option Insertion :=
      if w.level + 1 < w.height then some { w with level := w.level + 1, set := false } else none with hi'
    have hlink : s.link = some { s with heap := t, insertion := i } := by
      simp only [SharedMemTable.link, hw, hprev, hset, hrun, Except.toOption, Option.bind_eq_bind, Option.bind_some,
        if_true]
      rfl
    have hreach' : reach { s with heap := t, insertion := i } = Function.update s.reach w.node (w.level + 1) := by
      have hheights : t.heightAt = s.heap.heightAt := funext hsame.heightAt
      rw [hreachs, Function.update_idem, reach]
      by_cases hmore : w.level + 1 < w.height
      · simp only [hi', if_pos hmore, hheights]
      · have hfull : w.level + 1 = s.heap.heightAt w.node := by
          have := hs.level
          rw [hs.height]
          omega
        rw [hfull, Function.update_eq_self, hi', if_neg hmore]
        exact hheights
    have hmono : ∀ x ∈ ps, s.reach x ≤ reach { s with heap := t, insertion := i } x := fun x _ => by
      rw [hreach', Function.update_apply]
      split
      case isTrue heq => rw [heq, hreach]; exact Nat.le_succ _
      case isFalse => exact le_rfl
    have hpos : ∀ x ∈ ps, 0 < reach { s with heap := t, insertion := i } x := fun x hx => by
      rw [hreach', Function.update_apply]
      split
      case isTrue => exact Nat.succ_pos _
      case isFalse hne =>
        rw [hreachs, Function.update_of_ne hne]
        exact h.pos x hx
    have hpub' : published { s with heap := t, insertion := i } = s.added.length := by
      rw [published]
      by_cases hmore : w.level + 1 < w.height <;> simp [hi', hmore]
    rw [← hreach'] at hwoven
    refine ⟨_, hlink, rfl, h.write hsame hwoven hmono (fun w' hw' => ?_) (Or.inr ⟨hpos, hpub'⟩)⟩
    by_cases hmore : w.level + 1 < w.height
    · rw [hi', if_pos hmore] at hw'
      obtain rfl := Option.some.inj hw'
      exact ⟨lo, hi, hps, hs.congr hsame rfl rfl hmore fun h => by cases h⟩
    · rw [hi', if_neg hmore] at hw'
      cases hw'
  · -- the new node gets the pointer of its predecessor
    obtain ⟨t, hrun, hsame, hwoven, hself, hother⟩ :=
      h.woven.own hhead (hreach ▸ hlevel) (s.heap.nextAt w.level p)
    rw [hreach] at hrun hself hother
    have hpn : p ≠ w.node := by
      rw [hlast]
      intro heq
      have hmem : (NodeHeap.on s.reach w.level lo).getLastD NodeHeap.head ∈
        NodeHeap.head :: NodeHeap.on s.reach w.level lo := List.getLastD_mem_cons
      rw [heq] at hmem
      rcases List.mem_cons.1 hmem with hh | hmem
      · exact hhead hh
      · have := (NodeHeap.mem_on.1 hmem).2
        omega
    have hlink : s.link = some { s with heap := t, insertion := some { w with set := true } } := by
      simp only [SharedMemTable.link, hw, hprev, hset, NodeHeap.next_eq h.woven.room hproom, hrun, Except.toOption,
        Option.bind_eq_bind, Option.bind_some, Bool.false_eq_true, if_false]
      rfl
    have hreach' : reach { s with heap := t, insertion := some { w with set := true } } = s.reach := by
      rw [hreachs, reach]
      simp only [show t.heightAt = s.heap.heightAt from funext hsame.heightAt]
    have hpub' : published { s with heap := t, insertion := some { w with set := true } } = s.published := by
      rw [published, published, hw]
    rw [← hreach'] at hwoven
    refine ⟨_, hlink, rfl, h.write hsame hwoven (fun x _ => by rw [hreach']) (fun w' hw' => ?_)
      (Or.inl ⟨hreach', hpub'⟩)⟩
    obtain rfl := Option.some.inj hw'
    refine ⟨lo, hi, hps, hs.congr hsame rfl rfl hs.level fun _ => ?_⟩
    show t.nextAt w.level w.node = t.nextAt w.level p
    rw [hself, hother p hpn]

/-- What an `add` that can be taken tells. -/
theorem idle_of_add {u v : Bytes} {height : ℕ} (h : s.add u v height = some s') :
    s.insertion = none ∧ 0 < height ∧ height ≤ SkipList.kMaxHeight := by
  rw [SharedMemTable.add] at h
  split at h
  case isTrue => cases h
  case isFalse hguard =>
    simp only [Bool.or_eq_true, decide_eq_true_eq, not_or, Option.isSome_iff_ne_none, not_not] at hguard
    exact ⟨hguard.1.1, by omega, by omega⟩

/-- What a step can be. -/
theorem step_cases {l : MemTableLabel} (h : s.step l = some s') :
    (∃ u v height, l = .add u v height ∧ s.add u v height = some s') ∨
    (∃ w, l = .link ∧ s.insertion = some w ∧ s.link = some s') ∨
    (∃ userKey, l = .get userKey ∧
      s' = { s with gets := s.gets ++ [{ userKey := userKey, ended := s.ended }] }) ∨
    ∃ i g g', l = .read i ∧ s.gets[i]? = some g ∧ g.result = none ∧ s' = { s with gets := s.gets.set i g' } := by
  cases l with
  | add u v height => exact Or.inl ⟨u, v, height, rfl, h⟩
  | link =>
    refine Or.inr (Or.inl ?_)
    cases hw : s.insertion with
    | none => simp [SharedMemTable.step, SharedMemTable.link, hw] at h
    | some w => exact ⟨w, rfl, rfl, h⟩
  | get userKey => exact Or.inr (Or.inr (Or.inl ⟨userKey, rfl, (Option.some.inj h).symm⟩))
  | read i =>
    obtain ⟨g, hg, h⟩ := Option.bind_eq_some_iff.1 h
    split at h
    case isTrue => cases h
    case isFalse hnone =>
      obtain ⟨g', -, h⟩ := Option.bind_eq_some_iff.1 h
      exact Or.inr (Or.inr (Or.inr ⟨i, g, g', rfl, hg, by simpa using hnone, (Option.some.inj h).symm⟩))

/-- **Every step keeps the invariant**, and what searches see only grows. -/
theorem Consistent.step (h : Consistent s ps) {l : MemTableLabel} (hok : s.HasNumber l)
    (hstep : s.step l = some s') :
    ∃ ps', Consistent s' ps' ∧ s.published ≤ s'.published ∧ s.added <+: s'.added := by
  rcases step_cases hstep with ⟨u, v, height, rfl, hadd⟩ | ⟨w, rfl, hw, hlink⟩ | ⟨u, rfl, rfl⟩ |
    ⟨i, g, g', rfl, hg, hnone, -⟩
  · obtain ⟨hidle, hpos, hmax⟩ := idle_of_add hadd
    obtain ⟨s₁, ps', hadd', hadded, hcons, hpub⟩ := h.add hidle u v hpos hmax hok
    obtain rfl := Option.some.inj (hadd'.symm.trans hadd)
    exact ⟨ps', hcons, hpub.ge, hadded ▸ List.prefix_append _ _⟩
  · obtain ⟨s₁, hlink', hadded, hcons, hpub⟩ := h.link hw
    obtain rfl := Option.some.inj (hlink'.symm.trans hlink)
    exact ⟨ps, hcons, hpub, hadded ▸ List.prefix_rfl⟩
  · exact ⟨ps, h.get u, le_rfl, List.prefix_rfl⟩
  · obtain ⟨g₁, hread, -, hcons⟩ := h.read hg hnone
    obtain rfl := Option.some.inj (hread.symm.trans hstep)
    exact ⟨ps, hcons, le_rfl, List.prefix_rfl⟩

/-! ## Whole runs -/

theorem consistent_of_reach (h : Transition.Reach step HasNumber new s) : ∃ ps, Consistent s ps := by
  refine h.invariant (I := fun s => ∃ ps, Consistent s ps) ⟨[], new_consistent⟩ fun s l s' hs hok hstep => ?_
  obtain ⟨ps, hcons⟩ := hs
  obtain ⟨ps', hcons', -⟩ := hcons.step hok hstep
  exact ⟨ps', hcons'⟩

/-- **Every `Get` is linearizable and ends**, whatever an `Add` does in between: its last read is
the moment from which it answers, and an `Add` takes effect with the second pointer it writes. -/
theorem get_linearizable (h : Transition.Reach step HasNumber new s) :
    (∀ (i : ℕ) (g : PendingGet), s.gets[i]? = some g → g.result = none →
      ∃ g', s.step (.read i) = some { s with gets := s.gets.set i g' } ∧
        (g'.result = none ∨ g'.result = some (s.memTable.get g.userKey))) ∧
    (∀ g ∈ s.gets, g.reads ≤ SkipList.kMaxHeight + s.added.length ∧
      ∀ r, g.result = some r → ∃ n, g.ended ≤ n ∧ n ≤ s.added.length ∧
        r = (MemTable.new.addAll (s.added.take n)).get g.userKey) ∧
    s.ended ≤ s.published ∧ s.published ≤ s.added.length ∧
    ∀ l s', s.HasNumber l → s.step l = some s' → s.published ≤ s'.published ∧ s.added <+: s'.added := by
  obtain ⟨ps, hcons⟩ := consistent_of_reach h
  refine ⟨fun i g hg hnone => ?_, fun g hg => ?_, ended_le s, published_le s, fun l s' hok hstep => ?_⟩
  · obtain ⟨g', hread, hresult, -⟩ := hcons.read hg hnone
    exact ⟨g', hread, hresult⟩
  · have hserved := hcons.gets g hg
    refine ⟨hserved.reads.trans_eq (by rw [hcons.length]), fun r hr => ?_⟩
    obtain ⟨n, hn, hle, hget⟩ := hserved.answered r hr
    exact ⟨n, hn, hle.trans (published_le s), hget⟩
  · obtain ⟨-, -, hpub, hadded⟩ := hcons.step hok hstep
    exact ⟨hpub, hadded⟩

/-- An `Add` that links its node while a `Get` goes down the levels. -/
def crossedRun : List MemTableLabel :=
  [.add [97] [1] 2, .link, .get [97]] ++ List.replicate 11 (.read 0) ++ [.link, .read 0]

/-- The `Get` finds the value before the `Add` has ended. -/
theorem get_linearizable_crossed : ∃ s, Transition.Reach step HasNumber new s ∧
    s.gets = [{ userKey := [97], ended := 0, level := 0, reads := 12, result := some (some [1]) }] ∧
    s.insertion.isSome = true ∧ ∃ n, 0 ≤ n ∧ n ≤ s.added.length ∧
      some [1] = (MemTable.new.addAll (s.added.take n)).get [97] := by
  have hrun : (Transition.run step HasNumber new crossedRun).map (fun s => (s.gets, s.insertion.isSome)) =
      some ([{ userKey := [97], ended := 0, level := 0, reads := 12, result := some (some [1]) }], true) := by
    decide +kernel
  obtain ⟨s, hs, heq⟩ := Option.map_eq_some_iff.1 hrun
  simp only [Prod.mk.injEq] at heq
  obtain ⟨-, hgets, -⟩ := get_linearizable (Transition.reach_of_run hs)
  obtain ⟨-, hanswer⟩ := hgets _ (heq.1 ▸ List.mem_singleton_self _)
  exact ⟨s, Transition.reach_of_run hs, heq.1, heq.2, hanswer _ rfl⟩

/-- The steps of readers and of the `Insert` that is on its way. -/
def NoAdd : SharedMemTable → MemTableLabel → Prop
  | _, .add _ _ _ => False
  | _, _ => True

instance (s : SharedMemTable) (l : MemTableLabel) : Decidable (NoAdd s l) := by
  rcases l with _ | _ | _ | _ <;> unfold NoAdd <;> infer_instance

/-- What is left of an `Insert`. -/
def remaining (t : NodeHeap) (w : Insertion) : Checked NodeHeap := do
  let p ← Checked.ofOption (t.prev[w.level]?).join
  let t ←
    if w.set then pure t
    else do
      let y ← t.next p w.level
      t.setNext w.node w.level y
  let t ← t.setNext p w.level (some w.node)
  (List.range' (w.level + 1) (w.height - (w.level + 1))).foldlM (NodeHeap.link w.node) t

/-- What an insertion comes to. -/
def outcome (s : SharedMemTable) : Checked NodeHeap :=
  match s.insertion with
  | some w => remaining s.heap w
  | none => .ok s.heap

theorem setNext_prev {t t' : NodeHeap} {p level : ℕ} {y : Option ℕ} (h : t.setNext p level y = .ok t') :
    t'.prev = t.prev := by
  obtain ⟨node, -, h⟩ := Checked.bind_eq_ok h
  obtain ⟨_, -, h⟩ := Checked.bind_eq_ok h
  obtain rfl := Except.ok.inj h
  rfl

theorem toOption_eq_some {α : Type} {x : Checked α} {a : α} (h : x.toOption = some a) : x = .ok a := by
  cases x with
  | error e => cases h
  | ok b => rw [Option.some.inj h]

/-- Before the first write of a turn, whole turns are left. -/
theorem remaining_eq (t : NodeHeap) {w : Insertion} (hset : w.set = false) (hlevel : w.level < w.height) :
    remaining t w =
      (List.range' w.level (w.height - w.level)).foldlM (NodeHeap.link w.node) t := by
  rw [show w.height - w.level = w.height - (w.level + 1) + 1 by omega, List.range'_succ, List.foldlM_cons]
  simp only [remaining, NodeHeap.link, hset, Bool.false_eq_true, if_false, bind_assoc]

/-- **A write of `Insert`** brings the insertion on its way. -/
theorem outcome_link {w : Insertion} (hw : s.insertion = some w) (hlevel : w.level < w.height)
    (hstep : s.link = some s') : s'.outcome = s.outcome := by
  simp only [SharedMemTable.link, hw, Option.bind_eq_bind, Option.bind_some] at hstep
  obtain ⟨p, hp, hstep⟩ := Option.bind_eq_some_iff.1 hstep
  have hbind : ∀ {α β : Type} (a : α) (f : α → Checked β), (Except.ok a >>= f) = f a := fun _ _ => rfl
  rw [outcome, outcome, hw]
  simp only
  split at hstep
  case isTrue hset =>
    obtain ⟨t, ht, hstep⟩ := Option.bind_eq_some_iff.1 hstep
    obtain rfl := Option.some.inj hstep
    rw [remaining, hp, Checked.ofOption_some, hbind, if_pos hset, pure_bind]
    simp only [toOption_eq_some ht, hbind]
    by_cases hmore : w.level + 1 < w.height
    · simp only [if_pos hmore]
      exact remaining_eq t rfl hmore
    · rw [if_neg hmore, show w.height - (w.level + 1) = 0 by omega]
      rfl
  case isFalse hset =>
    obtain ⟨y, hy, hstep⟩ := Option.bind_eq_some_iff.1 hstep
    obtain ⟨t, ht, hstep⟩ := Option.bind_eq_some_iff.1 hstep
    have ht := toOption_eq_some ht
    obtain rfl := Option.some.inj hstep
    simp only [remaining, setNext_prev ht, hp, hset, Checked.ofOption_some, hbind, toOption_eq_some hy, ht, pure_bind,
      if_true, Bool.false_eq_true, if_false]

/-- **An `Add` that begins** has all of the insertion in front of it. -/
theorem outcome_add {u v : Bytes} {height : ℕ} (hlinked : NodeHeap.Linked s.heap ps)
    (hadd : s.add u v height = some s') :
    s'.outcome = s.heap.insert (makeInternalKey u (s.lastSeq + 1) (typeOf v)) v height ∧
      s'.added = s.added ++ [(u, v, height)] := by
  obtain ⟨hidle, hpos, hmax⟩ := idle_of_add hadd
  obtain ⟨lo, hi, rfl, hlo, hhi⟩ := NodeHeap.split_at hlinked (makeInternalKey u (s.lastSeq + 1) (typeOf v))
  obtain ⟨prev, hrun, -⟩ := NodeHeap.search_spec hlinked hlo hhi
  rw [SharedMemTable.add, if_neg (by simp [hidle, hpos.ne', hmax])] at hadd
  simp only [hrun, Except.toOption, Option.bind_eq_bind, Option.bind_some] at hadd
  by_cases hfound : ((hi.head?.bind fun x => s.heap.nodes[x]?).any fun node =>
      decide (Slice.compare node.key (makeInternalKey u (s.lastSeq + 1) (typeOf v)) = .eq)) = true
  · rw [if_pos hfound] at hadd
    cases hadd
  rw [if_neg hfound] at hadd
  obtain rfl := Option.some.inj hadd
  refine ⟨?_, rfl⟩
  show remaining _ _ = _
  rw [remaining_eq _ rfl hpos, Nat.sub_zero, ← List.range_eq_range', NodeHeap.insert, hrun]
  cases hi with
  | nil => rfl
  | cons y hs =>
    have hy : y < s.heap.nodes.length := (hlinked.bound y (by simp)).2
    simp only [List.head?_cons, Option.bind_some, List.getElem?_eq_getElem hy, Option.any_some,
      decide_eq_true_eq] at hfound
    simp only [bind, Except.bind, List.head?_cons, List.getElem?_eq_getElem hy, Checked.ofOption_some, hfound,
      if_false, pure, Except.pure]

/-- **`Insert` is what its steps do together**: whatever is read in between, the memory behind an `Add`
is that behind `NodeHeap.insert`, and searches see the value. -/
theorem add_eq_insert {s₁ : SharedMemTable} (h : Transition.Reach step HasNumber new s) {u v : Bytes} {height : ℕ}
    (hnum : s.added.length + 1 < 2 ^ 56) (hadd : s.step (.add u v height) = some s₁)
    (hrun : Transition.Reach step NoAdd s₁ s') (hidle : s'.insertion = none) :
    s.heap.insert (makeInternalKey u (s.lastSeq + 1) (typeOf v)) v height = .ok s'.heap ∧
      s'.memTable = s.memTable.add u v height := by
  obtain ⟨ps, hcons⟩ := consistent_of_reach h
  obtain ⟨hstart, -⟩ := idle_of_add hadd
  obtain ⟨houtcome, hadded⟩ := outcome_add (hcons.idle hstart).2 hadd
  obtain ⟨ps₁, hcons₁, -⟩ := hcons.step (l := .add u v height) hnum hadd
  have hend : (∃ ps', Consistent s' ps') ∧ s'.outcome = s₁.outcome ∧ s'.added = s₁.added := by
    refine hrun.invariant (I := fun t => (∃ ps', Consistent t ps') ∧ t.outcome = s₁.outcome ∧ t.added = s₁.added)
      ⟨⟨ps₁, hcons₁⟩, rfl, rfl⟩ fun t l t' ht hok hstep => ?_
    obtain ⟨⟨qs, hqs⟩, hout, hadd'⟩ := ht
    have hkept : ∃ ps', Consistent t' ps' := by
      have hnumber : t.HasNumber l := by
        cases l with
        | add => exact hok.elim
        | link | get | read => trivial
      obtain ⟨qs', hqs', -⟩ := hqs.step hnumber hstep
      exact ⟨qs', hqs'⟩
    rcases step_cases hstep with ⟨_, _, _, rfl, -⟩ | ⟨w, rfl, hw, hlink⟩ | ⟨_, rfl, rfl⟩ | ⟨_, _, _, rfl, -, -, rfl⟩
    · exact hok.elim
    · obtain ⟨lo, hi, -, hs⟩ := hqs.pending w hw
      obtain ⟨t₁, hlink', heq, -⟩ := hqs.link hw
      obtain rfl := Option.some.inj (hlink'.symm.trans hlink)
      exact ⟨hkept, (outcome_link hw hs.level hlink).trans hout, heq.trans hadd'⟩
    · exact ⟨hkept, hout, hadd'⟩
    · exact ⟨hkept, hout, hadd'⟩
  obtain ⟨-, hout, hadd'⟩ := hend
  have hfinal : s'.outcome = .ok s'.heap := by rw [outcome, hidle]
  refine ⟨by rw [← houtcome, ← hout, hfinal], ?_⟩
  rw [memTable, memTable, published, published, hidle, hstart]
  simp only [List.take_length]
  rw [hadd', hadded, MemTable.addAll_append]

/-- An `Add` during which a `Get` begins and reads. -/
theorem add_eq_insert_crossed : ∃ s₁ s', new.step (.add [97] [1] 2) = some s₁ ∧
    Transition.Reach step NoAdd s₁ s' ∧ s'.gets.length = 1 ∧
    new.heap.insert (makeInternalKey [97] (new.lastSeq + 1) (typeOf [1])) [1] 2 = .ok s'.heap ∧
      s'.memTable = new.memTable.add [97] [1] 2 := by
  have hrun : ((new.step (.add [97] [1] 2)).bind fun s₁ =>
      Transition.run step NoAdd s₁ [.link, .get [97], .read 0, .link, .link, .link]).map
        (fun s => (s.insertion, s.gets.length)) = some (none, 1) := by decide +kernel
  obtain ⟨s', hs, heq⟩ := Option.map_eq_some_iff.1 hrun
  obtain ⟨s₁, hadd, hs⟩ := Option.bind_eq_some_iff.1 hs
  simp only [Prod.mk.injEq] at heq
  exact ⟨s₁, s', hadd, Transition.reach_of_run hs, heq.2,
    add_eq_insert .start (by decide) hadd (Transition.reach_of_run hs) heq.1⟩

end SharedMemTable

end MiniLSM
