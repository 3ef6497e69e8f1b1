import Unos.DList.Invariant

namespace Unos.DList

open Unos.Words Unos.Links Unos.Runs

section Operations

variable {s : State} {xs : List ℕ}

theorem ListInv.head_alive (h : ListInv s xs) (h0 : s.head ≠ 0) : s.head ∉ s.gone := by
  cases xs with
  | nil => exact absurd h.forward h0
  | cons x xs =>
    rw [h.forward.1]
    exact h.alive x List.mem_cons_self

theorem ListInv.tail_alive (h : ListInv s xs) (h0 : s.tail ≠ 0) : s.tail ∉ s.gone :=
  h.mirror.head_alive h0

theorem notMem_filter_ne (l : List ℕ) (t : ℕ) : t ∉ l.filter fun a => a ≠ t := fun hmem =>
  of_decide_eq_true (List.mem_filter.mp hmem).2 rfl

theorem notMem_filter {l : List ℕ} {t a : ℕ} (h : a ∉ l) : a ∉ l.filter fun b => b ≠ t :=
  fun hmem => h (List.mem_filter.mp hmem).1

theorem ListInv.insertBack_eq (h : ListInv s xs) {t : ℕ} (v : ℕ) (ht : t ≠ 0) :
    listInsertBack s t v = s.append t v := by
  have hnew := notMem_filter_ne s.gone t
  by_cases htail : s.tail = 0
  · have hhead : s.head = 0 := h.head_eq_zero.mpr (h.tail_eq_zero.mp htail)
    have hskip : ((0 : ℕ) ≠ 0) = False := eq_false fun h0 => h0 rfl
    simp only [listInsertBack, State.append, State.kcalloc, State.setPrev, State.setVal,
      State.deref, htail, hhead, ht, hnew, hskip, or_self, if_false, if_true]
  · have hhead : s.head ≠ 0 := fun h0 => htail (h.tail_eq_zero.mpr (h.head_eq_zero.mp h0))
    have hold := notMem_filter (t := t) (h.tail_alive htail)
    have hlink : (s.tail ≠ 0) = True := eq_true htail
    simp only [listInsertBack, State.append, State.kcalloc, State.setPrev, State.setNext,
      State.setVal, State.deref, htail, hhead, ht, hnew, hold, hlink, or_self, if_false, if_true]

theorem ListInv.insertFront_eq (h : ListInv s xs) {t : ℕ} (v : ℕ) (ht : t ≠ 0)
    (hhead : s.head ≠ 0) : listInsertFront s t v = (t, (s.mirror.append t v).mirror) := by
  have hnew := notMem_filter_ne s.gone t
  have htail : s.tail ≠ 0 := fun h0 => hhead (h.head_eq_zero.mpr (h.tail_eq_zero.mp h0))
  have hold := notMem_filter (t := t) (h.head_alive hhead)
  have hlink : (s.head ≠ 0) = True := eq_true hhead
  simp only [listInsertFront, State.mirror, State.append, State.kcalloc, State.setPrev,
    State.setNext, State.setVal, State.deref, hhead, htail, ht, hnew, hold, hlink,
      or_self, if_false,
    if_true]

theorem ListInv.removeFront_eq (h : ListInv s xs) (hhead : s.head ≠ 0) :
    listRemoveFront s = (s.val s.head, s.dropFront) := by
  have hfirst := h.head_alive hhead
  by_cases hnext : s.next s.head = 0
  · have hskip : ((0 : ℕ) ≠ 0) = False := eq_false fun h0 => h0 rfl
    simp only [listRemoveFront, State.dropFront, State.kfree, State.deref, hhead, hfirst, hnext,
      hskip, or_self, if_false]
  · -- the second node is alive, too
    have hsecond : s.next s.head ∉ s.gone := by
      intro hgone
      have hpath := h.forward
      rcases xs with _ | ⟨x, _ | ⟨y, ys⟩⟩
      · exact hhead hpath
      · rw [hpath.1] at hnext
        exact hnext hpath.2
      · rw [hpath.1, hpath.2.1] at hgone
        exact h.alive y (by simp) hgone
    have hlink : (s.next s.head ≠ 0) = True := eq_true hnext
    simp only [listRemoveFront, State.dropFront, State.kfree, State.setPrev, State.deref, hhead,
      hfirst, hnext, hsecond, hlink, or_self, if_false, if_true]

/-- `list_remove_back` is `list_remove_front` mirrored, and `list_pop` does the same to
the list. -/
theorem listRemoveBack_eq (h : s.head = 0 ↔ s.tail = 0) :
    (listRemoveBack s).2 = (listRemoveFront s.mirror).2.mirror := by
  by_cases hhead : s.head = 0
  · have htail : s.mirror.head = 0 := h.mp hhead
    rw [listRemoveBack, if_pos hhead, listRemoveFront, if_pos htail]
    rfl
  · have htail : s.tail ≠ 0 := fun h0 => hhead (h.mpr h0)
    by_cases hprev : s.prev s.tail = 0
    · have hskip : ((0 : ℕ) ≠ 0) = False := eq_false fun h0 => h0 rfl
      simp only [listRemoveBack, listRemoveFront, State.mirror, State.deref, State.kfree, hhead,
        htail, hprev, hskip, if_false]
    · have hlink : (s.prev s.tail ≠ 0) = True := eq_true hprev
      simp only [listRemoveBack, listRemoveFront, State.mirror, State.deref, State.kfree,
        State.setPrev, State.setNext, hhead, htail, hlink, if_false, if_true]

theorem listPop_eq (s : State) : (listPop s).2 = (listRemoveBack s).2 := by
  by_cases hhead : s.head = 0
  · simp only [listPop, listRemoveBack, hhead, if_true]
  · by_cases hprev : s.prev s.tail = 0
    · have hskip : ((0 : ℕ) ≠ 0) = False := eq_false fun h0 => h0 rfl
      simp only [listPop, listRemoveBack, State.deref, State.kfree, hhead, hprev, hskip, if_false]
    · have hlink : (s.prev s.tail ≠ 0) = True := eq_true hprev
      simp only [listPop, listRemoveBack, State.deref, State.kfree, State.setNext, hhead, hlink,
        if_false, if_true]

theorem exists_between {x : ℕ} (h : ListInv s xs) (hx : x ∈ xs) (hhead : s.head ≠ x)
    (htail : s.tail ≠ x) : ∃ as p q bs, xs = as ++ p :: x :: q :: bs := by
  obtain ⟨as, bs, rfl⟩ := List.append_of_mem hx
  rcases List.eq_nil_or_concat' as with rfl | ⟨as, p, rfl⟩
  · exact absurd h.forward.1 hhead
  · cases bs with
    | nil =>
      have hback := h.backward
      rw [List.reverse_append, List.reverse_singleton] at hback
      exact absurd hback.1 htail
    | cons q bs => exact ⟨as, p, q, bs, by simp⟩

theorem ListInv.removeNode_between_eq {as bs : List ℕ} {p x q : ℕ}
    (h : ListInv s (as ++ p :: x :: q :: bs)) (hhead : s.head ≠ x) (htail : s.tail ≠ x) :
    listRemoveNode s x = (s.val x, s.unlink x) := by
  obtain ⟨hnx, hpx⟩ := h.neighbours
  have hok : ∀ z ∈ as ++ p :: x :: q :: bs, (z = 0 ∨ z ∈ s.gone) = False := fun z hz =>
    eq_false fun hor => hor.elim (h.addr z hz).1 (h.alive z hz)
  have hx := hok x (by simp)
  have hq := hok q (by simp)
  have hp := hok p (by simp)
  have hqx : q ≠ x := by
    have hnodup := h.nodup
    simp only [List.nodup_append, List.nodup_cons, List.mem_cons, not_or] at hnodup
    exact fun hqx => hnodup.2.1.2.1.1 hqx.symm
  simp only [listRemoveNode, State.unlink, State.kfree, State.setPrev, State.setNext, State.deref,
    hhead, htail, hx, hnx, hpx, hq, Function.update_of_ne (Ne.symm hqx), hp, if_false]

theorem listInsertFront_val (s : State) (t v : ℕ) :
    (listInsertFront s t v).2.val = Function.update (Function.update s.val t 0) t v := by
  by_cases hhead : s.head = 0
  · simp only [listInsertFront, State.setPrev, State.setNext, State.setVal, State.deref,
      State.kcalloc, hhead, if_true]
  · simp only [listInsertFront, State.setPrev, State.setNext, State.setVal, State.deref,
      State.kcalloc, hhead, if_false]

/-- Also on an empty list the links come out right, although `NULL` is written through. -/
theorem ListInv.insertFront (h : ListInv s xs) {t : ℕ} (v : ℕ) (ht0 : t ≠ 0) (ht : t < 4294967296)
    (htx : t ∉ xs) : ListInv (listInsertFront s t v).2 (t :: xs) := by
  by_cases hhead : s.head = 0
  · obtain rfl := h.head_eq_zero.mp hhead
    have hgone := notMem_filter_ne s.gone t
    simp only [listInsertFront, State.setPrev, State.setNext, State.setVal, State.deref,
      State.kcalloc, hhead, if_true]
    refine ⟨⟨rfl, ?_⟩, ⟨rfl, ?_⟩, List.nodup_singleton t, ?_, ?_, ?_⟩
    · exact Function.update_self t 0 _
    · show Function.update (Function.update s.prev t 0) 0 t t = 0
      rw [Function.update_of_ne ht0, Function.update_self]
    · intro x hx
      rw [List.mem_singleton.mp hx]
      exact ⟨ht0, ht⟩
    · show wrap32 (s.size + 1) = 1
      rw [h.size]
      exact wrap32_of_lt (by decide)
    · intro x hx
      rw [List.mem_singleton.mp hx]
      exact hgone
  · rw [h.insertFront_eq v ht0 hhead]
    have happ := (h.mirror.append v ht0 ht (by rwa [List.mem_reverse])).mirror
    rwa [List.reverse_append, List.reverse_reverse, List.reverse_singleton] at happ

theorem listRemoveFront_val (s : State) : (listRemoveFront s).2.val = s.val := by
  by_cases hhead : s.head = 0
  · rw [listRemoveFront, if_pos hhead]
  · simp only [listRemoveFront, if_neg hhead, State.kfree]
    split <;> rfl

theorem listRemoveBack_val (s : State) : (listRemoveBack s).2.val = s.val := by
  by_cases hhead : s.head = 0
  · rw [listRemoveBack, if_pos hhead]
  · simp only [listRemoveBack, if_neg hhead, State.kfree]
    split <;> rfl

theorem listRemoveNode_val (s : State) (node : ℕ) : (listRemoveNode s node).2.val = s.val := by
  simp only [listRemoveNode]
  split_ifs
  · exact listRemoveFront_val _
  · exact listRemoveBack_val _
  · rfl

theorem ListInv.deref_eq (h : ListInv s xs) {x : ℕ} (hx : x ∈ xs) : s.deref x = s := by
  have hok : ¬ (x = 0 ∨ x ∈ s.gone) := fun hor => hor.elim (h.addr x hx).1 (h.alive x hx)
  rw [State.deref, if_neg hok]

/-- Removing a node that is not the only one takes it out of the list. -/
theorem ListInv.removeNode {as bs : List ℕ} {x : ℕ} (h : ListInv s (as ++ x :: bs))
    (hne : as ++ bs ≠ []) : ListInv (listRemoveNode s x).2 (as ++ bs) := by
  have hderef := h.deref_eq (x := x) (by simp)
  have hx0 := (h.addr x (by simp)).1
  match as, bs, h, hne with
  | [], [], _, hne => exact absurd rfl hne
  | [], y :: ys, h, _ =>
    have hhead : s.head = x := h.forward.1
    have hhead0 : s.head ≠ 0 := by rwa [hhead]
    simp only [listRemoveNode, hderef, if_pos hhead, h.removeFront_eq hhead0]
    exact h.dropFront
  | a :: as, [], h, _ =>
    have hhead : s.head ≠ x := by
      rw [h.forward.1]
      rintro rfl
      exact absurd h.nodup (by simp)
    have htail : s.tail = x := by
      have hback := h.backward
      rw [List.reverse_append, List.reverse_singleton] at hback
      exact hback.1
    have hends : s.head = 0 ↔ s.tail = 0 := h.head_eq_zero.trans h.tail_eq_zero.symm
    have hmhead : s.mirror.head ≠ 0 := by
      show s.tail ≠ 0
      rwa [htail]
    -- the last node is the first one of the mirrored list, which has another one
    have hmirror : ListInv s.mirror (x :: (a :: as).reverse) := by
      have hm := h.mirror
      rwa [List.reverse_append, List.reverse_singleton] at hm
    obtain ⟨y, ys, hys⟩ : ∃ y ys, (a :: as).reverse = y :: ys :=
      List.exists_cons_of_ne_nil (by simp)
    rw [hys] at hmirror
    have hdrop := hmirror.dropFront.mirror
    rw [← hys, List.reverse_reverse] at hdrop
    simp only [listRemoveNode, hderef, if_neg hhead, if_pos htail, listRemoveBack_eq hends,
      hmirror.removeFront_eq hmhead, List.append_nil]
    exact hdrop
  | a :: as, q :: bs, h, _ =>
    have hhead : s.head ≠ x := by
      rw [h.forward.1]
      rintro rfl
      exact absurd h.nodup (by simp)
    have htail : s.tail ≠ x := by
      intro htx
      obtain ⟨y, ys, hys⟩ : ∃ y ys, (q :: bs).reverse = y :: ys :=
        List.exists_cons_of_ne_nil (by simp)
      have hback := h.backward
      rw [List.reverse_append, List.reverse_cons, hys] at hback
      have hyx : y = x := hback.1.symm.trans htx
      have hmem : x ∈ q :: bs := by
        rw [← List.mem_reverse, hys, hyx]
        exact List.mem_cons_self
      have hnodup := (List.nodup_append.mp h.nodup).2.1
      exact (List.nodup_cons.mp hnodup).1 hmem
    obtain ⟨as', p, hp⟩ := (List.eq_nil_or_concat' (a :: as)).resolve_left (List.cons_ne_nil a as)
    rw [hp, List.append_assoc] at h ⊢
    rw [h.removeNode_between_eq hhead htail]
    exact h.unlink

end Operations

/-- The nodes met from the head on, as many as the list counts. -/
def nodes (s : State) : List ℕ := follow s.next 0 s.size s.head

/-- A node comes from an allocation at `t`; a node to be removed is one of the list. -/
inductive Op
  | insertFront (t v : ℕ)
  | insertBack (t v : ℕ)
  | push (t v : ℕ)
  | enqueue (t v : ℕ)
  | removeFront
  | removeBack
  | removeNode (node : ℕ)
  | pop
  | dequeue

/-- The allocation succeeds with a node that the list does not have. -/
def Fresh (s : State) (t : ℕ) : Prop := t ≠ 0 ∧ t < 4294967296 ∧ t ∉ nodes s

instance (s : State) (t : ℕ) : Decidable (Fresh s t) :=
  inferInstanceAs (Decidable (_ ∧ _))

def listStep (s : State) : Op → Option State
  | .insertFront t v => if Fresh s t then some (listInsertFront s t v).2 else none
  | .insertBack t v => if Fresh s t then some (listInsertBack s t v) else none
  | .push t v => if Fresh s t then some (listPush s t v) else none
  | .enqueue t v => if Fresh s t then some (listEnqueue s t v) else none
  | .removeFront => some (listRemoveFront s).2
  | .removeBack => some (listRemoveBack s).2
  | .removeNode node => if node ∈ nodes s then some (listRemoveNode s node).2 else none
  | .pop => some (listPop s).2
  | .dequeue => some (listDequeue s).2

def Inside (s : State) : Op → Prop
  | .insertFront _ _ | .enqueue _ _ => s.head ≠ 0
  | .insertBack _ _ | .push _ _ => True
  | .removeFront | .removeBack | .removeNode _ | .pop | .dequeue => s.size ≠ 1

section Steps

variable {s : State} {xs : List ℕ}

theorem ListInv.nodes_eq (h : ListInv s xs) : nodes s = xs := by
  rw [nodes, h.size]
  exact h.forward.follow_eq h.zero_notMem

theorem ListInv.fresh_iff (h : ListInv s xs) {t : ℕ} :
    Fresh s t ↔ t ≠ 0 ∧ t < 4294967296 ∧ t ∉ xs := by
  rw [Fresh, h.nodes_eq]

theorem WellFormed.insertBack (h : WellFormed s) {t : ℕ} (v : ℕ) (ht : Fresh s t) :
    WellFormed (listInsertBack s t v) := by
  obtain ⟨hfaults, xs, hi⟩ := h
  obtain ⟨ht0, htlt, htx⟩ := hi.fresh_iff.mp ht
  rw [hi.insertBack_eq v ht0]
  exact ⟨hfaults, _, hi.append v ht0 htlt htx⟩

theorem WellFormed.insertFront_iff (h : WellFormed s) {t : ℕ} (v : ℕ) (ht : Fresh s t) :
    WellFormed (listInsertFront s t v).2 ↔ s.head ≠ 0 := by
  obtain ⟨hfaults, xs, hi⟩ := h
  constructor
  · rintro ⟨hnone, -⟩ hhead
    -- the write through `NULL` is recorded, and records are never dropped
    have hkeep : ∀ (u : State) (a : ℕ), u.faults ≠ [] → (u.deref a).faults ≠ [] := by
      intro u a hu
      rw [State.deref]
      split_ifs
      · exact List.cons_ne_nil a u.faults
      · exact hu
    have hnull : ((s.kcalloc t).deref 0).faults ≠ [] := by
      simp [State.deref]
    have hafter := hkeep _ t (hkeep _ t hnull)
    simp only [listInsertFront, State.setPrev, State.setNext, State.setVal, State.deref,
      State.kcalloc, hhead, if_true] at hnone hafter
    exact hafter hnone
  · intro hhead
    obtain ⟨ht0, htlt, htx⟩ := hi.fresh_iff.mp ht
    have hkept := hi.insertFront v ht0 htlt htx
    rw [hi.insertFront_eq v ht0 hhead] at hkept ⊢
    exact ⟨hfaults, t :: xs, hkept⟩

theorem WellFormed.removeFront_iff (h : WellFormed s) :
    WellFormed (listRemoveFront s).2 ↔ s.size ≠ 1 := by
  obtain ⟨hfaults, xs, hi⟩ := h
  rw [hi.size]
  by_cases hhead : s.head = 0
  · have hxs := hi.head_eq_zero.mp hhead
    rw [listRemoveFront, if_pos hhead, hxs]
    exact iff_of_true ⟨hfaults, xs, hi⟩ (by decide)
  · rw [hi.removeFront_eq hhead]
    match xs, hi with
    | [], hi => exact absurd hi.forward hhead
    | [x], hi => exact iff_of_false (fun ⟨_, ys, hys⟩ => hi.dropFront_single ys hys) fun h => h rfl
    | x :: y :: ys, hi =>
      refine iff_of_true ⟨hfaults, _, hi.dropFront⟩ ?_
      rw [List.length_cons, List.length_cons]
      omega

theorem WellFormed.mirror (h : WellFormed s) : WellFormed s.mirror := by
  obtain ⟨hfaults, xs, hi⟩ := h
  exact ⟨hfaults, xs.reverse, hi.mirror⟩

theorem WellFormed.removeBack_iff (h : WellFormed s) :
    WellFormed (listRemoveBack s).2 ↔ s.size ≠ 1 := by
  obtain ⟨hfaults, xs, hi⟩ := h
  have hends : s.head = 0 ↔ s.tail = 0 := hi.head_eq_zero.trans hi.tail_eq_zero.symm
  rw [listRemoveBack_eq hends]
  have hmirror := WellFormed.removeFront_iff (s := s.mirror) ⟨hfaults, _, hi.mirror⟩
  exact ⟨fun hw => hmirror.mp hw.mirror, fun h1 => (hmirror.mpr h1).mirror⟩

theorem WellFormed.removeNode_iff (h : WellFormed s) {node : ℕ} (hnode : node ∈ nodes s) :
    WellFormed (listRemoveNode s node).2 ↔ s.size ≠ 1 := by
  obtain ⟨hfaults, xs, hi⟩ := h
  rw [hi.nodes_eq] at hnode
  have hderef := hi.deref_eq hnode
  by_cases hhead : s.head = node
  · have heq : listRemoveNode s node = listRemoveFront s := by
      simp only [listRemoveNode, hderef, if_pos hhead]
    rw [heq]
    exact WellFormed.removeFront_iff ⟨hfaults, xs, hi⟩
  · by_cases htail : s.tail = node
    · have heq : listRemoveNode s node = listRemoveBack s := by
        simp only [listRemoveNode, hderef, if_neg hhead, if_pos htail]
      rw [heq]
      exact WellFormed.removeBack_iff ⟨hfaults, xs, hi⟩
    · obtain ⟨as, p, q, bs, rfl⟩ := exists_between hi hnode hhead htail
      rw [hi.removeNode_between_eq hhead htail]
      refine iff_of_true ⟨hfaults, _, hi.unlink⟩ ?_
      rw [hi.size, List.length_append, List.length_cons, List.length_cons]
      omega

theorem listStep_wellFormed_iff {t : State} {op : Op} (h : WellFormed s)
    (hstep : listStep s op = some t) : WellFormed t ↔ Inside s op := by
  cases op with
  | insertFront a v =>
    rw [listStep] at hstep
    split_ifs at hstep with ha
    cases hstep
    exact h.insertFront_iff v ha
  | insertBack a v =>
    rw [listStep] at hstep
    split_ifs at hstep with ha
    cases hstep
    exact iff_of_true (h.insertBack v ha) trivial
  | push a v =>
    rw [listStep] at hstep
    split_ifs at hstep with ha
    cases hstep
    exact iff_of_true (h.insertBack v ha) trivial
  | enqueue a v =>
    rw [listStep] at hstep
    split_ifs at hstep with ha
    cases hstep
    exact h.insertFront_iff v ha
  | removeFront =>
    cases hstep
    exact h.removeFront_iff
  | removeBack =>
    cases hstep
    exact h.removeBack_iff
  | removeNode node =>
    rw [listStep] at hstep
    split_ifs at hstep with hnode
    cases hstep
    exact h.removeNode_iff hnode
  | pop =>
    cases hstep
    rw [listPop_eq]
    exact h.removeBack_iff
  | dequeue =>
    cases hstep
    rw [listDequeue, listPop_eq]
    exact h.removeBack_iff

end Steps

theorem wellFormed_listCreate (prev next val : ℕ → ℕ) : WellFormed (listCreate prev next val) :=
  ⟨rfl, [], rfl, rfl, List.nodup_nil, fun _ hx => absurd hx List.not_mem_nil, rfl,
    fun _ hx => absurd hx List.not_mem_nil⟩

/-- From `list_create` on, every state of a run is well formed exactly when every operation
of the run stays inside the boundaries. -/
theorem wellFormed_run_iff (prev next val : ℕ → ℕ) (ops : List Op) :
    Always listStep WellFormed (listCreate prev next val) ops ↔
      Steps listStep Inside (listCreate prev next val) ops :=
  always_iff_steps (I := fun _ => True) (fun _ _ _ _ _ _ _ => trivial)
    (fun _ _ _ _ h hstep => listStep_wellFormed_iff h hstep) trivial
    (wellFormed_listCreate prev next val) ops

/-- One node is pushed and removed again: the tail still points to it. -/
theorem push_removeFront_not_wellFormed :
    ¬ Always listStep WellFormed (listCreate (fun _ => 0) (fun _ => 0) fun _ => 0)
      [.push 4096 7, .removeFront] := by
  intro h
  obtain ⟨-, xs, hi⟩ := ((h.2 _ rfl).2 _ rfl).head
  have hempty := hi.head_eq_zero.mp rfl
  have htail := hi.tail_eq_zero.mpr hempty
  exact absurd htail (by decide)

end Unos.DList
