import Unos.DList.Operations

namespace Unos.DList

open Unos.Words Unos.Links Unos.Runs

section Frames

variable {s r : State} {xs as bs : List ℕ} {x : ℕ}

/-- Only the links of the nodes matter, and the fields of the list. -/
theorem ListInv.congr (h : ListInv s xs) (hhead : r.head = s.head) (htail : r.tail = s.tail)
    (hsize : r.size = s.size) (hnext : ∀ x ∈ xs, r.next x = s.next x)
    (hprev : ∀ x ∈ xs, r.prev x = s.prev x) (hgone : ∀ x ∈ xs, x ∈ r.gone → x ∈ s.gone) :
    ListInv r xs where
  forward := hhead ▸ h.forward.congr hnext
  backward := htail ▸ h.backward.congr fun x hx => hprev x (List.mem_reverse.mp hx)
  nodup := h.nodup
  addr := h.addr
  size := hsize.trans h.size
  alive x hx hr := h.alive x hx (hgone x hx hr)

theorem ListInv.prev_head (h : ListInv s (x :: xs)) : s.prev x = 0 := by
  have hback := h.backward
  rw [List.reverse_cons, path_concat] at hback
  exact hback.2

/-- The back link of the first node is set to `e`. -/
def State.withPrev (s : State) (e : ℕ) : State :=
  { s with prev := Function.update s.prev s.head e }

theorem State.withPrev_self (s : State) : s.withPrev (s.prev s.head) = s := by
  rw [State.withPrev, Function.update_eq_self]

theorem State.withPrev_withPrev (s : State) (d e : ℕ) :
    (s.withPrev d).withPrev e = s.withPrev e := by
  simp only [State.withPrev, Function.update_idem]

theorem ListInv.removeNode_withPrev (h : ListInv s xs) (hx : x ∈ xs) (hhead : s.head ≠ x) (e : ℕ) :
    (listRemoveNode (s.withPrev e) x).2 = (listRemoveNode s x).2.withPrev e := by
  have hok : (x = 0 ∨ x ∈ s.gone) = False :=
    eq_false fun hor => hor.elim (h.addr x hx).1 (h.alive x hx)
  have hhead0 : s.head ≠ 0 := fun h0 => by
    rw [h.head_eq_zero.mp h0] at hx
    exact absurd hx List.not_mem_nil
  have hpx : Function.update s.prev s.head e x = s.prev x :=
    Function.update_of_ne (Ne.symm hhead) e s.prev
  by_cases htail : s.tail = x
  · simp only [listRemoveNode, listRemoveBack, State.withPrev, State.deref, State.kfree,
      State.setNext, hok, hhead, htail, hhead0, hpx, if_false, if_true]
    split_ifs <;> rfl
  · obtain ⟨as, p, q, bs, rfl⟩ := exists_between h hx hhead htail
    have hfor := h.forward
    rw [path_append_cons] at hfor
    have hnx := h.neighbours.1
    have hnodup := h.nodup
    have hqx : x ≠ q := by
      simp only [List.nodup_append, List.nodup_cons, List.mem_cons, not_or] at hnodup
      exact hnodup.2.1.2.1.1
    -- the node behind `x` is not the first one
    have hqh : q ≠ s.head := by
      rintro rfl
      cases as with
      | nil =>
        rw [hfor.1] at hnodup
        simp at hnodup
      | cons a as =>
        rw [hfor.1.1] at hnodup
        simp at hnodup
    simp only [listRemoveNode, State.withPrev, State.deref, State.kfree, State.setPrev,
      State.setNext, hok, hhead, htail, hpx, hnx, Function.update_of_ne hqx, if_false]
    rw [Function.update_comm hqh]

/-- The first node points back to `t`, and `t` to it: then `t` can be made the first node. -/
theorem ListInv.push {t : ℕ} (h : ListInv (s.withPrev 0) xs) (hx : x ∈ xs)
    (hprev : s.prev s.head = t) (hnext : s.next t = s.head) (ht0 : t ≠ 0) (htlt : t < 4294967296)
    (htx : t ∉ xs) (htgone : t ∉ s.gone) :
    ListInv { State.withPrev { s with head := t } 0 with size := s.size + 1 } (t :: xs) := by
  have hback : Path s.prev s.tail xs.reverse t := by
    have hold := h.backward
    have hnodup := h.nodup
    match xs, h, hx with
    | y :: ys, h, _ =>
      have hy : s.head = y := h.forward.1
      rw [List.reverse_cons] at hold ⊢
      have hyys : y ∉ ys.reverse := by
        rw [List.mem_reverse]
        exact (List.nodup_cons.mp hnodup).1
      -- with the half link the list is as it is
      have hsame : Function.update (s.withPrev 0).prev y t = s.prev := by
        simp only [State.withPrev, ← hy, Function.update_idem, ← hprev, Function.update_eq_self]
      have hredirect := hold.redirect hyys t
      rwa [hsame] at hredirect
  refine ⟨⟨rfl, ?_⟩, ?_, List.nodup_cons.mpr ⟨htx, h.nodup⟩, ?_, ?_, ?_⟩
  · show Path s.next (s.next t) xs 0
    rw [hnext]
    exact h.forward
  · rw [List.reverse_cons, path_concat]
    refine ⟨hback.update (by rwa [List.mem_reverse]) 0, Function.update_self t 0 s.prev⟩
  · intro z hz
    rcases List.mem_cons.mp hz with rfl | hz
    · exact ⟨ht0, htlt⟩
    · exact h.addr z hz
  · exact congrArg (· + 1) h.size
  · intro z hz
    rcases List.mem_cons.mp hz with rfl | hz
    · exact htgone
    · exact h.alive z hz

/-- What the removal of `x` from the nodes `xs` leaves as it was. -/
structure Removed (s r : State) (xs : List ℕ) (x : ℕ) : Prop where
  prev : ∀ z, z ∉ xs → r.prev z = s.prev z
  next : ∀ z, z ∉ xs → r.next z = s.next z
  head : s.head ≠ x → r.head = s.head
  gone : r.gone = x :: s.gone
  faults : r.faults = s.faults

theorem ListInv.next_mem (h : ListInv s xs) (hx : x ∈ xs) : s.next x = 0 ∨ s.next x ∈ xs := by
  obtain ⟨as, bs, rfl⟩ := List.append_of_mem hx
  have hfor := h.forward
  rw [path_append_cons] at hfor
  cases bs with
  | nil => exact .inl hfor.2
  | cons b bs =>
    have hb : s.next x = b := hfor.2.1
    exact .inr (by simp [hb])

theorem ListInv.removed_dropFront (h : ListInv s xs) (hx : x ∈ xs) (hhead : s.head = x) :
    Removed s s.dropFront xs x where
  prev z hz := by
    show (if s.next s.head ≠ 0 then Function.update s.prev (s.next s.head) 0 else s.prev) z = _
    rw [hhead]
    split_ifs with hnext
    · have hmem := (h.next_mem hx).resolve_left hnext
      exact Function.update_of_ne (fun hzn : z = s.next x => hz (hzn ▸ hmem)) 0 s.prev
    · rfl
  next _ _ := rfl
  head hne := absurd hhead hne
  gone := by rw [← hhead, State.dropFront]
  faults := rfl

theorem ListInv.removeNode_frame (h : ListInv s xs) (hx : x ∈ xs) :
    Removed s (listRemoveNode s x).2 xs x := by
  have hderef := h.deref_eq hx
  have hx0 := (h.addr x hx).1
  by_cases hhead : s.head = x
  · have hhead0 : s.head ≠ 0 := by rwa [hhead]
    have heq : (listRemoveNode s x).2 = s.dropFront := by
      simp only [listRemoveNode, hderef, if_pos hhead, h.removeFront_eq hhead0]
    rw [heq]
    exact h.removed_dropFront hx hhead
  · by_cases htail : s.tail = x
    · -- at the other end it is the same edit, mirrored
      have hends : s.head = 0 ↔ s.tail = 0 := h.head_eq_zero.trans h.tail_eq_zero.symm
      have hmhead : s.mirror.head ≠ 0 := by
        show s.tail ≠ 0
        rwa [htail]
      have heq : (listRemoveNode s x).2 = s.mirror.dropFront.mirror := by
        simp only [listRemoveNode, hderef, if_neg hhead, if_pos htail, listRemoveBack_eq hends,
          h.mirror.removeFront_eq hmhead]
      have hfront := h.mirror.removed_dropFront (List.mem_reverse.mpr hx) htail
      rw [heq]
      exact ⟨fun z hz => hfront.next z (by rwa [List.mem_reverse]),
        fun z hz => hfront.prev z (by rwa [List.mem_reverse]), fun _ => rfl, hfront.gone, rfl⟩
    · obtain ⟨as, p, q, bs, rfl⟩ := exists_between h hx hhead htail
      obtain ⟨hnx, hpx⟩ := h.neighbours
      rw [h.removeNode_between_eq hhead htail]
      refine ⟨fun z hz => ?_, fun z hz => ?_, fun _ => rfl, rfl, rfl⟩
      · have hzq : z ≠ s.next x := by
          rw [hnx]
          rintro rfl
          exact hz (by simp)
        exact Function.update_of_ne hzq _ s.prev
      · have hzp : z ≠ s.prev x := by
          rw [hpx]
          rintro rfl
          exact hz (by simp)
        exact Function.update_of_ne hzp _ s.next

theorem ListInv.removeNode_single (h : ListInv s [x]) : (listRemoveNode s x).2.head = 0 := by
  have hx : s.head = x := h.forward.1
  have hhead : s.head ≠ 0 := by
    rw [hx]
    exact (h.addr x List.mem_cons_self).1
  have hderef : s.deref x = s := h.deref_eq List.mem_cons_self
  simp only [listRemoveNode, hderef, h.removeFront_eq hhead, State.dropFront, hx]
  exact h.forward.2

/-- The removal from a list whose first node may have a wrong back link, when it is not the
first node that goes. -/
theorem ListInv.removeNode_half (h : ListInv (s.withPrev 0) (as ++ x :: bs)) (hne : as ++ bs ≠ [])
    (hhead : s.head = x → s.prev s.head = 0) :
    ListInv ((listRemoveNode s x).2.withPrev 0) (as ++ bs) ∧
      Removed s (listRemoveNode s x).2 (as ++ x :: bs) x ∧
      (s.head ≠ x → (listRemoveNode s x).2.prev s.head = s.prev s.head) ∧
      (s.prev s.head = 0 → (listRemoveNode s x).2.prev (listRemoveNode s x).2.head = 0) := by
  have hx : x ∈ as ++ x :: bs := by simp
  have hrest := h.removeNode hne
  have hframe := h.removeNode_frame hx
  -- the first node that is left has no node in front of it
  have hfront : (listRemoveNode (s.withPrev 0) x).2.prev
      (listRemoveNode (s.withPrev 0) x).2.head = 0 := by
    obtain ⟨y, ys, hys⟩ := List.exists_cons_of_ne_nil hne
    rw [hys] at hrest
    rw [hrest.forward.1]
    exact hrest.prev_head
  by_cases h0 : s.prev s.head = 0
  · have hsame : s.withPrev 0 = s := by
      have hself := s.withPrev_self
      rwa [h0] at hself
    rw [hsame] at hrest hframe hfront
    refine ⟨?_, hframe, fun hsx => ?_, fun _ => hfront⟩
    · have hself := (listRemoveNode s x).2.withPrev_self
      rw [hfront] at hself
      rwa [hself]
    · rw [h0, ← hframe.head hsx, hfront]
  · have hsx : s.head ≠ x := fun hsx => h0 (hhead hsx)
    have hcomm : (listRemoveNode s x).2 =
        (listRemoveNode (s.withPrev 0) x).2.withPrev (s.prev s.head) := by
      rw [← h.removeNode_withPrev hx hsx, State.withPrev_withPrev, State.withPrev_self]
    have hkept : (listRemoveNode (s.withPrev 0) x).2.head = s.head := hframe.head hsx
    refine ⟨?_, ⟨fun z hz => ?_, fun z hz => ?_, fun _ => ?_, ?_, ?_⟩, fun _ => ?_,
      fun hzero => absurd hzero h0⟩
    all_goals rw [hcomm]
    · rw [State.withPrev_withPrev]
      have hself := (listRemoveNode (s.withPrev 0) x).2.withPrev_self
      rw [hfront] at hself
      rwa [hself]
    · have hzs : z ≠ s.head := by
        rintro rfl
        cases as with
        | nil => exact hsx h.forward.1
        | cons a as =>
          have ha : s.head = a := h.forward.1
          exact hz (by simp [ha])
      have hold : (s.withPrev 0).prev z = s.prev z := Function.update_of_ne hzs 0 s.prev
      exact (Function.update_of_ne (hkept ▸ hzs) _ _).trans ((hframe.prev z hz).trans hold)
    · exact hframe.next z hz
    · exact hkept
    · exact hframe.gone
    · exact hframe.faults
    · show Function.update _ (listRemoveNode (s.withPrev 0) x).2.head _ s.head = _
      rw [hkept, Function.update_self]

end Frames

end Unos.DList
