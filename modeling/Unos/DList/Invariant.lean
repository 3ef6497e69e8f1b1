import Mathlib.Data.Finset.Card
import Mathlib.Order.Interval.Finset.Nat
import Unos.Library.Runs
import Unos.DList.Model

namespace Unos.DList

open Unos.Words Unos.Links Unos.Runs

/-- The list whose nodes are `xs`, in order. -/
structure ListInv (s : State) (xs : List ℕ) : Prop where
  forward : Path s.next s.head xs 0
  backward : Path s.prev s.tail xs.reverse 0
  nodup : xs.Nodup
  addr : ∀ x ∈ xs, x ≠ 0 ∧ x < 4294967296
  size : s.size = xs.length
  alive : ∀ x ∈ xs, x ∉ s.gone

/-- The links represent some list, and no operation so far followed `NULL` or a node that
was gone. -/
def WellFormed (s : State) : Prop := s.faults = [] ∧ ∃ xs, ListInv s xs

def State.mirror (s : State) : State :=
  { s with head := s.tail, tail := s.head, prev := s.next, next := s.prev }

section Facts

variable {s : State} {xs : List ℕ}

theorem ListInv.mirror (h : ListInv s xs) : ListInv s.mirror xs.reverse where
  forward := h.backward
  backward := by
    rw [List.reverse_reverse]
    exact h.forward
  nodup := List.nodup_reverse.mpr h.nodup
  addr x hx := h.addr x (List.mem_reverse.mp hx)
  size := by
    rw [List.length_reverse]
    exact h.size
  alive x hx := h.alive x (List.mem_reverse.mp hx)

theorem ListInv.zero_notMem (h : ListInv s xs) : 0 ∉ xs := fun h0 => (h.addr 0 h0).1 rfl

theorem ListInv.head_eq_zero (h : ListInv s xs) : s.head = 0 ↔ xs = [] := by
  cases xs with
  | nil => exact iff_of_true h.forward rfl
  | cons x xs =>
    have hx := (h.addr x List.mem_cons_self).1
    rw [h.forward.1]
    exact iff_of_false hx (List.cons_ne_nil x xs)

theorem ListInv.tail_eq_zero (h : ListInv s xs) : s.tail = 0 ↔ xs = [] :=
  h.mirror.head_eq_zero.trans List.reverse_eq_nil_iff

theorem length_lt_of_nodup {xs : List ℕ} (hnodup : xs.Nodup)
    (haddr : ∀ x ∈ xs, x ≠ 0 ∧ x < 4294967296) : xs.length < 4294967296 := by
  have hsub : xs.toFinset ⊆ Finset.Ico 1 4294967296 := by
    intro x hx
    have hx' := haddr x (List.mem_toFinset.mp hx)
    exact Finset.mem_Ico.mpr ⟨Nat.pos_of_ne_zero hx'.1, hx'.2⟩
  have hcard := Finset.card_le_card hsub
  rw [List.toFinset_card_of_nodup hnodup, Nat.card_Ico] at hcard
  omega

theorem ListInv.length_lt (h : ListInv s xs) : xs.length < 4294967296 :=
  length_lt_of_nodup h.nodup h.addr

/-- Only one list is represented. -/
theorem ListInv.unique {ys : List ℕ} (hx : ListInv s xs) (hy : ListInv s ys) : xs = ys :=
  hx.forward.unique hy.forward hx.zero_notMem hy.zero_notMem

/-- The links of a node between two others. -/
theorem ListInv.neighbours {as bs : List ℕ} {p x q : ℕ} (h : ListInv s (as ++ p :: x :: q :: bs)) :
    s.next x = q ∧ s.prev x = p := by
  have hfor := h.forward
  have hback := h.backward
  rw [path_append_cons] at hfor
  rw [show (as ++ p :: x :: q :: bs).reverse = (bs.reverse ++ [q]) ++ x :: p :: as.reverse by simp,
    path_append_cons] at hback
  exact ⟨hfor.2.2.1, hback.2.1⟩

end Facts

/-- Node `t` is added at the back. -/
def State.append (s : State) (t v : ℕ) : State :=
  { s with
    head := if s.head = 0 then t else s.head
    tail := t
    size := wrap32 (s.size + 1)
    prev := Function.update (Function.update s.prev t 0) t s.tail
    next := if s.tail ≠ 0 then Function.update (Function.update s.next t 0) s.tail t
      else Function.update s.next t 0
    val := Function.update (Function.update s.val t 0) t v
    gone := s.gone.filter fun a => a ≠ t }

def State.dropFront (s : State) : State :=
  { s with
    head := s.next s.head
    size := sub32 s.size 1
    prev := if s.next s.head ≠ 0 then Function.update s.prev (s.next s.head) 0 else s.prev
    gone := s.head :: s.gone }

def State.unlink (s : State) (x : ℕ) : State :=
  { s with
    size := sub32 s.size 1
    prev := Function.update s.prev (s.next x) (s.prev x)
    next := Function.update s.next (s.prev x) (s.next x)
    gone := x :: s.gone }

section Edits

variable {s : State} {xs : List ℕ}

theorem ListInv.append (h : ListInv s xs) {t : ℕ} (v : ℕ) (ht0 : t ≠ 0) (ht : t < 4294967296)
    (htx : t ∉ xs) : ListInv (s.append t v) (xs ++ [t]) := by
  have hnext : Path (Function.update s.next t 0) s.head xs 0 := h.forward.update htx 0
  have hprev : Path (Function.update (Function.update s.prev t 0) t s.tail) s.tail xs.reverse 0 :=
    (h.backward.update (by rwa [List.mem_reverse]) 0).update (by rwa [List.mem_reverse]) s.tail
  have hnodup : (xs ++ [t]).Nodup :=
    List.nodup_append.mpr ⟨h.nodup, List.nodup_singleton t, by
      intro x hx y hy hxy
      rw [hxy, List.mem_singleton.mp hy] at hx
      exact htx hx⟩
  have haddr : ∀ x ∈ xs ++ [t], x ≠ 0 ∧ x < 4294967296 := by
    intro x hx
    rcases List.mem_append.mp hx with hx | hx
    · exact h.addr x hx
    · rw [List.mem_singleton.mp hx]
      exact ⟨ht0, ht⟩
  have halive : ∀ x ∈ xs ++ [t], x ∉ s.gone.filter fun a => a ≠ t := by
    intro x hx hgone
    obtain ⟨hmem, hne⟩ := List.mem_filter.mp hgone
    rcases List.mem_append.mp hx with hx | hx
    · exact h.alive x hx hmem
    · exact absurd (List.mem_singleton.mp hx) (of_decide_eq_true hne)
  refine ⟨?_, ?_, hnodup, haddr, ?_, halive⟩
  · rcases List.eq_nil_or_concat' xs with rfl | ⟨ys, y, rfl⟩
    · -- the first node of an empty list
      have hhead : s.head = 0 := h.head_eq_zero.mpr rfl
      have htail : s.tail = 0 := h.tail_eq_zero.mpr rfl
      simp only [State.append, if_pos hhead, htail, ne_eq, not_true_eq_false, if_false]
      exact ⟨rfl, Function.update_self t 0 s.next⟩
    · have hhead : s.head ≠ 0 := fun h0 => by simpa using h.head_eq_zero.mp h0
      have hty : s.tail = y := by
        have hback := h.backward
        rw [List.reverse_append, List.reverse_singleton] at hback
        exact hback.1
      have hy0 : y ≠ 0 := (h.addr y (by simp)).1
      have hyt : y ≠ t := fun hyt => htx (hyt ▸ by simp)
      have hyys : y ∉ ys := fun hy => by
        have hdisj := (List.nodup_append.mp h.nodup).2.2
        exact hdisj y hy y List.mem_cons_self rfl
      simp only [State.append, if_neg hhead, hty, if_pos hy0]
      rw [path_concat, Function.update_of_ne (Ne.symm hyt), Function.update_self]
      exact ⟨hnext.redirect hyys t, rfl⟩
  · rw [List.reverse_append, List.reverse_singleton]
    refine ⟨rfl, ?_⟩
    simp only [State.append, Function.update_self]
    exact hprev
  · have hnew := length_lt_of_nodup hnodup haddr
    rw [List.length_append, List.length_singleton] at hnew ⊢
    simp only [State.append, h.size]
    exact wrap32_of_lt hnew

theorem ListInv.dropFront {x y : ℕ} {ys : List ℕ} (h : ListInv s (x :: y :: ys)) :
    ListInv s.dropFront (y :: ys) := by
  have hlen := h.length_lt
  have hnodup := (List.nodup_cons.mp h.nodup)
  have hx : s.head = x := h.forward.1
  have hrest : Path s.next (s.next x) (y :: ys) 0 := h.forward.2
  have hy : s.next x = y := hrest.1
  have hy0 : y ≠ 0 := (h.addr y (by simp)).1
  have hyys : y ∉ ys := (List.nodup_cons.mp hnodup.2).1
  have hback : Path s.prev s.tail (ys.reverse ++ [y]) x := by
    have hall := h.backward
    rw [List.reverse_cons, path_concat, List.reverse_cons] at hall
    exact hall.1
  refine ⟨?_, ?_, hnodup.2, fun z hz => h.addr z (List.mem_cons_of_mem x hz), ?_, ?_⟩
  · simp only [State.dropFront, hx]
    exact hrest
  · simp only [State.dropFront, hx, hy, if_pos hy0]
    rw [List.reverse_cons]
    exact hback.redirect (by rwa [List.mem_reverse]) 0
  · rw [List.length_cons] at hlen
    simp only [State.dropFront, h.size, List.length_cons]
    rw [sub32_of_le (by omega) (by simpa using hlen)]
    rfl
  · intro z hz hgone
    simp only [State.dropFront, hx] at hgone
    rcases List.mem_cons.mp hgone with hzx | hgone
    · exact hnodup.1 (hzx ▸ hz)
    · exact h.alive z (List.mem_cons_of_mem x hz) hgone

theorem ListInv.dropFront_single {x : ℕ} (h : ListInv s [x]) (ys : List ℕ) :
    ¬ ListInv s.dropFront ys := by
  intro hys
  have hx0 := (h.addr x List.mem_cons_self).1
  have hhead : s.dropFront.head = 0 := by
    have hpath := h.forward
    simp only [State.dropFront, hpath.1]
    exact hpath.2
  have htail : s.dropFront.tail = x := h.backward.1
  rw [hys.head_eq_zero.mp hhead] at hys
  exact hx0 (htail.symm.trans (hys.tail_eq_zero.mpr rfl))

theorem ListInv.unlink {p x q : ℕ} {as bs : List ℕ} (h : ListInv s (as ++ p :: x :: q :: bs)) :
    ListInv (s.unlink x) (as ++ p :: q :: bs) := by
  have hlen := h.length_lt
  have hmem : ∀ z, z ∈ as ++ p :: q :: bs → z ∈ as ++ p :: x :: q :: bs := by
    exact (((List.sublist_cons_self x _).cons_cons p).append_left as).subset
  have hnodup := h.nodup
  simp only [List.nodup_append, List.nodup_cons, List.mem_cons, not_or] at hnodup
  obtain ⟨has, ⟨⟨hpx, hpq, hpbs⟩, ⟨hxq, hxbs⟩, hqbs, hbs⟩, hdisj⟩ := hnodup
  obtain ⟨hnx, hpx'⟩ := h.neighbours
  have hback := h.backward
  rw [show (as ++ p :: x :: q :: bs).reverse = bs.reverse ++ q :: x :: p :: as.reverse by simp]
    at hback
  have hpas : p ∉ as := fun hp => hdisj p hp p (Or.inl rfl) rfl
  have hnew : (as ++ p :: q :: bs).Nodup := by
    refine List.nodup_append.mpr ⟨has, ?_, fun z hz w hw => hdisj z hz w ?_⟩
    · exact List.nodup_cons.mpr ⟨by simp [hpq, hpbs], List.nodup_cons.mpr ⟨hqbs, hbs⟩⟩
    · simp only [List.mem_cons] at hw
      tauto
  refine ⟨?_, ?_, hnew, fun z hz => h.addr z (hmem z hz), ?_, ?_⟩
  · simp only [State.unlink, hpx']
    exact h.forward.bypass hpas (by simp [hpq, hpbs])
  · simp only [State.unlink, hnx]
    rw [show (as ++ p :: q :: bs).reverse = bs.reverse ++ q :: p :: as.reverse by simp]
    refine hback.bypass (by rwa [List.mem_reverse]) ?_
    rw [List.mem_cons, List.mem_reverse]
    rintro (hqp | hqas)
    · exact hpq hqp.symm
    · exact hdisj q hqas q (by simp) rfl
  · simp only [State.unlink, h.size]
    rw [sub32_of_le (by rw [List.length_append, List.length_cons]; omega) hlen]
    simp only [List.length_append, List.length_cons]
    omega
  · intro z hz hgone
    simp only [State.unlink] at hgone
    rcases List.mem_cons.mp hgone with rfl | hgone
    · rcases List.mem_append.mp hz with hz | hz
      · exact hdisj z hz z (by simp) rfl
      · simp only [List.mem_cons] at hz
        rcases hz with hzp | hzq | hzbs
        · exact hpx hzp.symm
        · exact hxq hzq
        · exact hxbs hzbs
    · exact h.alive z (hmem z hz) hgone

end Edits

end Unos.DList
