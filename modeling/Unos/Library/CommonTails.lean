import Mathlib.Data.List.Basic
import Mathlib.Data.List.Nodup
import Mathlib.Tactic.Common

namespace Unos.CommonTails

variable {α : Type*} {as bs cs u v xs ys : List α}

def Misses (u v : List α) : Prop := ∀ (i : ℕ) (z : α), u[i]? = some z → v[i]? ≠ some z

theorem misses_of_disjoint (h : as.Disjoint bs) : Misses as bs := fun _ _ ha hb =>
  h (List.mem_of_getElem? ha) (List.mem_of_getElem? hb)

variable [DecidableEq α]

/-- The first entry that two lists have in the same place. -/
def firstMeet : List α → List α → Option α
  | x :: xs, y :: ys => if x = y then some x else firstMeet xs ys
  | _, _ => none

theorem firstMeet_append (hlen : u.length = v.length) (h : Misses u v) (u' v' : List α) :
    firstMeet (u ++ u') (v ++ v') = firstMeet u' v' := by
  induction u generalizing v with
  | nil =>
    rw [List.length_eq_zero_iff.mp hlen.symm]
    rfl
  | cons x u ih =>
    cases v with
    | nil => cases hlen
    | cons y v =>
      have hxy : x ≠ y := fun heq => h 0 x rfl (congrArg some heq.symm)
      rw [List.cons_append, List.cons_append, firstMeet, if_neg hxy]
      exact ih (Nat.succ.inj hlen) fun i z hu hv => h (i + 1) z hu hv

theorem firstMeet_self (cs : List α) : firstMeet cs cs = cs.head? := by
  cases cs with
  | nil => rfl
  | cons c cs => exact if_pos rfl

theorem eq_idxOf {i : ℕ} {z : α} (h : u.Nodup) (hz : u[i]? = some z) : i = u.idxOf z := by
  obtain ⟨hi, rfl⟩ := List.getElem?_eq_some_iff.mp hz
  exact (h.idxOf_getElem i hi).symm

theorem misses_swapped (h : (as ++ (cs ++ bs)).Nodup) (hne : as.length ≠ bs.length)
    (ha : as ++ cs ≠ []) (hb : bs ++ cs ≠ []) : Misses (as ++ (cs ++ bs)) (bs ++ (cs ++ as)) := by
  have hperm : (as ++ (cs ++ bs)).Perm (bs ++ (cs ++ as)) := by
    rw [← List.append_assoc, ← List.append_assoc]
    exact List.perm_append_comm.trans
      (List.perm_append_comm.append_left bs |>.trans (by rw [List.append_assoc]))
  have h' := hperm.nodup_iff.mp h
  intro i z hu hv
  have hfirst := eq_idxOf h hu
  have hsecond := eq_idxOf h' hv
  obtain ⟨-, hcb, hdisjoint⟩ := List.nodup_append'.mp h
  obtain ⟨-, -, hcbd⟩ := List.nodup_append'.mp hcb
  have hlena : 0 < as.length + cs.length := by
    rw [← List.length_append]
    exact List.length_pos_iff.mpr ha
  have hlenb : 0 < bs.length + cs.length := by
    rw [← List.length_append]
    exact List.length_pos_iff.mpr hb
  rcases List.mem_append.mp (List.mem_of_getElem? hu) with hz | hz
  · have hzc : z ∉ cs := fun hc => hdisjoint hz (List.mem_append_left _ hc)
    have hzb : z ∉ bs := fun hb => hdisjoint hz (List.mem_append_right _ hb)
    rw [List.idxOf_append_of_mem hz] at hfirst
    rw [List.idxOf_append_of_notMem hzb, List.idxOf_append_of_notMem hzc] at hsecond
    omega
  · have hza : z ∉ as := fun ha => hdisjoint ha hz
    rw [List.idxOf_append_of_notMem hza] at hfirst
    rcases List.mem_append.mp hz with hzc | hzb
    · have hzb : z ∉ bs := fun hb => hcbd hzc hb
      rw [List.idxOf_append_of_mem hzc] at hfirst
      rw [List.idxOf_append_of_notMem hzb, List.idxOf_append_of_mem hzc] at hsecond
      omega
    · have hzc : z ∉ cs := fun hc => hcbd hc hzb
      rw [List.idxOf_append_of_notMem hzc] at hfirst
      rw [List.idxOf_append_of_mem hzb] at hsecond
      omega

/-- The lists are `as` and `bs` with the common tail `cs`. -/
structure Share (xs ys as bs cs : List α) : Prop where
  left : xs = as ++ cs
  right : ys = bs ++ cs
  nodup : (as ++ (cs ++ bs)).Nodup

theorem Share.find_eq (h : Share xs ys as bs cs) : xs.find? (fun x => x ∈ ys) = cs.head? := by
  obtain ⟨rfl, rfl, hnodup⟩ := h
  obtain ⟨-, -, hdisjoint⟩ := List.nodup_append'.mp hnodup
  have hnone : as.find? (fun x => x ∈ bs ++ cs) = none := by
    rw [List.find?_eq_none]
    intro x hx
    rw [decide_eq_true_eq]
    intro hmem
    exact hdisjoint hx (List.mem_append.mpr (List.mem_append.mp hmem).symm)
  rw [List.find?_append, hnone, Option.none_or]
  cases cs with
  | nil => rfl
  | cons c cs => exact List.find?_cons_of_pos (by simp)

theorem Share.firstMeet_same (h : Share xs ys as bs cs) (hlen : xs.length = ys.length) :
    firstMeet xs ys = xs.find? (fun x => x ∈ ys) := by
  rw [h.find_eq]
  obtain ⟨rfl, rfl, hnodup⟩ := h
  rw [List.length_append, List.length_append] at hlen
  obtain ⟨-, -, hdisjoint⟩ := List.nodup_append'.mp hnodup
  have hmisses : Misses as bs := misses_of_disjoint fun x ha hb =>
    hdisjoint ha (List.mem_append_right _ hb)
  rw [firstMeet_append (by omega) hmisses, firstMeet_self]

theorem Share.firstMeet_swapped (h : Share xs ys as bs cs) (hlen : xs.length ≠ ys.length)
    (hxs : xs ≠ []) (hys : ys ≠ []) :
    firstMeet (xs ++ ys) (ys ++ xs) = xs.find? (fun x => x ∈ ys) := by
  rw [h.find_eq]
  obtain ⟨rfl, rfl, hnodup⟩ := h
  rw [List.length_append, List.length_append] at hlen
  have hmisses := misses_swapped hnodup (by omega) hxs hys
  have hassoc : ∀ u w : List α, u ++ cs ++ (w ++ cs) = u ++ (cs ++ w) ++ cs := fun u w => by
    simp only [List.append_assoc]
  rw [hassoc, hassoc, firstMeet_append (by simp only [List.length_append]; omega) hmisses,
    firstMeet_self]

end Unos.CommonTails
