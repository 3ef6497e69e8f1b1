import Mathlib.Data.List.Basic
import Mathlib.Tactic.Common

namespace Unos.Search

variable {P : ℕ → Prop}

/-- `r` is the first position of `[lo, hi)` with `P`, or `none` when there is none. -/
def FindsFirst (P : ℕ → Prop) (lo hi : ℕ) : Option ℕ → Prop
  | none => ∀ q, lo ≤ q → q < hi → ¬ P q
  | some p => lo ≤ p ∧ p < hi ∧ P p ∧ ∀ q, lo ≤ q → q < p → ¬ P q

theorem findsFirst_empty (lo : ℕ) : FindsFirst P lo lo none :=
  fun q h1 h2 => absurd h2 (by omega)

theorem FindsFirst.skip {lo mid hi : ℕ} {r : Option ℕ} (hm : lo ≤ mid)
    (hno : ∀ q, lo ≤ q → q < mid → ¬ P q) (h : FindsFirst P mid hi r) : FindsFirst P lo hi r := by
  have before : ∀ q, lo ≤ q → (mid ≤ q → ¬ P q) → ¬ P q := by
    intro q hq hlate
    by_cases hqm : q < mid
    · exact hno q hq hqm
    · exact hlate (by omega)
  cases r with
  | none => exact fun q hq hqhi => before q hq fun hmq => h q hmq hqhi
  | some p =>
    obtain ⟨h1, h2, h3, h4⟩ := h
    exact ⟨by omega, h2, h3, fun q hq hqp => before q hq fun hmq => h4 q hmq hqp⟩

theorem FindsFirst.widen {lo mid hi p : ℕ} (hm : mid ≤ hi) (h : FindsFirst P lo mid (some p)) :
    FindsFirst P lo hi (some p) := by
  obtain ⟨h1, h2, h3, h4⟩ := h
  exact ⟨h1, by omega, h3, h4⟩

theorem FindsFirst.unique {lo hi p q : ℕ} (hp : FindsFirst P lo hi (some p))
    (hq : FindsFirst P lo hi (some q)) : p = q := by
  obtain ⟨hp1, hp2, hp3, hp4⟩ := hp
  obtain ⟨hq1, hq2, hq3, hq4⟩ := hq
  by_contra hne
  rcases Nat.lt_or_gt_of_ne hne with h | h
  · exact hq4 p hp1 h hp3
  · exact hp4 q hq1 h hq3

/-- Searching `0, 1, ..., n - 1` with an offset. -/
theorem findsFirst_range {f : ℕ → Bool} {lo n : ℕ} (hf : ∀ j, j < n → (f j = true ↔ P (lo + j))) :
    FindsFirst P lo (lo + n) (((List.range n).find? f).map (lo + ·)) := by
  cases hr : (List.range n).find? f with
  | none =>
    intro q hq hqn hP
    have hnone := List.find?_eq_none.mp hr (q - lo) (List.mem_range.mpr (by omega))
    exact hnone ((hf (q - lo) (by omega)).mpr (by rwa [Nat.add_sub_cancel' hq]))
  | some j =>
    have hj : j < n := List.mem_range.mp (List.mem_of_find?_eq_some hr)
    change lo ≤ lo + j ∧ lo + j < lo + n ∧ P (lo + j) ∧ ∀ q, lo ≤ q → q < lo + j → ¬ P q
    refine ⟨by omega, by omega, (hf j hj).mp (List.find?_some hr), fun q hq hqj hP => ?_⟩
    have hfirst := List.find?_range_eq_some.mp hr
    have hq' : q - lo < j := by omega
    have hmiss := hfirst.2.2 (q - lo) hq'
    rw [Bool.not_eq_true'] at hmiss
    rw [(hf (q - lo) (by omega)).mpr (by rwa [Nat.add_sub_cancel' hq])] at hmiss
    exact Bool.noConfusion hmiss

theorem find?_least {l : List ℕ} {p : ℕ → Bool} {x y : ℕ} (hl : l.Pairwise (· < ·))
    (hx : l.find? p = some x) (hy : y ∈ l) (hp : p y = true) : x ≤ y := by
  induction l with
  | nil => exact absurd hy List.not_mem_nil
  | cons a l ih =>
    obtain ⟨hhead, htail⟩ := List.pairwise_cons.mp hl
    rw [List.find?_cons] at hx
    cases ha : p a with
    | true =>
      rw [ha] at hx
      obtain rfl : a = x := Option.some.inj hx
      rcases List.mem_cons.mp hy with rfl | hy
      · exact Nat.le_refl _
      · exact Nat.le_of_lt (hhead y hy)
    | false =>
      rw [ha] at hx
      rcases List.mem_cons.mp hy with rfl | hy
      · exact absurd hp (by rw [ha]; exact Bool.false_ne_true)
      · exact ih htail hx hy

theorem takeWhile_eq_filter {α : Type*} {p : α → Bool} {l : List α}
    (h : l.Pairwise fun a b => p b = true → p a = true) : l.takeWhile p = l.filter p := by
  induction l with
  | nil => rfl
  | cons a l ih =>
    obtain ⟨hhead, htail⟩ := List.pairwise_cons.mp h
    by_cases hp : p a = true
    · rw [List.takeWhile_cons_of_pos hp, List.filter_cons_of_pos hp, ih htail]
    · rw [List.takeWhile_cons_of_neg hp, List.filter_cons_of_neg hp, eq_comm,
        List.filter_eq_nil_iff]
      exact fun b hb hpb => hp (hhead b hb hpb)

end Unos.Search
