import Mathlib.Data.List.Basic

namespace Unos.Splits

variable {α : Type*} {as bs m : List α} {x y : α}

theorem mem_middle : y ∈ as ++ x :: bs ↔ y = x ∨ y ∈ as ++ bs :=
  List.perm_middle.mem_iff.trans List.mem_cons

theorem mem_middle_of_mem (h : y ∈ as ++ bs) : y ∈ as ++ x :: bs := mem_middle.mpr (Or.inr h)

theorem mem_of_mem_middle (h : y ∈ as ++ x :: bs) (hne : y ≠ x) : y ∈ as ++ bs :=
  (mem_middle.mp h).resolve_left hne

theorem mem_part : y ∈ as ++ (m ++ bs) ↔ y ∈ m ∨ y ∈ as ++ bs := by
  rw [List.mem_append, List.mem_append, List.mem_append]
  exact or_left_comm

theorem exists_part_at {xs : List α} {i : ℕ} (hi : i < xs.length) :
    ∃ as x bs, xs = as ++ x :: bs ∧ as.length = i := by
  refine ⟨xs.take i, xs[i], xs.drop (i + 1), ?_, List.length_take_of_le (Nat.le_of_lt hi)⟩
  rw [← List.drop_eq_getElem_cons hi, List.take_append_drop]

end Unos.Splits
