import Mathlib.Data.List.Infix
import Mathlib.Order.Bounds.Basic

namespace Unos.Occurrences

variable {α : Type*} {p t : List α} {c : α} {i : ℕ}

/-- The positions of `p` in `t`. -/
def occurrences (p t : List α) : Set ℕ := {i | p <+: t.drop i}

theorem mem_occurrences : i ∈ occurrences p t ↔ p <+: t.drop i := Iff.rfl

theorem zero_mem : 0 ∈ occurrences p t ↔ p <+: t := by
  rw [mem_occurrences, List.drop_zero]

theorem succ_mem : i + 1 ∈ occurrences p (c :: t) ↔ i ∈ occurrences p t := by
  rw [mem_occurrences, mem_occurrences, List.drop_succ_cons]

theorem isLeast_zero (h : p <+: t) : IsLeast (occurrences p t) 0 :=
  ⟨zero_mem.mpr h, fun _ _ => Nat.zero_le _⟩

theorem isLeast_succ (h : ¬ p <+: c :: t) (hi : IsLeast (occurrences p t) i) :
    IsLeast (occurrences p (c :: t)) (i + 1) := by
  refine ⟨succ_mem.mpr hi.1, fun j hj => ?_⟩
  cases j with
  | zero => exact absurd (zero_mem.mp hj) h
  | succ j => exact Nat.succ_le_succ (hi.2 (succ_mem.mp hj))

theorem infix_iff : p <:+: t ↔ (occurrences p t).Nonempty := by
  rw [List.infix_iff_prefix_suffix]
  constructor
  · rintro ⟨u, hpu, hut⟩
    obtain ⟨s, rfl⟩ := hut
    refine ⟨s.length, ?_⟩
    rwa [mem_occurrences, List.drop_left]
  · rintro ⟨i, hi⟩
    exact ⟨t.drop i, hi, List.drop_suffix i t⟩

end Unos.Occurrences
