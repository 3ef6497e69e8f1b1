import Unos.Strings.Model

namespace Unos.Strings

open Unos.ByteMemory

variable {m : Mem} {dst src len i : ℕ}

def Moves (m : Mem) (dst src len : ℕ) : Prop :=
  (memmove m dst src len).1 = dst ∧
    (∀ i < len, (memmove m dst src len).2 (dst + i) = m (src + i)) ∧
    ∀ x, x < dst ∨ dst + len ≤ x → (memmove m dst src len).2 x = m x

theorem memmove_succ (m : Mem) (dst src len : ℕ) : (memmove m dst src (len + 1)).2 =
    Function.update (memmove m dst src len).2 (dst + len)
      ((memmove m dst src len).2 (src + len)) := by
  simp only [memmove, List.range_succ, List.foldl_append, List.foldl_cons, List.foldl_nil]

theorem memmove_of_outside {x : ℕ} (hx : x < dst ∨ dst + len ≤ x) :
    (memmove m dst src len).2 x = m x := by
  induction len with
  | zero => rfl
  | succ len ih =>
    rw [memmove_succ, Function.update_of_ne (by omega)]
    exact ih (by omega)

theorem memmove_apply (hi : i < len) :
    (memmove m dst src len).2 (dst + i) = (memmove m dst src i).2 (src + i) := by
  induction len with
  | zero => exact absurd hi (Nat.not_lt_zero i)
  | succ len ih =>
    rw [memmove_succ]
    rcases Nat.lt_succ_iff_lt_or_eq.mp hi with hlt | rfl
    · rw [Function.update_of_ne (by omega)]
      exact ih hlt
    · exact Function.update_self ..

theorem memmove_apply_of_le (hle : dst ≤ src) (hi : i < len) :
    (memmove m dst src len).2 (dst + i) = m (src + i) := by
  rw [memmove_apply hi]
  apply memmove_of_outside
  exact Or.inr (Nat.add_le_add_right hle i)

theorem memmove_apply_of_lt (hlt : src < dst) (hi : i < len) :
    (memmove m dst src len).2 (dst + i) = m (src + i % (dst - src)) := by
  induction i using Nat.strong_induction_on generalizing len with
  | h i ih =>
    rw [memmove_apply hi]
    rcases Nat.lt_or_ge i (dst - src) with hnear | hfar
    · rw [Nat.mod_eq_of_lt hnear]
      exact memmove_of_outside (by omega)
    · rw [show src + i = dst + (i - (dst - src)) by omega,
        ih (i - (dst - src)) (by omega) (by omega), ← Nat.mod_eq_sub_mod hfar]

theorem apply_mod_of_period {d : ℕ} (hd : 0 < d)
    (hperiod : ∀ i, i + d < len → m (src + d + i) = m (src + i)) (hi : i < len) :
    m (src + i % d) = m (src + i) := by
  induction i using Nat.strong_induction_on with
  | h i ih =>
    rcases Nat.lt_or_ge i d with hnear | hfar
    · rw [Nat.mod_eq_of_lt hnear]
    · rw [Nat.mod_eq_sub_mod hfar, ih (i - d) (by omega) (by omega),
        ← hperiod (i - d) (by omega)]
      congr 1
      omega

/-- The region is moved as it is when the target does not begin behind the source, or the source
has the period of their distance as far as they overlap. -/
theorem moves_iff (m : Mem) (dst src len : ℕ) : Moves m dst src len ↔
    dst ≤ src ∨ ∀ i, i + (dst - src) < len → m (dst + i) = m (src + i) := by
  constructor
  · rintro ⟨-, hmoved, -⟩
    rcases Nat.lt_or_ge src dst with hlt | hge
    · refine Or.inr fun i hi => ?_
      have hfar := hmoved (i + (dst - src)) hi
      have hnear := hmoved i (by omega)
      rw [memmove_apply_of_lt hlt hi, Nat.add_mod_right] at hfar
      rw [memmove_apply_of_lt hlt (by omega)] at hnear
      rw [← hnear, hfar]
      congr 1
      omega
    · exact Or.inl hge
  · intro hcond
    refine ⟨rfl, fun i hi => ?_, fun x => memmove_of_outside⟩
    rcases Nat.lt_or_ge src dst with hlt | hge
    · have hperiod := hcond.resolve_left (Nat.not_le_of_lt hlt)
      rw [memmove_apply_of_lt hlt hi]
      apply apply_mod_of_period (Nat.sub_pos_of_lt hlt) (fun i hi => ?_) hi
      rw [Nat.add_sub_cancel' hlt.le]
      exact hperiod i hi
    · exact memmove_apply_of_le hge hi

/-- One byte upwards, the first byte is written twice. -/
theorem not_moves : ¬ ∀ (m : Mem) (dst src len : ℕ), Moves m dst src len := by
  intro h
  have hbyte := (h (fun x => BitVec.ofNat 8 x) 1 0 2).2.1 1 (by decide)
  exact absurd hbyte (by decide)

end Unos.Strings
