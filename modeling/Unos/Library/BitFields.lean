import Mathlib.Algebra.Order.Ring.Nat
import Mathlib.Data.List.Basic
import Mathlib.Tactic.Common
import Mathlib.Tactic.Ring

namespace Unos.BitFields

abbrev Field := ℕ × ℕ

def width (fs : List Field) : ℕ := (fs.map Prod.fst).sum

def pack : List Field → ℕ
  | [] => 0
  | f :: fs => f.2 % 2 ^ f.1 + 2 ^ f.1 * pack fs

/-- `w` bits from bit `i` on. -/
def field (n i w : ℕ) : ℕ := n / 2 ^ i % 2 ^ w

variable {fs : List Field} {w v : ℕ}

theorem field_cons (f : Field) (fs : List Field) (i w : ℕ) :
    field (pack (f :: fs)) (f.1 + i) w = field (pack fs) i w := by
  have hlow : f.2 % 2 ^ f.1 < 2 ^ f.1 := Nat.mod_lt _ (Nat.two_pow_pos _)
  rw [field, field, pow_add, ← Nat.div_div_eq_div_mul, pack,
    Nat.add_mul_div_left _ _ (Nat.two_pow_pos _), Nat.div_eq_of_lt hlow, Nat.zero_add]

theorem field_head (f : Field) (fs : List Field) :
    field (pack (f :: fs)) 0 f.1 = f.2 % 2 ^ f.1 := by
  rw [field, pow_zero, Nat.div_one, pack, Nat.add_mul_mod_self_left, Nat.mod_mod]

theorem field_pack (fs : List Field) (w v : ℕ) (gs : List Field) :
    field (pack (fs ++ (w, v) :: gs)) (width fs) w = v % 2 ^ w := by
  induction fs with
  | nil => exact field_head (w, v) gs
  | cons f fs ih => exact (field_cons f (fs ++ (w, v) :: gs) (width fs) w).trans ih

theorem field_of_get (i : ℕ) (h : fs[i]? = some (w, v)) :
    field (pack fs) (width (fs.take i)) w = v % 2 ^ w := by
  obtain ⟨hlt, hget⟩ := List.getElem?_eq_some_iff.mp h
  have hsplit : fs = fs.take i ++ (w, v) :: fs.drop (i + 1) := by
    rw [← hget, List.getElem_cons_drop, List.take_append_drop]
  conv_lhs => rw [hsplit]
  rw [← field_pack (fs.take i) w v (fs.drop (i + 1)), ← hsplit]

theorem field_add (n i w w' : ℕ) :
    field n i (w + w') = field n i w + 2 ^ w * field n (i + w) w' := by
  rw [field, field, field, pow_add 2 w w', pow_add 2 i w, ← Nat.div_div_eq_div_mul, Nat.mod_mul]

theorem mod_add_mod (n w w' : ℕ) : n % 2 ^ w + 2 ^ w * (n / 2 ^ w % 2 ^ w') = n % 2 ^ (w + w') := by
  rw [pow_add, Nat.mod_mul]

end Unos.BitFields
