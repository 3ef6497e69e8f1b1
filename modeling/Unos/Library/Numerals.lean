import Mathlib.Data.Nat.Digits.Lemmas

namespace Unos.Numerals

variable {b n : ℕ} {ds : List ℕ}

def value (b : ℕ) (ds : List ℕ) : ℕ := Nat.ofDigits b ds.reverse

structure Canonical (b : ℕ) (ds : List ℕ) : Prop where
  ne_nil : ds ≠ []
  lt : ∀ d ∈ ds, d < b
  leading : ds.head? = some 0 → ds = [0]

/-- The digits, lowest first, as a loop that tests at its end finds them. -/
def lowest (b n : ℕ) : List ℕ := if n = 0 then [0] else Nat.digits b n

theorem lowest_of_lt (hn : n < b) : lowest b n = [n] := by
  unfold lowest
  split_ifs with h0
  · rw [h0]
  · exact Nat.digits_of_lt b n h0 hn

theorem lowest_of_le (hb : 1 < b) (hn : b ≤ n) : lowest b n = n % b :: lowest b (n / b) := by
  have hn0 : n ≠ 0 := by omega
  have hdiv0 : n / b ≠ 0 := (Nat.div_pos hn (by omega)).ne'
  rw [lowest, lowest, if_neg hn0, if_neg hdiv0]
  exact Nat.digits_eq_cons_digits_div hb hn0

theorem ofDigits_lowest (b n : ℕ) : Nat.ofDigits b (lowest b n) = n := by
  unfold lowest
  split_ifs with h0
  · rw [h0, Nat.ofDigits_singleton]
  · exact Nat.ofDigits_digits b n

theorem lowest_lt (hb : 1 < b) : ∀ d ∈ lowest b n, d < b := by
  intro d hd
  unfold lowest at hd
  split_ifs at hd with h0
  · rw [List.mem_singleton.mp hd]
    exact Nat.zero_lt_of_lt hb
  · exact Nat.digits_lt_base hb hd

theorem lowest_ne_nil (b n : ℕ) : lowest b n ≠ [] := by
  unfold lowest
  split_ifs with h0
  · exact List.cons_ne_nil 0 []
  · exact Nat.digits_ne_nil_iff_ne_zero.mpr h0

theorem canonical_lowest (hb : 1 < b) (n : ℕ) : Canonical b (lowest b n).reverse where
  ne_nil := fun h => lowest_ne_nil b n (List.reverse_eq_nil_iff.mp h)
  lt d hd := lowest_lt hb d (List.mem_reverse.mp hd)
  leading h := by
    rw [List.head?_reverse] at h
    unfold lowest at h ⊢
    split_ifs at h ⊢ with h0
    · rfl
    · have hlast := Nat.getLast_digit_ne_zero b h0
      rw [List.getLast?_eq_some_getLast (Nat.digits_ne_nil_iff_ne_zero.mpr h0)] at h
      exact absurd (Option.some.inj h) hlast

theorem value_lowest (b n : ℕ) : value b (lowest b n).reverse = n := by
  rw [value, List.reverse_reverse]
  exact ofDigits_lowest b n

theorem length_lowest_le (hb : 1 < b) (hne : ds ≠ []) (hlt : ∀ d ∈ ds, d < b) :
    (lowest b (value b ds)).length ≤ ds.length := by
  unfold lowest
  split_ifs
  · exact List.length_pos_iff.mpr hne
  · rw [Nat.digits_length_le_iff hb, ← List.length_reverse]
    exact Nat.ofDigits_lt_base_pow_length hb fun d hd => hlt d (List.mem_reverse.mp hd)

end Unos.Numerals
