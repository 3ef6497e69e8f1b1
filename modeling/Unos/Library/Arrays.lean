import Mathlib.Data.List.Basic
import Mathlib.Logic.Function.Basic
import Mathlib.Tactic.Common

namespace Unos.Arrays

variable {α : Type*}

/-- The `n` cells from `i` on. An array is a function on all indices; how much of it is in use is
kept elsewhere. -/
def slice (a : ℕ → α) : ℕ → ℕ → List α
  | _, 0 => []
  | i, n + 1 => a i :: slice a (i + 1) n

/-- `while (i < n && p(i)) i++`, with `n` turns left. -/
def scan (p : ℕ → Bool) : ℕ → ℕ → ℕ
  | 0, i => i
  | n + 1, i => if p i then scan p n (i + 1) else i

/-- `for (i = n; i > p; i--) a[i] = a[i - 1]`. -/
def shiftUp (a : ℕ → α) (p : ℕ) : ℕ → ℕ → α
  | 0 => a
  | i + 1 => if p < i + 1 then shiftUp (Function.update a (i + 1) (a i)) p i else a

/-- `for (; i < n; i++) a[i - 1] = a[i]`, with `n` turns left. -/
def shiftDown (a : ℕ → α) : ℕ → ℕ → ℕ → α
  | _, 0 => a
  | i, n + 1 => shiftDown (Function.update a (i - 1) (a i)) (i + 1) n

/-- `for (...; i++, j++) t[j] = a[i]`, with `n` turns left. -/
def copyRange (t a : ℕ → α) : ℕ → ℕ → ℕ → ℕ → α
  | _, _, 0 => t
  | j, i, n + 1 => copyRange (Function.update t j (a i)) a (j + 1) (i + 1) n

/-- `for (...; i++, j++) { if (j == p) j++; t[j] = a[i]; }`, with `n` turns left. -/
def copyAround (t a : ℕ → α) (p : ℕ) : ℕ → ℕ → ℕ → ℕ → α
  | _, _, 0 => t
  | j, i, n + 1 =>
    let j := if j = p then j + 1 else j
    copyAround (Function.update t j (a i)) a p (j + 1) (i + 1) n

/-- `for (...; i++) a[i] = v`, with `n` turns left. -/
def fillRange (a : ℕ → α) (v : α) : ℕ → ℕ → ℕ → α
  | _, 0 => a
  | i, n + 1 => fillRange (Function.update a i v) v (i + 1) n

variable {a b t : ℕ → α} {i j n m p : ℕ} {l₁ l₂ : List α} {v : α}

@[simp] theorem length_slice (a : ℕ → α) (i n : ℕ) : (slice a i n).length = n := by
  induction n generalizing i with
  | zero => rfl
  | succ n ih => rw [slice, List.length_cons, ih]

theorem slice_add (a : ℕ → α) (i m n : ℕ) :
    slice a i (m + n) = slice a i m ++ slice a (i + m) n := by
  induction m generalizing i with
  | zero => rw [Nat.zero_add, slice, List.nil_append, Nat.add_zero]
  | succ m ih => rw [Nat.add_right_comm, slice, slice, List.cons_append, ih,
      Nat.add_right_comm i 1 m, Nat.add_assoc i m 1]

theorem slice_concat (a : ℕ → α) (i n : ℕ) : slice a i (n + 1) = slice a i n ++ [a (i + n)] :=
  slice_add a i n 1

theorem slice_congr (h : ∀ k < n, a (i + k) = b (j + k)) : slice a i n = slice b j n := by
  induction n generalizing i j with
  | zero => rfl
  | succ n ih =>
    have hfirst := h 0 (Nat.succ_pos n)
    rw [Nat.add_zero, Nat.add_zero] at hfirst
    rw [slice, slice, hfirst, ih fun k hk => ?_]
    have hnext := h (k + 1) (by omega)
    rwa [← Nat.add_assoc, Nat.add_right_comm, ← Nat.add_assoc, Nat.add_right_comm j] at hnext

theorem mem_slice {x : α} : x ∈ slice a i n ↔ ∃ k < n, a (i + k) = x := by
  induction n generalizing i with
  | zero => exact iff_of_false List.not_mem_nil fun ⟨k, hk, _⟩ => absurd hk (Nat.not_lt_zero k)
  | succ n ih =>
    rw [slice, List.mem_cons, ih]
    constructor
    · rintro (rfl | ⟨k, hk, rfl⟩)
      · exact ⟨0, Nat.succ_pos n, rfl⟩
      · exact ⟨k + 1, by omega, by rw [Nat.add_assoc, Nat.add_comm 1 k]⟩
    · rintro ⟨k, hk, rfl⟩
      cases k with
      | zero => exact Or.inl rfl
      | succ k => exact Or.inr ⟨k, by omega, by rw [Nat.add_assoc, Nat.add_comm 1 k]⟩

theorem slice_eq_append (h : slice a i n = l₁ ++ l₂) :
    n = l₁.length + l₂.length ∧ slice a i l₁.length = l₁ ∧
      slice a (i + l₁.length) l₂.length = l₂ := by
  have hn : n = l₁.length + l₂.length := by
    have hlen := congrArg List.length h
    rwa [length_slice, List.length_append] at hlen
  rw [hn, slice_add] at h
  obtain ⟨h1, h2⟩ := List.append_inj h (length_slice a i _)
  exact ⟨hn, h1, h2⟩

theorem slice_eq_append_cons {x : α} (h : slice a i n = l₁ ++ x :: l₂) :
    n = l₁.length + 1 + l₂.length ∧ slice a i l₁.length = l₁ ∧ a (i + l₁.length) = x ∧
      slice a (i + l₁.length + 1) l₂.length = l₂ := by
  obtain ⟨hn, h1, h2⟩ := slice_eq_append h
  rw [List.length_cons, slice] at h2
  obtain ⟨hx, h2⟩ := List.cons.inj h2
  exact ⟨by rw [hn, List.length_cons]; omega, h1, hx, h2⟩

theorem slice_update_of_outside (h : j < i ∨ i + n ≤ j) :
    slice (Function.update a j v) i n = slice a i n :=
  slice_congr fun k hk => Function.update_of_ne (by omega) _ _

theorem scan_eq {q : ℕ → Bool} {k : ℕ} (hk : k ≤ n) (hbefore : ∀ x < k, q (i + x) = true)
    (hat : k = n ∨ q (i + k) = false) : scan q n i = i + k := by
  induction n generalizing i k with
  | zero =>
    obtain rfl := Nat.le_zero.mp hk
    rfl
  | succ n ih =>
    rw [scan]
    cases k with
    | zero =>
      have hstop := hat.resolve_left (Nat.succ_ne_zero n).symm
      rw [Nat.add_zero] at hstop ⊢
      rw [hstop]
      rfl
    | succ k =>
      have hpass := hbefore 0 (Nat.succ_pos k)
      have hrest : scan q n (i + 1) = i + 1 + k := by
        refine ih (by omega) (fun x hx => ?_) ?_
        · have hx := hbefore (x + 1) (by omega)
          rwa [← Nat.add_assoc, Nat.add_right_comm] at hx
        · rw [Nat.add_right_comm, Nat.add_assoc]
          exact hat.imp Nat.succ.inj id
      rw [Nat.add_zero] at hpass
      rw [hpass, if_pos rfl, hrest]
      omega

/-- The search stops behind a first part of the slice all of which passes. -/
theorem scan_slice {q : α → Bool} (h : slice a 0 n = l₁ ++ l₂) (hm : l₁.length + l₂.length ≤ m)
    (hbefore : ∀ x ∈ l₁, q x = true) (hat : ∀ x ∈ l₂.head?, q x = false)
    (hend : l₂ = [] → m = l₁.length) : scan (fun k => q (a k)) m 0 = l₁.length := by
  obtain ⟨-, h1, h2⟩ := slice_eq_append h
  have hfound : scan (fun k => q (a k)) m 0 = 0 + l₁.length := by
    refine scan_eq (by omega) (fun x hx => hbefore _ ?_) ?_
    · rw [← h1]
      exact mem_slice.mpr ⟨x, hx, rfl⟩
    · cases l₂ with
      | nil => exact Or.inl (hend rfl).symm
      | cons y l₂ =>
        rw [List.length_cons, slice] at h2
        rw [(List.cons.inj h2).1]
        exact Or.inr (hat y rfl)
  rwa [Nat.zero_add] at hfound

theorem shiftUp_apply (h : p ≤ n) (x : ℕ) :
    shiftUp a p n x = if p < x ∧ x ≤ n then a (x - 1) else a x := by
  induction n generalizing a with
  | zero => rw [shiftUp, if_neg (by omega)]
  | succ n ih =>
    rw [shiftUp]
    by_cases hp : p < n + 1
    · rw [if_pos hp, ih (by omega)]
      by_cases hx : p < x ∧ x ≤ n
      · rw [if_pos hx, if_pos (by omega), Function.update_of_ne (by omega)]
      · rw [if_neg hx, Function.update_apply]
        by_cases hlast : x = n + 1
        · rw [if_pos hlast, if_pos (by omega), hlast, Nat.add_sub_cancel]
        · rw [if_neg hlast, if_neg (by omega)]
    · rw [if_neg hp, if_neg (by omega)]

theorem shiftDown_apply (hi : 0 < i) (x : ℕ) :
    shiftDown a i n x = if i - 1 ≤ x ∧ x < i - 1 + n then a (x + 1) else a x := by
  induction n generalizing a i with
  | zero => rw [shiftDown, if_neg (by omega)]
  | succ n ih =>
    rw [shiftDown, ih (Nat.succ_pos i)]
    by_cases hx : i + 1 - 1 ≤ x ∧ x < i + 1 - 1 + n
    · rw [if_pos hx, if_pos (by omega), Function.update_of_ne (by omega)]
    · rw [if_neg hx, Function.update_apply]
      by_cases hfirst : x = i - 1
      · rw [if_pos hfirst, if_pos (by omega), hfirst, Nat.sub_add_cancel hi]
      · rw [if_neg hfirst, if_neg (by omega)]

theorem copyRange_apply (x : ℕ) :
    copyRange t a j i n x = if j ≤ x ∧ x < j + n then a (i + (x - j)) else t x := by
  induction n generalizing t j i with
  | zero => rw [copyRange, if_neg (by omega)]
  | succ n ih =>
    rw [copyRange, ih]
    by_cases hx : j + 1 ≤ x ∧ x < j + 1 + n
    · have hcell : i + 1 + (x - (j + 1)) = i + (x - j) := by omega
      rw [if_pos hx, if_pos (by omega), hcell]
    · rw [if_neg hx, Function.update_apply]
      by_cases hfirst : x = j
      · rw [if_pos hfirst, if_pos (by omega), hfirst, Nat.sub_self, Nat.add_zero]
      · rw [if_neg hfirst, if_neg (by omega)]

theorem copyAround_apply (hj : j = if i ≤ p then i else i + 1) (x : ℕ) :
    copyAround t a p j i n x =
      if i ≤ x ∧ x < i + n ∧ x < p then a x
      else if i < x ∧ x ≤ i + n ∧ p < x then a (x - 1) else t x := by
  induction n generalizing t j i with
  | zero => rw [copyAround, if_neg (by omega), if_neg (by omega)]
  | succ n ih =>
    have hcell : (if j = p then j + 1 else j) = if i < p then i else i + 1 := by
      split_ifs at hj ⊢ <;> omega
    have hnext : (if i < p then i else i + 1) + 1 = if i + 1 ≤ p then i + 1 else i + 1 + 1 := by
      split_ifs <;> omega
    rw [copyAround, hcell, ih hnext]
    by_cases hlow : i + 1 ≤ x ∧ x < i + 1 + n ∧ x < p
    · rw [if_pos hlow, if_pos (by omega)]
    rw [if_neg hlow]
    by_cases hhigh : i + 1 < x ∧ x ≤ i + 1 + n ∧ p < x
    · rw [if_pos hhigh, if_neg (by omega), if_pos (by omega)]
    rw [if_neg hhigh, Function.update_apply]
    -- what is left is the cell of this turn, and those that are never written
    by_cases hip : i < p
    · rw [if_pos hip]
      by_cases hx : x = i
      · rw [if_pos hx, if_pos (by omega), hx]
      · rw [if_neg hx, if_neg (by omega), if_neg (by omega)]
    · rw [if_neg hip]
      by_cases hx : x = i + 1
      · rw [if_pos hx, if_neg (by omega), if_pos (by omega), hx, Nat.add_sub_cancel]
      · rw [if_neg hx, if_neg (by omega), if_neg (by omega)]

theorem fillRange_of_outside (h : j < i ∨ i + n ≤ j) : fillRange a v i n j = a j := by
  induction n generalizing a i with
  | zero => rfl
  | succ n ih => rw [fillRange, ih (by omega), Function.update_of_ne (by omega)]

theorem slice_fillRange_of_outside (h : j + m ≤ i ∨ i + n ≤ j) :
    slice (fillRange a v i n) j m = slice a j m :=
  slice_congr fun k hk => fillRange_of_outside (by omega)

theorem copyRange_of_outside {x : ℕ} (h : x < j ∨ j + n ≤ x) : copyRange t a j i n x = t x := by
  rw [copyRange_apply, if_neg (by omega)]

theorem slice_copyRange (t a : ℕ → α) (j i n : ℕ) :
    slice (copyRange t a j i n) j n = slice a i n := by
  refine slice_congr fun k hk => ?_
  rw [copyRange_apply, if_pos (by omega), Nat.add_sub_cancel_left]

theorem slice_copyRange_of_outside (h : p + m ≤ j ∨ j + n ≤ p) :
    slice (copyRange t a j i n) p m = slice t p m :=
  slice_congr fun k hk => copyRange_of_outside (by omega)

theorem slice_copyRange_append (t a : ℕ → α) (m i n : ℕ) :
    slice (copyRange t a m i n) 0 (m + n) = slice t 0 m ++ slice a i n := by
  rw [slice_add, slice_copyRange_of_outside (by omega), Nat.zero_add, slice_copyRange]

theorem slice_copyRange_concat (t a : ℕ → α) (i n : ℕ) (v : α) :
    slice (Function.update (copyRange t a 0 i n) n v) 0 (n + 1) = slice a i n ++ [v] := by
  rw [slice_concat, slice_update_of_outside (by omega), slice_copyRange, Nat.zero_add,
    Function.update_self]

theorem slice_eq_of_parts (h1 : slice a i l₁.length = l₁) (hv : a (i + l₁.length) = v)
    (h2 : slice a (i + l₁.length + 1) l₂.length = l₂) :
    slice a i (l₁.length + 1 + l₂.length) = l₁ ++ v :: l₂ := by
  rw [slice_add, slice_concat, h1, hv, ← Nat.add_assoc, h2, List.append_assoc,
    List.singleton_append]

theorem slice_update {x : α} (h : slice a 0 n = l₁ ++ x :: l₂) :
    slice (Function.update a l₁.length v) 0 n = l₁ ++ v :: l₂ := by
  obtain ⟨rfl, h1, -, h2⟩ := slice_eq_append_cons h
  apply slice_eq_of_parts
  · rw [slice_update_of_outside (by omega), h1]
  · rw [Nat.zero_add, Function.update_self]
  · rw [slice_update_of_outside (by omega), h2]

theorem slice_insert (h : slice a 0 n = l₁ ++ l₂) :
    slice (Function.update (shiftUp a l₁.length n) l₁.length v) 0 (n + 1) = l₁ ++ v :: l₂ := by
  obtain ⟨hn, h1, h2⟩ := slice_eq_append h
  have hlen : n + 1 = l₁.length + 1 + l₂.length := by omega
  rw [hlen]
  refine slice_eq_of_parts ?_ ?_ ?_
  · conv_rhs => rw [← h1]
    refine slice_congr fun k hk => ?_
    rw [Function.update_of_ne (by omega), shiftUp_apply (by omega), if_neg (by omega)]
  · rw [Nat.zero_add, Function.update_self]
  · conv_rhs => rw [← h2]
    refine slice_congr fun k hk => ?_
    have hcell : 0 + l₁.length + 1 + k - 1 = 0 + l₁.length + k := by omega
    rw [Function.update_of_ne (by omega), shiftUp_apply (by omega), if_pos (by omega), hcell]

theorem slice_insert_front (a : ℕ → α) (n : ℕ) (v : α) :
    slice (Function.update (shiftUp a 0 n) 0 v) 0 (n + 1) = v :: slice a 0 n := by
  have hsplit : slice a 0 n = [] ++ slice a 0 n := rfl
  exact slice_insert hsplit

theorem slice_copyAround (h : slice a 0 n = l₁ ++ l₂) :
    slice (Function.update (copyAround t a l₁.length 0 0 n) l₁.length v) 0 (n + 1) =
      l₁ ++ v :: l₂ := by
  obtain ⟨hn, h1, h2⟩ := slice_eq_append h
  have hlen : n + 1 = l₁.length + 1 + l₂.length := by omega
  have hstart : 0 = if 0 ≤ l₁.length then 0 else 0 + 1 := by rw [if_pos (Nat.zero_le _)]
  rw [hlen]
  refine slice_eq_of_parts ?_ ?_ ?_
  · conv_rhs => rw [← h1]
    refine slice_congr fun k hk => ?_
    rw [Function.update_of_ne (by omega), copyAround_apply hstart, if_pos (by omega)]
  · rw [Nat.zero_add, Function.update_self]
  · conv_rhs => rw [← h2]
    refine slice_congr fun k hk => ?_
    have hcell : 0 + l₁.length + 1 + k - 1 = 0 + l₁.length + k := by omega
    rw [Function.update_of_ne (by omega), copyAround_apply hstart, if_neg (by omega),
      if_pos (by omega), hcell]

theorem slice_remove (h : slice a 0 n = l₁ ++ v :: l₂) :
    slice (shiftDown a (l₁.length + 1) (n - (l₁.length + 1))) 0 (n - 1) = l₁ ++ l₂ := by
  obtain ⟨hn, h1, -, h2⟩ := slice_eq_append_cons h
  have hlen : n - 1 = l₁.length + l₂.length := by omega
  rw [hlen, slice_add]
  congr 1
  · conv_rhs => rw [← h1]
    refine slice_congr fun k hk => ?_
    rw [shiftDown_apply (by omega), if_neg (by omega)]
  · conv_rhs => rw [← h2]
    refine slice_congr fun k hk => ?_
    rw [shiftDown_apply (by omega), if_pos (by omega), Nat.add_right_comm]

theorem shiftDown_of_outside {x : ℕ} (hi : 0 < i) (h : i - 1 + n ≤ x) :
    shiftDown a i n x = a x := by
  rw [shiftDown_apply hi, if_neg (by omega)]

end Unos.Arrays
