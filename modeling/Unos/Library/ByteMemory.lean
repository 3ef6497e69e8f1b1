import Mathlib.Logic.Function.Basic
import Mathlib.Tactic.Common

namespace Unos.ByteMemory

/-- A function from addresses to bytes. Words are 32 bits wide, little endian, and need not be
aligned. -/
abbrev Mem := ℕ → BitVec 8

def load8 (m : Mem) (a : ℕ) : ℕ := (m a).toNat

def store8 (m : Mem) (a v : ℕ) : Mem := Function.update m a (BitVec.ofNat 8 v)

def load32 (m : Mem) (a : ℕ) : ℕ :=
  load8 m a + 256 * load8 m (a + 1) + 65536 * load8 m (a + 2) + 16777216 * load8 m (a + 3)

def store32 (m : Mem) (a v : ℕ) : Mem :=
  store8 (store8 (store8 (store8 m a v) (a + 1) (v / 256)) (a + 2) (v / 65536))
    (a + 3) (v / 16777216)

/-- The loop of `memset`. -/
def fill (m : Mem) (a v : ℕ) : ℕ → Mem
  | 0 => m
  | n + 1 => store8 (fill m a v n) (a + n) v

/-- The `n` bytes from `a` on. -/
def loadBytes (m : Mem) (a n : ℕ) : List (BitVec 8) := (List.range n).map fun i => m (a + i)

def storeBytes (m : Mem) (a : ℕ) (bs : List (BitVec 8)) : Mem := fun x =>
  if a ≤ x ∧ x < a + bs.length then bs.getD (x - a) 0 else m x

variable {m m' : Mem} {a b v : ℕ}

theorem load8_lt (m : Mem) (a : ℕ) : load8 m a < 256 := (m a).isLt

theorem store8_apply (m : Mem) (a v x : ℕ) :
    store8 m a v x = if x = a then BitVec.ofNat 8 v else m x := by
  rw [store8, Function.update_apply]

theorem store8_of_ne {x : ℕ} (h : x ≠ a) : store8 m a v x = m x := by
  rw [store8_apply, if_neg h]

theorem load8_store8 (m : Mem) (a v : ℕ) : load8 (store8 m a v) a = v % 256 := by
  rw [load8, store8_apply, if_pos rfl, BitVec.toNat_ofNat]

theorem load8_store8_of_ne (h : b ≠ a) : load8 (store8 m a v) b = load8 m b := by
  rw [load8, store8_of_ne h, load8]

theorem load32_lt (m : Mem) (a : ℕ) : load32 m a < 4294967296 := by
  have h0 := load8_lt m a
  have h1 := load8_lt m (a + 1)
  have h2 := load8_lt m (a + 2)
  have h3 := load8_lt m (a + 3)
  unfold load32
  omega

theorem store32_of_outside {x : ℕ} (h : x < a ∨ a + 4 ≤ x) : store32 m a v x = m x := by
  rw [store32, store8_of_ne (by omega), store8_of_ne (by omega), store8_of_ne (by omega),
    store8_of_ne (by omega)]

theorem load32_store32 (m : Mem) (hv : v < 4294967296) : load32 (store32 m a v) a = v := by
  have h0 : load8 (store32 m a v) a = v % 256 := by
    rw [store32, load8_store8_of_ne (by omega), load8_store8_of_ne (by omega),
      load8_store8_of_ne (by omega), load8_store8]
  have h1 : load8 (store32 m a v) (a + 1) = v / 256 % 256 := by
    rw [store32, load8_store8_of_ne (by omega), load8_store8_of_ne (by omega), load8_store8]
  have h2 : load8 (store32 m a v) (a + 2) = v / 65536 % 256 := by
    rw [store32, load8_store8_of_ne (by omega), load8_store8]
  have h3 : load8 (store32 m a v) (a + 3) = v / 16777216 % 256 := by
    rw [store32, load8_store8]
  rw [load32, h0, h1, h2, h3]
  omega

/-- A word depends on its four bytes only. -/
theorem load32_congr (h : ∀ x, a ≤ x → x < a + 4 → m' x = m x) : load32 m' a = load32 m a := by
  have hbyte : ∀ k, k < 4 → load8 m' (a + k) = load8 m (a + k) := fun k hk => by
    rw [load8, h (a + k) (by omega) (by omega), load8]
  have h0 := hbyte 0 (by decide)
  have h1 := hbyte 1 (by decide)
  have h2 := hbyte 2 (by decide)
  have h3 := hbyte 3 (by decide)
  rw [Nat.add_zero] at h0
  rw [load32, h0, h1, h2, h3, load32]

theorem load32_store32_of_disjoint (h : b + 4 ≤ a ∨ a + 4 ≤ b) :
    load32 (store32 m a v) b = load32 m b :=
  load32_congr fun x h1 h2 => store32_of_outside (by omega)

theorem fill_apply (m : Mem) (a v n x : ℕ) :
    fill m a v n x = if a ≤ x ∧ x < a + n then BitVec.ofNat 8 v else m x := by
  induction n with
  | zero => rw [fill, if_neg (by omega)]
  | succ n ih =>
    rw [fill, store8_apply, ih]
    split_ifs <;> first | rfl | omega

theorem fill_of_outside {n x : ℕ} (h : x < a ∨ a + n ≤ x) : fill m a v n x = m x := by
  rw [fill_apply, if_neg (by omega)]

theorem fill_fill (m : Mem) (a v n : ℕ) : fill (fill m a v n) a v n = fill m a v n := by
  funext x
  rw [fill_apply, fill_apply]
  split_ifs <;> rfl

theorem storeBytes_apply (m : Mem) {a i : ℕ} {bs : List (BitVec 8)} (hi : i < bs.length) :
    storeBytes m a bs (a + i) = bs.getD i 0 := by
  rw [storeBytes, if_pos (by omega), Nat.add_sub_cancel_left]

theorem storeBytes_of_outside {x : ℕ} {bs : List (BitVec 8)} (h : x < a ∨ a + bs.length ≤ x) :
    storeBytes m a bs x = m x := by
  rw [storeBytes, if_neg (by omega)]

theorem storeBytes_nil (m : Mem) (a : ℕ) : storeBytes m a [] = m := by
  funext x
  exact if_neg fun h => absurd h.2 (Nat.not_lt_of_le h.1)

theorem storeBytes_cons (m : Mem) (a : ℕ) (c : BitVec 8) (bs : List (BitVec 8)) :
    storeBytes m a (c :: bs) = storeBytes (Function.update m a c) (a + 1) bs := by
  funext x
  simp only [storeBytes, List.length_cons]
  rcases Nat.lt_trichotomy x a with hx | rfl | hx
  · rw [if_neg (by omega), if_neg (by omega), Function.update_of_ne (Nat.ne_of_lt hx)]
  · rw [if_pos (by omega), if_neg (by omega), Nat.sub_self, Function.update_self]
    rfl
  · obtain ⟨k, rfl⟩ := Nat.exists_eq_add_of_lt hx
    rw [show a + k + 1 - a = k + 1 by omega, show a + k + 1 - (a + 1) = k by omega,
      Function.update_of_ne (Nat.ne_of_gt hx)]
    exact if_congr (by omega) rfl rfl

theorem storeBytes_concat (m : Mem) (a : ℕ) (bs : List (BitVec 8)) (c : BitVec 8) :
    storeBytes m a (bs ++ [c]) = Function.update (storeBytes m a bs) (a + bs.length) c := by
  induction bs generalizing m a with
  | nil =>
    rw [storeBytes_nil]
    exact (storeBytes_cons m a c []).trans (storeBytes_nil ..)
  | cons b bs ih =>
    rw [List.cons_append, storeBytes_cons, ih, storeBytes_cons, List.length_cons]
    congr 1
    omega

theorem loadBytes_storeBytes (m : Mem) (a : ℕ) (xs ys : List (BitVec 8)) :
    loadBytes (storeBytes m a (xs ++ ys)) (a + xs.length) ys.length = ys := by
  apply List.ext_getElem (by simp [loadBytes])
  intro i _ hi
  have hlen : xs.length + i < (xs ++ ys).length := by simpa using hi
  simp only [loadBytes, List.getElem_map, List.getElem_range, Nat.add_assoc]
  rw [storeBytes_apply m hlen, List.getD_eq_getElem?_getD, List.getElem?_append_right (by omega),
    Nat.add_sub_cancel_left, List.getElem?_eq_getElem hi, Option.getD_some]

end Unos.ByteMemory
