import Mathlib.Data.Finset.Card
import Mathlib.Order.Interval.Finset.Nat
import Mathlib.Tactic.Common

namespace Unos.BitWords

variable {w : ℕ}

/-- Bit `p` of an array of `w`-bit words. The array is indexed by integers, so that the words around
it can be spoken of as well. -/
def bitAt (m : ℤ → BitVec w) (p : ℕ) : Bool := (m (p / w : ℕ)).getLsbD (p % w)

def setBit (m : ℤ → BitVec w) (p : ℕ) : ℤ → BitVec w :=
  Function.update m (p / w : ℕ) (m (p / w : ℕ) ||| 1#w <<< (p % w))

def clearBit (m : ℤ → BitVec w) (p : ℕ) : ℤ → BitVec w :=
  Function.update m (p / w : ℕ) (m (p / w : ℕ) &&& ~~~(1#w <<< (p % w)))

/-- Set the bits `a`, `a + 1`, ..., `a + k - 1`, one after the other. -/
def setRange (m : ℤ → BitVec w) : ℕ → ℕ → ℤ → BitVec w
  | _, 0 => m
  | a, k + 1 => setRange (setBit m a) (a + 1) k

def clearRange (m : ℤ → BitVec w) : ℕ → ℕ → ℤ → BitVec w
  | _, 0 => m
  | a, k + 1 => clearRange (clearBit m a) (a + 1) k

theorem eq_of_div_mod {p q : ℕ} (hd : p / w = q / w) (hm : p % w = q % w) : p = q := by
  rw [← Nat.div_add_mod p w, ← Nat.div_add_mod q w, hd, hm]

theorem bitAt_update (m : ℤ → BitVec w) (i p : ℕ) (v : BitVec w) :
    bitAt (Function.update m i v) p =
      if p / w = i then v.getLsbD (p % w) else bitAt m p := by
  unfold bitAt
  by_cases h : p / w = i
  · simp [h]
  · rw [Function.update_of_ne (by exact_mod_cast h), if_neg h]

theorem getLsbD_mask (hw : 0 < w) {p q : ℕ} (hd : q / w = p / w) :
    (1#w <<< (p % w)).getLsbD (q % w) = decide (q = p) := by
  have hlt : p % w < w := Nat.mod_lt p hw
  have hiff : p % w = q % w ↔ q = p :=
    ⟨fun hm => eq_of_div_mod hd hm.symm, fun h => by rw [h]⟩
  rw [← BitVec.twoPow_eq, BitVec.getLsbD_twoPow]
  simp [hlt, hiff]

theorem bitAt_setBit (hw : 0 < w) (m : ℤ → BitVec w) (p q : ℕ) :
    bitAt (setBit m p) q = (decide (q = p) || bitAt m q) := by
  rw [setBit, bitAt_update]
  by_cases hd : q / w = p / w
  · rw [if_pos hd, BitVec.getLsbD_or, getLsbD_mask hw hd, Bool.or_comm, bitAt, hd]
  · have hne : q ≠ p := fun h => hd (by rw [h])
    simp [hd, hne]

theorem bitAt_clearBit (hw : 0 < w) (m : ℤ → BitVec w) (p q : ℕ) :
    bitAt (clearBit m p) q = (!decide (q = p) && bitAt m q) := by
  rw [clearBit, bitAt_update]
  by_cases hd : q / w = p / w
  · have hlt : q % w < w := Nat.mod_lt q hw
    rw [if_pos hd, BitVec.getLsbD_and, BitVec.getLsbD_not, getLsbD_mask hw hd, bitAt, hd]
    simp [hlt, Bool.and_comm]
  · have hne : q ≠ p := fun h => hd (by rw [h])
    simp [hd, hne]

theorem bitAt_setRange (hw : 0 < w) (m : ℤ → BitVec w) (a k q : ℕ) :
    bitAt (setRange m a k) q = (decide (a ≤ q ∧ q < a + k) || bitAt m q) := by
  induction k generalizing m a with
  | zero => simp [setRange]
  | succ k ih =>
    rw [setRange, ih, bitAt_setBit hw, ← Bool.or_assoc, ← Bool.decide_or]
    congr 2
    apply propext
    omega

theorem bitAt_clearRange (hw : 0 < w) (m : ℤ → BitVec w) (a k q : ℕ) :
    bitAt (clearRange m a k) q = (!decide (a ≤ q ∧ q < a + k) && bitAt m q) := by
  induction k generalizing m a with
  | zero => simp [clearRange, show ¬ (a ≤ q ∧ q < a) by omega]
  | succ k ih =>
    rw [clearRange, ih, bitAt_clearBit hw, ← Bool.and_assoc, ← Bool.not_or, ← Bool.decide_or]
    congr 3
    apply propext
    omega

theorem setRange_of_neg (m : ℤ → BitVec w) (a k : ℕ) {i : ℤ} (hi : i < 0) :
    setRange m a k i = m i := by
  induction k generalizing m a with
  | zero => rfl
  | succ k ih =>
    rw [setRange, ih, setBit, Function.update_of_ne (hi.trans_le (Int.natCast_nonneg _)).ne]

theorem clearRange_of_neg (m : ℤ → BitVec w) (a k : ℕ) {i : ℤ} (hi : i < 0) :
    clearRange m a k i = m i := by
  induction k generalizing m a with
  | zero => rfl
  | succ k ih =>
    rw [clearRange, ih, clearBit, Function.update_of_ne (hi.trans_le (Int.natCast_nonneg _)).ne]

theorem eq_of_bitAt {m m' : ℤ → BitVec w} (hw : 0 < w) (hneg : ∀ i < 0, m i = m' i)
    (hbit : ∀ p, bitAt m p = bitAt m' p) : m = m' := by
  funext i
  rcases lt_or_ge i 0 with hi | hi
  · exact hneg i hi
  · obtain ⟨n, rfl⟩ := Int.eq_ofNat_of_zero_le hi
    apply BitVec.eq_of_getLsbD_eq
    intro j hj
    have h := hbit (n * w + j)
    have hdiv : (n * w + j) / w = n := by
      rw [Nat.add_comm, Nat.add_mul_div_right _ _ hw, Nat.div_eq_of_lt hj, Nat.zero_add]
    have hmod : (n * w + j) % w = j := by
      rw [Nat.add_comm, Nat.add_mul_mod_self_right, Nat.mod_eq_of_lt hj]
    rwa [bitAt, bitAt, hdiv, hmod] at h

theorem clearRange_setRange (hw : 0 < w) {m : ℤ → BitVec w} {a k : ℕ}
    (h : ∀ p, a ≤ p → p < a + k → bitAt m p = false) : clearRange (setRange m a k) a k = m := by
  refine eq_of_bitAt hw (fun i hi => ?_) fun p => ?_
  · rw [clearRange_of_neg _ _ _ hi, setRange_of_neg _ _ _ hi]
  · rw [bitAt_clearRange hw, bitAt_setRange hw]
    by_cases hp : a ≤ p ∧ p < a + k
    · rw [h p hp.1 hp.2, decide_eq_true hp]
      rfl
    · rw [decide_eq_false hp]
      rfl

/-- The positions below `n` whose bit is set. -/
def ones (m : ℤ → BitVec w) (n : ℕ) : Finset ℕ := (Finset.range n).filter fun p => bitAt m p

@[simp] theorem mem_ones {m : ℤ → BitVec w} {n p : ℕ} : p ∈ ones m n ↔ p < n ∧ bitAt m p := by
  simp [ones]

theorem card_ones_le (m : ℤ → BitVec w) (n : ℕ) : (ones m n).card ≤ n := by
  simpa [ones] using Finset.card_filter_le (Finset.range n) fun p => bitAt m p = true

theorem ones_setRange (hw : 0 < w) (m : ℤ → BitVec w) (a k n : ℕ) :
    ones (setRange m a k) n = ones m n ∪ (Finset.Ico a (a + k) ∩ Finset.range n) := by
  ext p
  simp only [mem_ones, bitAt_setRange hw, Bool.or_eq_true, decide_eq_true_eq, Finset.mem_union,
    Finset.mem_inter, Finset.mem_Ico, Finset.mem_range]
  tauto

theorem ones_clearRange (hw : 0 < w) (m : ℤ → BitVec w) (a k n : ℕ) :
    ones (clearRange m a k) n = ones m n \ Finset.Ico a (a + k) := by
  ext p
  simp only [mem_ones, bitAt_clearRange hw, Bool.and_eq_true, Bool.not_eq_true',
    decide_eq_false_iff_not, Finset.mem_sdiff, Finset.mem_Ico]
  tauto

theorem ones_setBit (hw : 0 < w) (m : ℤ → BitVec w) {p n : ℕ} (hp : p < n) :
    ones (setBit m p) n = insert p (ones m n) := by
  ext q
  simp only [mem_ones, bitAt_setBit hw, Bool.or_eq_true, decide_eq_true_eq, Finset.mem_insert]
  constructor
  · rintro ⟨hq, rfl | h⟩
    · exact Or.inl rfl
    · exact Or.inr ⟨hq, h⟩
  · rintro (rfl | ⟨hq, h⟩)
    · exact ⟨hp, Or.inl rfl⟩
    · exact ⟨hq, Or.inr h⟩

/-- Setting `k` bits adds `k` to the count exactly when they were all clear and counted. -/
theorem card_ones_setRange_iff (hw : 0 < w) (m : ℤ → BitVec w) (a k n : ℕ) :
    (ones (setRange m a k) n).card = (ones m n).card + k ↔
      ∀ p, a ≤ p → p < a + k → p < n ∧ bitAt m p = false := by
  have hsplit : ones (setRange m a k) n =
      ones m n ∪ ((Finset.Ico a (a + k) ∩ Finset.range n) \ ones m n) := by
    rw [ones_setRange hw, Finset.union_sdiff_self_eq_union]
  have hcard : (ones (setRange m a k) n).card =
      (ones m n).card + ((Finset.Ico a (a + k) ∩ Finset.range n) \ ones m n).card := by
    rw [hsplit, Finset.card_union_of_disjoint Finset.disjoint_sdiff]
  have hsub : (Finset.Ico a (a + k) ∩ Finset.range n) \ ones m n ⊆ Finset.Ico a (a + k) :=
    Finset.sdiff_subset.trans Finset.inter_subset_left
  have hico : (Finset.Ico a (a + k)).card = k := by simp
  rw [hcard]
  constructor
  · intro h p hap hpk
    have heq := Finset.eq_of_subset_of_card_le hsub (by omega)
    have hp : p ∈ Finset.Ico a (a + k) := Finset.mem_Ico.mpr ⟨hap, hpk⟩
    rw [← heq] at hp
    simp only [Finset.mem_sdiff, Finset.mem_inter, Finset.mem_range, mem_ones, not_and,
      Bool.not_eq_true] at hp
    exact ⟨hp.1.2, hp.2 hp.1.2⟩
  · intro h
    have heq : (Finset.Ico a (a + k) ∩ Finset.range n) \ ones m n = Finset.Ico a (a + k) := by
      apply Finset.Subset.antisymm hsub
      intro p hp
      obtain ⟨hap, hpk⟩ := Finset.mem_Ico.mp hp
      obtain ⟨hpn, hbit⟩ := h p hap hpk
      simp [hap, hpk, hpn, hbit]
    rw [heq, hico]

/-- Clearing `k` bits takes `k` off the count exactly when they were all set and counted. -/
theorem card_ones_clearRange_iff (hw : 0 < w) (m : ℤ → BitVec w) (a k n : ℕ) :
    (ones (clearRange m a k) n).card + k = (ones m n).card ↔
      ∀ p, a ≤ p → p < a + k → p < n ∧ bitAt m p := by
  have hcard : (ones (clearRange m a k) n).card + (ones m n ∩ Finset.Ico a (a + k)).card =
      (ones m n).card := by
    rw [ones_clearRange hw, Finset.card_sdiff_add_card_inter]
  have hsub : ones m n ∩ Finset.Ico a (a + k) ⊆ Finset.Ico a (a + k) := Finset.inter_subset_right
  have hico : (Finset.Ico a (a + k)).card = k := by simp
  constructor
  · intro h p hap hpk
    have heq := Finset.eq_of_subset_of_card_le hsub (by omega)
    have hp : p ∈ Finset.Ico a (a + k) := Finset.mem_Ico.mpr ⟨hap, hpk⟩
    rw [← heq] at hp
    exact mem_ones.mp (Finset.mem_inter.mp hp).1
  · intro h
    have heq : ones m n ∩ Finset.Ico a (a + k) = Finset.Ico a (a + k) := by
      apply Finset.Subset.antisymm hsub
      intro p hp
      obtain ⟨hap, hpk⟩ := Finset.mem_Ico.mp hp
      exact Finset.mem_inter.mpr ⟨mem_ones.mpr (h p hap hpk), hp⟩
    rw [← hcard, heq, hico]

/-- Clearing `k` bits and setting bit `z` takes `k` off the count exactly when the `k` bits
were all set, and `z` was set and not one of them. -/
theorem card_ones_setBit_clearRange_iff (hw : 0 < w) (m : ℤ → BitVec w) (a k : ℕ) {n z : ℕ}
    (hz : z < n) :
    (ones (setBit (clearRange m a k) z) n).card + k = (ones m n).card ↔
      (∀ p, a ≤ p → p < a + k → p < n ∧ p ≠ z ∧ bitAt m p) ∧ bitAt m z := by
  have hcard : (ones (clearRange m a k) n).card + (ones m n ∩ Finset.Ico a (a + k)).card =
      (ones m n).card := by
    rw [ones_clearRange hw, Finset.card_sdiff_add_card_inter]
  have hle : (ones m n ∩ Finset.Ico a (a + k)).card ≤ k := by
    simpa using Finset.card_le_card
      (Finset.inter_subset_right : ones m n ∩ Finset.Ico a (a + k) ⊆ _)
  rw [ones_setBit hw _ hz]
  constructor
  · intro h
    have hge := Finset.card_le_card (Finset.subset_insert z (ones (clearRange m a k) n))
    have hclear : (ones (clearRange m a k) n).card + k = (ones m n).card := by omega
    have hz' : z ∈ ones (clearRange m a k) n := by
      by_contra hnot
      rw [Finset.card_insert_of_notMem hnot] at h
      omega
    have hbit := (mem_ones.mp hz').2
    simp only [bitAt_clearRange hw, Bool.and_eq_true, Bool.not_eq_true',
      decide_eq_false_iff_not] at hbit
    refine ⟨fun p hap hpk => ?_, hbit.2⟩
    obtain ⟨hpn, hp⟩ := (card_ones_clearRange_iff hw m a k n).mp hclear p hap hpk
    exact ⟨hpn, fun hpz => hbit.1 (hpz ▸ ⟨hap, hpk⟩), hp⟩
  · rintro ⟨hall, hbit⟩
    have hz' : z ∈ ones (clearRange m a k) n := by
      have hout : ¬ (a ≤ z ∧ z < a + k) := fun ⟨hap, hpk⟩ => (hall z hap hpk).2.1 rfl
      simp [bitAt_clearRange hw, hz, hbit, hout]
    rw [Finset.insert_eq_of_mem hz']
    exact (card_ones_clearRange_iff hw m a k n).mpr fun p hap hpk =>
      ⟨(hall p hap hpk).1, (hall p hap hpk).2.2⟩

end Unos.BitWords
