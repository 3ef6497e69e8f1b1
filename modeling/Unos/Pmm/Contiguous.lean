import Mathlib.Data.Nat.Count
import Unos.Pmm.Effects

namespace Unos.Pmm

open Unos.Words Unos.BitWords Unos.Search

/-- The bit with a number that is an `int`; the dwords are counted through the memory around
the array. -/
def signedBit (m : ℤ → BitVec 32) (b : ℤ) : Bool := (m (b.tdiv 32)).getLsbD (b % 32).toNat

/-- Where the window for bit `p` starts. -/
def windowStart (p : ℕ) : ℕ := p / 32 * 32 + 2 ^ (p % 32)

/-- How many of the bits from `start` on are clear, among the first `n`. -/
def clearBits (m : ℤ → BitVec 32) (start n : ℕ) : ℕ :=
  Nat.count (fun c => signedBit m (Int.bmod (start + c : ℕ) 4294967296) = false) n

/-- Bit `p` is clear, and so are `size` of the `size + 1` bits from `windowStart p` on. -/
def WindowFits (m : ℤ → BitVec 32) (size p : ℕ) : Prop :=
  bitAt m p = false ∧ size ≤ clearBits m (windowStart p) (size + 1)

theorem mmapTest_signedBit (m : ℤ → BitVec 32) (b : ℤ) : mmapTest m b = signedBit m b := by
  have hmod : b.tmod 32 % 32 = b % 32 := by
    have hdef := Int.tmod_def b 32
    omega
  have hlt : (b % 32).toNat < 32 := by omega
  have hbit := and_mask_eq_zero (m (b.tdiv 32)) (b % 32).toNat hlt
  rw [mmapTest, hmod, signedBit]
  cases h : (m (b.tdiv 32)).getLsbD (b % 32).toNat with
  | false =>
    rw [hbit.mpr h]
    rfl
  | true =>
    rw [bne_iff_ne]
    intro h0
    rw [hbit.mp h0] at h
    exact Bool.noConfusion h

theorem clearBits_succ (m : ℤ → BitVec 32) (start n : ℕ) :
    clearBits m start (n + 1) =
      clearBits m start n + if signedBit m (windowBit start n) = false then 1 else 0 :=
  Nat.count_succ _ _

theorem clearBits_test (m : ℤ → BitVec 32) (start n : ℕ) :
    (if mmapTest m (windowBit start n) = true then clearBits m start n
      else clearBits m start n + 1) = clearBits m start (n + 1) := by
  rw [clearBits_succ, mmapTest_signedBit]
  cases signedBit m (windowBit start n) <;> rfl

theorem windowLoop_iff (m : ℤ → BitVec 32) {size start : ℕ} (n count : ℕ)
    (hlt : clearBits m start count < size) :
    (windowLoop m size start n count (clearBits m start count)).1 = true ↔
      size ≤ clearBits m start (count + n) := by
  induction n generalizing count with
  | zero => exact iff_of_false Bool.false_ne_true (by simpa using hlt)
  | succ n ih =>
    have hmono : clearBits m start (count + 1) ≤ clearBits m start (count + (n + 1)) :=
      Nat.count_monotone _ (by omega)
    have hnext := ih (count + 1)
    rw [show count + 1 + n = count + (n + 1) by omega] at hnext
    simp only [windowLoop, clearBits_test]
    split_ifs with hdone
    · exact iff_of_true rfl (hdone ▸ hmono)
    · have hstep := clearBits_succ m start count
      have hle : clearBits m start (count + 1) ≤ clearBits m start count + 1 := by
        split_ifs at hstep <;> omega
      exact hnext (by omega)

theorem windowFits_iff {m : ℤ → BitVec 32} {size p : ℕ} (hsize : 1 ≤ size) :
    WindowFits m size p ↔
      bitAt m p = false ∧ (windowLoop m size (windowStart p) (size + 1) 0 0).1 = true := by
  have hzero : clearBits m (windowStart p) 0 < size := by
    rw [clearBits, Nat.count_zero]
    exact Nat.lt_of_lt_of_le Nat.zero_lt_one hsize
  have hloop := windowLoop_iff m (size + 1) 0 hzero
  rw [Nat.zero_add] at hloop
  rw [WindowFits, ← hloop, clearBits, Nat.count_zero]

theorem windowStart_eq {i j : ℕ} (hj : j < 32) : windowStart (i * 32 + j) = i * 32 + 2 ^ j := by
  rw [windowStart, show (i * 32 + j) / 32 = i by omega, show (i * 32 + j) % 32 = j by omega]

theorem windowBitLoop_finds (m : ℤ → BitVec 32) {size : ℕ} (hsize : 1 ≤ size) (i n : ℕ) :
    ∀ j, j + n ≤ 32 →
      FindsFirst (WindowFits m size) (i * 32 + j) (i * 32 + j + n)
        (windowBitLoop m size i n j).1 := by
  induction n with
  | zero => exact fun j _ => findsFirst_empty _
  | succ n ih =>
    intro j hj
    have hrest := ih (j + 1) (by omega)
    rw [show i * 32 + (j + 1) + n = i * 32 + j + (n + 1) by omega] at hrest
    have hdiv : (i * 32 + j) / 32 = i := by omega
    have hmod : (i * 32 + j) % 32 = j := by omega
    have hstops : WindowFits m size (i * 32 + j) ↔
        (m i).getLsbD j = false ∧
          (windowLoop m size (i * 32 + 2 ^ j) (size + 1) 0 0).1 = true := by
      rw [windowFits_iff hsize, bitAt, hdiv, hmod, windowStart_eq (by omega)]
    have hmiss : ¬ WindowFits m size (i * 32 + j) →
        FindsFirst (WindowFits m size) (i * 32 + j) (i * 32 + j + (n + 1))
          (windowBitLoop m size i n (j + 1)).1 := by
      intro hno
      refine FindsFirst.skip (by omega) (fun q hq hlt => ?_) hrest
      rwa [show q = i * 32 + j by omega]
    simp only [windowBitLoop]
    split_ifs with hbit hwin
    · have hclear := (and_mask_eq_zero (m i) j (by omega)).mp (beq_iff_eq.mp hbit)
      rw [show i * 4 * 8 + j = i * 32 + j by omega]
      exact ⟨le_rfl, by omega, hstops.mpr ⟨hclear, hwin⟩, fun q h1 h2 => absurd h2 (by omega)⟩
    · exact hmiss fun h => hwin (hstops.mp h).2
    · exact hmiss fun h =>
        hbit (beq_iff_eq.mpr ((and_mask_eq_zero (m i) j (by omega)).mpr (hstops.mp h).1))

theorem windowWordLoop_finds (m : ℤ → BitVec 32) {size : ℕ} (hsize : 1 ≤ size) (n i : ℕ) :
    FindsFirst (WindowFits m size) (i * 32) ((i + n) * 32) (windowWordLoop m size n i).1 := by
  induction n generalizing i with
  | zero => exact findsFirst_empty _
  | succ n ih =>
    have hrest := ih (i + 1)
    rw [show i + 1 + n = i + (n + 1) by omega] at hrest
    have hbits := windowBitLoop_finds m hsize i 32 0 (by omega)
    rw [Nat.add_zero] at hbits
    rw [windowWordLoop]
    split
    · rename_i f hf
      have hne : m i ≠ 0xffffffff#32 := fun h => by simp [h] at hf
      rw [if_pos hne] at hf
      rw [hf] at hbits
      exact FindsFirst.widen (by omega) hbits
    · rename_i hnone
      apply FindsFirst.skip (by omega) _ hrest
      intro q hq hlt hstop
      by_cases hfull : m i = 0xffffffff#32
      · exact used_of_full hfull q hq (by omega) hstop.1
      · rw [if_pos hfull] at hnone
        rw [hnone] at hbits
        exact hbits q hq (by omega) hstop

/-- The first frame that is free, of the whole dwords of the bitmap; for several frames the first
bit whose window fits, of `max_blocks` dwords. -/
def FirstFit (s : State) (size : ℕ) (r : Option ℕ) : Prop :=
  if size = 1 then FindsFirst (fun p => s.used p = false) 0 (s.maxBlocks / 32 * 32) r
  else FindsFirst (WindowFits s.memoryMap size) 0 (s.maxBlocks * 32) r

theorem mmapFirstFreeS_finds (s : State) {size : ℕ} (hsize : size ≠ 0) :
    FirstFit s size (mmapFirstFreeS s size).1 := by
  rw [mmapFirstFreeS, if_neg hsize, FirstFit]
  split_ifs with h1
  · exact mmapFirstFree_finds s
  · have h := windowWordLoop_finds s.memoryMap (Nat.one_le_iff_ne_zero.mpr hsize) s.maxBlocks 0
    rwa [Nat.zero_mul, Nat.zero_add] at h

theorem setLoop_memoryMap (s : State) (a n : ℕ) (h : a + n ≤ 4294967296) :
    (setLoop s a n).memoryMap = setRange s.memoryMap a n := by
  induction n generalizing s a with
  | zero => rfl
  | succ n ih =>
    rw [setLoop, ih _ _ (by omega), mmapSet_memoryMap, wrap32_of_lt (by omega), setRange]

theorem unsetLoop_memoryMap (s : State) (a n : ℕ) (h : a + n ≤ 4294967296) :
    (unsetLoop s a n).memoryMap = clearRange s.memoryMap a n := by
  induction n generalizing s a with
  | zero => rfl
  | succ n ih =>
    rw [unsetLoop, ih _ _ (by omega), mmapUnset_memoryMap, wrap32_of_lt (by omega), clearRange]

theorem setLoop_used_of_used (s : State) (a n : ℕ) {f : ℕ} (hf : s.used f = true) :
    (setLoop s a n).used f = true := by
  induction n generalizing s a with
  | zero => exact hf
  | succ n ih =>
    refine ih _ _ ?_
    rw [mmapSet_used, hf, Bool.or_true]

@[simp] theorem setLoop_usedBlocks (s : State) (a n : ℕ) :
    (setLoop s a n).usedBlocks = s.usedBlocks := by
  induction n generalizing s a with
  | zero => rfl
  | succ n ih => rw [setLoop, ih, mmapSet_usedBlocks]

@[simp] theorem unsetLoop_usedBlocks (s : State) (a n : ℕ) :
    (unsetLoop s a n).usedBlocks = s.usedBlocks := by
  induction n generalizing s a with
  | zero => rfl
  | succ n ih => rw [unsetLoop, ih, mmapUnset_usedBlocks]

@[simp] theorem setLoop_memorySize (s : State) (a n : ℕ) :
    (setLoop s a n).memorySize = s.memorySize := by
  induction n generalizing s a with
  | zero => rfl
  | succ n ih => rw [setLoop, ih, mmapSet_memorySize]

@[simp] theorem setLoop_maxBlocks (s : State) (a n : ℕ) :
    (setLoop s a n).maxBlocks = s.maxBlocks := by
  induction n generalizing s a with
  | zero => rfl
  | succ n ih => rw [setLoop, ih, mmapSet_maxBlocks]

@[simp] theorem unsetLoop_memorySize (s : State) (a n : ℕ) :
    (unsetLoop s a n).memorySize = s.memorySize := by
  induction n generalizing s a with
  | zero => rfl
  | succ n ih => rw [unsetLoop, ih, mmapUnset_memorySize]

@[simp] theorem unsetLoop_maxBlocks (s : State) (a n : ℕ) :
    (unsetLoop s a n).maxBlocks = s.maxBlocks := by
  induction n generalizing s a with
  | zero => rfl
  | succ n ih => rw [unsetLoop, ih, mmapUnset_maxBlocks]

/-- The outcomes of `pmm_alloc_blocks`: nothing happens to the bitmap, or the frames from
the one where the search stops are marked and counted. -/
theorem pmmAllocBlocks_cases (s : State) (size : ℕ) :
    ∃ l : List ℤ,
      (pmmAllocBlocks s size = (0, s.touch l) ∧
        (size < pmmGetFreeBlockCount s → size ≠ 0 → FirstFit s size none)) ∨
      ∃ f, size < pmmGetFreeBlockCount s ∧ size ≠ 0 ∧ FirstFit s size (some f) ∧
        pmmAllocBlocks s size = (wrap32 (f * 4096),
          { setLoop (s.touch l) f size with usedBlocks := wrap32 (s.usedBlocks + size) }) := by
  by_cases hfree : pmmGetFreeBlockCount s ≤ size
  · refine ⟨[], Or.inl ⟨?_, fun h => absurd h (by omega)⟩⟩
    simp only [pmmAllocBlocks, if_pos hfree, State.touch, List.nil_append]
  · refine ⟨(mmapFirstFreeS s size).2, ?_⟩
    by_cases hsize : size = 0
    · left
      have hr : (mmapFirstFreeS s size).1 = none := by rw [mmapFirstFreeS, if_pos hsize]
      refine ⟨?_, fun _ h => absurd hsize h⟩
      simp only [pmmAllocBlocks, if_neg hfree, hr]
    · have hfind := mmapFirstFreeS_finds s hsize
      cases hr : (mmapFirstFreeS s size).1 with
      | none =>
        rw [hr] at hfind
        left
        refine ⟨?_, fun _ _ => hfind⟩
        simp only [pmmAllocBlocks, if_neg hfree, hr]
      | some f =>
        rw [hr] at hfind
        right
        refine ⟨f, by omega, hsize, hfind, ?_⟩
        simp only [pmmAllocBlocks, if_neg hfree, hr, setLoop_usedBlocks, touch_usedBlocks]

@[simp] theorem pmmAllocBlocks_maxBlocks (s : State) (size : ℕ) :
    (pmmAllocBlocks s size).2.maxBlocks = s.maxBlocks := by
  obtain ⟨l, ⟨heq, -⟩ | ⟨f, -, -, -, heq⟩⟩ := pmmAllocBlocks_cases s size
  · rw [heq, touch_maxBlocks]
  · rw [heq]
    exact (setLoop_maxBlocks (s.touch l) f size).trans (touch_maxBlocks s l)

@[simp] theorem pmmFreeBlocks_memorySize (s : State) (p size : ℕ) :
    (pmmFreeBlocks s p size).memorySize = s.memorySize := by
  simp only [pmmFreeBlocks, unsetLoop_memorySize]

@[simp] theorem pmmFreeBlocks_maxBlocks (s : State) (p size : ℕ) :
    (pmmFreeBlocks s p size).maxBlocks = s.maxBlocks := by
  simp only [pmmFreeBlocks, unsetLoop_maxBlocks]

end Unos.Pmm
