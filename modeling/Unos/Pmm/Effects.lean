import Unos.Pmm.Model

namespace Unos.Pmm

open Unos.Words Unos.BitWords Unos.Search

/-- The frames a region call goes over: both the base and the length are rounded down. -/
def regionFrames (base size f : ℕ) : Prop := base / 4096 ≤ f ∧ f < base / 4096 + size / 4096

instance (base size f : ℕ) : Decidable (regionFrames base size f) :=
  inferInstanceAs (Decidable (_ ∧ _))

@[simp] theorem touch_usedBlocks (s : State) (l : List ℤ) :
    (s.touch l).usedBlocks = s.usedBlocks := rfl
@[simp] theorem touch_maxBlocks (s : State) (l : List ℤ) :
    (s.touch l).maxBlocks = s.maxBlocks := rfl
@[simp] theorem touch_touched (s : State) (l : List ℤ) : (s.touch l).touched = l ++ s.touched := rfl

@[simp] theorem mmapSet_memoryMap (s : State) (f : ℕ) :
    (mmapSet s f).memoryMap = setBit s.memoryMap f := rfl
@[simp] theorem mmapSet_usedBlocks (s : State) (f : ℕ) :
    (mmapSet s f).usedBlocks = s.usedBlocks := rfl
@[simp] theorem mmapSet_maxBlocks (s : State) (f : ℕ) : (mmapSet s f).maxBlocks = s.maxBlocks := rfl
@[simp] theorem mmapSet_memorySize (s : State) (f : ℕ) :
    (mmapSet s f).memorySize = s.memorySize := rfl
@[simp] theorem mmapSet_touched (s : State) (f : ℕ) :
    (mmapSet s f).touched = ((f / 32 : ℕ) : ℤ) :: s.touched := rfl

theorem mmapSet_used (s : State) (f g : ℕ) :
    (mmapSet s f).used g = (decide (g = f) || s.used g) :=
  bitAt_setBit (by decide) _ _ _

@[simp] theorem mmapUnset_memoryMap (s : State) (f : ℕ) :
    (mmapUnset s f).memoryMap = clearBit s.memoryMap f := rfl
@[simp] theorem mmapUnset_usedBlocks (s : State) (f : ℕ) :
    (mmapUnset s f).usedBlocks = s.usedBlocks := rfl
@[simp] theorem mmapUnset_maxBlocks (s : State) (f : ℕ) :
    (mmapUnset s f).maxBlocks = s.maxBlocks := rfl
@[simp] theorem mmapUnset_memorySize (s : State) (f : ℕ) :
    (mmapUnset s f).memorySize = s.memorySize := rfl
@[simp] theorem mmapUnset_touched (s : State) (f : ℕ) :
    (mmapUnset s f).touched = ((f / 32 : ℕ) : ℤ) :: s.touched := rfl

theorem bitAt_storeByte (m : ℤ → BitVec 32) (k : ℕ) (c : BitVec 8) (p : ℕ) :
    bitAt (storeByte m k c) p = if p / 8 = k then c.getLsbD (p % 8) else bitAt m p := by
  rw [storeByte, bitAt_update]
  by_cases hw : p / 32 = k / 4
  · have hp : p % 32 < 32 := Nat.mod_lt _ (by decide)
    have hff : ∀ j, (0xff#32).getLsbD j = decide (j < 8) := by
      intro j
      rw [show (0xff#32 : BitVec 32) = BitVec.ofNat 32 (2 ^ 8 - 1) by rfl, BitVec.getLsbD_ofNat,
        Nat.testBit_two_pow_sub_one]
      by_cases hj : j < 8
      · simp [hj, show j < 32 by omega]
      · simp [hj]
    rw [if_pos hw, BitVec.getLsbD_or, BitVec.getLsbD_and, BitVec.getLsbD_not,
      BitVec.getLsbD_shiftLeft, BitVec.getLsbD_shiftLeft, hff, BitVec.getLsbD_setWidth]
    by_cases hk : p / 8 = k
    · have hge : ¬ p % 32 < 8 * (k % 4) := by omega
      have hsub : p % 32 - 8 * (k % 4) = p % 8 := by omega
      have h8 : p % 8 < 8 := Nat.mod_lt _ (by decide)
      simp [hk, hp, hge, hsub, h8, show p % 8 < 32 by omega]
    · by_cases hge : p % 32 < 8 * (k % 4)
      · simp [hk, hp, hge, bitAt, hw]
      · have hsub : ¬ p % 32 - 8 * (k % 4) < 8 := by omega
        have hz : c.getLsbD (p % 32 - 8 * (k % 4)) = false := BitVec.getLsbD_of_ge _ _ (by omega)
        simp [hk, hp, hge, hsub, hz, bitAt, hw]
  · have hk : p / 8 ≠ k := fun h => hw (by omega)
    rw [if_neg hw, if_neg hk]

theorem bitAt_memsetMap (m : ℤ → BitVec 32) (n p : ℕ) :
    bitAt (memsetMap m 0xff n) p = (decide (p < 8 * n) || bitAt m p) := by
  induction n with
  | zero => simp [memsetMap]
  | succ n ih =>
    have hff : ∀ j, j < 8 → (0xff : BitVec 8).getLsbD j = true := by decide
    rw [memsetMap, bitAt_storeByte]
    split_ifs with h
    · rw [hff _ (Nat.mod_lt _ (by decide))]
      simp [show p < 8 * (n + 1) by omega]
    · rw [ih]
      congr 2
      apply propext
      omega

theorem bootState_used (around : ℤ → BitVec 32) {f : ℕ} (hf : f < 1048576) :
    (bootState around).used f = false := by
  have hsize : bitmapSize = 32768 := rfl
  have hword : (bootState around).memoryMap (f / 32 : ℕ) = 0#32 := by
    simp only [bootState]
    rw [if_pos (by omega)]
    rfl
  rw [State.used, bitAt, hword, BitVec.getLsbD_zero]

theorem initPmm_used (memSize : ℕ) (s : State) (f : ℕ) :
    (initPmm memSize s).used f = (decide (f < 8 * (memSize / 4096 / 8)) || s.used f) :=
  bitAt_memsetMap s.memoryMap (memSize / 4096 / 8) f

@[simp] theorem initPmm_maxBlocks (memSize : ℕ) (s : State) :
    (initPmm memSize s).maxBlocks = memSize / 4096 := rfl

@[simp] theorem initPmm_usedBlocks (memSize : ℕ) (s : State) :
    (initPmm memSize s).usedBlocks = memSize / 4096 := rfl

theorem exists_range_empty (a : ℕ) (i : ℤ) :
    (∃ f, a ≤ f ∧ f < a + 0 ∧ i = ((f / 32 : ℕ) : ℤ)) ↔ False :=
  iff_false_intro fun ⟨_, h1, h2, _⟩ => by omega

theorem exists_range_succ (a k : ℕ) (i : ℤ) :
    ((∃ f, a + 1 ≤ f ∧ f < a + 1 + k ∧ i = ((f / 32 : ℕ) : ℤ)) ∨ i = ((a / 32 : ℕ) : ℤ)) ↔
      ∃ f, a ≤ f ∧ f < a + (k + 1) ∧ i = ((f / 32 : ℕ) : ℤ) := by
  constructor
  · rintro (⟨f, h1, h2, h3⟩ | h)
    · exact ⟨f, by omega, by omega, h3⟩
    · exact ⟨a, le_rfl, by omega, h⟩
  · rintro ⟨f, h1, h2, h3⟩
    by_cases hf : f = a
    · exact Or.inr (hf ▸ h3)
    · exact Or.inl ⟨f, by omega, by omega, h3⟩

theorem initRegionLoop_memoryMap (s : State) (a k : ℕ) :
    (initRegionLoop s a k).memoryMap = clearRange s.memoryMap a k := by
  induction k generalizing s a with
  | zero => rfl
  | succ k ih => simp only [initRegionLoop, ih, clearRange, mmapUnset_memoryMap]

theorem initRegionLoop_usedBlocks (s : State) (hs : s.usedBlocks < 4294967296) (a k : ℕ) :
    (initRegionLoop s a k).usedBlocks = sub32 s.usedBlocks k := by
  induction k generalizing s a with
  | zero => rw [initRegionLoop, sub32_of_le (Nat.zero_le _) hs, Nat.sub_zero]
  | succ k ih =>
    simp only [initRegionLoop]
    rw [ih _ (sub32_lt _ _), sub32_sub32, Nat.add_comm]

theorem initRegionLoop_maxBlocks (s : State) (a k : ℕ) :
    (initRegionLoop s a k).maxBlocks = s.maxBlocks := by
  induction k generalizing s a with
  | zero => rfl
  | succ k ih => simp only [initRegionLoop, ih, mmapUnset_maxBlocks]

theorem initRegionLoop_memorySize (s : State) (a k : ℕ) :
    (initRegionLoop s a k).memorySize = s.memorySize := by
  induction k generalizing s a with
  | zero => rfl
  | succ k ih => simp only [initRegionLoop, ih, mmapUnset_memorySize]

theorem mem_initRegionLoop_touched (s : State) (a k : ℕ) (i : ℤ) :
    i ∈ (initRegionLoop s a k).touched ↔
      (∃ f, a ≤ f ∧ f < a + k ∧ i = ((f / 32 : ℕ) : ℤ)) ∨ i ∈ s.touched := by
  induction k generalizing s a with
  | zero => simp only [initRegionLoop, exists_range_empty, false_or]
  | succ k ih =>
    rw [initRegionLoop, ih, mmapUnset_touched, List.mem_cons, ← or_assoc, exists_range_succ]

theorem deinitRegionLoop_memoryMap (s : State) (a k : ℕ) :
    (deinitRegionLoop s a k).memoryMap = setRange s.memoryMap a k := by
  induction k generalizing s a with
  | zero => rfl
  | succ k ih => simp only [deinitRegionLoop, ih, setRange, mmapSet_memoryMap]

theorem deinitRegionLoop_usedBlocks (s : State) (hs : s.usedBlocks < 4294967296) (a k : ℕ) :
    (deinitRegionLoop s a k).usedBlocks = wrap32 (s.usedBlocks + k) := by
  induction k generalizing s a with
  | zero => rw [deinitRegionLoop, Nat.add_zero, wrap32_of_lt hs]
  | succ k ih =>
    simp only [deinitRegionLoop]
    rw [ih _ (wrap32_lt _), wrap32_add_left, Nat.add_assoc, Nat.add_comm 1 k]

theorem deinitRegionLoop_maxBlocks (s : State) (a k : ℕ) :
    (deinitRegionLoop s a k).maxBlocks = s.maxBlocks := by
  induction k generalizing s a with
  | zero => rfl
  | succ k ih => simp only [deinitRegionLoop, ih, mmapSet_maxBlocks]

theorem deinitRegionLoop_memorySize (s : State) (a k : ℕ) :
    (deinitRegionLoop s a k).memorySize = s.memorySize := by
  induction k generalizing s a with
  | zero => rfl
  | succ k ih => simp only [deinitRegionLoop, ih, mmapSet_memorySize]

theorem mem_deinitRegionLoop_touched (s : State) (a k : ℕ) (i : ℤ) :
    i ∈ (deinitRegionLoop s a k).touched ↔
      (∃ f, a ≤ f ∧ f < a + k ∧ i = ((f / 32 : ℕ) : ℤ)) ∨ i ∈ s.touched := by
  induction k generalizing s a with
  | zero => simp only [deinitRegionLoop, exists_range_empty, false_or]
  | succ k ih =>
    rw [deinitRegionLoop, ih, mmapSet_touched, List.mem_cons, ← or_assoc, exists_range_succ]

/-- `pmm_init_region` frees the frames of its region and reserves frame 0. -/
theorem pmmInitRegion_used (s : State) (base size f : ℕ) :
    (pmmInitRegion s base size).used f =
      (decide (f = 0) || (!decide (regionFrames base size f) && s.used f)) := by
  simp only [State.used, pmmInitRegion, mmapSet_memoryMap, initRegionLoop_memoryMap,
    bitAt_setBit (by decide : 0 < 32), bitAt_clearRange (by decide : 0 < 32)]
  rfl

@[simp] theorem pmmInitRegion_memorySize (s : State) (base size : ℕ) :
    (pmmInitRegion s base size).memorySize = s.memorySize :=
  initRegionLoop_memorySize s _ _

@[simp] theorem pmmInitRegion_maxBlocks (s : State) (base size : ℕ) :
    (pmmInitRegion s base size).maxBlocks = s.maxBlocks :=
  initRegionLoop_maxBlocks s _ _

/-- `pmm_deinit_region` reserves the frames of its region. -/
theorem pmmDeinitRegion_used (s : State) (base size f : ℕ) :
    (pmmDeinitRegion s base size).used f = (decide (regionFrames base size f) || s.used f) := by
  simp only [State.used, pmmDeinitRegion, deinitRegionLoop_memoryMap,
    bitAt_setRange (by decide : 0 < 32)]
  rfl

@[simp] theorem pmmDeinitRegion_memorySize (s : State) (base size : ℕ) :
    (pmmDeinitRegion s base size).memorySize = s.memorySize :=
  deinitRegionLoop_memorySize s _ _

@[simp] theorem pmmDeinitRegion_maxBlocks (s : State) (base size : ℕ) :
    (pmmDeinitRegion s base size).maxBlocks = s.maxBlocks :=
  deinitRegionLoop_maxBlocks s _ _

theorem and_mask_eq_zero (word : BitVec 32) (j : ℕ) (hj : j < 32) :
    word &&& 1#32 <<< j = 0 ↔ word.getLsbD j = false := by
  rw [← BitVec.twoPow_eq, BitVec.and_twoPow]
  cases word.getLsbD j
  · simp
  · have hne : BitVec.twoPow 32 j ≠ 0 := by
      intro h
      have hbit := congrArg (BitVec.getLsbD · j) h
      simp [hj] at hbit
    simpa using hne

theorem used_of_full {m : ℤ → BitVec 32} {i : ℕ} (h : m i = 0xffffffff#32) :
    ∀ p, i * 32 ≤ p → p < i * 32 + 32 → ¬ bitAt m p = false := by
  intro p hp hlt hbit
  have hi : p / 32 = i := by omega
  have hones : ∀ j, j < 32 → (0xffffffff#32).getLsbD j = true := by decide
  rw [bitAt, hi, h, hones _ (Nat.mod_lt _ (by decide))] at hbit
  exact Bool.noConfusion hbit

theorem firstClear_finds (m : ℤ → BitVec 32) (i : ℕ) :
    FindsFirst (fun p => bitAt m p = false) (i * 32) (i * 32 + 32)
      ((firstClear (m i)).map (i * 32 + ·)) := by
  apply findsFirst_range
  intro j hj
  rw [beq_iff_eq, and_mask_eq_zero _ j hj, bitAt, show (i * 32 + j) / 32 = i by omega,
    show (i * 32 + j) % 32 = j by omega]

theorem firstFreeLoop_finds (m : ℤ → BitVec 32) (n i : ℕ) :
    FindsFirst (fun p => bitAt m p = false) (i * 32) ((i + n) * 32) (firstFreeLoop m n i).1 := by
  induction n generalizing i with
  | zero => exact findsFirst_empty _
  | succ n ih =>
    have hrest := ih (i + 1)
    rw [show i + 1 + n = i + (n + 1) by omega] at hrest
    have hfirst := firstClear_finds m i
    rw [firstFreeLoop]
    split
    · rename_i j hj
      have hne : m i ≠ 0xffffffff#32 := fun h => by simp [h] at hj
      rw [if_pos hne] at hj
      rw [hj] at hfirst
      rw [show i * 4 * 8 + j = i * 32 + j by omega]
      exact FindsFirst.widen (by omega) hfirst
    · rename_i hnone
      apply FindsFirst.skip (by omega) _ hrest
      intro q hq hlt
      by_cases hfull : m i = 0xffffffff#32
      · exact used_of_full hfull q hq (by omega)
      · rw [if_pos hfull] at hnone
        rw [hnone] at hfirst
        exact hfirst q hq (by omega)

theorem firstFreeLoop_reads (m : ℤ → BitVec 32) (n i : ℕ) :
    ∀ k ∈ (firstFreeLoop m n i).2, (i : ℤ) ≤ k ∧ k < i + n := by
  induction n generalizing i with
  | zero => simp [firstFreeLoop]
  | succ n ih =>
    intro k hk
    rw [firstFreeLoop] at hk
    split at hk
    · rw [List.mem_singleton] at hk
      omega
    · rcases List.mem_cons.mp hk with hk | hk
      · omega
      · have := ih (i + 1) k hk
        omega

theorem mmapFirstFree_finds (s : State) :
    FindsFirst (fun p => s.used p = false) 0 (s.maxBlocks / 32 * 32) (mmapFirstFree s).1 := by
  have h := firstFreeLoop_finds s.memoryMap (s.maxBlocks / 32) 0
  rwa [Nat.zero_mul, Nat.zero_add] at h

/-- The two outcomes of `pmm_alloc_block`: nothing happens to the bitmap, or the first
free frame of the scanned dwords is marked and counted. -/
theorem pmmAllocBlock_cases (s : State) :
    ∃ l : List ℤ, (∀ k ∈ l, 0 ≤ k ∧ k < (s.maxBlocks / 32 : ℕ)) ∧
      (pmmAllocBlock s = (0, s.touch l) ∨
      ∃ f, FindsFirst (fun p => s.used p = false) 0 (s.maxBlocks / 32 * 32) (some f) ∧
        pmmAllocBlock s = (wrap32 (f * 4096),
          { mmapSet (s.touch l) f with usedBlocks := wrap32 (s.usedBlocks + 1) })) := by
  by_cases hfree : pmmGetFreeBlockCount s = 0
  · refine ⟨[], by simp, Or.inl ?_⟩
    simp only [pmmAllocBlock, if_pos hfree, State.touch, List.nil_append]
  · have hfind := mmapFirstFree_finds s
    have hreads := firstFreeLoop_reads s.memoryMap (s.maxBlocks / 32) 0
    refine ⟨(mmapFirstFree s).2, fun k hk => by have := hreads k hk; omega, ?_⟩
    cases hr : (mmapFirstFree s).1 with
    | none =>
      left
      simp only [pmmAllocBlock, if_neg hfree, hr]
    | some f =>
      rw [hr] at hfind
      right
      refine ⟨f, hfind, ?_⟩
      simp only [pmmAllocBlock, if_neg hfree, hr, touch_usedBlocks]

theorem pmmAllocBlock_maxBlocks (s : State) : (pmmAllocBlock s).2.maxBlocks = s.maxBlocks := by
  obtain ⟨l, -, heq | ⟨f, -, heq⟩⟩ := pmmAllocBlock_cases s
  · rw [heq, touch_maxBlocks]
  · rw [heq]
    simp only [mmapSet_maxBlocks, touch_maxBlocks]

theorem pmmAllocBlock_of_finds {s : State} {f : ℕ} (hfree : pmmGetFreeBlockCount s ≠ 0)
    (hf : FindsFirst (fun p => s.used p = false) 0 (s.maxBlocks / 32 * 32) (some f)) :
    pmmAllocBlock s = (wrap32 (f * 4096),
      { mmapSet (s.touch (mmapFirstFree s).2) f
      with usedBlocks := wrap32 (s.usedBlocks + 1) }) := by
  have hr : (mmapFirstFree s).1 = some f := by
    have hfind := mmapFirstFree_finds s
    cases hg : (mmapFirstFree s).1 with
    | none =>
      rw [hg] at hfind
      exact absurd hf.2.2.1 (hfind f hf.1 hf.2.1)
    | some g =>
      rw [hg] at hfind
      rw [hfind.unique hf]
  simp only [pmmAllocBlock, if_neg hfree, hr, touch_usedBlocks]

@[simp] theorem pmmFreeBlock_maxBlocks (s : State) (p : ℕ) :
    (pmmFreeBlock s p).maxBlocks = s.maxBlocks := by
  simp only [pmmFreeBlock, mmapUnset_maxBlocks]

@[simp] theorem pmmFreeBlock_memorySize (s : State) (p : ℕ) :
    (pmmFreeBlock s p).memorySize = s.memorySize := by
  simp only [pmmFreeBlock, mmapUnset_memorySize]

theorem pmmFreeBlock_used (s : State) (p f : ℕ) :
    (pmmFreeBlock s p).used f = (!decide (f = p / 4096) && s.used f) :=
  bitAt_clearBit (by decide) _ _ _

end Unos.Pmm
