import Unos.Library.Runs
import Unos.Pmm.Contiguous

namespace Unos.Pmm

open Unos.Words Unos.BitWords Unos.Search Unos.Runs

/-- The counter is the number of set bits, and the free count that is computed from it
is the number of clear bits. -/
def Accounted (s : State) : Prop :=
  s.usedBlocks = (ones s.memoryMap s.maxBlocks).card ∧
  pmmGetFreeBlockCount s = ((Finset.range s.maxBlocks).filter fun f => s.used f = false).card

theorem card_clear_add_ones (m : ℤ → BitVec 32) (n : ℕ) :
    ((Finset.range n).filter fun f => bitAt m f = false).card + (ones m n).card = n := by
  have h := Finset.card_filter_add_card_filter_not (s := Finset.range n)
    (fun f => bitAt m f = false)
  rw [Finset.card_range] at h
  simpa [ones] using h

theorem accounted_iff {s : State} (hmax : s.maxBlocks < 2147483648) :
    Accounted s ↔ s.usedBlocks = (ones s.memoryMap s.maxBlocks).card := by
  refine ⟨And.left, fun h => ⟨h, ?_⟩⟩
  have hsum : ((Finset.range s.maxBlocks).filter fun f => s.used f = false).card +
      (ones s.memoryMap s.maxBlocks).card = s.maxBlocks := card_clear_add_ones _ _
  rw [pmmGetFreeBlockCount, h, sub32_of_le (by omega) (by omega)]
  omega

theorem freeCount_le {s : State} (hs : Accounted s) : pmmGetFreeBlockCount s ≤ s.maxBlocks := by
  rw [hs.2]
  simpa using Finset.card_filter_le (Finset.range s.maxBlocks) fun f => s.used f = false

/-- The allocator with its live allocations, each an address and a number of blocks. -/
structure Ledger where
  pmm : State
  live : List (ℕ × ℕ)

inductive Call
  | initRegion (base size : ℕ)
  | deinitRegion (base size : ℕ)
  | allocBlock
  | allocBlocks (size : ℕ)
  | freeBlock (p : ℕ)
  | freeBlocks (p size : ℕ)

/-- One call: regions lie below the managed size, and only live allocations are freed. -/
def ledgerStep (l : Ledger) : Call → Option Ledger
  | .initRegion base size =>
    if base + size ≤ l.pmm.memorySize then some ⟨pmmInitRegion l.pmm base size, l.live⟩ else none
  | .deinitRegion base size =>
    if base + size ≤ l.pmm.memorySize then some ⟨pmmDeinitRegion l.pmm base size, l.live⟩ else none
  | .allocBlock =>
    let r := pmmAllocBlock l.pmm
    some ⟨r.2, if r.1 = 0 then l.live else (r.1, 1) :: l.live⟩
  | .allocBlocks size =>
    let r := pmmAllocBlocks l.pmm size
    some ⟨r.2, if r.1 = 0 then l.live else (r.1, size) :: l.live⟩
  | .freeBlock p =>
    if (p, 1) ∈ l.live then some ⟨pmmFreeBlock l.pmm p, l.live.erase (p, 1)⟩ else none
  | .freeBlocks p size =>
    if (p, size) ∈ l.live then some ⟨pmmFreeBlocks l.pmm p size, l.live.erase (p, size)⟩ else none

def Balanced (s : State) : Call → Prop
  | .initRegion base size => ∀ f, regionFrames base size f → f ≠ 0 ∧ s.used f = true
  | .deinitRegion base size => ∀ f, regionFrames base size f → s.used f = false
  | .allocBlock => True
  | .allocBlocks size => size < pmmGetFreeBlockCount s → 2 ≤ size →
      ∀ f, FirstFit s size (some f) →
        ∀ g, f ≤ g → g < f + size → g < s.maxBlocks ∧ s.used g = false
  | .freeBlock p => p / 4096 < s.maxBlocks ∧ s.used (p / 4096) = true
  | .freeBlocks p size =>
      ∀ g, p / 4096 ≤ g → g < p / 4096 + size → g < s.maxBlocks ∧ s.used g = true

structure LedgerInv (l : Ledger) : Prop where
  max : l.pmm.maxBlocks = l.pmm.memorySize / 4096
  size : l.pmm.memorySize < 4294967296
  zero : 0 < l.pmm.maxBlocks → l.pmm.used 0 = true
  live : ∀ a ∈ l.live, a.1 / 4096 ≠ 0 ∧ a.1 < 4294967296 ∧ a.2 < 1048576

section Calls

variable {s : State}

theorem accounted_set_iff {t : State} {a k : ℕ} (hs : Accounted s)
    (hmax : s.maxBlocks < 1048576) (hk : k < 1048576) (htmax : t.maxBlocks = s.maxBlocks)
    (hmap : t.memoryMap = setRange s.memoryMap a k)
    (hused : t.usedBlocks = wrap32 (s.usedBlocks + k)) :
    Accounted t ↔ ∀ p, a ≤ p → p < a + k → p < s.maxBlocks ∧ s.used p = false := by
  have hle := card_ones_le s.memoryMap s.maxBlocks
  have hs' := hs.1
  rw [accounted_iff (by omega), ← card_ones_setRange_iff (by decide), htmax, hmap, hused,
    wrap32_of_lt (by omega), hs', eq_comm]

theorem accounted_clear_iff {t : State} {a k : ℕ} (hs : Accounted s)
    (hmax : s.maxBlocks < 1048576) (hk : k < 1048576) (htmax : t.maxBlocks = s.maxBlocks)
    (hmap : t.memoryMap = clearRange s.memoryMap a k)
    (hused : t.usedBlocks = sub32 s.usedBlocks k) :
    Accounted t ↔ ∀ p, a ≤ p → p < a + k → p < s.maxBlocks ∧ s.used p = true := by
  have hle := card_ones_le s.memoryMap s.maxBlocks
  have hle' := card_ones_le (clearRange s.memoryMap a k) s.maxBlocks
  rw [accounted_iff (by omega), ← card_ones_clearRange_iff (by decide), htmax, hmap, hused, hs.1]
  exact sub32_eq_iff (by omega) (by omega) (by omega)

theorem accounted_initRegion_iff {base size : ℕ} (hs : Accounted s)
    (hmax : s.maxBlocks < 1048576) (hzero : 0 < s.maxBlocks → s.used 0 = true)
    (hregion : base / 4096 + size / 4096 ≤ s.maxBlocks) :
    Accounted (pmmInitRegion s base size) ↔ Balanced s (.initRegion base size) := by
  have hle := card_ones_le s.memoryMap s.maxBlocks
  have hle' := card_ones_le
    (setBit (clearRange s.memoryMap (base / 4096) (size / 4096)) 0) s.maxBlocks
  have hused : (pmmInitRegion s base size).usedBlocks = sub32 s.usedBlocks (size / 4096) := by
    rw [pmmInitRegion, mmapSet_usedBlocks, initRegionLoop_usedBlocks s (by have := hs.1; omega)]
  have hmap : (pmmInitRegion s base size).memoryMap =
      setBit (clearRange s.memoryMap (base / 4096) (size / 4096)) 0 := by
    rw [pmmInitRegion, mmapSet_memoryMap, initRegionLoop_memoryMap]
  rw [accounted_iff (by rw [pmmInitRegion_maxBlocks]; omega), pmmInitRegion_maxBlocks, hused, hmap,
    hs.1, sub32_eq_iff (by omega) (by omega) (by omega)]
  rcases Nat.eq_zero_or_pos s.maxBlocks with h0 | hpos
  · -- nothing is managed, and no region has a frame
    have hno : ∀ f, ¬ regionFrames base size f := fun f hf => by
      obtain ⟨h1, h2⟩ := hf
      omega
    rw [h0] at hle hle' ⊢
    exact iff_of_true (by omega) fun f hf => absurd hf (hno f)
  · rw [card_ones_setBit_clearRange_iff (by decide) _ _ _ hpos]
    constructor
    · rintro ⟨h, -⟩ f ⟨h1, h2⟩
      exact (h f h1 h2).2
    · intro h
      exact ⟨fun p h1 h2 => ⟨by omega, h p ⟨h1, h2⟩⟩, hzero hpos⟩

theorem accounted_deinitRegion_iff {base size : ℕ} (hs : Accounted s)
    (hmax : s.maxBlocks < 1048576) (hregion : base / 4096 + size / 4096 ≤ s.maxBlocks) :
    Accounted (pmmDeinitRegion s base size) ↔ Balanced s (.deinitRegion base size) := by
  have hle := card_ones_le s.memoryMap s.maxBlocks
  rw [accounted_set_iff hs hmax (by omega) (pmmDeinitRegion_maxBlocks s base size)
    (deinitRegionLoop_memoryMap s _ _)
    (deinitRegionLoop_usedBlocks s (by have := hs.1; omega) _ _)]
  constructor
  · rintro h f ⟨h1, h2⟩
    exact (h f h1 h2).2
  · intro h p h1 h2
    exact ⟨by omega, h p ⟨h1, h2⟩⟩

theorem accounted_touch (hs : Accounted s) (l : List ℤ) : Accounted (s.touch l) := hs

theorem accounted_allocBlock (hs : Accounted s) (hmax : s.maxBlocks < 1048576) :
    Accounted (pmmAllocBlock s).2 := by
  obtain ⟨l, -, heq | ⟨f, ⟨-, hf, hclear, -⟩, heq⟩⟩ := pmmAllocBlock_cases s
  · rw [heq]
    exact accounted_touch hs l
  · simp only [heq]
    refine (accounted_set_iff (a := f) (k := 1) hs hmax (by omega) ?_ rfl ?_).mpr fun p h1 h2 => ?_
    · simp only [mmapSet_maxBlocks, touch_maxBlocks]
    · simp only
    · rw [show p = f by omega]
      exact ⟨by omega, hclear⟩

theorem accounted_allocBlocks_iff {size : ℕ} (hs : Accounted s) (hmax : s.maxBlocks < 1048576) :
    Accounted (pmmAllocBlocks s size).2 ↔ Balanced s (.allocBlocks size) := by
  have hfree := freeCount_le hs
  obtain ⟨l, ⟨heq, hnone⟩ | ⟨f, hlt, hsize, hfit, heq⟩⟩ := pmmAllocBlocks_cases s size
  · rw [heq]
    refine iff_of_true (accounted_touch hs l) fun hlt h2 f hf => ?_
    have hno := hnone hlt (by omega)
    rw [FirstFit, if_neg (by omega)] at hno hf
    exact absurd hf.2.2.1 (hno f hf.1 hf.2.1)
  · have hf : f < s.maxBlocks * 32 := by
      rw [FirstFit] at hfit
      split_ifs at hfit
      · have := hfit.2.1
        omega
      · exact hfit.2.1
    have hset : (setLoop (s.touch l) f size).memoryMap = setRange s.memoryMap f size :=
      setLoop_memoryMap _ f size (by omega)
    simp only [heq]
    refine (accounted_set_iff (a := f) (k := size) hs hmax (by omega) ?_ ?_ ?_).trans ?_
    · simp only [setLoop_maxBlocks, touch_maxBlocks]
    · exact hset
    · simp only
    constructor
    · intro h _ h2 g hg
      rw [FirstFit, if_neg (by omega)] at hg hfit
      rw [hg.unique hfit]
      exact h
    · intro h
      by_cases h1 : size = 1
      · rw [FirstFit, if_pos h1] at hfit
        intro p hp1 hp2
        rw [show p = f by omega]
        exact ⟨by have := hfit.2.1; omega, hfit.2.2.1⟩
      · exact h hlt (by omega) f hfit

theorem accounted_freeBlock_iff {p : ℕ} (hs : Accounted s) (hmax : s.maxBlocks < 1048576) :
    Accounted (pmmFreeBlock s p) ↔ Balanced s (.freeBlock p) := by
  rw [accounted_clear_iff (a := p / 4096) (k := 1) hs hmax (by omega)
    (pmmFreeBlock_maxBlocks s p) rfl rfl]
  constructor
  · exact fun h => h _ le_rfl (by omega)
  · intro h q h1 h2
    rwa [show q = p / 4096 by omega]

theorem accounted_freeBlocks_iff {p size : ℕ} (hs : Accounted s) (hmax : s.maxBlocks < 1048576)
    (hp : p < 4294967296) (hsize : size < 1048576) :
    Accounted (pmmFreeBlocks s p size) ↔ Balanced s (.freeBlocks p size) :=
  accounted_clear_iff hs hmax hsize (pmmFreeBlocks_maxBlocks s p size)
    (unsetLoop_memoryMap s _ _ (by omega))
    (by simp only [pmmFreeBlocks, unsetLoop_usedBlocks])

end Calls

theorem div_4096_ne_zero {f : ℕ} (h : wrap32 (f * 4096) ≠ 0) : wrap32 (f * 4096) / 4096 ≠ 0 := by
  unfold wrap32 at h ⊢
  omega

section Runs

variable {l l' : Ledger}

theorem LedgerInv.of_pmm {t : State} {live : List (ℕ × ℕ)} (h : LedgerInv l)
    (hmax : t.maxBlocks = l.pmm.maxBlocks) (hsize : t.memorySize = l.pmm.memorySize)
    (hzero : l.pmm.used 0 = true → t.used 0 = true)
    (hlive : ∀ a ∈ live, a.1 / 4096 ≠ 0 ∧ a.1 < 4294967296 ∧ a.2 < 1048576) :
    LedgerInv ⟨t, live⟩ where
  max := by rw [hmax, hsize, h.max]
  size := by rw [hsize]; exact h.size
  zero hpos := hzero (h.zero (hmax ▸ hpos))
  live := hlive

theorem LedgerInv.step {c : Call} (h : LedgerInv l) (hs : Accounted l.pmm)
    (hl : ledgerStep l c = some l') : LedgerInv l' := by
  have hmax : l.pmm.maxBlocks < 1048576 := by
    rw [h.max]
    have := h.size
    omega
  have hcount := freeCount_le hs
  cases c with
  | initRegion base size =>
    rw [ledgerStep] at hl
    split_ifs at hl
    cases hl
    refine h.of_pmm (pmmInitRegion_maxBlocks _ _ _) (pmmInitRegion_memorySize _ _ _) ?_ h.live
    intro _
    rw [pmmInitRegion_used]
    simp
  | deinitRegion base size =>
    rw [ledgerStep] at hl
    split_ifs at hl
    cases hl
    refine h.of_pmm (pmmDeinitRegion_maxBlocks _ _ _) (pmmDeinitRegion_memorySize _ _ _) ?_ h.live
    intro hz
    rw [pmmDeinitRegion_used, hz]
    simp
  | allocBlock =>
    cases hl
    obtain ⟨is, -, heq | ⟨f, ⟨-, hf, -, -⟩, heq⟩⟩ := pmmAllocBlock_cases l.pmm
    · simp only [heq]
      exact h.of_pmm rfl rfl id h.live
    · simp only [heq]
      refine h.of_pmm rfl rfl ?_ ?_
      · intro hz
        show (mmapSet (l.pmm.touch is) f).used 0 = true
        rw [mmapSet_used, Bool.or_eq_true]
        exact Or.inr hz
      · split_ifs with hp
        · exact h.live
        · exact List.forall_mem_cons.mpr
            ⟨⟨div_4096_ne_zero hp, wrap32_lt _, show 1 < 1048576 by decide⟩, h.live⟩
  | allocBlocks size =>
    cases hl
    obtain ⟨is, ⟨heq, -⟩ | ⟨f, hlt, -, -, heq⟩⟩ := pmmAllocBlocks_cases l.pmm size
    · simp only [heq]
      exact h.of_pmm rfl rfl id h.live
    · simp only [heq]
      refine h.of_pmm (setLoop_maxBlocks _ _ _) (setLoop_memorySize _ _ _) ?_ ?_
      · exact fun hz => setLoop_used_of_used (l.pmm.touch is) f size hz
      · split_ifs with hp
        · exact h.live
        · exact List.forall_mem_cons.mpr
            ⟨⟨div_4096_ne_zero hp, wrap32_lt _, by omega⟩, h.live⟩
  | freeBlock p =>
    rw [ledgerStep] at hl
    split_ifs at hl with hp
    cases hl
    refine h.of_pmm (pmmFreeBlock_maxBlocks _ _) (pmmFreeBlock_memorySize _ _) ?_
      fun a ha => h.live a (List.mem_of_mem_erase ha)
    intro hz
    rw [pmmFreeBlock_used, hz]
    simp [Ne.symm (h.live _ hp).1]
  | freeBlocks p size =>
    rw [ledgerStep] at hl
    split_ifs at hl with hp
    cases hl
    obtain ⟨hne, hlt, hsize⟩ := h.live _ hp
    refine h.of_pmm (pmmFreeBlocks_maxBlocks _ _ _) (pmmFreeBlocks_memorySize _ _ _) ?_
      fun a ha => h.live a (List.mem_of_mem_erase ha)
    intro hz
    show bitAt (unsetLoop l.pmm (p / 4096) size).memoryMap 0 = true
    rw [unsetLoop_memoryMap _ _ _ (by omega), bitAt_clearRange (by decide), Bool.and_eq_true]
    simp only [Bool.not_eq_true', decide_eq_false_iff_not]
    exact ⟨by omega, hz⟩

theorem ledgerStep_accounted_iff {c : Call} (h : LedgerInv l) (hs : Accounted l.pmm)
    (hl : ledgerStep l c = some l') : Accounted l'.pmm ↔ Balanced l.pmm c := by
  have hmax : l.pmm.maxBlocks < 1048576 := by
    rw [h.max]
    have := h.size
    omega
  cases c with
  | initRegion base size =>
    rw [ledgerStep] at hl
    split_ifs at hl with hregion
    cases hl
    exact accounted_initRegion_iff hs hmax h.zero (by rw [h.max]; omega)
  | deinitRegion base size =>
    rw [ledgerStep] at hl
    split_ifs at hl with hregion
    cases hl
    exact accounted_deinitRegion_iff hs hmax (by rw [h.max]; omega)
  | allocBlock =>
    cases hl
    exact iff_of_true (accounted_allocBlock hs hmax) trivial
  | allocBlocks size =>
    cases hl
    exact accounted_allocBlocks_iff hs hmax
  | freeBlock p =>
    rw [ledgerStep] at hl
    split_ifs at hl
    cases hl
    exact accounted_freeBlock_iff hs hmax
  | freeBlocks p size =>
    rw [ledgerStep] at hl
    split_ifs at hl with hp
    cases hl
    obtain ⟨-, hlt, hsize⟩ := h.live _ hp
    exact accounted_freeBlocks_iff hs hmax hlt hsize

end Runs

/-- The allocator after `init_pmm`, with nothing allocated. -/
def Ledger.start (around : ℤ → BitVec 32) (memSize : ℕ) : Ledger :=
  ⟨initPmm memSize (bootState around), []⟩

theorem accounted_initPmm_iff (around : ℤ → BitVec 32) {memSize : ℕ} (hmem : memSize < 4294967296) :
    Accounted (initPmm memSize (bootState around)) ↔ memSize / 4096 % 8 = 0 := by
  have hones : ones (initPmm memSize (bootState around)).memoryMap (memSize / 4096) =
      Finset.range (8 * (memSize / 4096 / 8)) := by
    ext f
    rw [mem_ones, Finset.mem_range, ← State.used, initPmm_used]
    constructor
    · rintro ⟨hf, h⟩
      rw [bootState_used around (by omega), Bool.or_false, decide_eq_true_eq] at h
      exact h
    · intro h
      exact ⟨by omega, by simp [h]⟩
  rw [accounted_iff (by rw [initPmm_maxBlocks]; omega), initPmm_usedBlocks, initPmm_maxBlocks,
    hones, Finset.card_range]
  omega

theorem ledgerInv_start (around : ℤ → BitVec 32) {memSize : ℕ} (hmem : memSize < 4294967296)
    (hbytes : memSize / 4096 % 8 = 0) : LedgerInv (Ledger.start around memSize) where
  max := rfl
  size := hmem
  zero hpos := by
    have hused := initPmm_used memSize (bootState around) 0
    have hmax : 0 < memSize / 4096 := hpos
    rw [Ledger.start, hused]
    simp only [Bool.or_eq_true, decide_eq_true_eq]
    omega
  live a ha := absurd ha List.not_mem_nil

/-- The counter of used frames agrees with the bitmap in every state of a run exactly when
the managed frames fill whole bytes and every call flips each bit that it counts. -/
theorem accounting_exact (around : ℤ → BitVec 32) {memSize : ℕ} (hmem : memSize < 4294967296)
    (calls : List Call) :
    Always ledgerStep (fun l => Accounted l.pmm) (Ledger.start around memSize) calls ↔
      memSize / 4096 % 8 = 0 ∧
      Steps ledgerStep (fun l c => Balanced l.pmm c) (Ledger.start around memSize) calls := by
  have hstart := accounted_initPmm_iff around hmem
  by_cases hbytes : memSize / 4096 % 8 = 0
  · rw [always_iff_steps (I := LedgerInv) (fun _ _ _ h hs hl _ => h.step hs hl)
      (fun _ _ _ h hs hl => ledgerStep_accounted_iff h hs hl) (ledgerInv_start around hmem hbytes)
      (hstart.mpr hbytes)]
    exact (and_iff_right hbytes).symm
  · refine iff_of_false (fun h => hbytes ?_) fun h => hbytes h.1
    exact hstart.mp h.head

/-- 32 frames: making frames 1 to 31 available and allocating one keeps the books. -/
theorem accounting_exact_regions :
    Always ledgerStep (fun l => Accounted l.pmm) (Ledger.start (fun _ => 0) 131072)
      [.initRegion 4096 126976, .allocBlock] := by
  refine (accounting_exact (fun _ => 0) (by decide) _).mpr ⟨by decide, fun t _ => ⟨?_, ?_⟩⟩
  · intro f ⟨h1, h2⟩
    refine ⟨by omega, ?_⟩
    rw [Ledger.start, initPmm_used, decide_eq_true (by omega), Bool.true_or]
  · exact fun u _ => ⟨trivial, trivial⟩

/-- 32 frames: a region from address 0 is discounted with frame 0, which stays marked. -/
theorem accounting_region_zero :
    ¬ Always ledgerStep (fun l => Accounted l.pmm) (Ledger.start (fun _ => 0) 131072)
      [.initRegion 0 131072] := by
  intro h
  have hbooks := (h.2 _ rfl).head.1
  exact absurd hbooks (by decide +kernel)

end Unos.Pmm
