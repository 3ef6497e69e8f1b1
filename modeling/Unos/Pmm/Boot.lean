import Unos.Pmm.Ownership

namespace Unos.Pmm

open Unos.Words Unos.BitWords Unos.Search

/-- The fields of `multiboot_memory_map_t` that `kmain` uses; an entry has 24 bytes. -/
structure MultibootMemoryMap where
  addrLow : ℕ
  lenLow : ℕ
  type : ℕ

/-- The fields of `multiboot_info_t` that `kmain` uses, `mmap` being the entries found
from `mmap_addr` on. -/
structure MultibootInfo where
  memUpper : ℕ
  mmapLength : ℕ
  mmap : ℕ → MultibootMemoryMap

def multibootMemoryAvailable : ℕ := 1

/-- Where `link.ld` loads the part of the kernel between its two symbols. -/
structure KernelLayout where
  physStart : ℕ
  physEnd : ℕ
  above_boot : 0x100000 ≤ physStart
  ordered : physStart ≤ physEnd
  below_heap_end : physEnd < 0x400000
  start_aligned : physStart % 4096 = 0
  end_aligned : physEnd % 4096 = 0

def KernelLayout.kernelStart (l : KernelLayout) : ℕ := l.physStart + 0xC0000000

def KernelLayout.kernelEnd (l : KernelLayout) : ℕ := l.physEnd + 0xC0000000

/-- The entries `i`, `i + 1`, ... of the map, `n` of them. -/
def mmapLoop (map : ℕ → MultibootMemoryMap) (s : State) : ℕ → ℕ → State
  | 0, _ => s
  | n + 1, i =>
    let s := if (map i).type = multibootMemoryAvailable
      then pmmInitRegion s (map i).addrLow (map i).lenLow else s
    mmapLoop map s n (i + 1)

/-- `kmain` up to the reservation of its frames. The counter `map_size` is a byte. -/
def kmainAvailable (mb : MultibootInfo) (s : State) : State :=
  mmapLoop mb.mmap (initPmm (wrap32 (0x100000 + wrap32 (mb.memUpper <<< 10))) s)
    (mb.mmapLength / 24 % 256) 0

def kmainPmm (mb : MultibootInfo) (l : KernelLayout) (s : State) : State :=
  let s := pmmDeinitRegion (kmainAvailable mb s) l.kernelStart ((l.kernelEnd - l.kernelStart) / 4)
  pmmDeinitRegion s l.kernelEnd (sub32 0x400000 l.kernelEnd)

/-- The state after `n` calls of `pmm_alloc_block`. -/
def allocRun : ℕ → State → State
  | 0, s => s
  | n + 1, s => allocRun n (pmmAllocBlock s).2

/-- What `kmain` means to achieve: the bitmap was accessed inside its array, and no block
that is handed out later overlaps the kernel or the rest of the first 4 MB. -/
def KernelProtected (l : KernelLayout) (s : State) : Prop :=
  InBitmap s ∧ ∀ n, (pmmAllocBlock (allocRun n s)).1 ≠ 0 →
    (pmmAllocBlock (allocRun n s)).1 + 4096 ≤ l.physStart ∨
      0x400000 ≤ (pmmAllocBlock (allocRun n s)).1

/-- The clear frames below `f`, which are handed out before it. -/
def clearBelow (s : State) (f : ℕ) : Finset ℕ := (Finset.range f).filter fun g => s.used g = false

theorem allocRun_reaches {s : State} {f k : ℕ} (hmax : s.maxBlocks < 1048576)
    (hclear : s.used f = false) (hf : f < s.maxBlocks / 32 * 32)
    (hk : (clearBelow s f).card ≤ k) (hcount : k < pmmGetFreeBlockCount s) :
    ∃ n, (pmmAllocBlock (allocRun n s)).1 = f * 4096 := by
  -- induction on the number of clear frames below `f`
  induction k generalizing s with
  | zero =>
    have hempty : clearBelow s f = ∅ := Finset.card_eq_zero.mp (Nat.le_zero.mp hk)
    have hfirst : FindsFirst (fun p => s.used p = false) 0 (s.maxBlocks / 32 * 32) (some f) := by
      refine ⟨Nat.zero_le f, hf, hclear, fun q _ hq hfree => ?_⟩
      have hmem : q ∈ clearBelow s f := Finset.mem_filter.mpr ⟨Finset.mem_range.mpr hq, hfree⟩
      rw [hempty] at hmem
      exact absurd hmem (Finset.notMem_empty q)
    refine ⟨0, ?_⟩
    rw [allocRun, pmmAllocBlock_of_finds (by omega) hfirst]
    exact wrap32_of_lt (by omega)
  | succ k ih =>
    have hfind := mmapFirstFree_finds s
    cases hg : (mmapFirstFree s).1 with
    | none =>
      rw [hg] at hfind
      exact absurd hclear (hfind f (Nat.zero_le f) hf)
    | some g =>
      rw [hg] at hfind
      have heq := pmmAllocBlock_of_finds (by omega) hfind
      obtain ⟨-, hg32, hgclear, hbefore⟩ := hfind
      by_cases hgf : g = f
      · refine ⟨0, ?_⟩
        rw [allocRun, heq, hgf]
        exact wrap32_of_lt (by omega)
      · have hlt : g < f := by
          by_contra hge
          exact hbefore f (Nat.zero_le f) (by omega) hclear
        have hused : ∀ p, (pmmAllocBlock s).2.used p = (decide (p = g) || s.used p) := by
          intro p
          rw [heq]
          exact mmapSet_used (s.touch (mmapFirstFree s).2) g p
        have hsub : clearBelow (pmmAllocBlock s).2 f ⊆ (clearBelow s f).erase g := by
          intro p hp
          simp only [clearBelow, Finset.mem_filter, hused, Bool.or_eq_false_iff,
            decide_eq_false_iff_not] at hp
          exact Finset.mem_erase.mpr ⟨hp.2.1, Finset.mem_filter.mpr ⟨hp.1, hp.2.2⟩⟩
        have hgmem : g ∈ clearBelow s f :=
          Finset.mem_filter.mpr ⟨Finset.mem_range.mpr hlt, hgclear⟩
        have hcard := Finset.card_le_card hsub
        rw [Finset.card_erase_of_mem hgmem] at hcard
        have hfreeNext : k < pmmGetFreeBlockCount (pmmAllocBlock s).2 := by
          have hnext : (pmmAllocBlock s).2.usedBlocks = wrap32 (s.usedBlocks + 1) := by rw [heq]
          rw [pmmGetFreeBlockCount, pmmAllocBlock_maxBlocks, hnext]
          rw [pmmGetFreeBlockCount] at hcount
          unfold wrap32 sub32 at *
          omega
        obtain ⟨n, hn⟩ := ih (by rwa [pmmAllocBlock_maxBlocks])
          (by rw [hused, hclear, decide_eq_false (Ne.symm hgf), Bool.false_or])
          (by rwa [pmmAllocBlock_maxBlocks]) (by omega) hfreeNext
        exact ⟨n + 1, hn⟩

section Reservation

variable (mb : MultibootInfo) (l : KernelLayout) (s : State)

theorem kmainPmm_touches_beyond : (32768 : ℤ) ∈ (kmainPmm mb l s).touched := by
  have hstart := l.above_boot
  have hle := l.ordered
  have hend := l.below_heap_end
  have halign := l.end_aligned
  rw [kmainPmm, pmmDeinitRegion, mem_deinitRegionLoop_touched]
  left
  refine ⟨0x100000, ?_, ?_, by decide⟩
  · unfold KernelLayout.kernelEnd
    omega
  · unfold KernelLayout.kernelEnd sub32
    omega

theorem kmainPmm_used {f : ℕ} (hf : f < 0xC0000) :
    (kmainPmm mb l s).used f = (kmainAvailable mb s).used f := by
  have hstart : ¬ regionFrames l.kernelStart ((l.kernelEnd - l.kernelStart) / 4) f := by
    rintro ⟨h, -⟩
    unfold KernelLayout.kernelStart at h
    omega
  have hend : ¬ regionFrames l.kernelEnd (sub32 0x400000 l.kernelEnd) f := by
    rintro ⟨h, -⟩
    unfold KernelLayout.kernelEnd at h
    omega
  rw [kmainPmm, pmmDeinitRegion_used, pmmDeinitRegion_used, decide_eq_false hstart,
    decide_eq_false hend, Bool.false_or, Bool.false_or]

theorem mmapLoop_maxBlocks (map : ℕ → MultibootMemoryMap) (n i : ℕ) :
    (mmapLoop map s n i).maxBlocks = s.maxBlocks := by
  induction n generalizing s i with
  | zero => rfl
  | succ n ih =>
    rw [mmapLoop, ih]
    split_ifs
    · exact pmmInitRegion_maxBlocks s _ _
    · rfl

theorem kmainPmm_maxBlocks :
    (kmainPmm mb l s).maxBlocks = wrap32 (0x100000 + wrap32 (mb.memUpper <<< 10)) / 4096 := by
  rw [kmainPmm, pmmDeinitRegion_maxBlocks, pmmDeinitRegion_maxBlocks, kmainAvailable,
    mmapLoop_maxBlocks, initPmm_maxBlocks]

/-- Every frame that the map makes available is handed out later, those of the kernel and
of its heap included, as long as the count of free frames lasts. -/
theorem kmainPmm_hands_out {f : ℕ} (hf : f < 0xC0000)
    (hmax : f < wrap32 (0x100000 + wrap32 (mb.memUpper <<< 10)) / 4096 / 32 * 32)
    (havail : (kmainAvailable mb s).used f = false)
    (hcount : f < pmmGetFreeBlockCount (kmainPmm mb l s)) :
    ∃ n, (pmmAllocBlock (allocRun n (kmainPmm mb l s))).1 = f * 4096 := by
  have hmem := wrap32_lt (0x100000 + wrap32 (mb.memUpper <<< 10))
  refine allocRun_reaches (k := f) ?_ ?_ ?_ ?_ hcount
  · rw [kmainPmm_maxBlocks]
    omega
  · rwa [kmainPmm_used mb l s hf]
  · rwa [kmainPmm_maxBlocks]
  · have hcard := Finset.card_filter_le (Finset.range f) fun g => (kmainPmm mb l s).used g = false
    rwa [Finset.card_range] at hcard

end Reservation

/-- On no memory map and for no kernel size does the set-up achieve what it is for. -/
theorem kmainPmm_not_protected (around : ℤ → BitVec 32) (mb : MultibootInfo) (l : KernelLayout) :
    ¬ KernelProtected l (kmainPmm mb l (bootState around)) := by
  rintro ⟨hinside, -⟩
  have h := hinside 32768 (kmainPmm_touches_beyond mb l (bootState around))
  exact absurd h.2 (by decide)

def smallMachine : MultibootInfo where
  memUpper := 3072
  mmapLength := 24
  mmap _ := ⟨0x100000, 0x300000, 1⟩

/-- A kernel of 60 KB after one page of boot code. -/
def smallKernel : KernelLayout where
  physStart := 0x101000
  physEnd := 0x110000
  above_boot := by decide
  ordered := by decide
  below_heap_end := by decide
  start_aligned := by decide
  end_aligned := by decide

/-- On that machine the first page of the kernel itself is handed out. -/
theorem smallMachine_hands_out_kernel :
    (∃ n, (pmmAllocBlock (allocRun n (kmainPmm smallMachine smallKernel
      (bootState fun _ => 0)))).1 = 0x101000) ∧
    ¬ KernelProtected smallKernel (kmainPmm smallMachine smallKernel (bootState fun _ => 0)) := by
  have havail : (kmainAvailable smallMachine (bootState fun _ => 0)).used 257 = false := by
    decide +kernel
  have hused : (kmainAvailable smallMachine (bootState fun _ => 0)).usedBlocks = 256 := by
    decide +kernel
  have hcount : 257 < pmmGetFreeBlockCount
      (kmainPmm smallMachine smallKernel (bootState fun _ => 0)) := by
    rw [pmmGetFreeBlockCount, kmainPmm_maxBlocks, kmainPmm, pmmDeinitRegion, pmmDeinitRegion,
      deinitRegionLoop_usedBlocks _
        (by rw [deinitRegionLoop_usedBlocks _ (by omega)]; exact wrap32_lt _),
      deinitRegionLoop_usedBlocks _ (by omega), hused]
    decide +kernel
  have hout := kmainPmm_hands_out smallMachine smallKernel _ (by decide) (by decide +kernel)
    havail hcount
  refine ⟨hout, fun h => ?_⟩
  obtain ⟨n, hn⟩ := hout
  have hbad := h.2 n (by omega)
  rw [hn] at hbad
  exact absurd hbad (by decide)

end Unos.Pmm
