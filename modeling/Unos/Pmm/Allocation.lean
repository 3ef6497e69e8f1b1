import Unos.Pmm.Accounting
import Unos.Pmm.Windows

namespace Unos.Pmm

open Unos.Words Unos.BitWords Unos.Search

def pmmStep (s : State) : Call → State
  | .initRegion base size => pmmInitRegion s base size
  | .deinitRegion base size => pmmDeinitRegion s base size
  | .allocBlock => (pmmAllocBlock s).2
  | .allocBlocks size => (pmmAllocBlocks s size).2
  | .freeBlock p => pmmFreeBlock s p
  | .freeBlocks p size => pmmFreeBlocks s p size

/-- The words that the search of `pmm_alloc_blocks` reads. -/
def searchReads (s : State) (size : ℕ) : List ℤ :=
  if pmmGetFreeBlockCount s ≤ size then [] else (mmapFirstFreeS s size).2

/-- A non-null result is the address of free frames, which the call marks and `pmm_free_blocks`
gives back, and the search reads the bitmap only. -/
def AllocSound (s : State) (size : ℕ) : Prop :=
  let r := pmmAllocBlocks s size
  (r.1 ≠ 0 → ∃ f, r.1 = f * 4096 ∧
    (∀ g, f ≤ g → g < f + size → g < s.maxBlocks ∧ s.used g = false) ∧
    (∀ g, r.2.used g = (decide (f ≤ g ∧ g < f + size) || s.used g)) ∧
    (pmmFreeBlocks r.2 r.1 size).memoryMap = s.memoryMap ∧
    (pmmFreeBlocks r.2 r.1 size).usedBlocks = s.usedBlocks) ∧
  ∀ k ∈ searchReads s size, 0 ≤ k ∧ k < bitmapSize

def SearchInside (m : ℤ → BitVec 32) (maxBlocks size : ℕ) : Prop :=
  (∀ p < maxBlocks * 32, Tried m size 0 p → WindowInside m size p) ∧
    ((∀ p < maxBlocks * 32, ¬ WindowFits m size p) → maxBlocks ≤ 32768)

/-- No more frames than asked for are counted as free, or one frame is asked for, or the windows lie
in the array and the first bit whose window fits is followed by free frames (or is bit 0, whose
address is not returned). -/
def AllocFits (s : State) (size : ℕ) : Prop :=
  size < pmmGetFreeBlockCount s → 2 ≤ size → SearchInside s.memoryMap s.maxBlocks size ∧
    ∀ f, FirstFit s size (some f) → f ≠ 0 →
      ∀ g, f ≤ g → g < f + size → g < s.maxBlocks ∧ s.used g = false

/-- The numbers of the allocator are 32-bit numbers, and there are at most `2^20` frames. -/
structure Bounded (s : State) : Prop where
  max : s.maxBlocks < 1048576
  used : s.usedBlocks < 4294967296

section Steps

variable {s : State} {size f : ℕ}

theorem Bounded.step (h : Bounded s) (c : Call) : Bounded (pmmStep s c) := by
  cases c with
  | initRegion base size =>
    refine ⟨by rw [pmmStep, pmmInitRegion_maxBlocks]; exact h.max, ?_⟩
    rw [pmmStep, pmmInitRegion, mmapSet_usedBlocks, initRegionLoop_usedBlocks s h.used]
    exact sub32_lt _ _
  | deinitRegion base size =>
    refine ⟨by rw [pmmStep, pmmDeinitRegion_maxBlocks]; exact h.max, ?_⟩
    rw [pmmStep, pmmDeinitRegion, deinitRegionLoop_usedBlocks s h.used]
    exact wrap32_lt _
  | allocBlock =>
    obtain ⟨l, -, heq | ⟨f, -, heq⟩⟩ := pmmAllocBlock_cases s
    · rw [pmmStep, heq]
      exact ⟨h.max, h.used⟩
    · rw [pmmStep, heq]
      exact ⟨h.max, wrap32_lt _⟩
  | allocBlocks size =>
    obtain ⟨l, ⟨heq, -⟩ | ⟨f, -, -, -, heq⟩⟩ := pmmAllocBlocks_cases s size
    · rw [pmmStep, heq]
      exact ⟨h.max, h.used⟩
    · rw [pmmStep, heq]
      refine ⟨?_, wrap32_lt _⟩
      show (setLoop (s.touch l) f size).maxBlocks < 1048576
      rw [setLoop_maxBlocks]
      exact h.max
  | freeBlock p => exact ⟨h.max, sub32_lt _ _⟩
  | freeBlocks p size => exact ⟨by rw [pmmStep, pmmFreeBlocks_maxBlocks]; exact h.max, sub32_lt _ _⟩

theorem bounded_run (around : ℤ → BitVec 32) {memSize : ℕ} (hmem : memSize < 4294967296)
    (calls : List Call) :
    Bounded (calls.foldl pmmStep (initPmm memSize (bootState around))) := by
  induction calls using List.reverseRecOn with
  | nil =>
    have hmax : memSize / 4096 < 1048576 := by omega
    exact ⟨hmax, hmax.trans (by decide)⟩
  | append_singleton calls c ih =>
    rw [List.foldl_append]
    exact ih.step c

theorem FirstFit.unique {r : Option ℕ} (h : FirstFit s size (some f)) (hr : FirstFit s size r) :
    r = some f := by
  cases r with
  | none =>
    unfold FirstFit at h hr
    split_ifs at h hr
    · exact absurd h.2.2.1 (hr f h.1 h.2.1)
    · exact absurd h.2.2.1 (hr f h.1 h.2.1)
  | some g =>
    unfold FirstFit at h hr
    split_ifs at h hr
    · rw [hr.unique h]
    · rw [hr.unique h]

theorem searchInside_iff (hmax : s.maxBlocks < 1048576) (hsize : 1 ≤ size) :
    (∀ k ∈ (windowWordLoop s.memoryMap size s.maxBlocks 0).2, 0 ≤ k ∧ k < bitmapSize) ↔
      SearchInside s.memoryMap s.maxBlocks size := by
  have hfinds := windowWordLoop_finds s.memoryMap hsize s.maxBlocks 0
  rw [windowWordLoop_reads _ hsize, SearchInside, and_comm]
  simp only [Nat.zero_mul, Nat.zero_add, Nat.zero_le, forall_const] at hfinds ⊢
  have hwindows : (∀ p < s.maxBlocks * 32, Tried s.memoryMap size 0 p →
      ∀ k ∈ windowReads s.memoryMap size p, 0 ≤ k ∧ k < bitmapSize) ↔
      ∀ p < s.maxBlocks * 32, Tried s.memoryMap size 0 p → WindowInside s.memoryMap size p :=
    forall₂_congr fun p hp => imp_congr_right fun _ => windowReads_inside (by omega) hsize
  rw [hwindows]
  refine and_congr_right fun hinside => ?_
  unfold bitmapSize
  constructor
  · intro h hno
    by_contra hlt
    have hd := h 32768 (by omega) fun q hq => hno q (by omega)
    omega
  · intro h d hd hno
    by_contra hlt
    cases hr : (windowWordLoop s.memoryMap size s.maxBlocks 0).1 with
    | none =>
      rw [hr] at hfinds
      have hall := h fun p hp => hfinds p (Nat.zero_le p) hp
      omega
    | some p =>
      rw [hr] at hfinds
      obtain ⟨-, hp, hstop, hfirst⟩ := hfinds
      -- the window where the search stops is in the array, and so is the dword
      have hwin := hinside p hp ⟨hstop.1, fun q _ hq => hfirst q (Nat.zero_le q) hq⟩
      have hle : d * 32 ≤ p := Nat.le_of_not_lt fun hlt' => hno p hlt' hstop
      have hpos : 0 < 2 ^ (p % 32) := Nat.pow_pos (by decide)
      unfold WindowInside windowStart at hwin
      rcases hwin with hwin | ⟨hwin, -⟩ <;> omega

theorem pmmAllocBlocks_of_fit (hsize : 1 ≤ size) (hfree : size < pmmGetFreeBlockCount s)
    (hfit : FirstFit s size (some f)) : ∃ l : List ℤ, pmmAllocBlocks s size = (wrap32 (f * 4096),
      { setLoop (s.touch l) f size with usedBlocks := wrap32 (s.usedBlocks + size) }) := by
  obtain ⟨l, ⟨-, hnone⟩ | ⟨g, -, -, hg, heq⟩⟩ := pmmAllocBlocks_cases s size
  · have hr := hfit.unique (hnone hfree (by omega))
    exact absurd hr (by simp)
  · obtain rfl := Option.some.inj (hfit.unique hg)
    exact ⟨l, heq⟩

theorem pmmAllocBlocks_of_none
    (h : size < pmmGetFreeBlockCount s → ∀ f, ¬ FirstFit s size (some f)) :
    (pmmAllocBlocks s size).1 = 0 := by
  obtain ⟨l, ⟨heq, -⟩ | ⟨g, hfree, -, hg, -⟩⟩ := pmmAllocBlocks_cases s size
  · rw [heq]
  · exact absurd hg (h hfree g)

theorem pmmAllocBlocks_sound (hb : Bounded s) (hsize : 1 ≤ size)
    (hfree : size < pmmGetFreeBlockCount s) (hfit : FirstFit s size (some f))
    (hclear : ∀ g, f ≤ g → g < f + size → g < s.maxBlocks ∧ s.used g = false) :
    let r := pmmAllocBlocks s size
    r.1 = f * 4096 ∧ (∀ g, r.2.used g = (decide (f ≤ g ∧ g < f + size) || s.used g)) ∧
      (pmmFreeBlocks r.2 r.1 size).memoryMap = s.memoryMap ∧
      (pmmFreeBlocks r.2 r.1 size).usedBlocks = s.usedBlocks := by
  have hmax := hb.max
  have hlast := (hclear (f + size - 1) (by omega) (by omega)).1
  obtain ⟨l, heq⟩ := pmmAllocBlocks_of_fit hsize hfree hfit
  have haddr : wrap32 (f * 4096) = f * 4096 := wrap32_of_lt (by omega)
  have hmap : (setLoop (s.touch l) f size).memoryMap = setRange s.memoryMap f size :=
    setLoop_memoryMap _ f size (by omega)
  intro r
  have hr : r = (f * 4096,
      { setLoop (s.touch l) f size with usedBlocks := wrap32 (s.usedBlocks + size) }) := by
    rw [← haddr]
    exact heq
  rw [hr]
  refine ⟨rfl, fun g => ?_, ?_, ?_⟩
  · rw [← bitAt_setRange (by decide) s.memoryMap f size g, ← hmap]
  · rw [pmmFreeBlocks, Nat.mul_div_cancel f (by decide)]
    dsimp only
    rw [unsetLoop_memoryMap _ f size (by omega)]
    dsimp only
    rw [hmap]
    exact clearRange_setRange (by decide) fun p h1 h2 => (hclear p h1 h2).2
  · rw [pmmFreeBlocks]
    dsimp only
    rw [unsetLoop_usedBlocks]
    exact sub32_wrap32_add hb.used size

theorem exists_fit (hsize : 1 ≤ size) (hne : (pmmAllocBlocks s size).1 ≠ 0) :
    ∃ f, f ≠ 0 ∧ size < pmmGetFreeBlockCount s ∧ FirstFit s size (some f) := by
  by_contra hno
  refine hne (pmmAllocBlocks_of_none fun hfree f hfit => hno ⟨f, ?_, hfree, hfit⟩)
  obtain ⟨l, heq⟩ := pmmAllocBlocks_of_fit hsize hfree hfit
  rintro rfl
  rw [heq, Nat.zero_mul, wrap32_of_lt (by decide)] at hne
  exact hne rfl

theorem searchReads_one (hb : Bounded s) : ∀ k ∈ searchReads s 1, 0 ≤ k ∧ k < bitmapSize := by
  have hmax := hb.max
  intro k hk
  rw [searchReads] at hk
  split_ifs at hk with hfree
  · exact absurd hk List.not_mem_nil
  · rw [mmapFirstFreeS, if_neg (by decide), if_pos rfl] at hk
    have hread := firstFreeLoop_reads s.memoryMap (s.maxBlocks / 32) 0 k hk
    unfold bitmapSize
    omega

theorem allocSound_iff (hb : Bounded s) (hsize : 1 ≤ size) :
    AllocSound s size ↔ AllocFits s size := by
  have hmax := hb.max
  -- with clear frames behind the place where the search stops everything is as it should be
  have hsound : (∀ f, f ≠ 0 → size < pmmGetFreeBlockCount s → FirstFit s size (some f) →
      ∀ g, f ≤ g → g < f + size → g < s.maxBlocks ∧ s.used g = false) →
      (∀ k ∈ searchReads s size, 0 ≤ k ∧ k < bitmapSize) → AllocSound s size := by
    intro hclear hreads
    refine ⟨fun hne => ?_, hreads⟩
    obtain ⟨f, hf0, hfree, hfit⟩ := exists_fit hsize hne
    have hc := hclear f hf0 hfree hfit
    obtain ⟨haddr, hmarks, hmap, hcount⟩ := pmmAllocBlocks_sound hb hsize hfree hfit hc
    exact ⟨f, haddr, hc, hmarks, hmap, hcount⟩
  rcases Nat.eq_or_lt_of_le hsize with rfl | htwo
  · refine iff_of_true (hsound (fun f _ _ hfit g h1 h2 => ?_) (searchReads_one hb))
      fun _ h => absurd h (by decide)
    rw [FirstFit, if_pos rfl] at hfit
    obtain rfl : g = f := by omega
    exact ⟨by have := hfit.2.1; omega, hfit.2.2.1⟩
  by_cases hfree : size < pmmGetFreeBlockCount s
  · have hreads : searchReads s size = (windowWordLoop s.memoryMap size s.maxBlocks 0).2 := by
      rw [searchReads, if_neg (by omega), mmapFirstFreeS, if_neg (by omega), if_neg (by omega)]
    have hinside := searchInside_iff hmax hsize
    rw [← hreads] at hinside
    constructor
    · rintro ⟨hcall, hin⟩ - -
      refine ⟨hinside.mp hin, fun f hfit hf0 => ?_⟩
      have hstop := hfit
      rw [FirstFit, if_neg (by omega)] at hstop
      -- the frame is one of the array, so that its address does not wrap
      have hwin := (hinside.mp hin).1 f hstop.2.1 ⟨hstop.2.2.1.1, hstop.2.2.2⟩
      have hlt : f < 1048576 := by
        have hpos : 0 < 2 ^ (f % 32) := Nat.pow_pos (by decide)
        unfold WindowInside windowStart at hwin
        rcases hwin with hwin | ⟨hwin, -⟩ <;> omega
      obtain ⟨l, heq⟩ := pmmAllocBlocks_of_fit hsize hfree hfit
      have haddr : (pmmAllocBlocks s size).1 = f * 4096 := by
        rw [heq]
        exact wrap32_of_lt (by omega)
      obtain ⟨f', hf', hc, -⟩ := hcall (by omega)
      obtain rfl : f' = f := by omega
      exact hc
    · intro hfits
      obtain ⟨hin, hclear⟩ := hfits hfree htwo
      exact hsound (fun f hf0 _ hfit => hclear f hfit hf0) (hinside.mpr hin)
  · refine iff_of_true (hsound (fun f _ h => absurd h hfree) fun k hk => ?_) fun h => absurd h hfree
    rw [searchReads, if_pos (by omega)] at hk
    exact absurd hk List.not_mem_nil

end Steps

/-- In every state that calls of the allocator lead to, `pmm_alloc_blocks` is sound exactly when it
gives up before the search or asks for one frame, or the windows lie in the bitmap and the first one
that fits belongs to a bit in front of free frames. -/
theorem pmmAllocBlocks_sound_iff (around : ℤ → BitVec 32) {memSize : ℕ}
    (hmem : memSize < 4294967296) (calls : List Call) {size : ℕ} (hsize : 1 ≤ size) :
    AllocSound (calls.foldl pmmStep (initPmm memSize (bootState around))) size ↔
      AllocFits (calls.foldl pmmStep (initPmm memSize (bootState around))) size :=
  allocSound_iff (bounded_run around hmem calls) hsize

/-- 64 frames with all but frame 0 made available: asking for three. -/
theorem pmmAllocBlocks_sound_iff_three :
    AllocSound ([Call.initRegion 0 262144].foldl pmmStep (initPmm 262144 (bootState fun _ => 0)))
      3 ↔
      AllocFits ([Call.initRegion 0 262144].foldl pmmStep (initPmm 262144 (bootState fun _ => 0)))
      3 :=
  pmmAllocBlocks_sound_iff _ (by decide) _ (by decide)

/-- Frames 1 and 3 to 6 are free and frame 2 is not: two frames from 1 on are returned. -/
theorem pmmAllocBlocks_not_sound :
    ¬ AllocSound ([Call.initRegion 4096 4096, .initRegion 12288 16384].foldl pmmStep
      (initPmm 262144 (bootState fun _ => 0))) 2 := by
  rintro ⟨hcall, -⟩
  obtain ⟨f, hf, hclear, -⟩ := hcall (by decide +kernel)
  have haddr : (pmmAllocBlocks ([Call.initRegion 4096 4096, .initRegion 12288 16384].foldl pmmStep
    (initPmm 262144 (bootState fun _ => 0))) 2).1 = 4096 := by decide +kernel
  obtain rfl : f = 1 := by omega
  have htwo := (hclear 2 (by decide) (by decide)).2
  revert htwo
  decide +kernel

def BlockComplete (s : State) : Prop := (pmmAllocBlock s).1 = 0 → ∀ f < s.maxBlocks, s.used f = true

def FreeRun (s : State) (size : ℕ) : Prop :=
  ∃ f, f + size ≤ s.maxBlocks ∧ ∀ g, f ≤ g → g < f + size → s.used g = false

/-- `pmm_alloc_blocks` fails only when there are not as many free frames in a row. -/
def BlocksComplete (s : State) (size : ℕ) : Prop := (pmmAllocBlocks s size).1 = 0 → ¬ FreeRun s size

def BlockFound (s : State) : Prop :=
  pmmGetFreeBlockCount s ≠ 0 ∧ s.used 0 = true ∧ ∃ f < s.maxBlocks / 32 * 32, s.used f = false

/-- More than `size` free frames are counted, and the first bit that is clear, or whose window fits,
has an address that is not 0. -/
def BlocksFound (s : State) (size : ℕ) : Prop :=
  size < pmmGetFreeBlockCount s ∧ ∃ f, FirstFit s size (some f) ∧ f % 1048576 ≠ 0

section Complete

variable {s : State} {size : ℕ} {l l' : Ledger}

theorem pmmAllocBlock_ne_zero_iff (hb : Bounded s) : (pmmAllocBlock s).1 ≠ 0 ↔ BlockFound s := by
  have hmax := hb.max
  by_cases hfree : pmmGetFreeBlockCount s = 0
  · have hnull : (pmmAllocBlock s).1 = 0 := by rw [pmmAllocBlock, if_pos hfree]
    exact iff_of_false (fun hne => hne hnull) fun h => h.1 hfree
  · have hfinds := mmapFirstFree_finds s
    cases hr : (mmapFirstFree s).1 with
    | none =>
      rw [hr] at hfinds
      have hnull : (pmmAllocBlock s).1 = 0 := by simp only [pmmAllocBlock, if_neg hfree, hr]
      refine iff_of_false (fun hne => hne hnull) ?_
      rintro ⟨-, -, f, hf, hclear⟩
      exact hfinds f (Nat.zero_le f) hf hclear
    | some f =>
      rw [hr] at hfinds
      obtain ⟨-, hf, hclear, hfirst⟩ := id hfinds
      have haddr : (pmmAllocBlock s).1 = f * 4096 := by
        rw [pmmAllocBlock_of_finds hfree hfinds]
        exact wrap32_of_lt (by omega)
      rw [haddr]
      constructor
      · intro hne
        refine ⟨hfree, ?_, f, hf, hclear⟩
        exact Bool.not_eq_false _ ▸ hfirst 0 le_rfl (by omega)
      · rintro ⟨-, hzero, -⟩ h0
        obtain rfl : f = 0 := by omega
        rw [hzero] at hclear
        exact Bool.noConfusion hclear

theorem pmmAllocBlocks_ne_zero_iff (hsize : 1 ≤ size) :
    (pmmAllocBlocks s size).1 ≠ 0 ↔ BlocksFound s size := by
  have haddr : ∀ f, wrap32 (f * 4096) = 0 ↔ f % 1048576 = 0 := fun f => by
    unfold wrap32
    omega
  constructor
  · intro hne
    obtain ⟨f, -, hfree, hfit⟩ := exists_fit hsize hne
    obtain ⟨is, heq⟩ := pmmAllocBlocks_of_fit hsize hfree hfit
    rw [heq] at hne
    exact ⟨hfree, f, hfit, fun h0 => hne ((haddr f).mpr h0)⟩
  · rintro ⟨hfree, f, hfit, hf⟩ hnull
    obtain ⟨is, heq⟩ := pmmAllocBlocks_of_fit hsize hfree hfit
    rw [heq] at hnull
    exact hf ((haddr f).mp hnull)

theorem ledgerStep_pmm {c : Call} (h : ledgerStep l c = some l') : l'.pmm = pmmStep l.pmm c := by
  cases c with
  | allocBlock | allocBlocks size =>
    cases h
    rfl
  | initRegion base size | deinitRegion base size | freeBlock p | freeBlocks p size =>
    rw [ledgerStep, Option.ite_none_right_eq_some] at h
    obtain ⟨-, h⟩ := h
    cases h
    rfl

end Complete

end Unos.Pmm
