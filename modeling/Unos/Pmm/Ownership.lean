import Unos.Library.Runs
import Unos.Pmm.Effects

namespace Unos.Pmm

open Unos.Words Unos.BitWords Unos.Search Unos.Runs

inductive RegionCall
  | init (base size : ℕ)
  | deinit (base size : ℕ)

def RegionCall.limit : RegionCall → ℕ
  | .init base size | .deinit base size => base + size

def State.region (s : State) : RegionCall → State
  | .init base size => pmmInitRegion s base size
  | .deinit base size => pmmDeinitRegion s base size

def RegionCall.Frees : RegionCall → ℕ → Prop
  | .init base size, f => regionFrames base size f
  | .deinit _ _, _ => False

def RegionCall.Reserves : RegionCall → ℕ → Prop
  | .init _ _, _ => False
  | .deinit base size, f => regionFrames base size f

def setUp (around : ℤ → BitVec 32) (memSize : ℕ) (calls : List RegionCall) : State :=
  calls.foldl State.region (initPmm memSize (bootState around))

def MadeAvailable (calls : List RegionCall) (f : ℕ) : Prop :=
  ∃ before call after, calls = before ++ call :: after ∧ call.Frees f ∧
    ∀ c ∈ after, ¬ c.Reserves f

/-- The allocator with the addresses of the blocks that were handed out and not freed. -/
structure Owned where
  pmm : State
  live : Finset ℕ

inductive FrameCall
  | alloc
  | free (p : ℕ)

def frameStep (o : Owned) : FrameCall → Option Owned
  | .alloc =>
    let r := pmmAllocBlock o.pmm
    some ⟨r.2, if r.1 = 0 then o.live else insert r.1 o.live⟩
  | .free p => if p ∈ o.live then some ⟨pmmFreeBlock o.pmm p, o.live.erase p⟩ else none

/-- Every access so far was to a word of `bitmap_addr`. -/
def InBitmap (s : State) : Prop := ∀ i ∈ s.touched, 0 ≤ i ∧ i < bitmapSize

theorem setUp_concat (around : ℤ → BitVec 32) (memSize : ℕ) (calls : List RegionCall)
    (c : RegionCall) : setUp around memSize (calls ++ [c]) =
      (setUp around memSize calls).region c := by
  rw [setUp, List.foldl_concat]
  rfl

@[simp] theorem region_maxBlocks (s : State) (c : RegionCall) :
    (s.region c).maxBlocks = s.maxBlocks := by
  cases c
  · exact pmmInitRegion_maxBlocks s _ _
  · exact pmmDeinitRegion_maxBlocks s _ _

theorem region_used_zero {s : State} (h : s.used 0 = true) (c : RegionCall) :
    (s.region c).used 0 = true := by
  cases c with
  | init base size => simp only [State.region, pmmInitRegion_used, decide_true, Bool.true_or]
  | deinit base size => simp only [State.region, pmmDeinitRegion_used, h, Bool.or_true]

theorem region_clear {s : State} {c : RegionCall} {f : ℕ} (h : (s.region c).used f = false) :
    c.Frees f ∨ s.used f = false ∧ ¬ c.Reserves f := by
  cases c with
  | init base size =>
    simp only [State.region, pmmInitRegion_used, Bool.or_eq_false_iff, Bool.and_eq_false_iff,
      Bool.not_eq_false', decide_eq_true_eq] at h
    exact h.2.imp id fun hf => ⟨hf, id⟩
  | deinit base size =>
    simp only [State.region, pmmDeinitRegion_used, Bool.or_eq_false_iff,
      decide_eq_false_iff_not] at h
    exact Or.inr ⟨h.2, h.1⟩

theorem region_inBitmap {s : State} {c : RegionCall} (hs : InBitmap s)
    (hc : c.limit ≤ 4294967296) : InBitmap (s.region c) := by
  intro i hi
  unfold bitmapSize
  cases c with
  | init base size =>
    change base + size ≤ 4294967296 at hc
    simp only [State.region, pmmInitRegion, mmapSet_touched, List.mem_cons,
      mem_initRegionLoop_touched] at hi
    rcases hi with rfl | ⟨f, h1, h2, rfl⟩ | hi
    · omega
    · omega
    · exact hs i hi
  | deinit base size =>
    change base + size ≤ 4294967296 at hc
    simp only [State.region, pmmDeinitRegion, mem_deinitRegionLoop_touched] at hi
    rcases hi with ⟨f, h1, h2, rfl⟩ | hi
    · omega
    · exact hs i hi

theorem initPmm_inBitmap (around : ℤ → BitVec 32) {memSize : ℕ} (hmem : memSize < 4294967296) :
    InBitmap (initPmm memSize (bootState around)) := by
  intro i hi
  simp only [initPmm, bootState, List.append_nil, List.mem_map, List.mem_range] at hi
  obtain ⟨k, hk, rfl⟩ := hi
  unfold bitmapSize
  omega

theorem MadeAvailable.concat {calls : List RegionCall} {c : RegionCall} {f : ℕ}
    (h : MadeAvailable calls f) (hc : ¬ c.Reserves f) : MadeAvailable (calls ++ [c]) f := by
  obtain ⟨before, call, after, rfl, hfree, hafter⟩ := h
  refine ⟨before, call, after ++ [c], by simp, hfree, fun d hd => ?_⟩
  rcases List.mem_append.mp hd with hd | hd
  · exact hafter d hd
  · rwa [List.mem_singleton.mp hd]

theorem madeAvailable_last (calls : List RegionCall) {c : RegionCall} {f : ℕ} (h : c.Frees f) :
    MadeAvailable (calls ++ [c]) f :=
  ⟨calls, c, [], rfl, h, by simp⟩

theorem setUp_maxBlocks (around : ℤ → BitVec 32) (memSize : ℕ) (calls : List RegionCall) :
    (setUp around memSize calls).maxBlocks = memSize / 4096 := by
  induction calls using List.reverseRecOn with
  | nil => rfl
  | append_singleton calls c ih => rw [setUp_concat, region_maxBlocks, ih]

theorem setUp_used_zero (around : ℤ → BitVec 32) {memSize : ℕ} (hmem : 8 ≤ memSize / 4096)
    (calls : List RegionCall) : (setUp around memSize calls).used 0 = true := by
  induction calls using List.reverseRecOn with
  | nil =>
    rw [setUp, List.foldl_nil, initPmm_used]
    simp [show 0 < 8 * (memSize / 4096 / 8) by omega]
  | append_singleton calls c ih =>
    rw [setUp_concat]
    exact region_used_zero ih c

/-- Within the dwords that are scanned, `init_pmm` reserves every frame, so that a frame
that is free after the set-up was made available. -/
theorem setUp_clear {around : ℤ → BitVec 32} {memSize : ℕ} {calls : List RegionCall} {f : ℕ}
    (hf : f < memSize / 4096 / 32 * 32) (h : (setUp around memSize calls).used f = false) :
    MadeAvailable calls f := by
  induction calls using List.reverseRecOn with
  | nil =>
    rw [setUp, List.foldl_nil, initPmm_used] at h
    simp [show f < 8 * (memSize / 4096 / 8) by omega] at h
  | append_singleton calls c ih =>
    rw [setUp_concat] at h
    rcases region_clear h with hc | ⟨hs, hc⟩
    · exact madeAvailable_last calls hc
    · exact (ih hs).concat hc

theorem setUp_inBitmap (around : ℤ → BitVec 32) {memSize : ℕ} (hmem : memSize < 4294967296)
    {calls : List RegionCall} (hcalls : ∀ c ∈ calls, c.limit ≤ 4294967296) :
    InBitmap (setUp around memSize calls) := by
  induction calls using List.reverseRecOn with
  | nil => exact initPmm_inBitmap around hmem
  | append_singleton calls c ih =>
    rw [setUp_concat]
    exact region_inBitmap (ih fun d hd => hcalls d (by simp [hd])) (hcalls c (by simp))

/-- What holds between any two calls. The frames that are scanned are those below
`memSize / 4096 / 32 * 32`; all live blocks are among them. -/
structure OwnedInv (memSize : ℕ) (calls : List RegionCall) (o : Owned) : Prop where
  max : o.pmm.maxBlocks = memSize / 4096
  zero : 8 ≤ memSize / 4096 → o.pmm.used 0 = true
  avail : ∀ f, f < memSize / 4096 / 32 * 32 → o.pmm.used f = false → MadeAvailable calls f
  live : ∀ p ∈ o.live, ∃ f, p = f * 4096 ∧ f ≠ 0 ∧ f < memSize / 4096 / 32 * 32 ∧
    o.pmm.used f = true ∧ MadeAvailable calls f
  inside : InBitmap o.pmm

section Steps

variable {memSize : ℕ} {calls : List RegionCall} {o : Owned}

theorem setUp_inv (around : ℤ → BitVec 32) (hmem : memSize < 4294967296)
    (hcalls : ∀ c ∈ calls, c.limit ≤ 4294967296) :
    OwnedInv memSize calls ⟨setUp around memSize calls, ∅⟩ where
  max := setUp_maxBlocks around memSize calls
  zero h := setUp_used_zero around h calls
  avail _ hf h := setUp_clear hf h
  live := by simp
  inside := setUp_inBitmap around hmem hcalls

theorem OwnedInv.alloc_cases (h : OwnedInv memSize calls o) (hmem : memSize < 4294967296) :
    ∃ l : List ℤ, InBitmap (o.pmm.touch l) ∧
      (pmmAllocBlock o.pmm = (0, o.pmm.touch l) ∨
      ∃ f, f ≠ 0 ∧ f < memSize / 4096 / 32 * 32 ∧ o.pmm.used f = false ∧ MadeAvailable calls f ∧
        pmmAllocBlock o.pmm = (f * 4096,
          { mmapSet (o.pmm.touch l) f with usedBlocks := wrap32 (o.pmm.usedBlocks + 1) })) := by
  obtain ⟨l, hl, hcases⟩ := pmmAllocBlock_cases o.pmm
  rw [h.max] at hl hcases
  refine ⟨l, fun i hi => ?_, hcases.imp id ?_⟩
  · rw [touch_touched, List.mem_append] at hi
    rcases hi with hi | hi
    · have := hl i hi
      unfold bitmapSize
      omega
    · exact h.inside i hi
  · rintro ⟨f, ⟨-, hf, hclear, -⟩, heq⟩
    refine ⟨f, fun hf0 => ?_, hf, hclear, h.avail f hf hclear, ?_⟩
    · rw [hf0, h.zero (by omega)] at hclear
      exact Bool.noConfusion hclear
    · rw [heq, wrap32_of_lt (by omega)]

theorem OwnedInv.alloc (h : OwnedInv memSize calls o) (hmem : memSize < 4294967296) {u : Owned}
    (hu : frameStep o .alloc = some u) : OwnedInv memSize calls u := by
  obtain ⟨l, hl, heq | ⟨f, hf0, hf, hclear, havail, heq⟩⟩ := h.alloc_cases hmem
  · simp only [frameStep, heq, if_pos, Option.some.injEq] at hu
    subst hu
    exact ⟨h.max, h.zero, h.avail, h.live, hl⟩
  · have hne : f * 4096 ≠ 0 := by omega
    simp only [frameStep, heq, if_neg hne, Option.some.injEq] at hu
    subst hu
    have hused : ∀ g, State.used { mmapSet (o.pmm.touch l) f with
        usedBlocks := wrap32 (o.pmm.usedBlocks + 1) } g = (decide (g = f) || o.pmm.used g) :=
      fun g => bitAt_setBit (by decide) _ _ _
    refine ⟨h.max, fun h8 => ?_, fun g hg hclear' => ?_, fun p hp => ?_, fun i hi => ?_⟩
    · rw [hused, h.zero h8, Bool.or_true]
    · rw [hused, Bool.or_eq_false_iff] at hclear'
      exact h.avail g hg hclear'.2
    · rcases Finset.mem_insert.mp hp with rfl | hp
      · exact ⟨f, rfl, hf0, hf, by rw [hused]; simp, havail⟩
      · obtain ⟨g, hg, hg0, hgs, hgu, hga⟩ := h.live p hp
        exact ⟨g, hg, hg0, hgs, by rw [hused, hgu, Bool.or_true], hga⟩
    · rcases List.mem_cons.mp hi with rfl | hi
      · unfold bitmapSize
        omega
      · exact hl i hi

theorem OwnedInv.free (h : OwnedInv memSize calls o) (hmem : memSize < 4294967296) {p : ℕ}
    {u : Owned} (hu : frameStep o (.free p) = some u) : OwnedInv memSize calls u := by
  rw [frameStep] at hu
  split_ifs at hu with hp
  cases hu
  obtain ⟨f, rfl, hf0, hf, hfu, hfa⟩ := h.live p hp
  have hdiv : f * 4096 / 4096 = f := by omega
  have hused := pmmFreeBlock_used o.pmm (f * 4096)
  rw [hdiv] at hused
  refine ⟨by rw [pmmFreeBlock_maxBlocks, h.max], fun h8 => ?_, fun g hg hclear => ?_,
    fun q hq => ?_, fun i hi => ?_⟩
  · rw [hused, h.zero h8]
    simp [Ne.symm hf0]
  · by_cases hgf : g = f
    · rw [hgf]
      exact hfa
    · rw [hused] at hclear
      exact h.avail g hg (by simpa [hgf] using hclear)
  · obtain ⟨hne, hq⟩ := Finset.mem_erase.mp hq
    obtain ⟨g, rfl, hg0, hgs, hgu, hga⟩ := h.live q hq
    have hgf : g ≠ f := fun hgf => hne (by rw [hgf])
    exact ⟨g, rfl, hg0, hgs, by rw [hused, hgu]; simp [hgf], hga⟩
  · rw [pmmFreeBlock, mmapUnset_touched, hdiv] at hi
    rcases List.mem_cons.mp hi with rfl | hi
    · unfold bitmapSize
      omega
    · exact h.inside i hi

theorem OwnedInv.run (hmem : memSize < 4294967296) {u : Owned} {frameCalls : List FrameCall}
    (h : OwnedInv memSize calls o) (hu : Runs.run frameStep o frameCalls = some u) :
    OwnedInv memSize calls u := by
  apply run_invariant _ h hu
  intro o c u ho hc
  cases c with
  | alloc => exact ho.alloc hmem hc
  | free p => exact ho.free hmem hc

end Steps

/-- Every address that `pmm_alloc_block` returns, after any set-up and any run of
allocations and frees, is a fresh block of available memory; and the bitmap has
been accessed inside its array only. -/
theorem pmmAllocBlock_no_alias (around : ℤ → BitVec 32) {memSize : ℕ}
    (hmem : memSize < 4294967296) {calls : List RegionCall}
    (hcalls : ∀ c ∈ calls, c.limit ≤ 4294967296) {frameCalls : List FrameCall} {o : Owned}
    (hrun : run frameStep ⟨setUp around memSize calls, ∅⟩ frameCalls = some o)
    (hp : (pmmAllocBlock o.pmm).1 ≠ 0) :
    4096 ∣ (pmmAllocBlock o.pmm).1 ∧
    (pmmAllocBlock o.pmm).1 < o.pmm.maxBlocks * 4096 ∧
    MadeAvailable calls ((pmmAllocBlock o.pmm).1 / 4096) ∧
    (pmmAllocBlock o.pmm).1 ∉ o.live ∧
    InBitmap (pmmAllocBlock o.pmm).2 := by
  have h := (setUp_inv around hmem hcalls).run hmem hrun
  have hnext := h.alloc hmem (u := ⟨(pmmAllocBlock o.pmm).2, _⟩) rfl
  obtain ⟨l, -, heq | ⟨f, hf0, hf, hclear, havail, heq⟩⟩ := h.alloc_cases hmem
  · rw [heq] at hp
    exact absurd rfl hp
  · have hinside := hnext.inside
    rw [heq] at hinside ⊢
    refine ⟨Nat.dvd_mul_left 4096 f, ?_, ?_, fun hlive => ?_, hinside⟩
    · rw [h.max]
      omega
    · rwa [Nat.mul_div_cancel f (by decide)]
    · obtain ⟨g, hg, -, -, hgu, -⟩ := h.live _ hlive
      rw [← Nat.eq_of_mul_eq_mul_right (by decide) hg, hclear] at hgu
      exact Bool.noConfusion hgu

/-- 32 frames, all made available: frames 1 and 2 are handed out, 1 is freed and reused, 3 is
next. -/
theorem pmmAllocBlock_no_alias_second :
    let start : Owned := ⟨setUp (fun _ => 0) 131072 [.init 0 131072], ∅⟩
    let o := (run frameStep start [.alloc, .alloc, .free 4096, .alloc]).getD start
    (pmmAllocBlock o.pmm).1 = 12288 ∧ 4096 ∣ (pmmAllocBlock o.pmm).1 ∧
    (pmmAllocBlock o.pmm).1 < o.pmm.maxBlocks * 4096 ∧
    MadeAvailable [.init 0 131072] ((pmmAllocBlock o.pmm).1 / 4096) ∧
    (pmmAllocBlock o.pmm).1 ∉ o.live ∧ InBitmap (pmmAllocBlock o.pmm).2 := by
  intro start o
  have hrun : run frameStep start [.alloc, .alloc, .free 4096, .alloc] = some o :=
    run_eq_getD start (by decide +kernel)
  have hp : (pmmAllocBlock o.pmm).1 = 12288 := by decide +kernel
  exact ⟨hp, pmmAllocBlock_no_alias _ (by decide) (by decide) hrun (by rw [hp]; decide)⟩

end Unos.Pmm
