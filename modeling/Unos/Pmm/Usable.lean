import Mathlib.Algebra.Order.BigOperators.Group.Finset
import Unos.Pmm.Boot
import Unos.Pmm.Contiguous

namespace Unos.Pmm

open Unos.Words Unos.BitWords Unos.Search

/-- An entry of the map with the words that `kmain` does not read. -/
structure MultibootMmapEntry extends MultibootMemoryMap where
  addrHigh : ℕ
  lenHigh : ℕ
  addrLow_lt : addrLow < 4294967296
  addrHigh_lt : addrHigh < 4294967296
  lenLow_lt : lenLow < 4294967296
  lenHigh_lt : lenHigh < 4294967296

namespace MultibootMmapEntry

def base (e : MultibootMmapEntry) : ℕ := 4294967296 * e.addrHigh + e.addrLow

def length (e : MultibootMmapEntry) : ℕ := 4294967296 * e.lenHigh + e.lenLow

/-- The byte at `x` is available memory of the entry. -/
def Covers (e : MultibootMmapEntry) (x : ℕ) : Prop :=
  e.type = multibootMemoryAvailable ∧ e.base ≤ x ∧ x < e.base + e.length

end MultibootMmapEntry

section Map

variable (map : ℕ → MultibootMmapEntry)

def lowWords (i : ℕ) : MultibootMemoryMap := (map i).toMultibootMemoryMap

def NonOverlapping (n : ℕ) : Prop :=
  ∀ i < n, ∀ j < n, i ≠ j →
    (map i).base + (map i).length ≤ (map j).base ∨ (map j).base + (map j).length ≤ (map i).base

def UsableFrame (n f : ℕ) : Prop := ∀ x, f * 4096 ≤ x → x < f * 4096 + 4096 → ∃ i < n,
    (map i).Covers x

/-- One of the first `n` entries makes the loop free the frame. -/
def FreedFrame (n f : ℕ) : Prop :=
  ∃ i < n, (map i).type = multibootMemoryAvailable ∧ regionFrames (map i).addrLow (map i).lenLow f

/-- Of the frames that are scanned for allocation, only usable ones are freed. The byte
that counts the entries leaves out those from the next multiple of 256 on. -/
def FreesUsable (mmapLength memSize : ℕ) : Prop :=
  ∀ f, f ≠ 0 → f < memSize / 4096 / 32 * 32 → FreedFrame map (mmapLength / 24 % 256) f →
    UsableFrame map (mmapLength / 24) f

inductive AllocCall
  | block
  | blocks (size : ℕ)

def State.allocate (s : State) : AllocCall → State
  | .block => (pmmAllocBlock s).2
  | .blocks size => (pmmAllocBlocks s size).2

/-- After any run of allocations `pmm_alloc_block` returns usable frames only. -/
def OnlyUsable (n : ℕ) (s : State) : Prop :=
  ∀ calls : List AllocCall, (pmmAllocBlock (calls.foldl State.allocate s)).1 ≠ 0 →
    UsableFrame map n ((pmmAllocBlock (calls.foldl State.allocate s)).1 / 4096)

variable {map} {s : State}

theorem allocate_maxBlocks (s : State) (c : AllocCall) :
    (s.allocate c).maxBlocks = s.maxBlocks := by
  cases c with
  | block => exact pmmAllocBlock_maxBlocks s
  | blocks size =>
    rw [State.allocate]
    obtain ⟨l, ⟨heq, -⟩ | ⟨f, -, -, -, heq⟩⟩ := pmmAllocBlocks_cases s size
    · rw [heq, touch_maxBlocks]
    · rw [heq]
      simp only [setLoop_maxBlocks, touch_maxBlocks]

theorem allocate_used {f : ℕ} (hf : s.used f = true) (c : AllocCall) :
    (s.allocate c).used f = true := by
  cases c with
  | block =>
    rw [State.allocate]
    obtain ⟨l, -, heq | ⟨g, -, heq⟩⟩ := pmmAllocBlock_cases s
    · rw [heq]
      exact hf
    · rw [heq]
      have hused : (s.touch l).used f = true := hf
      exact (mmapSet_used (s.touch l) g f).trans (by rw [hused, Bool.or_true])
  | blocks size =>
    rw [State.allocate]
    obtain ⟨l, ⟨heq, -⟩ | ⟨g, -, -, -, heq⟩⟩ := pmmAllocBlocks_cases s size
    · rw [heq]
      exact hf
    · rw [heq]
      exact setLoop_used_of_used (s.touch l) g size hf

theorem foldl_allocate_maxBlocks (calls : List AllocCall) :
    (calls.foldl State.allocate s).maxBlocks = s.maxBlocks := by
  induction calls generalizing s with
  | nil => rfl
  | cons c calls ih => rw [List.foldl_cons, ih, allocate_maxBlocks]

theorem foldl_allocate_used {f : ℕ} (hf : s.used f = true) (calls : List AllocCall) :
    (calls.foldl State.allocate s).used f = true := by
  induction calls generalizing s with
  | nil => exact hf
  | cons c calls ih => exact ih (allocate_used hf c)

theorem foldl_allocate_replicate (n : ℕ) (s : State) :
    (List.replicate n AllocCall.block).foldl State.allocate s = allocRun n s := by
  induction n generalizing s with
  | zero => rfl
  | succ n ih => exact ih _

theorem freedFrame_succ {n f : ℕ} :
    FreedFrame map (n + 1) f ↔ FreedFrame map n f ∨
      (map n).type = multibootMemoryAvailable ∧ regionFrames (map n).addrLow (map n).lenLow f := by
  constructor
  · rintro ⟨i, hi, hfree⟩
    rcases Nat.lt_succ_iff_lt_or_eq.mp hi with hi | rfl
    · exact Or.inl ⟨i, hi, hfree⟩
    · exact Or.inr hfree
  · rintro (⟨i, hi, hfree⟩ | hfree)
    · exact ⟨i, by omega, hfree⟩
    · exact ⟨n, Nat.lt_succ_self n, hfree⟩

theorem mmapLoop_succ (m : ℕ → MultibootMemoryMap) (s : State) (n i : ℕ) :
    mmapLoop m s (n + 1) i =
      if (m (i + n)).type = multibootMemoryAvailable then
        pmmInitRegion (mmapLoop m s n i) (m (i + n)).addrLow (m (i + n)).lenLow
      else mmapLoop m s n i := by
  induction n generalizing s i with
  | zero => rfl
  | succ n ih =>
    rw [mmapLoop, ih, Nat.add_right_comm i 1 n, ← Nat.add_assoc]
    rfl

theorem mmapLoop_used (hzero : s.used 0 = true) (n f : ℕ) :
    (mmapLoop (lowWords map) s n 0).used f = false ↔
      f ≠ 0 ∧ (s.used f = false ∨ FreedFrame map n f) := by
  induction n with
  | zero =>
    have hnone : ¬ FreedFrame map 0 f := fun ⟨i, hi, _⟩ => absurd hi (Nat.not_lt_zero i)
    rw [mmapLoop, or_iff_left hnone]
    refine ⟨fun h => ⟨fun h0 => ?_, h⟩, And.right⟩
    rw [h0, hzero] at h
    exact Bool.noConfusion h
  | succ n ih =>
    rw [mmapLoop_succ, Nat.zero_add, freedFrame_succ, lowWords]
    by_cases htype : (map n).type = multibootMemoryAvailable
    · rw [if_pos htype, pmmInitRegion_used, Bool.or_eq_false_iff, decide_eq_false_iff_not,
        Bool.and_eq_false_iff, Bool.not_eq_false', decide_eq_true_iff, ih]
      have hor : (regionFrames (map n).addrLow (map n).lenLow f ∨
          f ≠ 0 ∧ (s.used f = false ∨ FreedFrame map n f)) ∧ f ≠ 0 ↔
          f ≠ 0 ∧ (s.used f = false ∨ FreedFrame map n f ∨ (map n).type = multibootMemoryAvailable ∧
            regionFrames (map n).addrLow (map n).lenLow f) := by
        tauto
      rw [and_comm, ← hor]
    · rw [if_neg htype, ih]
      have hno : ¬ ((map n).type = multibootMemoryAvailable ∧
        regionFrames (map n).addrLow (map n).lenLow f) := fun h => htype h.1
      rw [or_iff_left hno]

def entryFrames (e : MultibootMmapEntry) : Finset ℕ :=
  if e.type = multibootMemoryAvailable then
    Finset.Ico (e.addrLow / 4096) (e.addrLow / 4096 + e.lenLow / 4096)
  else ∅

theorem card_entryFrames_le (e : MultibootMmapEntry) : (entryFrames e).card ≤ 1048575 := by
  have hlen := e.lenLow_lt
  rw [entryFrames]
  split_ifs
  · rw [Nat.card_Ico]
    omega
  · exact Nat.zero_le _

theorem mem_entryFrames {e : MultibootMmapEntry} {f : ℕ} : f ∈ entryFrames e ↔
    e.type = multibootMemoryAvailable ∧ regionFrames e.addrLow e.lenLow f := by
  rw [entryFrames]
  split_ifs with htype
  · rw [Finset.mem_Ico, and_iff_right htype]
    rfl
  · exact iff_of_false (Finset.notMem_empty f) fun h => htype h.1

theorem mmapLoop_usedBlocks (hs : s.usedBlocks < 4294967296) (n : ℕ) :
    (mmapLoop (lowWords map) s n 0).usedBlocks =
      sub32 s.usedBlocks (∑ i ∈ Finset.range n, (entryFrames (map i)).card) := by
  induction n with
  | zero => rw [mmapLoop, Finset.sum_range_zero, sub32_of_le (Nat.zero_le _) hs, Nat.sub_zero]
  | succ n ih =>
    rw [mmapLoop_succ, Nat.zero_add, Finset.sum_range_succ, ← sub32_sub32, ← ih,
      lowWords, entryFrames]
    have hlt : (mmapLoop (lowWords map) s n 0).usedBlocks < 4294967296 := by
      rw [ih]
      exact sub32_lt _ _
    split_ifs with htype
    · rw [Nat.card_Ico, Nat.add_sub_cancel_left, pmmInitRegion, mmapSet_usedBlocks,
        initRegionLoop_usedBlocks _ hlt]
    · rw [Finset.card_empty, sub32_of_le (Nat.zero_le _) hlt, Nat.sub_zero]

section HandedOut

variable {around : ℤ → BitVec 32} {memUpper mmapLength : ℕ}

def afterLoop (around : ℤ → BitVec 32) (memUpper mmapLength : ℕ) (map : ℕ → MultibootMmapEntry) :
    State :=
  kmainAvailable ⟨memUpper, mmapLength, lowWords map⟩ (bootState around)

def managedSize (memUpper : ℕ) : ℕ := wrap32 (0x100000 + wrap32 (memUpper <<< 10))

theorem afterLoop_eq : afterLoop around memUpper mmapLength map =
    mmapLoop (lowWords map) (initPmm (managedSize memUpper) (bootState around))
      (mmapLength / 24 % 256) 0 := rfl

theorem afterLoop_maxBlocks :
    (afterLoop around memUpper mmapLength map).maxBlocks = managedSize memUpper / 4096 :=
  mmapLoop_maxBlocks _ _ _ _

theorem afterLoop_used {f : ℕ} (hf : f < managedSize memUpper / 4096 / 32 * 32) :
    (afterLoop around memUpper mmapLength map).used f = false ↔
      f ≠ 0 ∧ FreedFrame map (mmapLength / 24 % 256) f := by
  have hreserved : ∀ g, g < managedSize memUpper / 4096 / 32 * 32 →
      (initPmm (managedSize memUpper) (bootState around)).used g = true := by
    intro g hg
    rw [initPmm_used, decide_eq_true (by omega), Bool.true_or]
  rw [afterLoop_eq, mmapLoop_used (hreserved 0 (by omega)), hreserved f hf]
  simp only [Bool.true_eq_false, false_or]

theorem clearBelow_afterLoop_lt {f : ℕ} (hf : f < managedSize memUpper / 4096 / 32 * 32)
    (hclear : (afterLoop around memUpper mmapLength map).used f = false) :
    (clearBelow (afterLoop around memUpper mmapLength map) f).card <
      pmmGetFreeBlockCount (afterLoop around memUpper mmapLength map) := by
  have hsize : managedSize memUpper < 4294967296 := wrap32_lt _
  have hused : (afterLoop around memUpper mmapLength map).usedBlocks =
      sub32 (managedSize memUpper / 4096)
        (∑ i ∈ Finset.range (mmapLength / 24 % 256), (entryFrames (map i)).card) := by
    rw [afterLoop_eq, mmapLoop_usedBlocks (by rw [initPmm_usedBlocks]; omega), initPmm_usedBlocks]
  have hsum : ∑ i ∈ Finset.range (mmapLength / 24 % 256), (entryFrames (map i)).card ≤
      (mmapLength / 24 % 256) * 1048575 := by
    have h := Finset.sum_le_card_nsmul (Finset.range (mmapLength / 24 % 256))
      (fun i => (entryFrames (map i)).card) 1048575 fun i _ => card_entryFrames_le (map i)
    rwa [Finset.card_range, Nat.nsmul_eq_mul] at h
  have hsub : insert f (clearBelow (afterLoop around memUpper mmapLength map) f) ⊆
      (Finset.range (mmapLength / 24 % 256)).biUnion fun i => entryFrames (map i) := by
    intro g hg
    have hgclear : g < managedSize memUpper / 4096 / 32 * 32 ∧
        (afterLoop around memUpper mmapLength map).used g = false := by
      rcases Finset.mem_insert.mp hg with rfl | hg
      · exact ⟨hf, hclear⟩
      · obtain ⟨hlt, hg⟩ := Finset.mem_filter.mp hg
        exact ⟨(Finset.mem_range.mp hlt).trans hf, hg⟩
    obtain ⟨-, i, hi, hfree⟩ := (afterLoop_used hgclear.1).mp hgclear.2
    exact Finset.mem_biUnion.mpr ⟨i, Finset.mem_range.mpr hi, mem_entryFrames.mpr hfree⟩
  have hnotMem : f ∉ clearBelow (afterLoop around memUpper mmapLength map) f := fun h =>
    absurd (Finset.mem_range.mp (Finset.mem_filter.mp h).1) (lt_irrefl f)
  have hcard := (Finset.card_le_card hsub).trans Finset.card_biUnion_le
  rw [Finset.card_insert_of_notMem hnotMem] at hcard
  rw [pmmGetFreeBlockCount, afterLoop_maxBlocks, hused]
  unfold sub32
  omega

theorem freesUsable_of_onlyUsable
    (h : OnlyUsable map (mmapLength / 24) (afterLoop around memUpper mmapLength map)) :
    FreesUsable map mmapLength (managedSize memUpper) := by
  intro f h0 hf hfree
  have hsize : managedSize memUpper < 4294967296 := wrap32_lt _
  have hclear : (afterLoop around memUpper mmapLength map).used f = false :=
    (afterLoop_used hf).mpr ⟨h0, hfree⟩
  obtain ⟨n, hn⟩ := allocRun_reaches (by rw [afterLoop_maxBlocks]; omega) hclear
    (by rwa [afterLoop_maxBlocks]) le_rfl (clearBelow_afterLoop_lt hf hclear)
  rw [← foldl_allocate_replicate] at hn
  have hframe := h (List.replicate n .block) (by omega)
  rwa [hn, Nat.mul_div_cancel f (by decide)] at hframe

theorem onlyUsable_of_freesUsable (h : FreesUsable map mmapLength (managedSize memUpper)) :
    OnlyUsable map (mmapLength / 24) (afterLoop around memUpper mmapLength map) := by
  intro calls hne
  have hsize : managedSize memUpper < 4294967296 := wrap32_lt _
  obtain ⟨l, -, heq | ⟨f, ⟨-, hf, hclear, -⟩, heq⟩⟩ :=
    pmmAllocBlock_cases (calls.foldl State.allocate (afterLoop around memUpper mmapLength map))
  · rw [heq] at hne
    exact absurd rfl hne
  · rw [foldl_allocate_maxBlocks, afterLoop_maxBlocks] at hf
    -- the frame was clear before the allocations
    have hbefore : (afterLoop around memUpper mmapLength map).used f = false := by
      by_contra hused
      rw [Bool.not_eq_false] at hused
      rw [foldl_allocate_used hused calls] at hclear
      exact Bool.noConfusion hclear
    obtain ⟨h0, hfree⟩ := (afterLoop_used hf).mp hbefore
    have hframe : wrap32 (f * 4096) / 4096 = f := by
      rw [wrap32_of_lt (by omega), Nat.mul_div_cancel f (by decide)]
    rw [heq, hframe]
    exact h f h0 hf hfree

/-- On every map, `pmm_alloc_block` returns only available memory exactly when the loop
frees only usable frames. -/
theorem onlyUsable_iff (around : ℤ → BitVec 32) (memUpper mmapLength : ℕ)
    (map : ℕ → MultibootMmapEntry) :
    OnlyUsable map (mmapLength / 24) (afterLoop around memUpper mmapLength map) ↔
      FreesUsable map mmapLength (managedSize memUpper) :=
  ⟨freesUsable_of_onlyUsable, onlyUsable_of_freesUsable⟩

end HandedOut

end Map

def largeMachine : ℕ → MultibootMmapEntry
  | 0 => ⟨⟨0, 0x9fc00, 1⟩, 0, 0, by decide, by decide, by decide, by decide⟩
  | 1 => ⟨⟨0x100000, 0xBFEE0000, 1⟩, 0, 0, by decide, by decide, by decide, by decide⟩
  | _ => ⟨⟨0, 0x80000000, 1⟩, 1, 0, by decide, by decide, by decide, by decide⟩

/-- The last entry is taken for the first 2 GB, and the video memory is handed out. -/
theorem largeMachine_not_onlyUsable : NonOverlapping largeMachine (72 / 24) ∧
    ¬ OnlyUsable largeMachine (72 / 24) (afterLoop (fun _ => 0) 0x2FFB80 72 largeMachine) := by
  refine ⟨by unfold NonOverlapping; decide, fun h => ?_⟩
  have hfree : FreedFrame largeMachine (72 / 24 % 256) 0xb8 := ⟨2, by decide, rfl, by decide⟩
  obtain ⟨i, hi, -, hbase, hlimit⟩ :=
    freesUsable_of_onlyUsable h 0xb8 (by decide) (by decide +kernel) hfree 0xb8000
      (by decide) (by decide)
  have hcases : i = 0 ∨ i = 1 ∨ i = 2 := by omega
  rcases hcases with rfl | rfl | rfl
  · exact absurd hlimit (by decide)
  · exact absurd hbase (by decide)
  · exact absurd hbase (by decide)

end Unos.Pmm
