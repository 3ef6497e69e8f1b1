import Unos.Vmm.Agreement

namespace Unos.Vmm

open Unos.Words Unos.ByteMemory Unos.Runs

/-- The paging state, the blocks that are handed out, and for each page how often its frame
was given back since it was mapped. -/
structure Lent where
  state : State Frames
  live : Finset ℕ
  givenBack : ℕ → ℕ

inductive LentEvent
  | alloc
  | map (c : MapCall)
  | free (page : ℕ)

section Giveback

variable (dir : ℕ)

/-- The frame that the entry of a page refers to. -/
def frameOf (m : Mem) (page : ℕ) : ℕ := pteOf m dir page / 4096

/-- The entry of the page has `PTE_PRESENT` set. -/
def Present (m : Mem) (page : ℕ) : Prop := pteOf m dir page % 2 = 1

instance (m : Mem) (page : ℕ) : Decidable (Present dir m page) :=
  inferInstanceAs (Decidable (_ = _))

def MapsLive (s : Lent) (c : MapCall) : Prop :=
  c.phys ∈ s.live ∧ ∀ page < 1048576, page ≠ c.virt / 4096 → Present dir s.state.mem page →
    frameOf dir s.state.mem page ≠ c.phys / 4096

instance (s : Lent) (c : MapCall) : Decidable (MapsLive dir s c) :=
  inferInstanceAs (Decidable (_ ∧ _))

def lentStep (s : Lent) : LentEvent → Option Lent
  | .alloc =>
    let r := pmmFrames.allocBlock s.state.pmm
    some ⟨{ s.state with pmm := r.2 }, if r.1 = 0 then s.live else insert r.1 s.live, s.givenBack⟩
  | .map c =>
    if c.virt < 4294967296 ∧ c.attr < 0x1000 ∧ MapsLive dir s c then
      some ⟨vmmMapPage pmmFrames s.state dir c.phys c.virt c.attr, s.live,
        if Maps pmmFrames s.state dir (c.virt / 4096) c.attr then
          Function.update s.givenBack (c.virt / 4096) 0
        else s.givenBack⟩
    else none
  | .free page =>
    if page < 1048576 ∧ HasTable s.state.mem dir page then
      let t := vmmFreePage freeFrame s.state (pteAddress s.state.mem dir page)
      some (if frameOf dir s.state.mem page = 0 then { s with state := t }
        else ⟨t, s.live.erase (4096 * frameOf dir s.state.mem page),
          Function.update s.givenBack page (s.givenBack page + 1)⟩)
    else none

def FramesHeld (s : Lent) : Prop :=
  ∀ page < 1048576,
    (Present dir s.state.mem page → s.state.pmm.1.used (frameOf dir s.state.mem page) = true) ∧
    s.givenBack page ≤ 1

def AbsentUnchanged (s : Lent) : LentEvent → Prop
  | .free page => ¬ Present dir s.state.mem page →
    (vmmFreePage freeFrame s.state (pteAddress s.state.mem dir page)).pmm.1.memoryMap =
        s.state.pmm.1.memoryMap ∧
      (vmmFreePage freeFrame s.state (pteAddress s.state.mem dir page)).pmm.1.usedBlocks =
        s.state.pmm.1.usedBlocks
  | _ => True

def FreesMapped (s : Lent) : LentEvent → Prop
  | .free page => Present dir s.state.mem page ∨ frameOf dir s.state.mem page = 0
  | _ => True

structure LentInv (s : Lent) : Prop where
  tables : Tables s.state.mem dir
  owned : Owned pmmFrames s.state dir
  live : ∀ b ∈ s.live, b ≠ 0 ∧ b % 4096 = 0 ∧ b < 4294967296 ∧ pmmFrames.inUse s.state.pmm b ∧
    NewFrame s.state.mem dir b
  mapped : ∀ page < 1048576, Present dir s.state.mem page →
    4096 * frameOf dir s.state.mem page ∈ s.live ∧ s.givenBack page = 0
  once : ∀ page < 1048576, ∀ other < 1048576, page ≠ other → Present dir s.state.mem page →
    Present dir s.state.mem other → frameOf dir s.state.mem page ≠ frameOf dir s.state.mem other
  givenBack : ∀ page < 1048576, s.givenBack page ≤ 1

variable {dir} {s t : Lent}

theorem freeFrame_inUse (s : Frames) (p f : ℕ) :
    pmmFrames.inUse (freeFrame s p) f ↔ f / 4096 ≠ p / 4096 ∧ pmmFrames.inUse s f := by
  have hused : (freeFrame s p).1.used (f / 4096) = _ := Pmm.pmmFreeBlock_used s.1 p (f / 4096)
  change (freeFrame s p).1.used (f / 4096) = true ↔ _ ∧ s.1.used (f / 4096) = true
  rw [hused, Bool.and_eq_true, Bool.not_eq_true', decide_eq_false_iff_not]

theorem LentInv.framesHeld (h : LentInv dir s) : FramesHeld dir s := by
  intro page hpage
  refine ⟨fun hpresent => ?_, h.givenBack page hpage⟩
  obtain ⟨-, -, -, huse, -⟩ := h.live _ (h.mapped page hpage hpresent).1
  have hframe : 4096 * frameOf dir s.state.mem page / 4096 =
    frameOf dir s.state.mem page := by omega
  rw [← hframe]
  exact huse

theorem LentInv.alloc (h : LentInv dir s) (hstep : lentStep dir s .alloc = some t) :
    LentInv dir t := by
  rw [← Option.some.inj hstep]
  have hlive : ∀ b ∈ s.live, b ∈ if (pmmFrames.allocBlock s.state.pmm).1 = 0 then s.live
      else insert (pmmFrames.allocBlock s.state.pmm).1 s.live := by
    intro b hb
    split
    · exact hb
    · exact Finset.mem_insert_of_mem hb
  refine ⟨h.tables, h.owned.alloc, fun b hb => ?_, fun page hpage hpresent => ?_,
    h.once, h.givenBack⟩
  · dsimp only at hb ⊢
    by_cases hb' : b ∈ s.live
    · obtain ⟨h0, haligned, hbound, huse, hnew⟩ := h.live b hb'
      exact ⟨h0, haligned, hbound, pmmFrames.keeps _ _ huse, hnew⟩
    · -- the block that was handed out just now
      split at hb
      · exact absurd hb hb'
      · next h0 =>
        obtain rfl := (Finset.mem_insert.mp hb).resolve_right hb'
        have hfresh := pmmFrames.fresh _ h0
        exact ⟨h0, pmmFrames.aligned _, pmmFrames.bounded _, pmmFrames.marks _ h0,
          fun heq => hfresh (heq ▸ h.owned.dir_inUse),
          fun i hi hodd heq => hfresh (heq ▸ h.owned.table_inUse i hi hodd)⟩
  · obtain ⟨hmem, hback⟩ := h.mapped page hpage hpresent
    exact ⟨hlive _ hmem, hback⟩

theorem LentInv.newFrame_map (h : LentInv dir s) {c : MapCall} (hphys : c.phys < 4294967296)
    (hvirt : c.virt < 4294967296) (hattr : c.attr < 0x1000) {b : ℕ} (hb : b ∈ s.live) :
    NewFrame (vmmMapPage pmmFrames s.state dir c.phys c.virt c.attr).mem dir b := by
  obtain ⟨-, -, -, huse, hdir, htable⟩ := h.live b hb
  refine ⟨hdir, fun i hi hodd => ?_⟩
  rw [h.tables.entry_vmmMapPage (h.owned.newTable _) hphys hvirt hattr hi] at hodd ⊢
  split_ifs at hodd ⊢ with hc
  · rw [tableOf_enter (pmmFrames.aligned _) hattr]
    exact fun heq => pmmFrames.fresh _ hc.2.2 (heq ▸ huse)
  · exact htable i hi hodd

theorem LentInv.map (h : LentInv dir s) {c : MapCall}
    (hstep : lentStep dir s (.map c) = some t) : LentInv dir t := by
  rw [lentStep, Option.ite_none_right_eq_some] at hstep
  obtain ⟨⟨hvirt, hattr, hblock, honly⟩, ht⟩ := hstep
  obtain ⟨-, haligned, hphys, -, -⟩ := h.live _ hblock
  obtain ⟨htables, hpte⟩ := h.tables.vmmMapPage (h.owned.newTable (c.virt / 4096)) hphys hvirt hattr
  have hkeeps : ∀ b, pmmFrames.inUse s.state.pmm b →
      pmmFrames.inUse (vmmMapPage pmmFrames s.state dir c.phys c.virt c.attr).pmm b := by
    intro b hb
    rw [vmmMapPage_pmm hvirt hattr]
    split
    · exact hb
    · exact pmmFrames.keeps _ _ hb
  have hself : (4096 * (c.phys / 4096) + c.attr) / 4096 = c.phys / 4096 := by omega
  -- the page of the call refers to the block, the others to what they did
  have hframe : ∀ page < 1048576,
      frameOf dir (vmmMapPage pmmFrames s.state dir c.phys c.virt c.attr).mem page =
        if page = c.virt / 4096 ∧ Maps pmmFrames s.state dir (c.virt / 4096) c.attr
          then c.phys / 4096
        else frameOf dir s.state.mem page := by
    intro page hpage
    rw [frameOf, hpte page hpage, apply_ite (· / 4096), hself]
    rfl
  have hother : ∀ page < 1048576,
      ¬ (page = c.virt / 4096 ∧ Maps pmmFrames s.state dir (c.virt / 4096) c.attr) →
      Present dir (vmmMapPage pmmFrames s.state dir c.phys c.virt c.attr).mem page →
      Present dir s.state.mem page := by
    intro page hpage hc hpresent
    rw [Present, hpte page hpage, if_neg hc] at hpresent
    exact hpresent
  have hback : ∀ page,
      (if Maps pmmFrames s.state dir (c.virt / 4096) c.attr then
        Function.update s.givenBack (c.virt / 4096) 0 else s.givenBack) page =
      if page = c.virt / 4096 ∧ Maps pmmFrames s.state dir (c.virt / 4096) c.attr then 0
      else s.givenBack page := by
    intro page
    by_cases hmaps : Maps pmmFrames s.state dir (c.virt / 4096) c.attr
    · simp only [hmaps, if_true, and_true, Function.update_apply]
    · simp only [hmaps, if_false, and_false]
  rw [← Option.some.inj ht]
  refine ⟨htables, h.owned.vmmMapPage h.tables hphys hvirt hattr, fun b hb => ?_,
    fun page hpage hpresent => ?_, fun page hpage other hother' hne hpresent hpresent' => ?_,
    fun page hpage => ?_⟩
  · obtain ⟨h0, hal, hbound, huse, -⟩ := h.live b hb
    exact ⟨h0, hal, hbound, hkeeps b huse, h.newFrame_map hphys hvirt hattr hb⟩
  · dsimp only at hpresent ⊢
    rw [hframe page hpage, hback]
    by_cases hc : page = c.virt / 4096 ∧ Maps pmmFrames s.state dir (c.virt / 4096) c.attr
    · have hblock' : 4096 * (c.phys / 4096) = c.phys := by omega
      rw [if_pos hc, if_pos hc, hblock']
      exact ⟨hblock, rfl⟩
    · rw [if_neg hc, if_neg hc]
      exact h.mapped page hpage (hother page hpage hc hpresent)
  · dsimp only at hpresent hpresent' ⊢
    rw [hframe page hpage, hframe other hother']
    by_cases hc : page = c.virt / 4096 ∧ Maps pmmFrames s.state dir (c.virt / 4096) c.attr
    · have hne' : other ≠ c.virt / 4096 := fun heq => hne (hc.1.trans heq.symm)
      have hc' : ¬ (other = c.virt / 4096 ∧
          Maps pmmFrames s.state dir (c.virt / 4096) c.attr) := fun hc' => hne' hc'.1
      rw [if_pos hc, if_neg hc']
      exact (honly other hother' hne' (hother other hother' hc' hpresent')).symm
    · rw [if_neg hc]
      by_cases hc' : other = c.virt / 4096 ∧ Maps pmmFrames s.state dir (c.virt / 4096) c.attr
      · have hne' : page ≠ c.virt / 4096 := fun heq => hc ⟨heq, hc'.2⟩
        rw [if_pos hc']
        exact honly page hpage hne' (hother page hpage hc hpresent)
      · rw [if_neg hc']
        exact h.once page hpage other hother' hne (hother page hpage hc hpresent)
          (hother other hother' hc' hpresent')
  · dsimp only
    rw [hback]
    split_ifs
    · exact Nat.zero_le 1
    · exact h.givenBack page hpage

/-- Giving back the frame of a present entry. -/
theorem LentInv.free (h : LentInv dir s) {page : ℕ} (hpage : page < 1048576)
    (hhas : HasTable s.state.mem dir page) (hpresent : Present dir s.state.mem page) :
    LentInv dir ⟨vmmFreePage freeFrame s.state (pteAddress s.state.mem dir page),
      s.live.erase (4096 * frameOf dir s.state.mem page),
      Function.update s.givenBack page (s.givenBack page + 1)⟩ := by
  obtain ⟨hblock, hback⟩ := h.mapped page hpage hpresent
  obtain ⟨h0, -, -, -, hdirne, htablene⟩ := h.live _ hblock
  obtain ⟨htables, hdir, hpte⟩ := h.tables.vmmFreePage freeFrame hpage hhas
  have hframe0 : ¬ pteOf s.state.mem dir page / 4096 = 0 := fun heq => h0 (by rw [frameOf, heq])
  have huse : ∀ b, pmmFrames.inUse
      (vmmFreePage freeFrame s.state (pteAddress s.state.mem dir page)).pmm b ↔
      b / 4096 ≠ frameOf dir s.state.mem page ∧ pmmFrames.inUse s.state.pmm b := by
    intro b
    rw [vmmFreePage_pmm hhas, if_neg hframe0, freeFrame_inUse,
      Nat.mul_div_cancel_left _ (by decide)]
    rfl
  have hkept : ∀ b, b % 4096 = 0 → b ≠ 4096 * frameOf dir s.state.mem page →
      b / 4096 ≠ frameOf dir s.state.mem page := by
    intro b hb hne heq
    exact hne (by omega)
  -- the entry of the page is no longer present, the others are as they were
  have hother : ∀ p < 1048576,
      Present dir (vmmFreePage freeFrame s.state (pteAddress s.state.mem dir page)).mem p →
      p ≠ page ∧ Present dir s.state.mem p ∧
        frameOf dir (vmmFreePage freeFrame s.state (pteAddress s.state.mem dir page)).mem p =
          frameOf dir s.state.mem p := by
    intro p hp hpp
    rw [Present, hpte p hp] at hpp
    rw [frameOf, hpte p hp]
    split_ifs at hpp ⊢ with heq
    · omega
    · exact ⟨heq, hpp, rfl⟩
  refine ⟨htables, ⟨?_, fun i hi hodd => ?_⟩, fun b hb => ?_, fun p hp hpp => ?_,
    fun p hp q hq hne hpp hqq => ?_, fun p hp => ?_⟩
  · exact (huse dir).mpr ⟨hkept dir h.tables.aligned hdirne.symm, h.owned.dir_inUse⟩
  · rw [hdir i hi] at hodd ⊢
    exact (huse _).mpr ⟨hkept _ (tableOf_aligned _) (htablene i hi hodd),
      h.owned.table_inUse i hi hodd⟩
  · obtain ⟨hbne, hb⟩ := Finset.mem_erase.mp hb
    obtain ⟨hb0, hal, hbound, hbuse, hnew⟩ := h.live b hb
    refine ⟨hb0, hal, hbound, (huse b).mpr ⟨hkept b hal hbne, hbuse⟩, hnew.1, fun i hi hodd => ?_⟩
    rw [hdir i hi] at hodd ⊢
    exact hnew.2 i hi hodd
  · obtain ⟨hne, hold, hframe⟩ := hother p hp hpp
    obtain ⟨hmem, hback'⟩ := h.mapped p hp hold
    have hframene := h.once p hp page hpage hne hold hpresent
    dsimp only
    rw [hframe, Function.update_of_ne hne]
    exact ⟨Finset.mem_erase.mpr ⟨fun heq => hframene (by omega), hmem⟩, hback'⟩
  · obtain ⟨-, holdp, hframep⟩ := hother p hp hpp
    obtain ⟨-, holdq, hframeq⟩ := hother q hq hqq
    dsimp only
    rw [hframep, hframeq]
    exact h.once p hp q hq hne holdp holdq
  · dsimp only
    rw [Function.update_apply]
    split_ifs
    · omega
    · exact h.givenBack p hp

theorem LentInv.free_unmapped (h : LentInv dir s) {page : ℕ} (hpage : page < 1048576)
    (hhas : HasTable s.state.mem dir page) (habsent : ¬ Present dir s.state.mem page)
    (hframe : frameOf dir s.state.mem page = 0) :
    LentInv dir { s with
      state := vmmFreePage freeFrame s.state (pteAddress s.state.mem dir page) } := by
  obtain ⟨htables, hdir, hpte⟩ := h.tables.vmmFreePage freeFrame hpage hhas
  have hpmm : (vmmFreePage freeFrame s.state (pteAddress s.state.mem dir page)).pmm =
      s.state.pmm := by
    rw [vmmFreePage_pmm hhas]
    exact if_pos hframe
  have hsame : ∀ p < 1048576,
      pteOf (vmmFreePage freeFrame s.state (pteAddress s.state.mem dir page)).mem dir p =
        pteOf s.state.mem dir p := by
    intro p hp
    rw [hpte p hp]
    split_ifs with heq
    · rw [Present] at habsent
      rw [heq]
      omega
    · rfl
  refine ⟨htables, ⟨?_, fun i hi hodd => ?_⟩, fun b hb => ?_, fun p hp hpp => ?_,
    fun p hp q hq hne hpp hqq => ?_, h.givenBack⟩
  · rw [hpmm]
    exact h.owned.dir_inUse
  · rw [hdir i hi] at hodd ⊢
    rw [hpmm]
    exact h.owned.table_inUse i hi hodd
  · obtain ⟨hb0, hal, hbound, hbuse, hnew⟩ := h.live b hb
    dsimp only
    rw [hpmm]
    refine ⟨hb0, hal, hbound, hbuse, hnew.1, fun i hi hodd => ?_⟩
    rw [hdir i hi] at hodd ⊢
    exact hnew.2 i hi hodd
  · rw [Present, hsame p hp] at hpp
    rw [frameOf, hsame p hp]
    exact h.mapped p hp hpp
  · rw [Present, hsame p hp] at hpp
    rw [Present, hsame q hq] at hqq
    rw [frameOf, frameOf, hsame p hp, hsame q hq]
    exact h.once p hp q hq hne hpp hqq

theorem LentInv.step (h : LentInv dir s) {e : LentEvent} (hC : FreesMapped dir s e)
    (hstep : lentStep dir s e = some t) : LentInv dir t := by
  cases e with
  | alloc => exact h.alloc hstep
  | map c => exact h.map hstep
  | free page =>
    rw [lentStep, Option.ite_none_right_eq_some] at hstep
    obtain ⟨⟨hpage, hhas⟩, ht⟩ := hstep
    rw [← Option.some.inj ht]
    by_cases hpresent : Present dir s.state.mem page
    · have hblock := (h.mapped page hpage hpresent).1
      have hframe : ¬ frameOf dir s.state.mem page = 0 := fun heq =>
        (h.live _ hblock).1 (by rw [heq])
      rw [if_neg hframe]
      exact h.free hpage hhas hpresent
    · have hframe := hC.resolve_left hpresent
      rw [if_pos hframe]
      exact h.free_unmapped hpage hhas hpresent hframe

theorem sub32_one_ne (x : ℕ) : sub32 x 1 ≠ x := by
  unfold sub32
  omega

theorem absentUnchanged_iff {e : LentEvent} (hstep : lentStep dir s e = some t) :
    AbsentUnchanged dir s e ↔ FreesMapped dir s e := by
  cases e with
  | alloc => exact Iff.rfl
  | map c => exact Iff.rfl
  | free page =>
    rw [lentStep, Option.ite_none_right_eq_some] at hstep
    obtain ⟨-, hhas⟩ := hstep.1
    rw [AbsentUnchanged, FreesMapped, vmmFreePage_pmm hhas, or_iff_not_imp_left]
    refine imp_congr_right fun _ => ?_
    by_cases hframe : frameOf dir s.state.mem page = 0
    · have hnone : pteOf s.state.mem dir page / 4096 = 0 := hframe
      rw [if_pos hnone]
      exact iff_of_true ⟨rfl, rfl⟩ hframe
    · have hsome : ¬ pteOf s.state.mem dir page / 4096 = 0 := hframe
      rw [if_neg hsome]
      exact iff_of_false (fun h => sub32_one_ne _ h.2) hframe

end Giveback

/-- A block is handed out for a directory and cleared, as `init_paging` does it. -/
def freshDirectory (s : State Frames) : State Frames :=
  { s with
    mem := fill s.mem (pmmFrames.allocBlock s.pmm).1 0 4096
    pmm := (pmmFrames.allocBlock s.pmm).2 }

section Fresh

variable {s : State Frames}

theorem freshDirectory_entry (s : State Frames) {i : ℕ} (hi : i < 1024) :
    entry (freshDirectory s).mem (pmmFrames.allocBlock s.pmm).1 i = 0 := entry_fill_zero hi

theorem freshDirectory_not_present (s : State Frames) {i : ℕ} (hi : i < 1024) :
    ¬ entry (freshDirectory s).mem (pmmFrames.allocBlock s.pmm).1 i % 2 = 1 := by
  rw [freshDirectory_entry s hi]
  decide

theorem freshDirectory_pteOf (s : State Frames) {page : ℕ} (hpage : page < 1048576) :
    pteOf (freshDirectory s).mem (pmmFrames.allocBlock s.pmm).1 page = 0 :=
  pteOf_of_missing (freshDirectory_not_present s (by omega))

theorem freshDirectory_inv (hdir : (pmmFrames.allocBlock s.pmm).1 ≠ 0) {live : Finset ℕ}
    (hlive : ∀ b ∈ live, b ≠ 0 ∧ b % 4096 = 0 ∧ b < 4294967296 ∧ pmmFrames.inUse s.pmm b) :
    LentInv (pmmFrames.allocBlock s.pmm).1 ⟨freshDirectory s, live, fun _ => 0⟩ where
  tables :=
    { aligned := pmmFrames.aligned _
      ne_dir := fun _ hi hodd => absurd hodd (freshDirectory_not_present s hi)
      ne := fun _ hi _ _ _ hodd => absurd hodd (freshDirectory_not_present s hi) }
  owned :=
    { dir_inUse := pmmFrames.marks _ hdir
      table_inUse := fun _ hi hodd => absurd hodd (freshDirectory_not_present s hi) }
  live b hb := by
    obtain ⟨h0, haligned, hbound, huse⟩ := hlive b hb
    exact ⟨h0, haligned, hbound, pmmFrames.keeps _ _ huse,
      fun heq => pmmFrames.fresh _ hdir (heq ▸ huse),
      fun i hi hodd => absurd hodd (freshDirectory_not_present s hi)⟩
  mapped page hpage hpresent := by
    rw [Present, freshDirectory_pteOf s hpage] at hpresent
    exact absurd hpresent (by decide)
  once page hpage _ _ _ hpresent := by
    rw [Present, freshDirectory_pteOf s hpage] at hpresent
    exact absurd hpresent (by decide)
  givenBack _ _ := Nat.zero_le 1

/-- In a run on a fresh directory, with any blocks handed out before, frames and mappings
stay consistent exactly when `vmm_free_page` is called on entries that are present or refer to no
frame. -/
theorem frames_held_iff (hdir : (pmmFrames.allocBlock s.pmm).1 ≠ 0) {live : Finset ℕ}
    (hlive : ∀ b ∈ live, b ≠ 0 ∧ b % 4096 = 0 ∧ b < 4294967296 ∧ pmmFrames.inUse s.pmm b)
    (events : List LentEvent) :
    (Always (lentStep (pmmFrames.allocBlock s.pmm).1) (FramesHeld (pmmFrames.allocBlock s.pmm).1)
        ⟨freshDirectory s, live, fun _ => 0⟩ events ∧
      Steps (lentStep (pmmFrames.allocBlock s.pmm).1)
      (AbsentUnchanged (pmmFrames.allocBlock s.pmm).1)
        ⟨freshDirectory s, live, fun _ => 0⟩ events) ↔
    Steps (lentStep (pmmFrames.allocBlock s.pmm).1) (FreesMapped (pmmFrames.allocBlock s.pmm).1)
      ⟨freshDirectory s, live, fun _ => 0⟩ events := by
  have hsteps := steps_congr (I := fun _ => True) (fun _ _ _ _ _ _ => trivial)
    (fun u e t _ (hstep : lentStep (pmmFrames.allocBlock s.pmm).1 u e = some t) =>
      absentUnchanged_iff hstep)
    (s := ⟨freshDirectory s, live, fun _ => 0⟩) trivial events
  rw [hsteps, and_iff_right_iff_imp]
  exact always_of_steps (fun _ _ _ h hC hstep => h.step hC hstep) (fun _ h => h.framesHeld)
    (freshDirectory_inv hdir hlive)

end Fresh

/-- 64 frames, of which 1 to 63 are available; the directory is in frame 1. -/
def lentSmall : Lent := ⟨freshDirectory ⟨fun _ => 0, smallFrames, 0, 0⟩, ∅, fun _ => 0⟩

theorem smallFrames_dir : (pmmFrames.allocBlock smallFrames).1 = 0x1000 := by decide +kernel

theorem lentSmall_inv : LentInv 0x1000 lentSmall := by
  have hinv := freshDirectory_inv (s := ⟨fun _ => 0, smallFrames, 0, 0⟩)
    (by rw [smallFrames_dir]; decide) fun b (hb : b ∈ (∅ : Finset ℕ)) =>
      absurd hb (Finset.notMem_empty b)
  rwa [smallFrames_dir] at hinv

theorem lentSmall_mapped : ∃ t, run (lentStep 0x1000) lentSmall [.alloc, .map ⟨0x2000, 0x5000, 3⟩] =
    some t ∧ LentInv 0x1000 t ∧ pteOf t.state.mem 0x1000 5 = 0x2003 := by
  have halloc : (pmmFrames.allocBlock lentSmall.state.pmm).1 = 0x2000 := by decide +kernel
  obtain ⟨u, hu⟩ : ∃ u, lentStep 0x1000 lentSmall .alloc = some u := ⟨_, rfl⟩
  have hinv := lentSmall_inv.alloc hu
  have hfields := Option.some.inj hu
  have hlive : 0x2000 ∈ u.live := by
    rw [← hfields]
    dsimp only
    rw [halloc, if_neg (by decide)]
    exact Finset.mem_insert_self _ _
  have hempty : ∀ page < 1048576, pteOf u.state.mem 0x1000 page = 0 := by
    intro page hpage
    have hzero := freshDirectory_pteOf ⟨fun _ => 0, smallFrames, 0, 0⟩ hpage
    rw [smallFrames_dir] at hzero
    rw [← hfields]
    exact hzero
  obtain ⟨t, ht⟩ : ∃ t, lentStep 0x1000 u (.map ⟨0x2000, 0x5000, 3⟩) = some t := by
    refine ⟨_, if_pos ⟨by decide, by decide, hlive, fun page hpage _ hpresent => ?_⟩⟩
    rw [Present, hempty page hpage] at hpresent
    exact absurd hpresent (by decide)
  refine ⟨t, ?_, hinv.map ht, ?_⟩
  · rw [run_cons, hu, Option.bind_some, run_cons, ht, Option.bind_some, run_nil]
  · have hphys : 0x2000 < 4294967296 := by decide
    have hvirt : 0x5000 < 4294967296 := by decide
    have hattr : 3 < 4096 := by decide
    have hpte := (hinv.tables.vmmMapPage (hinv.owned.newTable _) hphys hvirt hattr).2 5 (by decide)
    have htable : (pmmFrames.allocBlock u.state.pmm).1 ≠ 0 := by
      rw [← hfields]
      decide +kernel
    rw [if_pos ⟨by decide, Or.inr ⟨htable, by decide⟩⟩] at hpte
    rw [lentStep, Option.ite_none_right_eq_some] at ht
    rw [← Option.some.inj ht.2]
    exact hpte

/-- The block is given back once. -/
theorem frames_held_once :
    Always (lentStep 0x1000) (FramesHeld 0x1000) lentSmall
        [.alloc, .map ⟨0x2000, 0x5000, 3⟩, .free 5] ∧
      Steps (lentStep 0x1000) (AbsentUnchanged 0x1000) lentSmall
        [.alloc, .map ⟨0x2000, 0x5000, 3⟩, .free 5] := by
  have hsteps : Steps (lentStep 0x1000) (FreesMapped 0x1000) lentSmall
      ([.alloc, .map ⟨0x2000, 0x5000, 3⟩] ++ [.free 5]) := by
    obtain ⟨t, ht, -, hpte⟩ := lentSmall_mapped
    refine steps_append.mpr ⟨fun u _ => ⟨trivial, fun v _ => ⟨trivial, trivial⟩⟩, fun u hu => ?_⟩
    obtain rfl := Option.some.inj (ht.symm.trans hu)
    have hpresent : Present 0x1000 t.state.mem 5 := by
      rw [Present, hpte]
    exact fun w _ => ⟨Or.inl hpresent, trivial⟩
  have hiff := frames_held_iff (s := ⟨fun _ => 0, smallFrames, 0, 0⟩)
    (by rw [smallFrames_dir]; decide)
    (fun b (hb : b ∈ (∅ : Finset ℕ)) => absurd hb (Finset.notMem_empty b))
    [.alloc, .map ⟨0x2000, 0x5000, 3⟩, .free 5]
  rw [smallFrames_dir] at hiff
  exact hiff.mpr hsteps

theorem lentSmall_freed : ∃ t, run (lentStep 0x1000) lentSmall
    [.alloc, .map ⟨0x2000, 0x5000, 3⟩, .free 5] = some t ∧ pteOf t.state.mem 0x1000 5 = 0x2002 := by
  obtain ⟨t, ht, hinv, hpte⟩ := lentSmall_mapped
  have hhas : HasTable t.state.mem 0x1000 5 := hasTable_of_pteOf_ne (by rw [hpte]; decide)
  have hstep : lentStep 0x1000 t (.free 5) = some _ := if_pos ⟨by decide, hhas⟩
  have hfree := (hinv.tables.vmmFreePage freeFrame (by decide) hhas).2.2 5 (by decide)
  rw [if_pos rfl, hpte] at hfree
  refine ⟨_, run_concat ht hstep, ?_⟩
  rw [apply_ite Lent.state, ite_self]
  exact hfree

/-- The block is handed out again, and then given back through the stale entry. -/
theorem frames_given_back_twice :
    ¬ (Always (lentStep 0x1000) (FramesHeld 0x1000) lentSmall
        [.alloc, .map ⟨0x2000, 0x5000, 3⟩, .free 5, .alloc, .free 5] ∧
      Steps (lentStep 0x1000) (AbsentUnchanged 0x1000) lentSmall
        [.alloc, .map ⟨0x2000, 0x5000, 3⟩, .free 5, .alloc, .free 5]) := by
  rintro ⟨-, hsteps⟩
  obtain ⟨t, ht, hpte⟩ := lentSmall_freed
  have hsplit : Steps (lentStep 0x1000) (AbsentUnchanged 0x1000) lentSmall
    ([.alloc, .map ⟨0x2000, 0x5000, 3⟩, .free 5] ++ [.alloc, .free 5]) := hsteps
  obtain ⟨u, hu⟩ : ∃ u, lentStep 0x1000 t .alloc = some u := ⟨_, rfl⟩
  obtain ⟨-, hafter⟩ := (steps_append.mp hsplit).2 t ht u hu
  have hmem : u.state.mem = t.state.mem := by rw [← Option.some.inj hu]
  rw [← hmem] at hpte
  -- the entry is not present, and it refers to the frame that was handed out again
  have hhas : HasTable u.state.mem 0x1000 5 := hasTable_of_pteOf_ne (by rw [hpte]; decide)
  have hstep : lentStep 0x1000 u (.free 5) = some _ := if_pos ⟨by decide, hhas⟩
  have hfields := (absentUnchanged_iff hstep).mp (hafter _ hstep).1
  rw [FreesMapped, Present, frameOf, hpte] at hfields
  exact absurd hfields (by decide)

end Unos.Vmm
