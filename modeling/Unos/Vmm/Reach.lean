import Unos.Vmm.Agreement

namespace Unos.Vmm

open Unos.Words Unos.ByteMemory Unos.Runs

structure Tracked (σ : Type) where
  state : State σ
  selfMapped : ℕ → Bool

inductive FrameEvent
  | alloc
  | map (c : MapCall)

section Reach

variable {σ : Type} (A : FrameSource σ) (dir : ℕ)

/-- The tables that `vmm_map_page` clears or writes, with the memory at that moment. -/
def tableAccesses (s : State σ) (virt attr : ℕ) : List (Mem × ℕ) :=
  let e := dir + 4 * pageDirectoryIndex virt
  let r := ensureTable A s dir virt attr
  let cleared := if load32 s.mem e &&& ptePresent ≠ ptePresent ∧ (A.allocBlock s.pmm).1 ≠ 0 then
      [(s.mem, (A.allocBlock s.pmm).1)]
    else []
  let written := if r.1 then [(r.2.mem, pageGetPhysicalAddress (load32 r.2.mem e))] else []
  cleared ++ written

def TablesReached (s : Tracked σ) : FrameEvent → Prop
  | .alloc => True
  | .map c => ∀ x ∈ tableAccesses A dir s.state c.virt c.attr,
      walk x.1 dir (x.2 / 4096) = some (x.2 / 4096)

/-- The frame that holds the table, or that the next allocation returns when there is no
table, is self-mapped. -/
def TableSelfMapped (s : Tracked σ) : FrameEvent → Prop
  | .alloc => True
  | .map c =>
    if HasTable s.state.mem dir (c.virt / 4096) then
      s.selfMapped (pdeOf s.state.mem dir (c.virt / 4096) / 4096) = true
    else (A.allocBlock s.state.pmm).1 ≠ 0 →
      s.selfMapped ((A.allocBlock s.state.pmm).1 / 4096) = true

def trackStep (s : Tracked σ) : FrameEvent → Option (Tracked σ)
  | .alloc => some { s with state := { s.state with pmm := (A.allocBlock s.state.pmm).2 } }
  | .map c =>
    if c.phys < 4294967296 ∧ c.virt < 4294967296 ∧ c.attr < 0x1000 then
      some ⟨vmmMapPage A s.state dir c.phys c.virt c.attr,
        if Maps A s.state dir (c.virt / 4096) c.attr then
          Function.update s.selfMapped (c.virt / 4096)
            (decide (c.phys / 4096 = c.virt / 4096 ∧ c.attr % 2 = 1))
        else s.selfMapped⟩
    else none

structure TrackInv (s : Tracked σ) : Prop where
  tables : Tables s.state.mem dir
  owned : Owned A s.state dir
  selfMapped : ∀ page < 1048576, s.selfMapped page = true ↔ walk s.state.mem dir page = some page

variable {A dir} {s t : Tracked σ} {c : MapCall}

theorem TrackInv.map (h : TrackInv A dir s) (hphys : c.phys < 4294967296)
    (hvirt : c.virt < 4294967296) (hattr : c.attr < 0x1000)
    (hstep : trackStep A dir s (.map c) = some t) : TrackInv A dir t := by
  rw [trackStep, if_pos ⟨hphys, hvirt, hattr⟩] at hstep
  obtain ⟨htables, hpte⟩ := h.tables.vmmMapPage (h.owned.newTable _) hphys hvirt hattr
  rw [← Option.some.inj hstep]
  refine ⟨htables, h.owned.vmmMapPage h.tables hphys hvirt hattr, fun page hpage => ?_⟩
  dsimp only
  by_cases hc : page = c.virt / 4096 ∧ Maps A s.state dir (c.virt / 4096) c.attr
  · obtain ⟨rfl, hmaps⟩ := hc
    have hself := hpte _ hpage
    rw [if_pos ⟨rfl, hmaps⟩] at hself
    have hframe : (4096 * (c.phys / 4096) + c.attr) / 4096 = c.phys / 4096 := by omega
    have hodd : (4096 * (c.phys / 4096) + c.attr) % 2 = c.attr % 2 := by omega
    rw [if_pos hmaps, Function.update_self, walk, hself, hframe, hodd, decide_eq_true_iff,
      Option.ite_none_right_eq_some, Option.some.injEq, and_comm]
  · have hsame := hpte page hpage
    rw [if_neg hc] at hsame
    have hkept : (if Maps A s.state dir (c.virt / 4096) c.attr then
        Function.update s.selfMapped (c.virt / 4096)
          (decide (c.phys / 4096 = c.virt / 4096 ∧ c.attr % 2 = 1))
        else s.selfMapped) page = s.selfMapped page := by
      split_ifs with hmaps
      · exact Function.update_of_ne (fun heq => hc ⟨heq, hmaps⟩) _ _
      · rfl
    rw [hkept, walk_congr hsame]
    exact h.selfMapped page hpage

theorem TrackInv.step (h : TrackInv A dir s) {e : FrameEvent}
    (hstep : trackStep A dir s e = some t) : TrackInv A dir t := by
  cases e with
  | alloc =>
    rw [← Option.some.inj hstep]
    exact ⟨h.tables, h.owned.alloc, h.selfMapped⟩
  | map c =>
    have hc := hstep
    rw [trackStep, Option.ite_none_right_eq_some] at hc
    exact h.map hc.1.1 hc.1.2.1 hc.1.2.2 hstep

theorem tableAccesses_eq (hvirt : c.virt < 4294967296) (hattr : c.attr < 0x1000)
    (ht : Tables s.state.mem dir) (hnew : NewTable A s.state dir (c.virt / 4096)) :
    tableAccesses A dir s.state c.virt c.attr =
      if HasTable s.state.mem dir (c.virt / 4096) then
        [(s.state.mem, 4096 * (pdeOf s.state.mem dir (c.virt / 4096) / 4096))]
      else if (A.allocBlock s.state.pmm).1 = 0 then []
      else [(s.state.mem, (A.allocBlock s.state.pmm).1),
        (enterTable s.state.mem dir (c.virt / 4194304) (A.allocBlock s.state.pmm).1 c.attr,
          (A.allocBlock s.state.pmm).1)] := by
  have hi : c.virt / 4194304 < 1024 := by omega
  have hentry : (load32 s.state.mem (dir + 4 * (c.virt / 4194304)) &&& ptePresent ≠ ptePresent) ↔
      ¬ HasTable s.state.mem dir (c.virt / 4096) := by
    rw [HasTable, pdeOf_virt, and_present]
    rfl
  simp only [tableAccesses, ensureTable_eq hvirt hattr, pageDirectoryIndex_eq hvirt, hentry]
  by_cases hhas : HasTable s.state.mem dir (c.virt / 4096)
  · simp only [hhas, if_true, not_true_eq_false, false_and, if_false, List.nil_append]
    rw [pageGetPhysicalAddress, and_frame_mask (load32_lt _ _), pdeOf_virt]
    rfl
  · by_cases ht0 : (A.allocBlock s.state.pmm).1 = 0
    · simp [hhas, ht0]
    · have hframe := hnew hhas ht0
      have haligned := A.aligned s.state.pmm
      have hpde := entry_enterTable_dir (i := c.virt / 4194304) haligned (A.bounded s.state.pmm)
        hattr ht hframe hi
      rw [if_pos rfl, entry] at hpde
      simp only [hhas, ht0, if_false, if_true, not_false_eq_true, ne_eq, and_self, List.cons_append,
        List.nil_append, hpde]
      have haddress : pageGetPhysicalAddress ((A.allocBlock s.state.pmm).1 + c.attr) =
          (A.allocBlock s.state.pmm).1 := by
        have hbound := A.bounded s.state.pmm
        rw [pageGetPhysicalAddress, and_frame_mask (by omega)]
        omega
      rw [haddress]

theorem TrackInv.reached_iff (h : TrackInv A dir s) {e : FrameEvent}
    (hstep : trackStep A dir s e = some t) :
    TablesReached A dir s e ↔ TableSelfMapped A dir s e := by
  cases e with
  | alloc => exact Iff.rfl
  | map c =>
    rw [trackStep, Option.ite_none_right_eq_some] at hstep
    obtain ⟨-, hvirt, hattr⟩ := hstep.1
    have hi : c.virt / 4194304 < 1024 := by omega
    have hnew := h.owned.newTable (c.virt / 4096)
    rw [TablesReached, TableSelfMapped, tableAccesses_eq hvirt hattr h.tables hnew]
    by_cases hhas : HasTable s.state.mem dir (c.virt / 4096)
    · have hlt := entry_lt s.state.mem dir (c.virt / 4194304)
      have hframe : 4096 * (pdeOf s.state.mem dir (c.virt / 4096) / 4096) / 4096 =
          pdeOf s.state.mem dir (c.virt / 4096) / 4096 := by omega
      rw [if_pos hhas, if_pos hhas, List.forall_mem_singleton, hframe]
      refine (h.selfMapped _ ?_).symm
      rw [pdeOf_virt]
      omega
    · rw [if_neg hhas, if_neg hhas]
      by_cases ht0 : (A.allocBlock s.state.pmm).1 = 0
      · rw [if_pos ht0]
        exact iff_of_true (fun x hx => absurd hx List.not_mem_nil) fun hne => absurd ht0 hne
      · have hbound := A.bounded s.state.pmm
        have hpage : (A.allocBlock s.state.pmm).1 / 4096 < 1048576 := by omega
        have hmissing : ¬ entry s.state.mem dir (c.virt / 4194304) % 2 = 1 := by
          rw [← pdeOf_virt]
          exact hhas
        -- entering the table does not change where its own frame is mapped
        have hsame := walk_congr (h.tables.pteOf_enter (A.aligned s.state.pmm) hbound hattr
          (hnew hhas ht0) hi hmissing hpage)
        rw [if_neg ht0, List.forall_mem_cons, List.forall_mem_singleton, hsame, and_self,
          ← h.selfMapped _ hpage]
        exact ⟨fun hs _ => hs, fun hs => hs ht0⟩

/-- In a run on the directory of `init_paging` every table that a call clears or writes is
reached exactly when the frames of these tables are self-mapped at the time of the call. -/
theorem tables_reached_iff (A : FrameSource σ) {s : State σ} (hboot : s.kpageDir = 0)
    (hdone : (initPaging A s).kpageDir ≠ 0) (events : List FrameEvent) :
    Steps (trackStep A (initPaging A s).kpageDir) (TablesReached A (initPaging A s).kpageDir)
      ⟨initPaging A s, fun page => decide (page < 1024)⟩ events ↔
    Steps (trackStep A (initPaging A s).kpageDir) (TableSelfMapped A (initPaging A s).kpageDir)
      ⟨initPaging A s, fun page => decide (page < 1024)⟩ events := by
  obtain ⟨it, kt, hinit⟩ := initPaging_initial (A := A) hboot hdone
  refine steps_congr (I := TrackInv A (initPaging A s).kpageDir)
    (fun _ _ _ h _ hstep => h.step hstep)
    (fun _ _ _ h hstep => h.reached_iff hstep) ⟨hinit.tables, hinit.owned, fun page hpage => ?_⟩ _
  rw [decide_eq_true_iff, walk, hinit.pteOf hpage]
  split_ifs <;> simp <;> omega

theorem Initial.no_table {it kt : ℕ} {s : State σ} (h : Initial A s it kt) :
    ¬ HasTable s.mem s.kpageDir (0x400000 / 4096) := by
  have hzero : entry s.mem s.kpageDir (0x400000 / 4096 / 1024) = 0 := h.directory 1 (by decide)
  rw [HasTable, pdeOf, hzero]
  decide

end Reach

/-- With all of the frames below 4 MB, the table for a page above is reached. -/
theorem tables_reached_small :
    Steps (trackStep pmmFrames smallPaging.kpageDir) (TablesReached pmmFrames smallPaging.kpageDir)
      ⟨smallPaging, fun page => decide (page < 1024)⟩ [.alloc, .map ⟨0x9000, 0x400000, 3⟩] := by
  have hself : Steps (trackStep pmmFrames smallPaging.kpageDir)
      (TableSelfMapped pmmFrames smallPaging.kpageDir)
      ⟨smallPaging, fun page => decide (page < 1024)⟩ [.alloc, .map ⟨0x9000, 0x400000, 3⟩] := by
    refine fun t ht => ⟨trivial, fun u _ => ⟨?_, trivial⟩⟩
    obtain ⟨it, kt, hinit⟩ := smallPaging_initial
    rw [← Option.some.inj ht, TableSelfMapped, if_neg hinit.no_table]
    exact fun _ => by decide +kernel
  exact (tables_reached_iff pmmFrames rfl smallPaging_kpageDir _).mpr hself

def highFrames : Frames :=
  ⟨Pmm.pmmInitRegion (Pmm.pmmInitRegion (Pmm.initPmm 4325376 (Pmm.bootState fun _ => 0)) 4096 12288)
    4194304 131072, by decide +kernel⟩

def highPaging : State Frames := initPaging pmmFrames ⟨fun _ => 0, highFrames, 0, 0⟩

/-- With the low frames used up, the table for a page lies where nothing is mapped. -/
theorem table_not_reached :
    ¬ Steps (trackStep pmmFrames highPaging.kpageDir) (TablesReached pmmFrames highPaging.kpageDir)
      ⟨highPaging, fun page => decide (page < 1024)⟩ [.map ⟨0x9000, 0x400000, 3⟩] := by
  intro hsteps
  obtain ⟨it, kt, hinit⟩ : ∃ it kt, Initial pmmFrames highPaging it kt :=
    initPaging_initial rfl (by decide +kernel)
  have halloc : (pmmFrames.allocBlock highPaging.pmm).1 = 0x400000 := by decide +kernel
  have haccesses : tableAccesses pmmFrames highPaging.kpageDir highPaging 0x400000 3 = _ :=
    tableAccesses_eq (s := ⟨highPaging, fun _ => false⟩) (c := ⟨0x9000, 0x400000, 3⟩) (by decide)
      (by decide) hinit.tables (hinit.owned.newTable _)
  rw [if_neg hinit.no_table, halloc, if_neg (by decide)] at haccesses
  obtain ⟨hreached, -⟩ := hsteps _ (by rw [trackStep, if_pos (by decide)])
  have hself : walk highPaging.mem highPaging.kpageDir 1024 = some 1024 :=
    hreached (highPaging.mem, 0x400000) (haccesses ▸ List.mem_cons_self)
  rw [walk, hinit.pteOf (by decide)] at hself
  exact absurd hself (by decide)

end Unos.Vmm
