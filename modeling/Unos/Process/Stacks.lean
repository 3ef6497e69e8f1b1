import Mathlib.Order.CompletePartialOrder
import Mathlib.Order.Interval.Set.Basic
import Unos.Library.Runs
import Unos.Library.Splits
import Unos.Process.Queue
import Unos.Vmm.Kernel

namespace Unos.Process

open Unos.Words Unos.ByteMemory Unos.Runs Unos.DList Unos.Vmm Unos.Splits

/-- The fields of `tss_entry_t` that `tss_set_stack` sets. -/
structure TssEntry where
  ss0 : ℕ
  esp0 : ℕ

def tssSetStack (tss : TssEntry) (kss kesp : ℕ) : TssEntry :=
  { tss with ss0 := kss, esp0 := kesp }

section Boot

variable {σ : Type} (A : FrameSource σ)

def vgaBufferVaddr : ℕ := 0xB0000000

def vgaBufferPaddr : ℕ := 0xB8000

def vgaAttr : ℕ := ptePresent ||| pteWritable ||| pteUser

/-- `kmain` from `init_paging` to the pages of the screen. -/
def kmainPaging (s : Vmm.State σ) : Vmm.State σ :=
  let s := initPaging A s
  let s := vmmMapPage A s s.kpageDir vgaBufferPaddr vgaBufferVaddr vgaAttr
  vmmMapPage A s s.kpageDir (vgaBufferPaddr + 0x1000) (vgaBufferVaddr + 0x1000) vgaAttr

/-- The kernel after `process_init`, on the paging that `kmain` has set up. -/
def kmainKernel (k : Kernel) (s : Vmm.State σ) (prev next val : ℕ → ℕ) (t : TimeNode) : Kernel :=
  processInit
    { k with
      mem := (kmainPaging A s).mem
      curDir := (kmainPaging A s).curDir
      currentProcess := 0
      lastProcess := 0 }
    prev next val t

end Boot

/-- The arguments of `create_process_from_routine` and what its allocations return. -/
structure Creation where
  routine : ℕ
  name : Name
  p : ℕ
  t : ℕ

def createStep (k : Kernel) (c : Creation) : Option Kernel :=
  if c.p ≠ 0 ∧ c.p ∉ processes k ∧ Fresh k.processList c.t then
    some (createProcessFromRoutine k c.routine c.name c.p c.t)
  else none

/-- The physical addresses of the 4 KB below `top`. -/
def window (m : Mem) (dir top : ℕ) : Set ℕ :=
  virt2phys m dir '' Set.Ico (top - 4096) top

def stackWindow (k : Kernel) (p : ℕ) : Set ℕ := window k.mem (k.pcb p).pageDir (k.pcb p).regs.esp

structure Isolated (k : Kernel) (tss : TssEntry) : Prop where
  apart : ∀ p ∈ processes k, ∀ q ∈ processes k, p ≠ q →
    Disjoint (stackWindow k p) (stackWindow k q)
  interrupts : ∀ p ∈ processes k,
    Disjoint (stackWindow k p) (window k.mem k.curDir tss.esp0)

theorem translate_of_mapped {map : PageMap} {v frame : ℕ} (h : map (v / 4096) = some frame) :
    map.translate v = 4096 * frame + v % 4096 := by
  have hmask : v &&& 0xfff = v % 4096 := and_low_mask v 12
  rw [PageMap.translate, h]
  simp only [hmask]
  exact or_attr (Nat.mod_lt v (by decide)) frame

section Paging

variable {σ : Type} {A : FrameSource σ} {s : Vmm.State σ}

theorem vmmMapPage_dirs (s : Vmm.State σ) (dir phys virt attr : ℕ) :
    (vmmMapPage A s dir phys virt attr).kpageDir = s.kpageDir ∧
      (vmmMapPage A s dir phys virt attr).curDir = s.curDir := by
  simp only [vmmMapPage, ensureTable]
  split_ifs <;> exact ⟨rfl, rfl⟩

theorem exists_map {dir phys virt : ℕ} {map : PageMap} (h : Represents A s dir map)
    (hphys : phys < 4294967296) (hvirt : virt < 4294967296) :
    ∃ map', Represents A (vmmMapPage A s dir phys virt vgaAttr) dir map' ∧
      ∀ page, page ≠ virt / 4096 → map' page = map page := by
  refine ⟨_, h.vmmMapPage hphys hvirt (by decide) (by decide), fun page hpage => ?_⟩
  split_ifs
  · exact Function.update_of_ne hpage _ _
  · rfl

theorem kmainPaging_virt2phys (hboot : s.kpageDir = 0) (hdone : (initPaging A s).kpageDir ≠ 0)
    {v page : ℕ} (hv : v < 4294967296) (hpage : kernelMap (v / 4096) = some page) :
    virt2phys (kmainPaging A s).mem (kmainPaging A s).curDir v = 4096 * page + v % 4096 := by
  obtain ⟨hinit, hcur⟩ := initPaging_represents (A := A) hboot hdone
  obtain ⟨map₁, hmap₁, hkeep₁⟩ := exists_map hinit (by decide : vgaBufferPaddr < 4294967296)
    (by decide : vgaBufferVaddr < 4294967296)
  obtain ⟨hk₁, hc₁⟩ := vmmMapPage_dirs (A := A) (initPaging A s) (initPaging A s).kpageDir
    vgaBufferPaddr vgaBufferVaddr vgaAttr
  obtain ⟨map₂, hmap₂, hkeep₂⟩ := exists_map hmap₁
    (by decide : vgaBufferPaddr + 0x1000 < 4294967296)
    (by decide : vgaBufferVaddr + 0x1000 < 4294967296)
  have hdir : (kmainPaging A s).curDir = (initPaging A s).kpageDir := by
    rw [kmainPaging, (vmmMapPage_dirs _ _ _ _ _).2, hc₁, hcur]
  have hstate : Represents A (kmainPaging A s) (initPaging A s).kpageDir map₂ := by
    simp only [kmainPaging, hk₁]
    exact hmap₂
  -- neither page of the screen is one that `init_paging` has mapped
  have hne : v / 4096 ≠ vgaBufferVaddr / 4096 ∧ v / 4096 ≠ (vgaBufferVaddr + 0x1000) / 4096 := by
    unfold vgaBufferVaddr
    rw [kernelMap] at hpage
    split_ifs at hpage <;> omega
  rw [hdir, hstate.virt2phys hv, translate_of_mapped]
  rw [hkeep₂ _ hne.2, hkeep₁ _ hne.1, hpage]

theorem window_eq (hboot : s.kpageDir = 0) (hdone : (initPaging A s).kpageDir ≠ 0) {n page : ℕ}
    (hn : n < 1048576) (hpage : kernelMap n = some page) :
    window (kmainPaging A s).mem (kmainPaging A s).curDir (4096 * (n + 1)) =
      Set.Ico (4096 * page) (4096 * page + 4096) := by
  have hphys : ∀ v, v / 4096 = n →
      virt2phys (kmainPaging A s).mem (kmainPaging A s).curDir v = 4096 * page + v % 4096 :=
    fun v hv => kmainPaging_virt2phys hboot hdone (by omega) (hv ▸ hpage)
  ext a
  rw [window, Set.mem_image, Set.mem_Ico]
  constructor
  · rintro ⟨v, hv, rfl⟩
    rw [Set.mem_Ico] at hv
    rw [hphys v (by omega)]
    omega
  · intro ha
    refine ⟨4096 * n + (a - 4096 * page), Set.mem_Ico.mpr ⟨by omega, by omega⟩, ?_⟩
    rw [hphys _ (by omega)]
    omega

end Paging

/-- What the processes have in common after `n` creations. -/
structure SameStacks (k₀ k : Kernel) (n : ℕ) : Prop where
  queue : ∃ q, Queue k q ∧ q.length = n ∧
    ∀ p ∈ q, (k.pcb p).regs.esp = 0xC0400000 ∧ (k.pcb p).pageDir = k₀.curDir
  mem : k.mem = k₀.mem
  curDir : k.curDir = k₀.curDir

theorem createStep_same {k₀ k k' : Kernel} {n : ℕ} {c : Creation} (h : SameStacks k₀ k n)
    (hstep : createStep k c = some k') : SameStacks k₀ k' (n + 1) := by
  obtain ⟨⟨q, hq, hlen, hstack⟩, hmem, hdir⟩ := h
  rw [createStep] at hstep
  split_ifs at hstep with hcond
  obtain ⟨hp0, hp, ht⟩ := hcond
  cases hstep
  rw [hq.mem_processes] at hp
  obtain ⟨u, v, rfl, hnew⟩ := hq.create c.routine c.name hp hp0 ht
  refine ⟨⟨_, hnew, ?_, fun a ha => ?_⟩, hmem, hdir⟩
  · simp only [List.length_append, List.length_cons] at hlen ⊢
    omega
  · rw [createProcessFromRoutine_pcb]
    by_cases hac : a = c.p
    · rw [hac, Function.update_self]
      exact ⟨rfl, hdir⟩
    · have ha' : a ∈ u ++ v := mem_of_mem_middle ha hac
      rw [Function.update_of_ne hac]
      exact hstack a ha'

theorem run_same {k₀ k k' : Kernel} {n : ℕ} {cs : List Creation} (h : SameStacks k₀ k n)
    (hrun : run createStep k cs = some k') : SameStacks k₀ k' (n + cs.length) := by
  induction cs generalizing k n with
  | nil =>
    cases hrun
    exact h
  | cons c cs ih =>
    rw [run_cons, Option.bind_eq_some_iff] at hrun
    obtain ⟨u, hu, hrun⟩ := hrun
    have hrest := ih (createStep_same h hu) hrun
    rwa [List.length_cons, Nat.add_comm cs.length 1, ← Nat.add_assoc]

section Isolation

variable {σ : Type} {A : FrameSource σ} {s : Vmm.State σ} {k k' : Kernel} {prev next val : ℕ → ℕ}
  {t : TimeNode} {cs : List Creation}

theorem kmainKernel_same (A : FrameSource σ) (k : Kernel) (s : Vmm.State σ) (prev next val : ℕ → ℕ)
    (t : TimeNode) :
    SameStacks (kmainKernel A k s prev next val t) (kmainKernel A k s prev next val t) 0 :=
  ⟨⟨[], .idle (listed_nil rfl) rfl, rfl, fun _ ha => absurd ha List.not_mem_nil⟩, rfl, rfl⟩

theorem stackWindow_eq (hboot : s.kpageDir = 0) (hdone : (initPaging A s).kpageDir ≠ 0)
    (hrun : run createStep (kmainKernel A k s prev next val t) cs = some k') :
    (∀ p ∈ processes k', stackWindow k' p = Set.Ico 0x3FF000 0x400000) ∧
      window k'.mem k'.curDir 0x400000 = Set.Ico 0x3FF000 0x400000 := by
  obtain ⟨⟨q, hq, -, hstack⟩, hmem, hdir⟩ := run_same (kmainKernel_same A k s prev next val t) hrun
  have hwindow : ∀ n, n < 1048576 → kernelMap n = some 0x3FF →
      window k'.mem (kmainPaging A s).curDir (4096 * (n + 1)) = Set.Ico 0x3FF000 0x400000 := by
    intro n hn hpage
    rw [hmem]
    exact window_eq hboot hdone hn hpage
  refine ⟨fun p hp => ?_, ?_⟩
  · obtain ⟨hesp, hpd⟩ := hstack p (hq.mem_processes.mp hp)
    rw [stackWindow, hesp, hpd]
    exact hwindow 0xC03FF (by decide) rfl
  · rw [hdir]
    exact hwindow 0x3FF (by decide) rfl

theorem not_isolated (hboot : s.kpageDir = 0) (hdone : (initPaging A s).kpageDir ≠ 0)
    (hrun : run createStep (kmainKernel A k s prev next val t) cs = some k') {p : ℕ}
    (hp : p ∈ processes k') (tss : TssEntry) : ¬ Isolated k' (tssSetStack tss 0x10 0x400000) := by
  obtain ⟨hstacks, hring⟩ := stackWindow_eq hboot hdone hrun
  intro hiso
  have hdisj := hiso.interrupts p hp
  rw [hstacks p hp] at hdisj
  have hring' : window k'.mem k'.curDir (tssSetStack tss 0x10 0x400000).esp0 =
      Set.Ico 0x3FF000 0x400000 := hring
  rw [hring', Set.disjoint_left] at hdisj
  exact hdisj (Set.left_mem_Ico.mpr (by decide)) (Set.left_mem_Ico.mpr (by decide))

/-- The stacks are isolated exactly as long as there is no process. -/
theorem isolated_iff (hboot : s.kpageDir = 0) (hdone : (initPaging A s).kpageDir ≠ 0)
    (hrun : run createStep (kmainKernel A k s prev next val t) cs = some k') (tss : TssEntry) :
    Isolated k' (tssSetStack tss 0x10 0x400000) ↔ cs = [] := by
  obtain ⟨⟨q, hq, hlen, -⟩, -, -⟩ := run_same (kmainKernel_same A k s prev next val t) hrun
  have hlen' : q.length = cs.length := by rw [hlen, Nat.zero_add]
  constructor
  · intro hiso
    by_contra hne
    obtain ⟨p, hp⟩ : ∃ p, p ∈ q := by
      refine List.exists_mem_of_ne_nil q fun hnil => hne ?_
      rw [hnil] at hlen'
      exact List.length_eq_zero_iff.mp hlen'.symm
    exact not_isolated hboot hdone hrun (hq.mem_processes.mpr hp) tss hiso
  · rintro rfl
    have hnone : ∀ p, p ∉ processes k' := by
      intro p hp
      rw [hq.mem_processes, List.length_eq_zero_iff.mp hlen'] at hp
      exact absurd hp List.not_mem_nil
    exact ⟨fun p hp => absurd hp (hnone p), fun p hp => absurd hp (hnone p)⟩

end Isolation

def smallPaging : Vmm.State Frames :=
  ⟨fun _ => 0, ⟨Pmm.pmmInitRegion (Pmm.initPmm 262144 (Pmm.bootState fun _ => 0)) 4096 258048,
    bootState_fits⟩, 0, 0⟩

def smallKernel : Kernel :=
  kmainKernel pmmFrames .bss smallPaging (fun _ => 0) (fun _ => 0) (fun _ => 0)
    ⟨.schedule, 30, by decide⟩

def smallCreations : List Creation :=
  [⟨1048576, ⟨[], Name.nil_fits⟩, 4096, 64⟩, ⟨1048832, ⟨[], Name.nil_fits⟩, 8192, 128⟩]

theorem smallPaging_done : (initPaging pmmFrames smallPaging).kpageDir ≠ 0 := by decide +kernel

theorem isolated_small : Isolated smallKernel (tssSetStack ⟨0, 0⟩ 0x10 0x400000) :=
  (isolated_iff rfl smallPaging_done (run_nil smallKernel) ⟨0, 0⟩).mpr rfl

/-- Two processes are created, and nothing is isolated. -/
theorem two_processes_not_isolated :
    ∃ k, run createStep smallKernel smallCreations = some k ∧
      ¬ Isolated k (tssSetStack ⟨0, 0⟩ 0x10 0x400000) := by
  have hrun : run createStep smallKernel smallCreations = some _ :=
    run_eq_getD .bss (by decide +kernel)
  exact ⟨_, hrun, not_isolated rfl smallPaging_done hrun
    (by decide +kernel : 4096 ∈ processes _) ⟨0, 0⟩⟩

end Unos.Process
