import Unos.Process.Queue
import Unos.Library.Runs

namespace Unos.Process

open Unos.Words Unos.Runs Unos.DList

/-- The statements of `create_process_from_routine`, with those of `list_insert_front` from
`allocNode` to `incSize`. A program in ring 3 calls the function itself, with interrupts enabled, so
a timer tick may come between any two of them. -/
inductive Stmt
  | allocPcb
  | setPid
  | setEip
  | setEflags
  | setFilename
  | setEsp
  | setPageDir
  | setCr3
  | setState
  | setCurrent
  | allocNode
  | linkPrev
  | linkNext
  | setVal
  | setTail
  | setHead
  | incSize
  | setSelf
  | print
  deriving DecidableEq

def Stmt.succ : Stmt → Option Stmt
  | .allocPcb => some .setPid
  | .setPid => some .setEip
  | .setEip => some .setEflags
  | .setEflags => some .setFilename
  | .setFilename => some .setEsp
  | .setEsp => some .setPageDir
  | .setPageDir => some .setCr3
  | .setCr3 => some .setState
  | .setState => some .setCurrent
  | .setCurrent => some .allocNode
  | .allocNode => some .linkPrev
  | .linkPrev => some .linkNext
  | .linkNext => some .setVal
  | .setVal => some .setTail
  | .setTail => some .setHead
  | .setHead => some .incSize
  | .incSize => some .setSelf
  | .setSelf => some .print
  | .print => none

/-- A call: its arguments, its local variables and the statement that is next. -/
structure Pending where
  routine : ℕ
  name : Name
  p1 : ℕ
  t : ℕ
  stmt : Stmt

def zeroPcb : Pcb where
  filename := ⟨[], Name.nil_fits⟩
  regs := ⟨0, 0, 0, 0, 0, 0, 0, 0, 0, 0, 0⟩
  pid := 0
  self := 0
  state := .running
  pageDir := 0

/-- An allocation returns `a`. -/
def Pending.take (c : Pending) (a : ℕ) : Pending :=
  match c.stmt with
  | .allocPcb => { c with p1 := a }
  | .allocNode => { c with t := a }
  | _ => c

/-- The `pcb_t` after a statement that stores into it. -/
def fill (c : Pending) (k : Kernel) (v : Pcb) : Stmt → Pcb
  | .allocPcb => zeroPcb
  | .setPid => { v with pid := k.currPid }
  | .setEip => { v with regs := { v.regs with eip := c.routine } }
  | .setEflags => { v with regs := { v.regs with eflags := 0x206 } }
  | .setFilename => { v with filename := c.name }
  | .setEsp => { v with regs := { v.regs with esp := 0xC0400000 } }
  | .setPageDir => { v with pageDir := k.curDir }
  | .setCr3 => { v with regs := { v.regs with cr3 := Vmm.virt2phys k.mem k.curDir v.pageDir } }
  | .setState => { v with state := .created }
  | .setSelf => { v with self := c.t }
  | _ => v

/-- The list after a statement of `list_insert_front`. -/
def link (c : Pending) (l : DList.State) : Stmt → DList.State
  | .allocNode => l.kcalloc c.t
  | .linkPrev => l.setPrev l.head c.t
  | .linkNext => l.setNext c.t l.head
  | .setVal => l.setVal c.t c.p1
  | .setTail => if l.head = 0 then { l with tail := c.t } else l
  | .setHead => { l with head := c.t }
  | .incSize => { l with size := wrap32 (l.size + 1) }
  | _ => l

/-- The effect of `allocate_pid`, which returns the old value. -/
def Kernel.allocatePid (k : Kernel) : Kernel := { k with currPid := wrap32 (k.currPid + 1) }

/-- What a statement of the call `c` does to the kernel. -/
def exec (c : Pending) (k : Kernel) : Stmt → Kernel
  | .setPid => k.allocatePid.setPcb c.p1 (fill c k (k.pcb c.p1) .setPid)
  | .setCurrent => if k.currentProcess = 0 then { k with currentProcess := c.p1 } else k
  | .allocNode => { k with processList := link c k.processList .allocNode }
  | .linkPrev => { k with processList := link c k.processList .linkPrev }
  | .linkNext => { k with processList := link c k.processList .linkNext }
  | .setVal => { k with processList := link c k.processList .setVal }
  | .setTail => { k with processList := link c k.processList .setTail }
  | .setHead => { k with processList := link c k.processList .setHead }
  | .incSize => { k with processList := link c k.processList .incSize }
  | .print => k
  | st => k.setPcb c.p1 (fill c k (k.pcb c.p1) st)

/-- The kernel, and the call that each process is in. A process that is in no call runs its own
code. -/
structure System where
  kernel : Kernel
  creation : ℕ → Option Pending

def System.start (k : Kernel) : System := ⟨k, fun _ => none⟩

/-- The call that the running process is in. -/
def System.running (s : System) : Option Pending := s.creation s.kernel.currentProcess

/-- The calls that the listed processes are in. -/
def System.calls (s : System) : List Pending := (processes s.kernel).filterMap s.creation

/-- The running process calls the function, its call executes a statement (`a` is the address
when this is an allocation), a timer tick runs `schedule`, or the running process exits. -/
inductive Move
  | call (routine : ℕ) (name : Name)
  | stmt (a : ℕ)
  | tick (regs : Registers)
  | exit

/-- An allocation returns memory that neither the list nor a call uses. -/
def System.Available (s : System) (a : ℕ) : Stmt → Prop
  | .allocPcb => a ≠ 0 ∧ a ∉ processes s.kernel ∧ ∀ c ∈ s.calls, c.p1 ≠ a
  | .allocNode => Fresh s.kernel.processList a ∧ ∀ c ∈ s.calls, c.t ≠ a
  | _ => True

instance System.decidableAvailable (s : System) (a : ℕ) : (st : Stmt) → Decidable (s.Available a st)
  | .allocPcb => inferInstanceAs (Decidable (_ ∧ _))
  | .allocNode => inferInstanceAs (Decidable (_ ∧ _))
  | .setPid | .setEip | .setEflags | .setFilename | .setEsp | .setPageDir | .setCr3 | .setState
  | .setCurrent | .linkPrev | .linkNext | .setVal | .setTail | .setHead | .incSize | .setSelf
  | .print => isTrue trivial

def System.setRunning (s : System) (c : Option Pending) : System :=
  { s with creation := Function.update s.creation s.kernel.currentProcess c }

/-- After a handler the calls are where they were; a halted machine has no next state. -/
def System.resume (s : System) : Outcome → Option System
  | .returns k | .dispatch k _ _ => some { s with kernel := k }
  | .panic => none

/-- The next statement of the call `c` of the running process. -/
def System.advance (s : System) (c : Pending) : System :=
  { kernel := exec c s.kernel c.stmt
    creation := Function.update s.creation s.kernel.currentProcess
      (c.stmt.succ.map fun st => { c with stmt := st }) }

def preemptStep (s : System) : Move → Option System
  | .call routine name =>
    if s.running.isNone then some (s.setRunning (some ⟨routine, name, 0, 0, .allocPcb⟩)) else none
  | .stmt a =>
    match s.running with
    | some c => if s.Available a c.stmt then some (s.advance (c.take a)) else none
    | none => none
  | .tick regs => s.resume (schedule (saveContext s.kernel regs))
  | .exit => if s.running.isNone then s.resume (exitProcess s.kernel) else none

/-- The statements that only store into the new `pcb_t`. -/
def Stmt.fills : Stmt → Bool
  | .allocPcb | .setEip | .setEflags | .setFilename | .setEsp | .setPageDir | .setCr3 | .setState
  | .setSelf => true
  | _ => false

/-- The statements of `list_insert_front`. -/
def Stmt.links : Stmt → Bool
  | .allocNode | .linkPrev | .linkNext | .setVal | .setTail | .setHead | .incSize => true
  | _ => false

variable {s : System} {k : Kernel} {c : Pending} {st z : Stmt} {l : List Stmt}
  {f : ℕ → Option Pending}

theorem exec_fill (h : st.fills) : exec c k st = k.setPcb c.p1 (fill c k (k.pcb c.p1) st) := by
  cases st <;> first | rfl | exact nomatch h

theorem exec_link (h : st.links) :
    exec c k st = { k with processList := link c k.processList st } := by
  cases st <;> first | rfl | exact nomatch h

theorem exec_setCurrent (h : k.currentProcess ≠ 0) : exec c k .setCurrent = k := if_neg h

theorem exec_currentProcess (c : Pending) (h : k.currentProcess ≠ 0) (st : Stmt) :
    (exec c k st).currentProcess = k.currentProcess := by
  cases st
  case setCurrent => rw [exec_setCurrent h]
  all_goals rfl

theorem foldl_exec_fill (h : ∀ st ∈ l, st.fills) (v : Pcb) :
    l.foldl (exec c) (k.setPcb c.p1 v) = k.setPcb c.p1 (l.foldl (fill c k) v) := by
  induction l generalizing v with
  | nil => rfl
  | cons st l ih =>
    have hfill : ∀ w, fill c (k.setPcb c.p1 v) w st = fill c k w st := by
      intro w
      cases st <;> rfl
    have hexec : exec c (k.setPcb c.p1 v) st = k.setPcb c.p1 (fill c k v st) := by
      rw [exec_fill (h st List.mem_cons_self), hfill]
      simp only [Kernel.setPcb, Function.update_idem, Function.update_self]
    rw [List.foldl_cons, List.foldl_cons, hexec]
    exact ih (fun st' hst' => h st' (List.mem_cons_of_mem st hst')) _

theorem foldl_exec_link (h : ∀ st ∈ l, st.links) (k : Kernel) :
    l.foldl (exec c) k = { k with processList := l.foldl (link c) k.processList } := by
  induction l generalizing k with
  | nil => rfl
  | cons st l ih =>
    rw [List.foldl_cons, exec_link (h st List.mem_cons_self)]
    exact ih (fun st' hst' => h st' (List.mem_cons_of_mem st hst')) _

def fillStmts : List Stmt :=
  [.setPid, .setEip, .setEflags, .setFilename, .setEsp, .setPageDir, .setCr3, .setState,
    .setCurrent]

def linkStmts : List Stmt :=
  [.linkPrev, .linkNext, .setVal, .setTail, .setHead, .incSize, .setSelf]

theorem foldl_fillStmts (hk : k.currentProcess ≠ 0) (c : Pending) :
    fillStmts.foldl (exec c) (exec c k .allocPcb) =
      k.allocatePid.setPcb c.p1 (newPcb k c.routine c.name) := by
  have hpid : exec c (exec c k .allocPcb) .setPid =
      k.allocatePid.setPcb c.p1 { zeroPcb with pid := k.currPid } := by
    simp only [exec, fill, Kernel.allocatePid, Kernel.setPcb, Function.update_idem,
      Function.update_self]
  have hfills := foldl_exec_fill (c := c) (k := k.allocatePid)
    (l := [.setEip, .setEflags, .setFilename, .setEsp, .setPageDir, .setCr3, .setState])
    (by decide) { zeroPcb with pid := k.currPid }
  have hsplit : fillStmts = Stmt.setPid :: ([Stmt.setEip, .setEflags, .setFilename, .setEsp,
    .setPageDir, .setCr3, .setState] ++ [Stmt.setCurrent]) := rfl
  rw [hsplit, List.foldl_cons, hpid, List.foldl_append, hfills]
  exact exec_setCurrent hk

theorem foldl_linkStmts (hk : k.currentProcess ≠ 0) (c : Pending) :
    linkStmts.foldl (exec c)
        (exec c (k.allocatePid.setPcb c.p1 (newPcb k c.routine c.name)) .allocNode) =
      createProcessFromRoutine k c.routine c.name c.p1 c.t := by
  have hlinks := foldl_exec_link (c := c)
    (l := [.allocNode, .linkPrev, .linkNext, .setVal, .setTail, .setHead, .incSize]) (by decide)
    (k.allocatePid.setPcb c.p1 (newPcb k c.routine c.name))
  have hlist : listInsertFront k.processList c.t c.p1 = (c.t, [Stmt.allocNode, .linkPrev, .linkNext,
    .setVal, .setTail, .setHead, .incSize].foldl (link c) k.processList) := rfl
  have hsplit : linkStmts = [Stmt.linkPrev, .linkNext, .setVal, .setTail, .setHead, .incSize] ++
    [Stmt.setSelf] := rfl
  rw [List.foldl_cons] at hlinks
  rw [hsplit, List.foldl_append, hlinks, List.foldl_cons, List.foldl_nil, exec_fill rfl,
    createProcessFromRoutine, hlist, if_neg hk]
  simp only [fill, Kernel.allocatePid, Kernel.setPcb, Function.update_idem, Function.update_self]

theorem take_stmt (c : Pending) (a : ℕ) : (c.take a).stmt = c.stmt := by
  obtain ⟨routine, name, p1, t, st⟩ := c
  cases st <;> rfl

theorem preemptStep_stmt {a : ℕ}
    (h : (System.mk k (Function.update f k.currentProcess (some c))).Available a c.stmt) :
    preemptStep ⟨k, Function.update f k.currentProcess (some c)⟩ (.stmt a) =
      some ⟨exec (c.take a) k c.stmt, Function.update f k.currentProcess
        (c.stmt.succ.map fun st => { c.take a with stmt := st })⟩ := by
  have hrunning : (System.mk k (Function.update f k.currentProcess (some c))).running = some c :=
    Function.update_self ..
  simp only [preemptStep, hrunning, if_pos h, System.advance, take_stmt, Function.update_idem]

def Stmt.quiet (st : Stmt) : Bool := st != .allocPcb && st != .allocNode

theorem take_quiet {a : ℕ} (h : c.stmt.quiet) : c.take a = c := by
  obtain ⟨routine, name, p1, t, st⟩ := c
  cases st <;> first | rfl | exact nomatch h

theorem available_quiet {a : ℕ} (h : st.quiet) : s.Available a st := by
  cases st
  case allocPcb => exact nomatch h
  case allocNode => exact nomatch h
  all_goals trivial

theorem run_stmts (hk : k.currentProcess ≠ 0) (hquiet : ∀ st ∈ l, st.quiet)
    (hnext : (l ++ [z]).IsChain fun a b => a.succ = some b)
    (hst : (l ++ [z]).head? = some c.stmt) :
    run preemptStep ⟨k, Function.update f k.currentProcess (some c)⟩
        (List.replicate l.length (.stmt 0)) =
      some ⟨l.foldl (exec c) k,
        Function.update f k.currentProcess (some { c with stmt := z })⟩ := by
  induction l generalizing k c with
  | nil =>
    cases hst
    rfl
  | cons st l ih =>
    obtain rfl : st = c.stmt := Option.some.inj hst
    obtain ⟨st', hst'⟩ : ∃ st', (l ++ [z]).head? = some st' := by
      cases l <;> exact ⟨_, rfl⟩
    rw [List.cons_append, List.isChain_cons] at hnext
    have hq := hquiet _ List.mem_cons_self
    have hcurrent := exec_currentProcess c hk c.stmt
    have hrest := ih (k := exec c k c.stmt) (c := { c with stmt := st' }) (by rwa [hcurrent])
      (fun s hs => hquiet s (List.mem_cons_of_mem _ hs)) hnext.2 hst'
    rw [hcurrent] at hrest
    rw [List.length_cons, List.replicate_succ, run_cons, preemptStep_stmt (available_quiet hq),
      hnext.1 st' hst', take_quiet hq, Option.bind_some]
    exact hrest

/-- A call that no tick interrupts; the two allocations return `p` and `t`. -/
def wholeCall (routine : ℕ) (name : Name) (p t : ℕ) : List Move :=
  .call routine name :: .stmt p :: (List.replicate 9 (.stmt 0) ++
    .stmt t :: (List.replicate 7 (.stmt 0) ++ [.stmt 0]))

theorem mem_calls_update {k' : Kernel} (hl : k'.processList = k.processList) {x : ℕ} {d : Pending}
    (h : d ∈ (System.mk k' (Function.update f x (some c))).calls) :
    d = c ∨ d ∈ (System.mk k f).calls := by
  obtain ⟨p, hp, hd⟩ := List.mem_filterMap.mp h
  by_cases hpx : p = x
  · rw [hpx] at hd
    exact .inl (Option.some.inj (hd.symm.trans (Function.update_self x (some c) f)))
  · refine .inr (List.mem_filterMap.mpr ⟨p, ?_, ?_⟩)
    · simpa only [processes, hl] using hp
    · exact (Function.update_of_ne hpx (some c) f).symm.trans hd

/-- Without a tick the statements are `create_process_from_routine`. -/
theorem run_wholeCall (hrunning : s.running = none) (hk : s.kernel.currentProcess ≠ 0)
    {p t : ℕ} (hp : s.Available p .allocPcb) (ht : s.Available t .allocNode) (routine : ℕ)
    (name : Name) : run preemptStep s (wholeCall routine name p t) =
      some { s with kernel := createProcessFromRoutine s.kernel routine name p t } := by
  obtain ⟨k, f⟩ := s
  obtain ⟨hp0, hplisted, hpcalls⟩ := hp
  obtain ⟨hfresh, htcalls⟩ := ht
  -- the call, with the values that its local variables have before the allocations
  have hcall : preemptStep ⟨k, f⟩ (.call routine name) =
      some ⟨k, Function.update f k.currentProcess (some ⟨routine, name, 0, 0, .allocPcb⟩)⟩ := by
    rw [preemptStep, hrunning]
    rfl
  have hp' : (System.mk k (Function.update f k.currentProcess
      (some ⟨routine, name, 0, 0, .allocPcb⟩))).Available p .allocPcb := by
    refine ⟨hp0, hplisted, fun c hc => ?_⟩
    rcases mem_calls_update rfl hc with rfl | hc
    · exact hp0.symm
    · exact hpcalls c hc
  have hfirst := run_stmts (f := f) (k := exec ⟨routine, name, p, 0, .setPid⟩ k .allocPcb)
    (c := ⟨routine, name, p, 0, .setPid⟩) (l := fillStmts) (z := .allocNode) hk (by decide)
    (by decide) rfl
  rw [foldl_fillStmts hk] at hfirst
  have ht' : (System.mk (k.allocatePid.setPcb p (newPcb k routine name)) (Function.update f
      k.currentProcess (some ⟨routine, name, p, 0, .allocNode⟩))).Available t .allocNode := by
    refine ⟨hfresh, fun c hc => ?_⟩
    rcases mem_calls_update (k := k) rfl hc with rfl | hc
    · exact hfresh.1.symm
    · exact htcalls c hc
  have hsecond := run_stmts (f := f) (k := exec ⟨routine, name, p, t, .linkPrev⟩
    (k.allocatePid.setPcb p (newPcb k routine name)) .allocNode)
    (c := ⟨routine, name, p, t, .linkPrev⟩) (l := linkStmts) (z := .print) hk (by decide)
    (by decide) rfl
  rw [foldl_linkStmts hk] at hsecond
  have hcurrent : (createProcessFromRoutine k routine name p t).currentProcess = k.currentProcess :=
    if_neg hk
  have hprint := preemptStep_stmt (f := f) (a := 0)
    (k := createProcessFromRoutine k routine name p t) (c := ⟨routine, name, p, t, .print⟩) trivial
  rw [hcurrent] at hprint
  have hdone : Function.update f k.currentProcess none = f := by
    rw [← hrunning]
    exact Function.update_eq_self ..
  rw [wholeCall, run_cons, hcall, Option.bind_some, run_cons, preemptStep_stmt hp',
    Option.bind_some, run_append]
  refine (congrArg (Option.bind · _) hfirst).trans ?_
  rw [Option.bind_some, run_cons]
  refine (congrArg (Option.bind · _) (preemptStep_stmt ht')).trans ?_
  rw [Option.bind_some, run_append]
  refine (congrArg (Option.bind · _) hsecond).trans ?_
  rw [Option.bind_some, run_cons]
  refine (congrArg (Option.bind · _) hprint).trans ?_
  exact congrArg (fun g => some (System.mk _ g)) hdone

/-- A process creates a second one. -/
theorem run_wholeCall_second :
    let k := createProcessFromRoutine .bss 1048576 ⟨[], Name.nil_fits⟩ 4096 64
    run preemptStep (System.start k) (wholeCall 2097152 ⟨[], Name.nil_fits⟩ 8192 128) =
      some (System.start (createProcessFromRoutine k 2097152 ⟨[], Name.nil_fits⟩ 8192 128)) := by
  intro k
  have hpcb : (System.start k).Available 8192 .allocPcb := by decide +kernel
  have hnode : (System.start k).Available 128 .allocNode := by decide +kernel
  exact run_wholeCall rfl (by decide +kernel) hpcb hnode 2097152 ⟨[], Name.nil_fits⟩

end Unos.Process
