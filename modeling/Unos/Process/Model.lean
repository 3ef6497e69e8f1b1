import Unos.DList.Model
import Unos.Vmm.Model

namespace Unos.Process

open Unos.Words Unos.ByteMemory

/-- `register_t`, the registers that an interrupt pushes. -/
structure Registers where
  ds : ℕ
  edi : ℕ
  esi : ℕ
  ebp : ℕ
  esp : ℕ
  ebx : ℕ
  edx : ℕ
  ecx : ℕ
  eax : ℕ
  intNo : ℕ
  errCode : ℕ
  eip : ℕ
  cs : ℕ
  eflags : ℕ
  useresp : ℕ
  ss : ℕ

/-- `context_t`, the fields in the order of the source. -/
structure Context where
  eax : ℕ
  ecx : ℕ
  edx : ℕ
  ebx : ℕ
  esp : ℕ
  ebp : ℕ
  esi : ℕ
  edi : ℕ
  eflags : ℕ
  cr3 : ℕ
  eip : ℕ

/-- The registers of a process in ring 3. -/
structure UserRegs where
  eax : ℕ
  ebx : ℕ
  ecx : ℕ
  edx : ℕ
  esi : ℕ
  edi : ℕ
  ebp : ℕ
  esp : ℕ
  eflags : ℕ
  eip : ℕ
  deriving DecidableEq

/-- The registers that a process had when it was interrupted: the processor pushes its
stack pointer as `useresp`. -/
def Registers.user (r : Registers) : UserRegs where
  eax := r.eax
  ebx := r.ebx
  ecx := r.ecx
  edx := r.edx
  esi := r.esi
  edi := r.edi
  ebp := r.ebp
  esp := r.useresp
  eflags := r.eflags
  eip := r.eip

def Context.user (c : Context) : UserRegs where
  eax := c.eax
  ebx := c.ebx
  ecx := c.ecx
  edx := c.edx
  esi := c.esi
  edi := c.edi
  ebp := c.ebp
  esp := c.esp
  eflags := c.eflags
  eip := c.eip

/-- The memory image of a `context_t`, one word after the other. -/
def Context.words (c : Context) : List ℕ :=
  [c.eax, c.ecx, c.edx, c.ebx, c.esp, c.ebp, c.esi, c.edi, c.eflags, c.cr3, c.eip]

def Context.word (c : Context) (offset : ℕ) : ℕ := c.words.getD (offset / 4) 0

/-- `user_regs_switch`: it pushes a frame and leaves it by `iret`, which pops `eip`, `cs`,
`eflags`, `esp` and `ss`. -/
def userRegsSwitch (regs : Context) : UserRegs :=
  let frame := [regs.word 40, 0x1b, regs.word 32, regs.word 16, 0x23]
  { ecx := regs.word 4
    edx := regs.word 8
    ebx := regs.word 12
    esi := regs.word 24
    edi := regs.word 28
    eax := regs.word 0
    ebp := regs.word 20
    eip := frame.getD 0 0
    eflags := frame.getD 2 0
    esp := frame.getD 3 0 }

/-- A name as it stands in the 512 bytes of `filename`. -/
structure Name where
  bytes : List (BitVec 8)
  fits : bytes.length ≤ 512

theorem Name.nil_fits : ([] : List (BitVec 8)).length ≤ 512 := by decide

/-- The part of a name that `filename` takes. -/
def Name.ofBytes (bytes : List (BitVec 8)) : Name := ⟨bytes.take 512, List.length_take_le ..⟩

/-- The values of `state`. -/
inductive TaskState
  | running
  | interruptible
  | uninterruptible
  | zombie
  | stopped
  | swapping
  | exclusive
  | created
  | loading
  deriving DecidableEq

/-- The fields of `pcb_t` that the code uses. -/
structure Pcb where
  filename : Name
  regs : Context
  pid : ℕ
  self : ℕ
  state : TaskState
  pageDir : ℕ

inductive Callback
  | schedule
  | printJiffies

/-- A `time_list_node_t`. The callbacks are registered for one tick or more. -/
structure TimeNode where
  callback : Callback
  offset : ℕ
  pos : 0 < offset

/-- The globals of `process.c` and `timer.c` with the memory they point into. A `pcb_t` is found at
its address; the process list holds these addresses as values. `mem` and `curDir` are those of
`vmm.c`, and `cr3` is the register of the processor. -/
structure Kernel where
  jiffies : ℕ
  timeList : List TimeNode
  processList : DList.State
  pcb : ℕ → Pcb
  currentProcess : ℕ
  lastProcess : ℕ
  savedContext : Registers
  currPid : ℕ
  mem : ByteMemory.Mem
  curDir : ℕ
  cr3 : ℕ

/-- How a handler ends: it returns to what was interrupted, it enters a process with its
registers, or it halts the machine. -/
inductive Outcome
  | returns (k : Kernel)
  | dispatch (k : Kernel) (p : ℕ) (regs : UserRegs)
  | panic

def Kernel.setPcb (k : Kernel) (p : ℕ) (c : Pcb) : Kernel :=
  { k with pcb := Function.update k.pcb p c }

/-- The registers that `context_switch` stores. -/
def saveRegs (r : Registers) (cr3 : ℕ) : Context where
  eax := r.eax
  ebx := r.ebx
  ecx := r.ecx
  edx := r.edx
  esi := r.esi
  edi := r.edi
  ebp := r.ebp
  esp := r.useresp
  eflags := r.eflags
  eip := r.eip
  cr3 := cr3

/-- The registers of the running process go to `last_process`, when there is one. -/
def saveLast (k : Kernel) (pRegs : Registers) : Kernel :=
  if k.lastProcess ≠ 0 then
    k.setPcb k.lastProcess { k.pcb k.lastProcess with regs := saveRegs pRegs k.cr3 }
  else k

/-- `context_switch` to the registers of the process at `n`; it does not return. -/
def contextSwitch (k : Kernel) (pRegs : Registers) (n : ℕ) : Outcome :=
  let k := saveLast k pRegs
  let k := { k with lastProcess := k.currentProcess }
  .dispatch k n (userRegsSwitch (k.pcb n).regs)

/-- The part of `schedule` after the first process was started. -/
def scheduleNext (k : Kernel) : Outcome :=
  let current := k.pcb k.currentProcess
  let nextnode := k.processList.next current.self
  let k := if current.state = .zombie then
      { k with
        processList := (DList.listRemoveNode k.processList current.self).2
        lastProcess := 0 }
    else k
  let next := if nextnode = 0 then DList.listPeekFront k.processList else k.processList.val nextnode
  let k := { k with currentProcess := next }
  if next = 0 then .panic else contextSwitch k k.savedContext next

/-- Without a current process there is no last one, so `context_switch` does not follow the
`NULL` that it is passed for `saved_context`. -/
def schedule (k : Kernel) : Outcome :=
  if DList.listSize k.processList = 0 then .returns k
  else if k.currentProcess = 0 then
    let first := DList.listPeekFront k.processList
    contextSwitch { k with currentProcess := first, lastProcess := 0 } k.savedContext first
  else scheduleNext k

/-- The `pcb_t` that `create_process_from_routine` fills in before it is listed. -/
def newPcb (k : Kernel) (routine : ℕ) (name : Name) : Pcb where
  filename := name
  regs :=
    { eax := 0, ecx := 0, edx := 0, ebx := 0, esp := 0xC0400000, ebp := 0, esi := 0, edi := 0
      eflags := 0x206
      cr3 := Vmm.virt2phys k.mem k.curDir k.curDir
      eip := routine }
  pid := k.currPid
  self := 0
  state := .created
  pageDir := k.curDir

/-- The two allocations return `p` for the `pcb_t` and `t` for the node. -/
def createProcessFromRoutine (k : Kernel) (routine : ℕ) (name : Name) (p t : ℕ) : Kernel :=
  let c := newPcb k routine name
  let current := if k.currentProcess = 0 then p else k.currentProcess
  let r := DList.listInsertFront k.processList t p
  { k.setPcb p { c with self := r.1 } with
    processList := r.2
    currentProcess := current
    currPid := wrap32 (k.currPid + 1) }

/-- The word at a byte offset behind `filename`, when `beyond` was written there. -/
def overwritten (beyond : List (BitVec 8)) (offset w : ℕ) : ℕ :=
  if beyond.length ≤ offset then w
  else load32 (storeBytes (store32 (fun _ => 0) offset w) 0 beyond) offset

/-- What `strcpy` writes behind `filename` goes to the fields that are stored before it. The
other fields are stored after it. -/
def Pcb.overwrite (c : Pcb) (beyond : List (BitVec 8)) : Pcb :=
  { c with
    regs := { c.regs with
      eax := overwritten beyond 0 c.regs.eax
      ecx := overwritten beyond 4 c.regs.ecx
      edx := overwritten beyond 8 c.regs.edx
      ebx := overwritten beyond 12 c.regs.ebx
      ebp := overwritten beyond 20 c.regs.ebp
      esi := overwritten beyond 24 c.regs.esi
      edi := overwritten beyond 28 c.regs.edi
      eflags := overwritten beyond 32 c.regs.eflags
      eip := overwritten beyond 40 c.regs.eip }
    pid := overwritten beyond 44 c.pid }

/-- `create_process_from_routine` with a name of any length below the size of a `pcb_t`, which
`strcpy` does not cut off at the end of `filename`. -/
def createWithName (k : Kernel) (routine : ℕ) (name : List (BitVec 8)) (p t : ℕ) : Kernel :=
  let k := createProcessFromRoutine k routine (.ofBytes name) p t
  k.setPcb p ((k.pcb p).overwrite ((name ++ [0]).drop 512))

/-- `_exit` of the running process. -/
def exitProcess (k : Kernel) : Outcome :=
  schedule (k.setPcb k.currentProcess { k.pcb k.currentProcess with state := .zombie })

/-- What `memcpy` puts into `saved_context`. -/
def saveContext (k : Kernel) (regs : Registers) : Kernel := { k with savedContext := regs }

def callback (k : Kernel) : Callback → Outcome
  | .schedule => schedule k
  | .printJiffies => .returns k

/-- The loop of `timer_handler`, which stops before the last node of a longer list. -/
def callbacks (k : Kernel) : List TimeNode → Outcome
  | [] => .returns k
  | current :: rest =>
    match if k.jiffies % current.offset = 0 then callback k current.callback else .returns k with
    | .returns k => if 2 ≤ rest.length then callbacks k rest else .returns k
    | o => o

def timerHandler (k : Kernel) (regs : Registers) : Outcome :=
  let k := { k with jiffies := wrap32 (k.jiffies + 1) }
  let k := saveContext k regs
  callbacks k k.timeList

/-- `syscall_dispatcher`. A new process gets the name that `ecx` points to. -/
def syscallDispatcher (k : Kernel) (regs : Registers) (name : List (BitVec 8)) (p t : ℕ) :
    Outcome :=
  if 5 ≤ regs.eax then .returns k
  else
    let k := saveContext k regs
    match regs.eax with
    | 0 => .panic -- the call of a `NULL` in the table
    | 1 => schedule k
    | 2 => .returns k -- `printf`
    | 3 => .returns (createWithName k regs.ebx name p t)
    | _ => exitProcess k

/-- `process_init` registers `schedule`; `prev`, `next` and `val` are the memory around the
new list. -/
def processInit (k : Kernel) (prev next val : ℕ → ℕ) (t : TimeNode) : Kernel :=
  { k with
    processList := DList.listCreate prev next val
    timeList := { t with callback := .schedule } :: k.timeList }

/-- The kernel before anything ran: everything outside of its initialised data is zero. -/
def Kernel.bss : Kernel where
  jiffies := 0
  timeList := []
  processList := DList.listCreate (fun _ => 0) (fun _ => 0) fun _ => 0
  pcb _ :=
    { filename := ⟨[], Name.nil_fits⟩, regs := ⟨0, 0, 0, 0, 0, 0, 0, 0, 0, 0, 0⟩,
      pid := 0, self := 0, state := .running, pageDir := 0 }
  currentProcess := 0
  lastProcess := 0
  savedContext := ⟨0, 0, 0, 0, 0, 0, 0, 0, 0, 0, 0, 0, 0, 0, 0, 0⟩
  currPid := 0
  mem _ := 0
  curDir := 0
  cr3 := 0

end Unos.Process
