import Unos.Interrupts.Descriptors
import Unos.Process.Model

namespace Unos.Interrupts

open Unos.X86 Unos.Process

def errcode (vector : BitVec 8) : Bool := [8, 10, 11, 12, 13, 14, 17].contains vector.toNat

def entryStub (vector : BitVec 8) : List Instr :=
  if errcode vector then [.cli, .pushImm (vector.setWidth 32)]
  else [.cli, .pushImm 0, .pushImm (vector.setWidth 32)]

def loadSegs (r : Reg) : List Instr :=
  [.movToSeg .ds r, .movToSeg .es r, .movToSeg .fs r, .movToSeg .gs r]

/-- `isr_common_stub` and `irq_common_stub` up to the call. -/
def commonStub : List Instr :=
  [.pusha, .movFromSeg .eax .ds, .push .eax, .movLow .eax 0x10] ++ loadSegs .eax

/-- What follows the call up to `iret`, with the register that the data segment is popped into:
`eax` in `isr_common_stub`, `ebx` in `irq_common_stub`. -/
def exitStub (r : Reg) : List Instr := [.pop r] ++ loadSegs r ++ [.popa, .addImm .esp 8, .sti]

/-- The `register_t` on the stack. -/
def registers (c : Cpu) : Registers where
  ds := (c.stack 0).toNat
  edi := (c.stack 1).toNat
  esi := (c.stack 2).toNat
  ebp := (c.stack 3).toNat
  esp := (c.stack 4).toNat
  ebx := (c.stack 5).toNat
  edx := (c.stack 6).toNat
  ecx := (c.stack 7).toNat
  eax := (c.stack 8).toNat
  intNo := (c.stack 9).toNat
  errCode := (c.stack 10).toNat
  eip := (c.stack 11).toNat
  cs := (c.stack 12).toNat
  eflags := (c.stack 13).toNat
  useresp := (c.stack 14).toNat
  ss := (c.stack 15).toNat

def userRegs (c : Cpu) : UserRegs where
  eax := (c.reg .eax).toNat
  ebx := (c.reg .ebx).toNat
  ecx := (c.reg .ecx).toNat
  edx := (c.reg .edx).toNat
  esi := (c.reg .esi).toNat
  edi := (c.reg .edi).toNat
  ebp := (c.reg .ebp).toNat
  esp := (c.reg .esp).toNat
  eflags := c.eflags.toNat
  eip := c.eip.toNat

/-- The processor at the call of the handler. -/
def atCall (c : Cpu) (g : Gate) (vector : BitVec 8) (errorCode : Option Dword) : Cpu :=
  execAll (interrupt c g errorCode) (entryStub vector ++ commonStub)

variable {t : Segments} {c d : Cpu} {g : Gate} {v : BitVec 8} {e : Option Dword} {r : Reg}
  {vs : List Dword}

theorem execAll_append (c : Cpu) (is js : List Instr) :
    execAll c (is ++ js) = execAll (execAll c is) js := List.foldl_append

theorem execAll_cons (c : Cpu) (i : Instr) (is : List Instr) :
    execAll c (i :: is) = execAll (exec c i) is := rfl

theorem execAll_nil (c : Cpu) : execAll c [] = c := rfl

theorem execute_loadSegs (t : Segments) (c : Cpu) (r : Reg) : execute t c (loadSegs r) =
    if loadable t 0 (low (c.reg r)) then some (execAll c (loadSegs r)) else none := by
  have hsame : ∀ (x : Cpu) s, accepts t x (.movToSeg s r) = loadable t 0 (low (x.reg r)) :=
    fun _ _ => rfl
  have hreg : ∀ (x : Cpu) s, (exec x (.movToSeg s r)).reg r = x.reg r := fun _ _ => rfl
  simp only [loadSegs, execute, hsame, hreg]
  split_ifs <;> rfl

theorem execute_atCall (h : loadable t 0 0x10 = true) (c : Cpu) (g : Gate) (v : BitVec 8)
    (e : Option Dword) :
    execute t (interrupt c g e) (entryStub v ++ commonStub) = some (atCall c g v e) := by
  have hentry : (entryStub v).all Instr.plain = true := by
    rw [entryStub]
    split <;> rfl
  have hplain : [Instr.pusha, .movFromSeg .eax .ds, .push .eax, .movLow .eax 0x10].all
      Instr.plain = true := rfl
  have hlow : ∀ x : Cpu, low ((execAll x [.pusha, .movFromSeg .eax .ds, .push .eax,
      .movLow .eax 0x10]).reg .eax) = 0x10 := fun x => low_withLow _ _
  rw [atCall, execute_append, execute_of_plain hentry, Option.bind_some, commonStub, execute_append,
    execute_of_plain hplain, Option.bind_some, execute_loadSegs, hlow, if_pos h, execAll_append,
    execAll_append]

theorem tops_loadSegs (r : Reg) : (execAll c (loadSegs r)).Tops vs ↔ c.Tops vs := Iff.rfl

theorem tops_setReg (h : r ≠ .esp) (x : Dword) : (c.setReg r x).Tops vs ↔ c.Tops vs := by
  rw [Cpu.Tops, stack_setReg h]
  rfl

theorem tops_entryStub (h : c.Tops vs) (hlen : vs.length < 100) (v : BitVec 8) :
    (execAll c (entryStub v)).Tops (v.setWidth 32 :: (if errcode v then [] else [0]) ++ vs) := by
  rw [entryStub]
  have hcli : (exec c .cli).Tops vs := h
  split
  · exact hcli.push _ (by omega)
  · exact (hcli.push 0 (by omega)).push _ (by rw [List.length_cons]; omega)

theorem tops_commonStub (h : c.Tops vs) (hlen : vs.length < 110) : (execAll c commonStub).Tops
    (withLow (c.reg .eax) (c.seg .ds) :: c.reg .edi :: c.reg .esi :: c.reg .ebp :: c.reg .esp ::
      c.reg .ebx :: c.reg .edx :: c.reg .ecx :: c.reg .eax :: vs) := by
  obtain ⟨hseg, -, -, hreg⟩ := pushes_frame c (pushaOrder.map c.reg)
  have heax : Reg.eax ≠ .esp := by decide
  have hall := (tops_setReg heax (withLow ((pushAll c).reg .eax) ((pushAll c).seg .ds))).mpr
    (h.pushAll (by omega))
  have hds : (exec (pushAll c) (.movFromSeg .eax .ds)).reg .eax = withLow (c.reg .eax)
      (c.seg .ds) := by
    rw [← hreg .eax heax, ← hseg]
    exact reg_setReg_self ..
  have hpush : ∀ x : Cpu, exec x (.push .eax) = x.push (x.reg .eax) := fun _ => rfl
  rw [commonStub, execAll_append, tops_loadSegs, execAll_cons, execAll_cons,
    execAll_cons, execAll_cons, execAll_nil, hpush, show exec c .pusha = pushAll c from rfl, hds]
  exact (tops_setReg heax _).mpr (hall.push _ (by simp only [List.length_cons]; omega))

/-- What is on the stack behind the frame of the processor: the stack of the interrupted code is
only pushed when that was in another ring. -/
def frameBase (c : Cpu) : List Dword :=
  if ring c.cs = 0 then [c.stack 0, c.stack 1] else [c.esp, c.ss.setWidth 32]

theorem exists_frameBase (c : Cpu) : ∃ x y, frameBase c = [x, y] := by
  rw [frameBase]
  split
  · exact ⟨_, _, rfl⟩
  · exact ⟨_, _, rfl⟩

theorem tops_onStack (c : Cpu) (g : Gate) : (onStack c g).Tops (frameBase c) := by
  rw [onStack, frameBase]
  split
  · intro i w hi
    rcases i with _ | _ | i
    · exact Option.some.inj hi
    · exact Option.some.inj hi
    · cases hi
  · exact (tops_nil _).pushes [c.ss.setWidth 32, c.esp] (by simp)

theorem interrupt_mem (c : Cpu) (g : Gate) (e : Option Dword) :
    (interrupt c g e).reg =
    ((onStack c g).pushes ([c.eflags, c.cs.setWidth 32, c.eip] ++ e.toList)).reg ∧
      (interrupt c g e).mem =
      ((onStack c g).pushes ([c.eflags, c.cs.setWidth 32, c.eip] ++ e.toList)).mem := by
  rw [interrupt]
  exact ⟨rfl, rfl⟩

theorem tops_interrupt (c : Cpu) (g : Gate) (e : Option Dword) :
    (interrupt c g e).Tops (e.toList ++ [c.eip, c.cs.setWidth 32, c.eflags] ++ frameBase c) := by
  have hbase := tops_onStack c g
  obtain ⟨x, y, hxy⟩ := exists_frameBase c
  rw [hxy] at hbase ⊢
  rw [Cpu.Tops, stack_congr (interrupt_mem c g e).1 (interrupt_mem c g e).2]
  cases e with
  | none => exact hbase.pushes [c.eflags, c.cs.setWidth 32, c.eip] (by simp)
  | some e => exact hbase.pushes [c.eflags, c.cs.setWidth 32, c.eip, e] (by simp)

theorem onStack_frame (c : Cpu) (g : Gate) :
    (onStack c g).seg = c.seg ∧ ∀ r, r ≠ .esp → (onStack c g).reg r = c.reg r := by
  rw [onStack]
  split
  · exact ⟨rfl, fun _ _ => rfl⟩
  · obtain ⟨hseg, -, -, hreg⟩ :=
      pushes_frame ({ c with ss := g.ss0 }.setReg .esp g.esp0) [c.ss.setWidth 32, c.esp]
    exact ⟨hseg, fun r hr => (hreg r hr).trans (reg_setReg hr ..)⟩

theorem interrupt_frame (c : Cpu) (g : Gate) (e : Option Dword) :
    (interrupt c g e).seg = c.seg ∧ ∀ r, r ≠ .esp → (interrupt c g e).reg r = c.reg r := by
  obtain ⟨hseg, hreg⟩ := onStack_frame c g
  obtain ⟨hseg', -, -, hreg'⟩ :=
    pushes_frame (onStack c g) ([c.eflags, c.cs.setWidth 32, c.eip] ++ e.toList)
  rw [interrupt]
  exact ⟨hseg'.trans hseg, fun r hr => (hreg' r hr).trans (hreg r hr)⟩

theorem entryStub_frame (c : Cpu) (v : BitVec 8) : (execAll c (entryStub v)).seg = c.seg ∧
    ∀ r, r ≠ .esp → (execAll c (entryStub v)).reg r = c.reg r := by
  rw [entryStub]
  split
  · exact ⟨rfl, fun r hr => reg_push hr _⟩
  · exact ⟨rfl, fun r hr => (reg_push hr _).trans (reg_push hr _)⟩

theorem tops_atCall (c : Cpu) (g : Gate) (v : BitVec 8) (e : Option Dword) : (atCall c g v e).Tops
    (withLow (c.reg .eax) (c.seg .ds) :: c.reg .edi :: c.reg .esi :: c.reg .ebp ::
      (execAll (interrupt c g e) (entryStub v)).esp :: c.reg .ebx :: c.reg .edx :: c.reg .ecx ::
      c.reg .eax :: (v.setWidth 32 :: (if errcode v then [] else [0]) ++
        (e.toList ++ [c.eip, c.cs.setWidth 32, c.eflags] ++ frameBase c))) := by
  obtain ⟨hseg, hreg⟩ := interrupt_frame c g e
  obtain ⟨hseg', hreg'⟩ := entryStub_frame (interrupt c g e) v
  have hkeep : ∀ r, r ≠ .esp → (execAll (interrupt c g e) (entryStub v)).reg r = c.reg r :=
    fun r hr => (hreg' r hr).trans (hreg r hr)
  obtain ⟨x, y, hxy⟩ := exists_frameBase c
  have hlen : (e.toList ++ [c.eip, c.cs.setWidth 32, c.eflags] ++ frameBase c).length < 100 := by
    cases e <;> simp [hxy]
  have hentry := tops_entryStub (tops_interrupt c g e) hlen v
  have hlen' : (v.setWidth 32 :: (if errcode v then [] else [(0 : Dword)]) ++
      (e.toList ++ [c.eip, c.cs.setWidth 32, c.eflags] ++ frameBase c)).length < 110 := by
    rw [List.cons_append, List.length_cons, List.length_append]
    split
    · simp only [List.length_nil]
      omega
    · simp only [List.length_cons, List.length_nil]
      omega
  have hcall := tops_commonStub hentry hlen'
  rw [hkeep .eax (by decide), hkeep .edi (by decide), hkeep .esi (by decide),
    hkeep .ebp (by decide), hkeep .ebx (by decide), hkeep .edx (by decide), hkeep .ecx (by decide),
      hseg', hseg] at hcall
  rw [atCall, execAll_append]
  exact hcall

/-- The processor pushes an error code where the stub expects one. -/
def Matches (v : BitVec 8) (e : Option Dword) : Prop := errcode v = e.isSome

def frameWords (c : Cpu) (g : Gate) (v : BitVec 8) (e : Option Dword) : List Dword :=
  [withLow (c.reg .eax) (c.seg .ds), c.reg .edi, c.reg .esi, c.reg .ebp,
    (execAll (interrupt c g e) (entryStub v)).esp, c.reg .ebx, c.reg .edx, c.reg .ecx, c.reg .eax,
    v.setWidth 32, e.getD 0, c.eip, c.cs.setWidth 32, c.eflags] ++ frameBase c

theorem tops_frameWords (g : Gate) (h : Matches v e) :
    (atCall c g v e).Tops (frameWords c g v e) := by
  have ht := tops_atCall c g v e
  rw [Matches] at h
  rw [h] at ht
  cases e <;> exact ht

/-- The `register_t` that a handler is given. -/
def frameOf (c : Cpu) (g : Gate) (v : BitVec 8) (e : Option Dword) : Registers where
  ds := (withLow (c.reg .eax) (c.seg .ds)).toNat
  edi := (c.reg .edi).toNat
  esi := (c.reg .esi).toNat
  ebp := (c.reg .ebp).toNat
  esp := (execAll (interrupt c g e) (entryStub v)).esp.toNat
  ebx := (c.reg .ebx).toNat
  edx := (c.reg .edx).toNat
  ecx := (c.reg .ecx).toNat
  eax := (c.reg .eax).toNat
  intNo := v.toNat
  errCode := (e.getD 0).toNat
  eip := c.eip.toNat
  cs := c.cs.toNat
  eflags := c.eflags.toNat
  useresp := ((frameBase c)[0]?.getD 0).toNat
  ss := ((frameBase c)[1]?.getD 0).toNat

theorem registers_atCall (g : Gate) (h : Matches v e) :
    registers (atCall c g v e) = frameOf c g v e := by
  have ht := tops_frameWords (c := c) g h
  have hv : (v.setWidth 32).toNat = v.toNat := BitVec.toNat_setWidth_of_le (by decide)
  have hcs : (c.cs.setWidth 32).toNat = c.cs.toNat := BitVec.toNat_setWidth_of_le (by decide)
  obtain ⟨x, y, hbase⟩ := exists_frameBase c
  rw [frameWords, hbase] at ht
  rw [registers, frameOf, hbase, ht 0 _ rfl, ht 1 _ rfl, ht 2 _ rfl, ht 3 _ rfl,
    ht 4 _ rfl, ht 5 _ rfl, ht 6 _ rfl, ht 7 _ rfl, ht 8 _ rfl, ht 9 _ rfl, ht 10 _ rfl,
      ht 11 _ rfl, ht 12 _ rfl, ht 13 _ rfl,
    ht 14 _ rfl, ht 15 _ rfl, hv, hcs]
  rfl

def beforeIret (d : Cpu) (r : Reg) : Cpu := execAll d (exitStub r)

theorem seg_loadSegs (c : Cpu) (r : Reg) (s : Seg) :
    (execAll c (loadSegs r)).seg s = low (c.reg r) := by
  cases s <;> rfl

theorem beforeIret_frame (hr : r ≠ .esp) (d : Cpu) : (beforeIret d r).esp = d.esp + 44 ∧
    (beforeIret d r).ss = d.ss ∧ (∀ n, (beforeIret d r).stack n = d.stack (11 + n)) ∧
    ∀ s, (beforeIret d r).seg s = low (d.stack 0) := by
  have hpop : (execAll d ([.pop r] ++ loadSegs r)).esp = d.esp + 4 :=
    (reg_setReg hr.symm (d.drop 1) (d.stack 0)).trans (reg_setReg_self ..)
  have hadd : (beforeIret d r).esp = (execAll d ([.pop r] ++ loadSegs r)).esp + 32 + 8 :=
    reg_setReg_self (popAll (execAll d ([.pop r] ++ loadSegs r))) .esp _
  have hesp : (beforeIret d r).esp = d.esp + 44 := by
    rw [hadd, hpop, BitVec.add_assoc, BitVec.add_assoc]
    rfl
  refine ⟨hesp, rfl, stack_of_esp (c := d) 11 hesp rfl, fun s => ?_⟩
  rw [← reg_setReg_self (d.drop 1) r (d.stack 0)]
  exact seg_loadSegs ((d.drop 1).setReg r (d.stack 0)) r s

theorem beforeIret_regs (hr : r ≠ .esp) (d : Cpu) : (beforeIret d r).reg .edi = d.stack 1 ∧
    (beforeIret d r).reg .esi = d.stack 2 ∧ (beforeIret d r).reg .ebp = d.stack 3 ∧
    (beforeIret d r).reg .ebx = d.stack 5 ∧ (beforeIret d r).reg .edx = d.stack 6 ∧
    (beforeIret d r).reg .ecx = d.stack 7 ∧ (beforeIret d r).reg .eax = d.stack 8 := by
  have hstack : ∀ n, (execAll d ([.pop r] ++ loadSegs r)).stack n = d.stack (1 + n) := fun n =>
    (congrFun (stack_setReg hr (d.drop 1) (d.stack 0)) n).trans (stack_drop d 1 n)
  have hreg : ∀ q, q ≠ .esp →
      (beforeIret d r).reg q = (popAll (execAll d ([.pop r] ++ loadSegs r))).reg q :=
    fun q hq => reg_setReg hq ..
  rw [hreg .edi (by decide), hreg .esi (by decide), hreg .ebp (by decide), hreg .ebx (by decide),
    hreg .edx (by decide), hreg .ecx (by decide), hreg .eax (by decide)]
  exact ⟨hstack 0, hstack 1, hstack 2, hstack 4, hstack 5, hstack 6, hstack 7⟩

theorem esp_interrupt (h : ring c.cs = 0) (g : Gate) (e : Option Dword) :
    (interrupt c g e).esp = c.esp - BitVec.ofNat 32 (4 * (3 + e.toList.length)) := by
  have hesp := esp_pushes (onStack c g) ([c.eflags, c.cs.setWidth 32, c.eip] ++ e.toList)
  rw [List.length_append, onStack, if_pos h] at hesp
  rw [Cpu.esp, (interrupt_mem c g e).1, onStack, if_pos h]
  exact hesp

theorem esp_entryStub (c : Cpu) (v : BitVec 8) :
    (execAll c (entryStub v)).esp = c.esp - if errcode v then 4 else 8 := by
  rw [entryStub]
  split
  · exact esp_push c (v.setWidth 32)
  · exact esp_pushes c [0, v.setWidth 32]

theorem esp_commonStub (c : Cpu) : (execAll c commonStub).esp = c.esp - 36 := by
  have hall : (pushAll c).esp = c.esp - 32 := esp_pushes c (pushaOrder.map c.reg)
  have heax : ∀ (x : Cpu) w, (x.setReg .eax w).esp = x.esp := fun x w => reg_setReg (by decide) x w
  have hds : (exec (pushAll c) (.movFromSeg .eax .ds)).esp = (pushAll c).esp :=
    heax (pushAll c) (withLow ((pushAll c).reg .eax) ((pushAll c).seg .ds))
  have hpush : ∀ x, (exec x (.push .eax)).esp = x.esp - 4 := fun x => esp_push x (x.reg .eax)
  have hlow : ∀ x, (exec x (.movLow .eax 0x10)).esp = x.esp := fun x =>
    heax x (withLow (x.reg .eax) 0x10)
  have hsegs : ∀ x, (execAll x (loadSegs .eax)).esp = x.esp := fun _ => rfl
  rw [commonStub, execAll_append, hsegs, execAll_cons, execAll_cons, execAll_cons,
    execAll_cons, execAll_nil, hlow, hpush, show exec c .pusha = pushAll c from rfl, hds, hall,
      BitVec.sub_sub]
  rfl

theorem esp_atCall (h : ring c.cs = 0) (g : Gate) (hmatch : Matches v e) :
    (atCall c g v e).esp = c.esp - 56 := by
  rw [atCall, execAll_append, esp_commonStub, esp_entryStub, esp_interrupt h]
  rw [Matches] at hmatch
  cases e with
  | none =>
    rw [hmatch, BitVec.sub_sub, BitVec.sub_sub]
    rfl
  | some e =>
    rw [hmatch, BitVec.sub_sub, BitVec.sub_sub]
    rfl

theorem ss_atCall (h : ring c.cs = 0) (g : Gate) (v : BitVec 8) (e : Option Dword) :
    (atCall c g v e).ss = c.ss := by
  have hinterrupt : (interrupt c g e).ss = c.ss := by
    rw [interrupt, onStack, if_pos h]
    exact (pushes_frame c _).2.2.1
  have hentry : ∀ x, (execAll x (entryStub v)).ss = x.ss := fun x => by
    rw [entryStub]
    split <;> rfl
  have hcommon : ∀ x, (execAll x commonStub).ss = x.ss := fun x =>
    (pushes_frame x (pushaOrder.map x.reg)).2.2.1
  rw [atCall, execAll_append, hcommon, hentry, hinterrupt]

theorem execute_exitStub (t : Segments) (d : Cpu) (r : Reg) : execute t d (exitStub r) =
    if loadable t 0 (low (d.stack 0)) then some (beforeIret d r) else none := by
  have hpop : (execAll d [.pop r]).reg r = d.stack 0 := reg_setReg_self (d.drop 1) r (d.stack 0)
  have hfirst : execute t d [.pop r] = some (execAll d [.pop r]) := execute_of_plain rfl
  have hrest : ∀ x, execute t x [.popa, .addImm .esp 8, .sti] =
      some (execAll x [.popa, .addImm .esp 8, .sti]) := fun x => execute_of_plain rfl
  rw [exitStub, execute_append, execute_append, hfirst, Option.bind_some, execute_loadSegs, hpop]
  split_ifs
  · rw [Option.bind_some, hrest]
    rfl
  · rfl

def resumed (t : Segments) (d : Cpu) (r : Reg) : Return := leave t d (exitStub r)

theorem resumed_eq (hr : r ≠ .esp) (t : Segments) (d : Cpu) :
    resumed t d r = if loadable t 0 (low (d.stack 0)) then
      if (d.stack 13).getLsbD 17 then .virtual8086
      else if canEnter t (low (d.stack 12)) (d.stack 11) (low (d.stack 15)) then
        .enters (returns t (beforeIret d r))
      else .fault
    else .fault := by
  obtain ⟨-, -, hstack, -⟩ := beforeIret_frame hr d
  have hflags := hstack 2
  have hcs := hstack 1
  have heip := hstack 0
  have hss := hstack 4
  rw [resumed, leave, execute_exitStub]
  by_cases hds : loadable t 0 (low (d.stack 0)) = true
  · rw [if_pos hds, if_pos hds, Option.elim_some, iret, hflags, hcs, heip, hss]
  · rw [if_neg hds, if_neg hds, Option.elim_none]

theorem eq_returns_of_resumed {x : Cpu} (hr : r ≠ .esp) (h : resumed t d r = .enters x) :
    x = returns t (beforeIret d r) := by
  rw [resumed_eq hr] at h
  split_ifs at h
  exact (Return.enters.inj h).symm

theorem userRegs_resumed {x : Cpu} (hr : r ≠ .esp) (hx : resumed t d r = .enters x)
    (h : ring (low (d.stack 12)) ≠ 0) : userRegs x = (registers d).user := by
  obtain ⟨hedi, hesi, hebp, hebx, hedx, hecx, heax⟩ := beforeIret_regs hr d
  obtain ⟨-, -, hstack, -⟩ := beforeIret_frame hr d
  obtain ⟨heip, -, heflags, -, hreg⟩ := returns_frame t (beforeIret d r)
  have hesp : (returns t (beforeIret d r)).reg .esp = d.stack 14 :=
    (esp_returns_outer (by rw [hstack]; exact h)).1.trans (hstack 3)
  obtain rfl : x = returns t (beforeIret d r) := eq_returns_of_resumed hr hx
  rw [userRegs, hreg .eax (by decide), hreg .ebx (by decide), hreg .ecx (by decide),
    hreg .edx (by decide), hreg .esi (by decide), hreg .edi (by decide), hreg .ebp (by decide),
    hesp, heip, heflags, hedi, hesi, hebp, hebx, hedx, hecx, heax, hstack, hstack]
  rfl

theorem stack_of_kept (h : Matches v e) (hkept : ∀ n < 16, d.stack n = (atCall c g v e).stack n)
    {n : ℕ} (hn : n < 16) {w : Dword} (hw : (frameWords c g v e)[n]? = some w) : d.stack n = w :=
  (hkept n hn).trans (tops_frameWords g h n w hw)

theorem ss_of_kept (h : Matches v e) (hkept : ∀ n < 16, d.stack n = (atCall c g v e).stack n)
    (hring : ring c.cs ≠ 0) : low (d.stack 15) = c.ss := by
  have hbase : frameBase c = [c.esp, c.ss.setWidth 32] := if_neg hring
  have hss : d.stack 15 = c.ss.setWidth 32 :=
    stack_of_kept h hkept (by decide) (by rw [frameWords, hbase]; rfl)
  rw [hss, low_setWidth]

/-- What was interrupted goes on as it was when the handler leaves the `register_t` alone, but for
the segment registers, which all become `ds` if `iret` keeps it. -/
theorem returns_of_kept (t : Segments) (hr : r ≠ .esp) (h : Matches v e)
    (hesp : d.esp = (atCall c g v e).esp) (hss : d.ss = (atCall c g v e).ss)
    (hkept : ∀ n < 16, d.stack n = (atCall c g v e).stack n) :
    (returns t (beforeIret d r)).reg = c.reg ∧ (returns t (beforeIret d r)).eip = c.eip ∧
      (returns t (beforeIret d r)).cs = c.cs ∧ (returns t (beforeIret d r)).ss = c.ss ∧
      (returns t (beforeIret d r)).eflags = c.eflags ∧
      ∀ s, (returns t (beforeIret d r)).seg s = kept t (ring c.cs) (c.seg .ds) := by
  have hword : ∀ n < 16, ∀ w, (frameWords c g v e)[n]? = some w → d.stack n = w :=
    fun n hn w hw => stack_of_kept h hkept hn hw
  obtain ⟨hedi, hesi, hebp, hebx, hedx, hecx, heax⟩ := beforeIret_regs hr d
  obtain ⟨hesp', hss', hstack, hseg'⟩ := beforeIret_frame hr d
  obtain ⟨heip, hcs, heflags, hseg, hreg⟩ := returns_frame t (beforeIret d r)
  have hcs' : low (d.stack 12) = c.cs := by rw [hword 12 (by decide) _ rfl, low_setWidth]
  have htop : (returns t (beforeIret d r)).reg .esp = c.reg .esp ∧
      (returns t (beforeIret d r)).ss = c.ss := by
    by_cases hring : ring c.cs = 0
    · obtain ⟨hto, hto'⟩ :=
        esp_returns_same (t := t) (c := beforeIret d r) (by rw [hstack, hcs']; exact hring)
      constructor
      · rw [← Cpu.esp, hto, hesp', hesp, esp_atCall hring g h, BitVec.add_assoc]
        exact BitVec.sub_add_cancel c.esp 56
      · rw [hto', hss', hss, ss_atCall hring]
    · obtain ⟨hto, hto'⟩ :=
        esp_returns_outer (t := t) (c := beforeIret d r) (by rw [hstack, hcs']; exact hring)
      have hbase : frameBase c = [c.esp, c.ss.setWidth 32] := if_neg hring
      constructor
      · rw [← Cpu.esp, hto, hstack, hword 14 (by decide) c.esp (by rw [frameWords, hbase]; rfl)]
        rfl
      · rw [hto', hstack]
        exact ss_of_kept h hkept hring
  refine ⟨funext fun q => ?_, heip.trans ((hstack 0).trans (hword 11 (by decide) _ rfl)),
    hcs.trans (by rw [hstack]; exact hcs'), htop.2,
    heflags.trans ((hstack 2).trans (hword 13 (by decide) _ rfl)), fun s => ?_⟩
  · cases q with
    | esp => exact htop.1
    | eax => rw [hreg _ (by decide), heax, hword 8 (by decide) _ rfl]
    | ecx => rw [hreg _ (by decide), hecx, hword 7 (by decide) _ rfl]
    | edx => rw [hreg _ (by decide), hedx, hword 6 (by decide) _ rfl]
    | ebx => rw [hreg _ (by decide), hebx, hword 5 (by decide) _ rfl]
    | ebp => rw [hreg _ (by decide), hebp, hword 3 (by decide) _ rfl]
    | esi => rw [hreg _ (by decide), hesi, hword 2 (by decide) _ rfl]
    | edi => rw [hreg _ (by decide), hedi, hword 1 (by decide) _ rfl]
  · rw [hseg, hstack, hcs', hseg', hword 0 (by decide) _ rfl, low_withLow]

def exitReg : Stub → Reg
  | .isr => .eax
  | .irq => .ebx

theorem exitReg_ne (s : Stub) : exitReg s ≠ .esp := by
  cases s <;> decide

theorem canEnter_congr {t : Segments} {cs ss ss' : Selector} {eip : Dword}
    (h : ring cs ≠ 0 → ss = ss') :
    canEnter t cs eip ss = canEnter t cs eip ss' := by
  rw [canEnter, canEnter]
  by_cases hring : ring cs = 0
  · rw [hring]
    rfl
  · rw [h hring]

theorem resumed_of_kept {entries es : Gdt} {kernelTss : ℕ}
    (hes : ((initGdt entries).bind fun es => tssInit es 5 kernelTss) = some es) (hr : r ≠ .esp)
    (h : Matches v e) (hesp : d.esp = (atCall c g v e).esp) (hss : d.ss = (atCall c g v e).ss)
    (hkept : ∀ n < 16, d.stack n = (atCall c g v e).stack n) :
    ∃ seg mem, (∀ q, seg q = kept (segments es) (ring c.cs) (c.seg .ds)) ∧
      resumed (segments es) d r =
        if loadable (segments es) 0 (c.seg .ds) then
          if c.eflags.getLsbD 17 then .virtual8086
          else if c.cs = 0x08 ∨ c.cs = 0x1B ∧ c.ss = 0x23 then
            .enters { c with seg := seg, mem := mem }
          else .fault
        else .fault := by
  obtain ⟨hreg, heip, hcs, hss', heflags, hseg⟩ :=
    returns_of_kept (segments es) hr h hesp hss hkept
  have hsame : returns (segments es) (beforeIret d r) =
      { c with
        seg := (returns (segments es) (beforeIret d r)).seg
        mem := (returns (segments es) (beforeIret d r)).mem } := by
    rw [← hreg, ← heip, ← hcs, ← hss', ← heflags]
  refine ⟨_, (returns (segments es) (beforeIret d r)).mem, hseg, ?_⟩
  rw [← hsame, resumed_eq hr, stack_of_kept h hkept (by decide) rfl,
    stack_of_kept h hkept (by decide) rfl, stack_of_kept h hkept (by decide) rfl,
    stack_of_kept h hkept (by decide) rfl, low_withLow, low_setWidth,
    canEnter_congr (ss_of_kept h hkept)]
  exact if_congr Iff.rfl (if_congr Iff.rfl rfl (if_congr (canEnter_iff hes) rfl rfl)) rfl

/-- A handler is given the registers of what was interrupted. A program in ring 3 goes on with what
the handler has made of them, and everything goes on as it was when they are left alone and its
selectors are accepted. A `ds` that its ring may have is one of these. -/
theorem stub_resumes (c : Cpu) (g : Gate) {v : BitVec 8} {e : Option Dword}
    (h : Matches v e) (s : Stub) (f : Callee) (ret : Dword) {entries es : Gdt} {kernelTss : ℕ}
    (hes : ((initGdt entries).bind fun es => tssInit es 5 kernelTss) = some es) :
    execute (segments es) (interrupt c g e) (entryStub v ++ commonStub) = some (atCall c g v e) ∧
    registers (atCall c g v e) = frameOf c g v e ∧
    (∀ x, resumed (segments es) (call (atCall c g v e) f ret) (exitReg s) = .enters x →
      ring (low ((call (atCall c g v e) f ret).stack 12)) ≠ 0 →
      userRegs x = (registers (call (atCall c g v e) f ret)).user) ∧
    ((∀ n < 16, (call (atCall c g v e) f ret).stack n = (atCall c g v e).stack n) →
      ∃ seg mem, (∀ q, seg q = kept (segments es) (ring c.cs) (c.seg .ds)) ∧
        resumed (segments es) (call (atCall c g v e) f ret) (exitReg s) =
          if loadable (segments es) 0 (c.seg .ds) then
            if c.eflags.getLsbD 17 then .virtual8086
            else if c.cs = 0x08 ∨ c.cs = 0x1B ∧ c.ss = 0x23 then
              .enters { c with seg := seg, mem := mem }
            else .fault
          else .fault) ∧
    (loadable (segments es) (ring c.cs) (c.seg .ds) = true →
      loadable (segments es) 0 (c.seg .ds) = true ∧
      kept (segments es) (ring c.cs) (c.seg .ds) = c.seg .ds) := by
  exact ⟨execute_atCall (loadable_own hes).1 c g v e, registers_atCall g h,
    fun x hx => userRegs_resumed (exitReg_ne s) hx,
    fun hkept =>
      resumed_of_kept hes (exitReg_ne s) h (esp_call _ f ret) (ss_call _ f ret) hkept,
    fun hds => ⟨loadable_zero hds, kept_of_loadable (segments_null es) hds⟩⟩

def userCpu : Cpu := ⟨fun _ => 1, fun _ => 0x23, 0x1B, 0x23, 0x100000, 0x202, fun _ => 0⟩

def kernelGate : Gate := ⟨0x08, 0x200000, 0x10, 0x400000⟩

theorem stub_resumes_ret : ∃ es seg mem,
    ((initGdt fun _ => 0).bind fun es => tssInit es 5 0x300000) = some es ∧
      resumed (segments es) (call (atCall userCpu kernelGate 0x20 none) .ret 0) .ebx =
        .enters { userCpu with seg := seg, mem := mem } ∧ ∀ q, seg q = 0x23 := by
  obtain ⟨es, hes, -⟩ := initGdt_tssInit (fun _ => 0) 0x300000
  obtain ⟨-, -, -, hresumed, hds⟩ :=
    stub_resumes userCpu kernelGate (show Matches 0x20 none from rfl) .irq .ret 0 hes
  obtain ⟨seg, mem, hseg, hresumed⟩ := hresumed fun n hn => stack_call_ret _ 0 (by omega)
  obtain ⟨hload, hkept⟩ := hds (loadable_own hes).2
  rw [if_pos hload, if_neg (by decide), if_pos (Or.inr ⟨rfl, rfl⟩)] at hresumed
  exact ⟨es, seg, mem, hes, hresumed, fun q => (hseg q).trans hkept⟩

/-- A program can make the interrupts whose stubs expect an error code. Its flags are then taken for
its code segment. They are none that `iret` accepts, since bit 3 is not a flag; but where its stack
pointer is taken for the flags, it may be one of virtual 8086 mode. -/
theorem stub_unmatched (c : Cpu) (g : Gate) {v : BitVec 8} (h : errcode v = true)
    (s : Stub) (f : Callee) (ret : Dword) {entries es : Gdt} {kernelTss : ℕ}
    (hes : ((initGdt entries).bind fun es => tssInit es 5 kernelTss) = some es)
    (hflags : c.eflags.getLsbD 3 = false) :
    execute (segments es) (interrupt c g none) (entryStub v ++ commonStub) =
      some (atCall c g v none) ∧
    (registers (atCall c g v none)).intNo = v.toNat ∧
    (registers (atCall c g v none)).errCode = c.eip.toNat ∧
    (registers (atCall c g v none)).eip = c.cs.toNat ∧
    (registers (atCall c g v none)).cs = c.eflags.toNat ∧
    ((∀ n < 16, (call (atCall c g v none) f ret).stack n = (atCall c g v none).stack n) →
      resumed (segments es) (call (atCall c g v none) f ret) (exitReg s) =
        if loadable (segments es) 0 (c.seg .ds) ∧ ((frameBase c)[0]?.getD 0).getLsbD 17 then
          .virtual8086
        else .fault) := by
  have ht := tops_atCall c g v none
  rw [h] at ht
  have hv : (v.setWidth 32).toNat = v.toNat := BitVec.toNat_setWidth_of_le (by decide)
  have hcs : (c.cs.setWidth 32).toNat = c.cs.toNat := BitVec.toNat_setWidth_of_le (by decide)
  refine ⟨execute_atCall (loadable_own hes).1 c g v none, ?_, ?_, ?_, ?_, fun hkept => ?_⟩
  · exact (congrArg BitVec.toNat (ht 9 _ rfl)).trans hv
  · exact congrArg BitVec.toNat (ht 10 _ rfl)
  · exact (congrArg BitVec.toNat (ht 11 _ rfl)).trans hcs
  · exact congrArg BitVec.toNat (ht 12 _ rfl)
  · obtain ⟨x, y, hbase⟩ := exists_frameBase c
    rw [hbase] at ht ⊢
    -- bit 3 is set in both selectors that are accepted
    have hnot : ¬ canEnter (segments es) (low c.eflags) (c.cs.setWidth 32)
        (low ((call (atCall c g v none) f ret).stack 15)) = true := by
      rw [canEnter_iff hes]
      have hlow : (low c.eflags).getLsbD 3 = false := by
        rw [low, BitVec.getLsbD_setWidth, hflags, Bool.and_false]
      rintro (heq | ⟨heq, -⟩)
      · rw [heq] at hlow
        exact absurd hlow (by decide)
      · rw [heq] at hlow
        exact absurd hlow (by decide)
    rw [resumed_eq (exitReg_ne s), hkept 0 (by decide), hkept 13 (by decide),
      hkept 12 (by decide), hkept 11 (by decide), ht 0 _ rfl, ht 13 _ rfl, ht 12 _ rfl,
      ht 11 _ rfl, if_neg hnot, low_withLow, ite_and]
    rfl

/-- The software interrupt 13 of a program whose stack pointer is 1. -/
theorem stub_unmatched_gp : ∃ es,
    ((initGdt fun _ => 0).bind fun es => tssInit es 5 0x300000) = some es ∧
      (registers (atCall userCpu kernelGate 13 none)).eip = 0x1B ∧
      resumed (segments es) (call (atCall userCpu kernelGate 13 none) .ret 0) .eax = .fault := by
  obtain ⟨es, hes, -⟩ := initGdt_tssInit (fun _ => 0) 0x300000
  obtain ⟨-, -, -, heip, -, hresumed⟩ :=
    stub_unmatched userCpu kernelGate (rfl : errcode 13 = true) .isr .ret 0 hes (by decide)
  have hstack : ¬ ((frameBase userCpu)[0]?.getD 0).getLsbD 17 = true := by decide
  exact ⟨es, hes, heip, (hresumed fun n hn => stack_call_ret _ 0 (by omega)).trans
    (if_neg fun hmode => hstack hmode.2)⟩

end Unos.Interrupts
