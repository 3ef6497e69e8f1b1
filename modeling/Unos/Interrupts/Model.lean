import Unos.Library.Pic8259
import Unos.Library.Runs

namespace Unos.Interrupts

open Unos.Pic8259

def pic1Command : BitVec 16 := 0x20

def pic1Data : BitVec 16 := pic1Command + 1

def pic2Command : BitVec 16 := 0xA0

def pic2Data : BitVec 16 := pic2Command + 1

def picEoi : BitVec 8 := 0x20

def icw1Icw4 : BitVec 8 := 0x01

def icw1Init : BitVec 8 := 0x10

def icw4_8086 : BitVec 8 := 0x01

abbrev Write := BitVec 16 × BitVec 8

/-- A byte that arrives at a port; `none` for a command that the controllers here do not have. -/
def outb (p : Pair) (w : Write) : Option Pair :=
  if w.1 = pic1Command then (p.master.command w.2).map fun c => { p with master := c }
  else if w.1 = pic2Command then (p.slave.command w.2).map fun c => { p with slave := c }
  else if w.1 = pic1Data then some { p with master := p.master.data w.2 }
  else if w.1 = pic2Data then some { p with slave := p.slave.data w.2 }
  else some p

/-- The mask of the controller that a data port belongs to. -/
def inb (p : Pair) (port : BitVec 16) : BitVec 8 :=
  if port = pic1Data then p.master.imr else p.slave.imr

/-- The writes of `pic_init`. -/
def picInit (offset1 offset2 : BitVec 8) : List Write :=
  [(pic1Command, icw1Init + icw1Icw4), (pic2Command, icw1Init + icw1Icw4),
    (pic1Data, offset1), (pic2Data, offset2),
    (pic1Data, 4), (pic2Data, 2),
    (pic1Data, icw4_8086), (pic2Data, icw4_8086),
    (pic1Data, 0), (pic2Data, 0)]

/-- The writes of `ack_irq`. -/
def ackIrq (irq : BitVec 8) : List Write :=
  if 0x28 ≤ irq then [(pic2Command, picEoi), (pic1Command, picEoi)] else [(pic1Command, picEoi)]

def irqPort (irq : BitVec 8) : BitVec 16 := if irq.slt 8 then pic1Data else pic2Data

/-- `1 << irq_port` after the second controller's lines are numbered from 0; `none` where the shift
is not defined. -/
def irqBit (irq : BitVec 8) : Option (BitVec 8) :=
  let shift := if irq.slt 8 then irq else irq - 8
  if shift < 32 then some (1 <<< shift.toNat) else none

def enableIrq (p : Pair) (irq : BitVec 8) : Option Pair :=
  (irqBit irq).bind fun b => outb p (irqPort irq, inb p (irqPort irq) &&& ~~~b)

def disableIrq (p : Pair) (irq : BitVec 8) : Option Pair :=
  (irqBit irq).bind fun b => outb p (irqPort irq, inb p (irqPort irq) ||| b)

/-- The code that a gate leads to: one of the `isr` stubs, or one of the `irq` stubs. -/
inductive Stub
  | isr
  | irq
  deriving DecidableEq, Repr

/-- The gates that `init_idt` sets. -/
def gate (vector : BitVec 8) : Option Stub :=
  if vector < 32 then some .isr
  else if vector < 48 then some .irq
  else if vector = 128 then some .isr
  else none

/-- What the processor runs: `pic_init`; an `irq` stub in front of its handler; anything else;
`context_switch` from `ack_irq` on, with the flag of the next process. -/
inductive Running
  | boot
  | stub (vector : BitVec 8)
  | body
  | switching (flag : Bool)
  deriving DecidableEq, Repr

/-- The processor between an interrupt and the `iret` that ends it. The writes are those that the
code has still to do. A handler that has not returned has a frame. -/
structure Machine where
  pic : Pair
  flag : Bool
  running : Running
  writes : List Write
  frames : List Bool

def boot (p : Pair) : Machine := ⟨p, false, .boot, picInit 0x20 0x28, []⟩

/-- `raise` is an edge on a line, at any time, also between two writes; `noise` a line that was
withdrawn before the processor asked. `int` is a software interrupt or an exception, `setFlag` is
`cli` or `sti`. -/
inductive Event
  | raise (onSlave : Bool) (k : Line)
  | interrupt
  | noise (k : Line)
  | write
  | int (vector : BitVec 8)
  | iret
  | setFlag (b : Bool)
  | enable (irq : BitVec 8)
  | disable (irq : BitVec 8)
  | switch (b : Bool)
  deriving DecidableEq, Repr

/-- A gate is an interrupt gate: the flag is kept in the frame and cleared. -/
def Machine.enter (m : Machine) (vector : BitVec 8) : Option Machine :=
  match gate vector with
  | none => none
  | some .isr => some { m with flag := false, frames := m.flag :: m.frames }
  | some .irq =>
    some { m with
      flag := false, running := .stub vector, writes := ackIrq vector, frames :=
        m.flag :: m.frames }

def Machine.written (m : Machine) : Machine :=
  match m.running with
  | .switching b => { m with running := .body, flag := b, frames := [] }
  | _ => { m with running := .body }

def step (m : Machine) : Event → Option Machine
  | .raise onSlave k => some { m with pic := m.pic.raise onSlave k }
  | .interrupt =>
    if m.flag then m.pic.inta.bind fun a => { m with pic := a.2 }.enter a.1 else none
  | .noise k =>
    if m.flag then (m.pic.noise k).bind fun a => { m with pic := a.2 }.enter a.1 else none
  | .write =>
    match m.writes with
    | [] => none
    | [w] => (outb m.pic w).map fun p => { m with pic := p, writes := [] }.written
    | w :: ws => (outb m.pic w).map fun p => { m with pic := p, writes := ws }
  | .int vector => if m.running = .body then m.enter vector else none
  | .iret =>
    match m.running, m.frames with
    | .body, b :: frames => some { m with flag := b, frames := frames }
    | _, _ => none
  | .setFlag b => if m.running = .body then some { m with flag := b } else none
  | .enable irq =>
    if m.running = .body then (enableIrq m.pic irq).map fun p => { m with pic := p } else none
  | .disable irq =>
    if m.running = .body then (disableIrq m.pic irq).map fun p => { m with pic := p } else none
  | .switch b =>
    if m.running = .body ∧ m.flag = false then
      some { m with running := .switching b, writes := ackIrq 0 }
    else none

end Unos.Interrupts
