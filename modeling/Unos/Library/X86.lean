import Mathlib.Data.BitVec
import Mathlib.Logic.Function.Basic
import Mathlib.Tactic.Common

namespace Unos.X86

abbrev Dword := BitVec 32

abbrev Selector := BitVec 16

inductive Reg
  | eax
  | ecx
  | edx
  | ebx
  | esp
  | ebp
  | esi
  | edi
  deriving DecidableEq, Repr

/-- The segment registers that hold data. -/
inductive Seg
  | ds
  | es
  | fs
  | gs
  deriving DecidableEq, Repr

/-- The general registers, the segment registers, and memory of double words. The stack is read from
its top. -/
structure Cpu where
  reg : Reg → Dword
  seg : Seg → Selector
  cs : Selector
  ss : Selector
  eip : Dword
  eflags : Dword
  mem : Dword → Dword

namespace Cpu

def setReg (c : Cpu) (r : Reg) (v : Dword) : Cpu := { c with reg := Function.update c.reg r v }

def setSeg (c : Cpu) (s : Seg) (v : Selector) : Cpu := { c with seg := Function.update c.seg s v }

def esp (c : Cpu) : Dword := c.reg .esp

def push (c : Cpu) (v : Dword) : Cpu :=
  { c with
    reg := Function.update c.reg .esp (c.esp - 4)
    mem := Function.update c.mem (c.esp - 4) v }

/-- The double words of the stack, from its top. -/
def stack (c : Cpu) (n : ℕ) : Dword := c.mem (c.esp + BitVec.ofNat 32 (4 * n))

/-- The stack without its first `n` double words. -/
def drop (c : Cpu) (n : ℕ) : Cpu := c.setReg .esp (c.esp + BitVec.ofNat 32 (4 * n))

end Cpu

def flagIf : Dword := 0x200

def flagsGate : Dword := 0x34300

def flagsArith : Dword := 0x8D5

def arithFlags (a b : Dword) : Dword :=
  let bit (p : Bool) (n : ℕ) : Dword := if p then 1 <<< n else 0
  let ones := (List.range 8).countP fun i => (a + b).getLsbD i
  bit (decide (2 ^ 32 ≤ a.toNat + b.toNat)) 0 ||| bit (ones % 2 == 0) 2 |||
    bit (decide (16 ≤ a.toNat % 16 + b.toNat % 16)) 4 ||| bit (a + b == 0) 6 |||
    bit (a + b).msb 7 ||| bit (a.msb == b.msb && (a + b).msb != a.msb) 11

/-- The lower half of a double word is replaced. -/
def withLow (d : Dword) (v : BitVec 16) : Dword := d.extractLsb' 16 16 ++ v

def low (d : Dword) : BitVec 16 := d.setWidth 16

theorem low_withLow (d : Dword) (v : BitVec 16) : low (withLow d v) = v := by
  apply BitVec.eq_of_getLsbD_eq
  intro i hi
  rw [low, withLow, BitVec.getLsbD_setWidth, BitVec.getLsbD_append, decide_eq_true hi,
    Bool.true_and, if_pos hi]

theorem low_setWidth (v : BitVec 16) : low (v.setWidth 32) = v := by
  rw [low, BitVec.setWidth_setWidth_of_le v (by decide), BitVec.setWidth_eq]

inductive Instr
  | cli
  | sti
  | pushImm (v : Dword)
  | push (r : Reg)
  | pop (r : Reg)
  | pusha
  | popa
  | movFromSeg (r : Reg) (s : Seg)
  | movLow (r : Reg) (v : BitVec 16)
  | movToSeg (s : Seg) (r : Reg)
  | mov (r : Reg) (base : Reg) (disp : Dword)
  | addImm (r : Reg) (v : Dword)
  deriving DecidableEq, Repr

/-- The registers in the order in which `pusha` pushes them. -/
def pushaOrder : List Reg := [.eax, .ecx, .edx, .ebx, .esp, .ebp, .esi, .edi]

def Cpu.pushes (c : Cpu) (vs : List Dword) : Cpu := vs.foldl Cpu.push c

/-- `esp` is pushed as it was before. -/
def pushAll (c : Cpu) : Cpu := c.pushes (pushaOrder.map c.reg)

/-- `esp` is not popped. -/
def popAll (c : Cpu) : Cpu :=
  { c with
    reg := fun
      | .edi => c.stack 0
      | .esi => c.stack 1
      | .ebp => c.stack 2
      | .ebx => c.stack 4
      | .edx => c.stack 5
      | .ecx => c.stack 6
      | .eax => c.stack 7
      | .esp => c.esp + 32 }

def ring (cs : Selector) : BitVec 2 := cs.setWidth 2

/-- The instructions do not use their own addresses, so `eip` is only set by `iret`, which is the
last instruction of a piece of code. -/
def exec (c : Cpu) : Instr → Cpu
  | .cli => { c with eflags := c.eflags &&& ~~~flagIf }
  | .sti => { c with eflags := c.eflags ||| flagIf }
  | .pushImm v => c.push v
  | .push r => c.push (c.reg r)
  | .pop r => (c.drop 1).setReg r (c.stack 0)
  | .pusha => pushAll c
  | .popa => popAll c
  | .movFromSeg r s => c.setReg r (withLow (c.reg r) (c.seg s))
  | .movLow r v => c.setReg r (withLow (c.reg r) v)
  | .movToSeg s r => c.setSeg s (low (c.reg r))
  | .mov r base disp => c.setReg r (c.mem (c.reg base + disp))
  | .addImm r v =>
    { c.setReg r (c.reg r + v) with
      eflags := c.eflags &&& ~~~flagsArith ||| arithFlags (c.reg r) v }

def execAll (c : Cpu) (is : List Instr) : Cpu := is.foldl exec c

/-- What a descriptor says of a segment. -/
structure Segment where
  code : Bool
  conforming : Bool
  readable : Bool
  writable : Bool
  dpl : BitVec 2
  present : Bool
  last : ℕ
  deriving DecidableEq, Repr

/-- The descriptor that a selector leads to, if it is not null and inside of a table. -/
abbrev Segments := Selector → Option Segment

/-- A code segment of the ring that the selector asks for. -/
def Segment.runs (s : Segment) (cs : Selector) (eip : Dword) : Bool :=
  s.code && s.present && (if s.conforming then decide (s.dpl ≤ ring cs) else s.dpl == ring cs) &&
    decide (eip.toNat ≤ s.last)

/-- A stack segment of the ring that the code runs in. -/
def Segment.stacks (s : Segment) (cs ss : Selector) : Bool :=
  !s.code && s.writable && s.present && ring ss == ring cs && s.dpl == ring cs

/-- The selectors that `iret` accepts in ring 0. The one of the stack is only looked at on the way
to another ring. -/
def canEnter (t : Segments) (cs : Selector) (eip : Dword) (ss : Selector) : Bool :=
  (t cs).any (Segment.runs · cs eip) && (ring cs == 0 || (t ss).any (Segment.stacks · cs ss))

/-- A segment that code of the ring may read, and not with a selector for an outer one. -/
def Segment.loads (s : Segment) (r : BitVec 2) (sel : Selector) : Bool :=
  s.readable && s.present &&
    (s.code && s.conforming || decide (r ≤ s.dpl) && decide (ring sel ≤ s.dpl))

/-- The selectors that a register of a data segment takes in a ring; one of 0 to 3 is null. -/
def loadable (t : Segments) (r : BitVec 2) (sel : Selector) : Bool :=
  decide (sel.toNat < 4) || (t sel).any (Segment.loads · r sel)

/-- Only the loads of segment registers can fault. -/
def accepts (t : Segments) (c : Cpu) : Instr → Bool
  | .movToSeg _ r => loadable t 0 (low (c.reg r))
  | _ => true

/-- In ring 0; `none` is a fault. -/
def execute (t : Segments) : Cpu → List Instr → Option Cpu
  | c, [] => some c
  | c, i :: is => if accepts t c i then execute t (exec c i) is else none

def Segment.hidden (s : Segment) (r : BitVec 2) : Bool :=
  !(s.code && s.conforming) && decide (s.dpl < r)

/-- The register of a segment that is not for the ring is emptied on the way there. -/
def kept (t : Segments) (r : BitVec 2) (sel : Selector) : Selector :=
  if (t sel).any (Segment.hidden · r) then 0 else sel

/-- The stack pointer and the stack segment are only popped on the way to another ring. -/
def returns (t : Segments) (c : Cpu) : Cpu :=
  let d := { c with eip := c.stack 0, cs := low (c.stack 1), eflags := c.stack 2 }
  if ring (low (c.stack 1)) = 0 then d.drop 3
  else
    { d.setReg .esp (c.stack 3) with
      ss := low (c.stack 4)
      seg := fun s => kept t (ring (low (c.stack 1))) (c.seg s) }

/-- How `iret` ends: with an exception, in virtual 8086 mode, or in the code segment that is
popped. -/
inductive Return
  | fault
  | virtual8086
  | enters (c : Cpu)

/-- `iret` in ring 0, with the flag of nested tasks clear, as every gate leaves it. -/
def iret (t : Segments) (c : Cpu) : Return :=
  if (c.stack 2).getLsbD 17 then .virtual8086
  else if canEnter t (low (c.stack 1)) (c.stack 0) (low (c.stack 4)) then .enters (returns t c)
  else .fault

/-- Code that ends with `iret`. -/
def leave (t : Segments) (c : Cpu) (is : List Instr) : Return :=
  (execute t c is).elim .fault (iret t)

/-- Where an interrupt gate leads, and the stack of ring 0. -/
structure Gate where
  selector : Selector
  offset : Dword
  ss0 : Selector
  esp0 : Dword

/-- The stack for an interrupt, with the one of the interrupted code when that was in another
ring. -/
def onStack (c : Cpu) (g : Gate) : Cpu :=
  if ring c.cs = 0 then c
  else ({ c with ss := g.ss0 }.setReg .esp g.esp0).pushes [c.ss.setWidth 32, c.esp]

/-- An error code is only pushed for some exceptions. -/
def interrupt (c : Cpu) (g : Gate) (errorCode : Option Dword) : Cpu :=
  { (onStack c g).pushes ([c.eflags, c.cs.setWidth 32, c.eip] ++ errorCode.toList) with
    cs := g.selector
    eip := g.offset
    eflags := c.eflags &&& ~~~flagsGate }

variable {t : Segments} {c : Cpu} {is js : List Instr} {r s : Reg} {v : Dword} {n : ℕ}

@[simp] theorem reg_setReg_self (c : Cpu) (r : Reg) (v : Dword) : (c.setReg r v).reg r = v := by
  simp only [Cpu.setReg, Function.update_self]

@[simp] theorem reg_setReg (h : s ≠ r) (c : Cpu) (v : Dword) : (c.setReg r v).reg s = c.reg s := by
  simp only [Cpu.setReg, Function.update_of_ne h]

@[simp] theorem esp_push (c : Cpu) (v : Dword) : (c.push v).esp = c.esp - 4 := by
  simp only [Cpu.esp, Cpu.push, Function.update_self]

@[simp] theorem reg_push (h : r ≠ .esp) (v : Dword) : (c.push v).reg r = c.reg r := by
  simp only [Cpu.push, Function.update_of_ne h]

@[simp] theorem stack_push_zero (c : Cpu) (v : Dword) : (c.push v).stack 0 = v := by
  rw [Cpu.stack, esp_push, Nat.mul_zero, BitVec.add_zero]
  exact Function.update_self (c.esp - 4) v c.mem

theorem stack_push_succ (c : Cpu) (v : Dword) (h : n + 1 < 2 ^ 30) :
    (c.push v).stack (n + 1) = c.stack n := by
  have haddr : c.esp - 4 + BitVec.ofNat 32 (4 * (n + 1)) = c.esp + BitVec.ofNat 32 (4 * n) := by
    rw [Nat.mul_succ, BitVec.ofNat_add, ← BitVec.add_assoc, add_right_comm,
      show BitVec.ofNat 32 4 = (4 : Dword) from rfl, BitVec.sub_add_cancel]
  have hne : c.esp + BitVec.ofNat 32 (4 * n) ≠ c.esp - 4 := fun heq => by
    have hnat := congrArg BitVec.toNat heq
    simp only [BitVec.toNat_add, BitVec.toNat_sub, BitVec.toNat_ofNat,
      show (4 : Dword).toNat = 4 from rfl] at hnat
    omega
  rw [Cpu.stack, esp_push, haddr]
  exact Function.update_of_ne hne v c.mem

theorem stack_congr {d : Cpu} (hreg : d.reg = c.reg) (hmem : d.mem = c.mem) :
    d.stack = c.stack := by
  funext n
  rw [Cpu.stack, Cpu.esp, hreg, hmem]
  rfl

@[simp] theorem stack_setReg (h : r ≠ .esp) (c : Cpu) (v : Dword) :
    (c.setReg r v).stack = c.stack := by
  funext n
  rw [Cpu.stack, Cpu.esp, reg_setReg h.symm]
  rfl

theorem stack_of_esp {d : Cpu} (m : ℕ) (hesp : d.esp = c.esp + BitVec.ofNat 32 (4 * m))
    (hmem : d.mem = c.mem) (n : ℕ) : d.stack n = c.stack (m + n) := by
  have haddr : c.esp + BitVec.ofNat 32 (4 * m) + BitVec.ofNat 32 (4 * n) = c.esp + BitVec.ofNat 32
      (4 * (m + n)) := by
    rw [BitVec.add_assoc, ← BitVec.ofNat_add, Nat.mul_add]
  rw [Cpu.stack, hesp, haddr, hmem]
  rfl

theorem stack_drop (c : Cpu) (m n : ℕ) : (c.drop m).stack n = c.stack (m + n) :=
  stack_of_esp m (reg_setReg_self ..) rfl n

def Instr.plain : Instr → Bool
  | .movToSeg _ _ => false
  | _ => true

theorem accepts_of_plain {i : Instr} (h : i.plain = true) (t : Segments) (c : Cpu) :
    accepts t c i = true := by
  cases i with
  | movToSeg s r => cases h
  | _ => rfl

theorem execute_of_plain (h : is.all Instr.plain = true) :
    execute t c is = some (execAll c is) := by
  induction is generalizing c with
  | nil => rfl
  | cons i is ih =>
    rw [List.all_cons, Bool.and_eq_true] at h
    rw [execute, if_pos (accepts_of_plain h.1 t c), ih h.2]
    rfl

theorem execute_append :
    execute t c (is ++ js) = (execute t c is).bind (execute t · js) := by
  induction is generalizing c with
  | nil => rfl
  | cons i is ih =>
    rw [List.cons_append, execute, execute]
    split_ifs
    · exact ih
    · rfl

theorem loads_zero {s : Segment} {r : BitVec 2} {sel : Selector} (h : s.loads r sel = true) :
    s.loads 0 sel = true := by
  have hle : (0 : BitVec 2) ≤ s.dpl := BitVec.le_def.mpr (Nat.zero_le s.dpl.toNat)
  simp only [Segment.loads, Bool.and_eq_true, Bool.or_eq_true, decide_eq_true_eq] at h ⊢
  exact ⟨h.1, h.2.imp_right fun h => ⟨hle, h.2⟩⟩

theorem loadable_zero {r : BitVec 2} {sel : Selector} (h : loadable t r sel = true) :
    loadable t 0 sel = true := by
  rw [loadable, Bool.or_eq_true, Option.any_eq_true] at h ⊢
  exact h.imp_right fun ⟨s, hs, hloads⟩ => ⟨s, hs, loads_zero hloads⟩

theorem hidden_of_loads {s : Segment} {r : BitVec 2} {sel : Selector} (h : s.loads r sel = true) :
    s.hidden r = false := by
  simp only [Segment.loads, Bool.and_eq_true, Bool.or_eq_true, decide_eq_true_eq] at h
  rw [Segment.hidden]
  rcases h.2 with ⟨hcode, hconforming⟩ | ⟨hle, -⟩
  · rw [hcode, hconforming]
    rfl
  · rw [decide_eq_false (BitVec.not_lt.mpr hle), Bool.and_false]

theorem kept_of_loadable {r : BitVec 2} {sel : Selector} (hnull : sel.toNat < 4 → t sel = none)
    (h : loadable t r sel = true) : kept t r sel = sel := by
  refine if_neg fun hidden => ?_
  obtain ⟨s, hs, hhidden⟩ := (Option.any_eq_true _ _).mp hidden
  rw [loadable, Bool.or_eq_true, decide_eq_true_eq] at h
  rcases h with hlt | hany
  · rw [hnull hlt] at hs
    cases hs
  · rw [hs, Option.any_some] at hany
    rw [hidden_of_loads hany] at hhidden
    cases hhidden

theorem kept_zero (t : Segments) (sel : Selector) : kept t 0 sel = sel := by
  refine if_neg fun h => ?_
  obtain ⟨s, -, hs⟩ := (Option.any_eq_true _ _).mp h
  rw [Segment.hidden, Bool.and_eq_true, decide_eq_true_eq] at hs
  exact Nat.not_lt_zero _ (BitVec.lt_def.mp hs.2)

theorem returns_of_same (h : ring (low (c.stack 1)) = 0) : returns t c =
    { c with eip := c.stack 0, cs := low (c.stack 1), eflags := c.stack 2 }.drop 3 := if_pos h

theorem returns_of_outer (h : ring (low (c.stack 1)) ≠ 0) : returns t c =
    { { c with eip := c.stack 0, cs := low (c.stack 1), eflags := c.stack 2 }.setReg .esp
      (c.stack 3) with
      ss := low (c.stack 4)
      seg := fun s => kept t (ring (low (c.stack 1))) (c.seg s) } := if_neg h

theorem returns_frame (t : Segments) (c : Cpu) : (returns t c).eip = c.stack 0 ∧
    (returns t c).cs = low (c.stack 1) ∧ (returns t c).eflags = c.stack 2 ∧
    (∀ s, (returns t c).seg s = kept t (ring (low (c.stack 1))) (c.seg s)) ∧
    ∀ r, r ≠ .esp → (returns t c).reg r = c.reg r := by
  by_cases h : ring (low (c.stack 1)) = 0
  · rw [returns_of_same h, h]
    exact ⟨rfl, rfl, rfl, fun s => (kept_zero t (c.seg s)).symm, fun r hr => reg_setReg hr ..⟩
  · rw [returns_of_outer h]
    exact ⟨rfl, rfl, rfl, fun _ => rfl, fun r hr => reg_setReg hr ..⟩

theorem esp_returns_same (h : ring (low (c.stack 1)) = 0) :
    (returns t c).esp = c.esp + 12 ∧ (returns t c).ss = c.ss := by
  rw [returns_of_same h]
  refine ⟨?_, rfl⟩
  simp only [Cpu.esp, Cpu.drop, reg_setReg_self]
  rfl

theorem esp_returns_outer (h : ring (low (c.stack 1)) ≠ 0) :
    (returns t c).esp = c.stack 3 ∧ (returns t c).ss = low (c.stack 4) := by
  rw [returns_of_outer h]
  exact ⟨by simp only [Cpu.esp, Cpu.setReg, Function.update_self], rfl⟩

/-- What is on top of the stack, the top first. -/
def Cpu.Tops (c : Cpu) (vs : List Dword) : Prop := ∀ i v, vs[i]? = some v → c.stack i = v

theorem tops_nil (c : Cpu) : c.Tops [] := fun _ _ h => nomatch h

theorem Cpu.Tops.push {vs : List Dword} (h : c.Tops vs) (v : Dword)
    (hlen : vs.length < 2 ^ 30 - 1) :
    (c.push v).Tops (v :: vs) := by
  intro i w hi
  cases i with
  | zero =>
    obtain rfl : v = w := by simpa using hi
    exact stack_push_zero c v
  | succ i =>
    rw [List.getElem?_cons_succ] at hi
    obtain ⟨hlt, -⟩ := List.getElem?_eq_some_iff.mp hi
    rw [stack_push_succ c v (by omega)]
    exact h i w hi

theorem Cpu.Tops.pushes {vs : List Dword} (h : c.Tops vs) (ws : List Dword)
    (hlen : vs.length + ws.length < 2 ^ 30) : (c.pushes ws).Tops (ws.reverse ++ vs) := by
  induction ws generalizing c vs with
  | nil => exact h
  | cons w ws ih =>
    rw [List.length_cons] at hlen
    have hrest := ih (h.push w (by omega)) (by rw [List.length_cons]; omega)
    rw [List.reverse_cons, List.append_assoc]
    exact hrest

theorem pushes_frame (c : Cpu) (ws : List Dword) :
    (c.pushes ws).seg = c.seg ∧ (c.pushes ws).cs = c.cs ∧
    (c.pushes ws).ss = c.ss ∧ ∀ r, r ≠ .esp → (c.pushes ws).reg r = c.reg r := by
  induction ws generalizing c with
  | nil => exact ⟨rfl, rfl, rfl, fun _ _ => rfl⟩
  | cons w ws ih =>
    obtain ⟨hseg, hcs, hss, hreg⟩ := ih (c.push w)
    exact ⟨hseg, hcs, hss, fun r hr => (hreg r hr).trans (reg_push hr w)⟩

theorem esp_pushes (c : Cpu) (ws : List Dword) :
    (c.pushes ws).esp = c.esp - BitVec.ofNat 32 (4 * ws.length) := by
  induction ws generalizing c with
  | nil => exact (BitVec.sub_zero c.esp).symm
  | cons w ws ih =>
    have hrest := ih (c.push w)
    rw [esp_push] at hrest
    rw [List.length_cons, Nat.mul_succ, Nat.add_comm, BitVec.ofNat_add, ← BitVec.sub_sub]
    exact hrest

theorem Cpu.Tops.pushAll {vs : List Dword} (h : c.Tops vs) (hlen : vs.length + 8 < 2 ^ 30) :
    (pushAll c).Tops (c.reg .edi :: c.reg .esi :: c.reg .ebp :: c.reg .esp ::
      c.reg .ebx :: c.reg .edx ::
      c.reg .ecx :: c.reg .eax :: vs) :=
  h.pushes (pushaOrder.map c.reg) hlen

/-- A subroutine: it comes back with `ret`, whatever it does. -/
structure Callee where
  run : Cpu → Cpu
  esp : ∀ c, (run c).esp = c.esp + 4
  ss : ∀ c, (run c).ss = c.ss

def call (c : Cpu) (f : Callee) (ret : Dword) : Cpu := f.run (c.push ret)

theorem esp_call (c : Cpu) (f : Callee) (ret : Dword) : (call c f ret).esp = c.esp := by
  rw [call, f.esp, esp_push, BitVec.sub_add_cancel]

def Callee.ret : Callee where
  run c := c.drop 1
  esp _ := reg_setReg_self ..
  ss _ := rfl

theorem stack_call_ret (c : Cpu) (ret : Dword) (h : n + 1 < 2 ^ 30) :
    (call c .ret ret).stack n = c.stack n := by
  rw [← stack_push_succ c ret h, Nat.add_comm]
  exact stack_drop (c.push ret) 1 n

theorem ss_call (c : Cpu) (f : Callee) (ret : Dword) : (call c f ret).ss = c.ss := f.ss (c.push ret)

end Unos.X86
