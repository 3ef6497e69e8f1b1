import Mathlib.Data.BitVec
import Mathlib.Logic.Function.Basic
import Mathlib.Tactic.Common
import Unos.Library.Turns

namespace Unos.Lc3

open Unos.Turns

abbrev Word := BitVec 16

def vmAddrMax : ℕ := 65535

def vmAddrInitial : Word := 0x3000

def vmSignBit : Word := 1#16 <<< 15

def vmStatusBit : Word := 1#16 <<< 15

inductive VmOpcode
  | add | and | br | jmp | jsr | ld | ldi | ldr | lea | not | rti | st | sti | str | trap | reserved
  deriving DecidableEq, Repr

def vmAddrKbsr : Word := 0xFE00

def vmAddrKbdr : Word := 0xFE02

def vmAddrDsr : Word := 0xFE04

def vmAddrDdr : Word := 0xFE06

def vmAddrMcr : Word := 0xFFFE

inductive VmReg
  | r (n : BitVec 3)
  | pc
  | psr
  deriving DecidableEq, Repr

def vmFlagNegative : Word := 0b100

def vmFlagZero : Word := 0b010

def vmFlagPositive : Word := 0b001

/-- `struct vm_impl` with the standard streams: what `getchar` has not returned yet, what `select`
is going to answer, and what was written. `mem` has 65535 cells, one for each address but the last;
an access behind it, and a failed assertion, are `none`. -/
structure Vm where
  mem : Fin vmAddrMax → Word
  reg : VmReg → Word
  stdin : List (BitVec 8)
  ready : ℕ → Bool
  stdout : List (BitVec 8)

inductive VmLoadResult
  | success
  | inputNotFound
  | inputTooLarge
  deriving DecidableEq, Repr

inductive VmRunResult
  | success
  | unimplementedOpcode
  deriving DecidableEq, Repr

def swap16 (val : Word) : Word := (val <<< 8) ||| (val >>> 8)

def sextend (val : Word) (n : ℕ) : Word :=
  let m := 1#16 <<< (n - 1)
  let val := val &&& (1#16 <<< n - 1#16)
  (val ^^^ m) - m

/-- The registers, which are numbered in this order. -/
def regFile (r : BitVec 3 → Word) (pc psr : Word) : VmReg → Word
  | .r n => r n
  | .pc => pc
  | .psr => psr

theorem vmAddrMcr_lt : vmAddrMcr.toNat < vmAddrMax := by decide

/-- The memory is zeroed by `calloc`. -/
def vmCreate (stdin : List (BitVec 8)) (ready : ℕ → Bool) : Vm where
  mem := Function.update (fun _ => 0) ⟨vmAddrMcr.toNat, vmAddrMcr_lt⟩ vmStatusBit
  reg := regFile (fun _ => 0) vmAddrInitial vmFlagZero
  stdin := stdin
  ready := ready
  stdout := []

def Vm.setReg (vm : Vm) (r : VmReg) (val : Word) : Vm :=
  { vm with reg := Function.update vm.reg r val }

def Vm.select (vm : Vm) : Vm := { vm with ready := fun n => vm.ready (n + 1) }

/-- What `getchar` returns and what it leaves. `EOF` is -1. -/
def takeChar : List (BitVec 8) → Word × List (BitVec 8)
  | [] => (0xFFFF, [])
  | c :: cs => (c.setWidth 16, cs)

def Vm.getchar (vm : Vm) : Word × Vm :=
  ((takeChar vm.stdin).1, { vm with stdin := (takeChar vm.stdin).2 })

def vmRead (vm : Vm) (addr : Word) : Option (Word × Vm) :=
  if addr = vmAddrKbsr then some (if vm.ready 0 then vmStatusBit else 0, vm.select)
  else if addr = vmAddrKbdr then
    if vm.ready 0 then some vm.select.getchar else some (0, vm.select)
  else if addr = vmAddrDsr then some (vmStatusBit, vm)
  else if addr = vmAddrDdr then some (0, vm)
  else if h : addr.toNat < vmAddrMax then some (vm.mem ⟨addr.toNat, h⟩, vm)
  else none

/-- `putchar` writes the low byte. -/
def vmWrite (vm : Vm) (addr val : Word) : Option Vm :=
  if addr = vmAddrKbsr ∨ addr = vmAddrKbdr ∨ addr = vmAddrDsr then some vm
  else if addr = vmAddrDdr then some { vm with stdout := vm.stdout ++ [val.setWidth 8] }
  else if h : addr.toNat < vmAddrMax then
    some { vm with mem := Function.update vm.mem ⟨addr.toNat, h⟩ val }
  else none

def hostWord (b0 b1 : BitVec 8) : Word := b1 ++ b0

/-- The loop of `vm_load_data`: `source` from the first byte that is not read. -/
def loadLoop (mem : Fin vmAddrMax → Word) (dest : ℕ) :
    List (BitVec 8) → Option (Fin vmAddrMax → Word)
  | b0 :: b1 :: source =>
    if h : dest < vmAddrMax then
      loadLoop (Function.update mem ⟨dest, h⟩ (swap16 (hostWord b0 b1))) (dest + 1) source
    else none
  | _ => some mem

def vmLoadData (vm : Vm) (data : List (BitVec 8)) : Option (VmLoadResult × Vm) :=
  match data with
  | b0 :: b1 :: source =>
    let loadAddr := swap16 (hostWord b0 b1)
    let loadLength := source.length / 2
    if loadAddr.toNat + loadLength < vmAddrMax then
      if vmAddrMax ≤ loadAddr.toNat + loadLength then some (.inputTooLarge, vm)
      else
        (loadLoop vm.mem loadAddr.toNat source).map fun mem =>
          (.success, { vm with mem := mem }.setReg .pc loadAddr)
    else none
  | _ => none

def vmSignFlag (val : Word) : Word :=
  if val = 0 then vmFlagZero
  else if val &&& vmSignBit ≠ 0 then vmFlagNegative
  else vmFlagPositive

def vmSetcc (vm : Vm) (r : VmReg) : Vm := vm.setReg .psr (vmSignFlag (vm.reg r))

def vmOpcode (instr : Word) : VmOpcode :=
  match (instr >>> 12).toNat with
  | 0b0001 => .add
  | 0b0101 => .and
  | 0b0000 => .br
  | 0b1100 => .jmp
  | 0b0100 => .jsr
  | 0b0010 => .ld
  | 0b1010 => .ldi
  | 0b0110 => .ldr
  | 0b1110 => .lea
  | 0b1001 => .not
  | 0b1000 => .rti
  | 0b0011 => .st
  | 0b1011 => .sti
  | 0b0111 => .str
  | 0b1111 => .trap
  | _ => .reserved

/-- `(instr >> k) & 0b111` as the number of a register. -/
def regField (instr : Word) (k : ℕ) : VmReg := .r (((instr >>> k) &&& 0b111#16).setWidth 3)

def vmPerform (vm : Vm) (instr : Word) : Option (VmRunResult × Vm) :=
  match vmOpcode instr with
  | .add =>
    let dr := regField instr 9
    let sr1 := regField instr 6
    let vm :=
      if instr &&& (1#16 <<< 5) ≠ 0 then vm.setReg dr (vm.reg sr1 + sextend instr 5)
      else vm.setReg dr (vm.reg sr1 + vm.reg (regField instr 0))
    some (.success, vmSetcc vm dr)
  | .and =>
    let dr := regField instr 9
    let sr1 := regField instr 6
    let vm :=
      if instr &&& (1#16 <<< 5) ≠ 0 then vm.setReg dr (vm.reg sr1 &&& sextend instr 5)
      else vm.setReg dr (vm.reg sr1 &&& vm.reg (regField instr 0))
    some (.success, vmSetcc vm dr)
  | .br =>
    let currentNzp := vm.reg .psr &&& 0b111#16
    let desiredNzp := (instr >>> 9) &&& 0b111#16
    if currentNzp &&& desiredNzp ≠ 0 then
      some (.success, vm.setReg .pc (vm.reg .pc + sextend instr 9))
    else some (.success, vm)
  | .jmp => some (.success, vm.setReg .pc (vm.reg (regField instr 6)))
  | .jsr =>
    let originalPc := vm.reg .pc
    let vm :=
      if instr &&& (1#16 <<< 11) ≠ 0 then vm.setReg .pc (vm.reg .pc + sextend instr 11)
      else vm.setReg .pc (vm.reg (regField instr 6))
    some (.success, vm.setReg (.r 7) originalPc)
  | .ld =>
    let dr := regField instr 9
    (vmRead vm (vm.reg .pc + sextend instr 9)).map fun (val, vm) =>
      (.success, vmSetcc (vm.setReg dr val) dr)
  | .ldi =>
    let dr := regField instr 9
    (vmRead vm (vm.reg .pc + sextend instr 9)).bind fun (addr, vm) =>
      (vmRead vm addr).map fun (val, vm) => (.success, vmSetcc (vm.setReg dr val) dr)
  | .ldr =>
    let dr := regField instr 9
    (vmRead vm (vm.reg (regField instr 6) + sextend instr 6)).map fun (val, vm) =>
      (.success, vmSetcc (vm.setReg dr val) dr)
  | .lea =>
    let dr := regField instr 9
    some (.success, vmSetcc (vm.setReg dr (vm.reg .pc + sextend instr 9)) dr)
  | .not =>
    let dr := regField instr 9
    some (.success, vmSetcc (vm.setReg dr (~~~ vm.reg (regField instr 6))) dr)
  | .rti => some (.unimplementedOpcode, vm)
  | .st =>
    (vmWrite vm (vm.reg .pc + sextend instr 9) (vm.reg (regField instr 9))).map fun vm =>
      (.success, vm)
  | .sti =>
    (vmRead vm (vm.reg .pc + sextend instr 9)).bind fun (addr, vm) =>
      (vmWrite vm addr (vm.reg (regField instr 9))).map fun vm => (.success, vm)
  | .str =>
    (vmWrite vm (vm.reg (regField instr 6) + sextend instr 6) (vm.reg (regField instr 9))).map
      fun vm => (.success, vm)
  | .trap =>
    let trapvect8 := instr &&& 0xFF#16
    if trapvect8 = 0x20 then
      some (.success, vm.getchar.2.setReg (.r 0) vm.getchar.1)
    else
      let vm := vm.setReg (.r 7) (vm.reg .pc)
      (vmRead vm trapvect8).map fun (val, vm) => (.success, vm.setReg .pc val)
  | .reserved => some (.unimplementedOpcode, vm)

/-- One turn of the loop in `vm_run`. -/
def vmTurn (vm : Vm) : Turn VmRunResult Vm :=
  match vmRead vm vmAddrMcr with
  | none => .fault
  | some (mcr, vm) =>
    if mcr &&& vmStatusBit ≠ 0 then
      let pc := vm.reg .pc
      let vm := vm.setReg .pc (pc + 1)
      match (vmRead vm pc).bind fun (instr, vm) => vmPerform vm instr with
      | none => .fault
      | some (.success, vm) => .goOn vm
      | some (.unimplementedOpcode, vm) => .stop .unimplementedOpcode vm
    else .stop .success vm

/-- `vm_run` with at most `n` turns; `goOn` if it has not returned then. -/
def vmRun (n : ℕ) (vm : Vm) : Turn VmRunResult Vm := runTurns vmTurn n vm

end Unos.Lc3
