import Mathlib.Data.Fin.Tuple.Basic
import Mathlib.Data.BitVec
import Mathlib.Logic.Function.Basic
import Mathlib.Order.Fin.Basic
import Mathlib.Tactic.Common

namespace Unos.Pic8259

abbrev Line := Fin 8

instance neZero_eight : NeZero 8 := ⟨by decide⟩

inductive Stage
  | icw2
  | icw3
  | icw4
  | ready
  deriving DecidableEq, Repr

/-- Requested lines, lines in service, masked lines; then what the initialization has set. Rotation,
polling and the special modes are left out. -/
structure Chip where
  irr : Line → Bool
  isr : Line → Bool
  imr : BitVec 8
  stage : Stage
  single : Bool
  needs4 : Bool
  base : BitVec 8
  cascade : BitVec 8
  mode : BitVec 8

def noLine : Line → Bool := fun _ => false

namespace Chip

def raise (c : Chip) (k : Line) : Chip := { c with irr := Function.update c.irr k true }

/-- The end of the interrupt in service that goes first. -/
def eoi (c : Chip) : Chip :=
  match Fin.find? c.isr with
  | none => c
  | some k => { c with isr := Function.update c.isr k false }

def command (c : Chip) (d : BitVec 8) : Option Chip :=
  if d.getLsbD 4 then
    if d.getLsbD 3 then none
    else
      some { c with
        irr := noLine, isr := noLine, imr := 0, stage := .icw2
        single := d.getLsbD 1, needs4 := d.getLsbD 0, mode := 0 }
  else if d = 0x20 then some c.eoi
  else none

def data (c : Chip) (d : BitVec 8) : Chip :=
  match c.stage with
  | .icw2 =>
    { c with base := d, stage := if c.single then if c.needs4 then .icw4 else .ready else .icw3 }
  | .icw3 => { c with cascade := d, stage := if c.needs4 then .icw4 else .ready }
  | .icw4 => { c with mode := d, stage := .ready }
  | .ready => { c with imr := d }

/-- A line that is requested and not masked. -/
def wants (c : Chip) (k : Line) : Bool := c.irr k && !c.imr.getLsbD k

def Open (c : Chip) (k : Line) : Prop := ∀ j ≤ k, c.isr j = false

instance (c : Chip) (k : Line) : Decidable (c.Open k) := inferInstanceAs (Decidable (∀ _, _))

/-- The request that the controller passes on. -/
def int (c : Chip) : Option Line :=
  if c.stage = .ready then (Fin.find? c.wants).filter fun k => c.Open k else none

/-- A request is acknowledged. It is not in service when its end is automatic. -/
def take (c : Chip) (k : Line) : Chip :=
  { c with
    irr := Function.update c.irr k false
    isr := Function.update c.isr k (!c.mode.getLsbD 1) }

def vector (c : Chip) (k : Line) : Option (BitVec 8) :=
  if c.mode.getLsbD 0 then some ((c.base &&& 0xF8) ||| BitVec.ofNat 8 k) else none

def isCascade (c : Chip) (k : Line) : Bool := !c.single && c.cascade.getLsbD k

def quiet (c : Chip) : Chip := { c with irr := noLine }

def Idle (c : Chip) : Prop := c.isr = noLine

end Chip

variable {c c' : Chip} {d : BitVec 8} {k j : Line}

theorem eoi_of_idle (h : c.Idle) : c.eoi = c := by
  have hnone : Fin.find? c.isr = none := by
    rw [h]
    exact Fin.find?_eq_none_iff.mpr fun _ => rfl
  rw [Chip.eoi, hnone]

theorem eoi_irr (c : Chip) : c.eoi.irr = c.irr := by
  rw [Chip.eoi]
  split <;> rfl

theorem eoi_of_single {b : Bool} (h : c.isr = Function.update noLine k b) :
    c.eoi = { c with isr := noLine } := by
  have hupdate : Function.update (Function.update noLine k b) k false = noLine := by
    rw [Function.update_idem, Function.update_eq_self_iff]
    rfl
  cases b with
  | false =>
    have hidle : c.isr = noLine := h.trans (Function.update_eq_self_iff.mpr rfl)
    rw [eoi_of_idle hidle, ← hidle]
  | true =>
    have hfirst : Fin.find? c.isr = some k := by
      rw [h, Fin.find?_eq_some_iff]
      exact ⟨Function.update_self k true noLine,
        fun j hj => Function.update_of_ne hj.ne true noLine⟩
    rw [Chip.eoi, hfirst]
    dsimp only
    rw [h, hupdate]

theorem quiet_data (c : Chip) (d : BitVec 8) : (c.data d).quiet = c.quiet.data d := by
  rw [Chip.data, Chip.data, show c.quiet.stage = c.stage from rfl]
  cases c.stage <;> rfl

theorem quiet_eoi (c : Chip) : c.eoi.quiet = c.quiet.eoi := by
  rw [Chip.eoi, Chip.eoi, show c.quiet.isr = c.isr from rfl]
  cases Fin.find? c.isr <;> rfl

theorem quiet_command (c : Chip) (d : BitVec 8) :
    (c.command d).map Chip.quiet = (c.quiet.command d).map Chip.quiet := by
  rw [Chip.command, Chip.command]
  by_cases h4 : d.getLsbD 4 = true
  · by_cases h3 : d.getLsbD 3 = true
    · rw [if_pos h4, if_pos h4, if_pos h3, if_pos h3]
    · rw [if_pos h4, if_pos h4, if_neg h3, if_neg h3]
      rfl
  · rw [if_neg h4, if_neg h4]
    by_cases hd : d = 0x20
    · rw [if_pos hd, if_pos hd, Option.map_some, Option.map_some, quiet_eoi, quiet_eoi]
      rfl
    · rw [if_neg hd, if_neg hd]

theorem wants_eq_true : c.wants k = true ↔ c.irr k = true ∧ c.imr.getLsbD k = false := by
  rw [Chip.wants, Bool.and_eq_true, Bool.not_eq_true']

theorem open_of_idle (h : c.Idle) (k : Line) : c.Open k := fun j _ => congrFun h j

theorem int_of_idle (hready : c.stage = .ready) (h : c.Idle) : c.int = Fin.find? c.wants := by
  rw [Chip.int, if_pos hready]
  cases Fin.find? c.wants with
  | none => rfl
  | some k => exact Option.filter_some_pos (decide_eq_true (open_of_idle h k))

structure Pair where
  master : Chip
  slave : Chip

namespace Pair

/-- The first controller with its lines as they are: some of them are the output of the second
one. -/
def front (p : Pair) : Chip :=
  { p.master with
    irr := fun k => if p.master.isCascade k then p.slave.int.isSome else p.master.irr k }

/-- The second controller answers on its line. -/
def answers (p : Pair) (k : Line) : Bool :=
  !p.slave.single && p.slave.cascade.extractLsb' 0 3 = BitVec.ofNat 3 k

/-- What is taken on a line, with the vector that the processor is given. -/
def serve (p : Pair) (k : Line) : Option (BitVec 8 × Pair) :=
  if p.master.isCascade k then
    if p.answers k then
      p.slave.int.bind fun j => (p.slave.vector j).map fun v =>
        (v, ⟨p.master.take k, p.slave.take j⟩)
    else none
  else (p.master.vector k).map fun v => (v, { p with master := p.master.take k })

def inta (p : Pair) : Option (BitVec 8 × Pair) := p.front.int.bind p.serve

/-- The processor acknowledges a request on a line that has gone away. The last vector is given, and
only the first controller takes something that has come from the second one. -/
def noise (p : Pair) (k : Line) : Option (BitVec 8 × Pair) :=
  if p.master.imr.getLsbD k = false ∧ p.master.Open k then
    if p.master.isCascade k then
      if p.answers k then (p.slave.vector 7).map fun v => (v, { p with master := p.master.take k })
      else none
    else (p.master.vector 7).map fun v => (v, p)
  else none

def raise (p : Pair) (onSlave : Bool) (k : Line) : Pair :=
  if onSlave then { p with slave := p.slave.raise k } else { p with master := p.master.raise k }

def quiet (p : Pair) : Pair := ⟨p.master.quiet, p.slave.quiet⟩

def Idle (p : Pair) : Prop := p.master.Idle ∧ p.slave.Idle

end Pair

theorem pair_quiet_raise (p : Pair) (onSlave : Bool) (k : Line) :
    (p.raise onSlave k).quiet = p.quiet := by
  cases onSlave <;> rfl

theorem idle_quiet {p : Pair} : p.quiet.Idle ↔ p.Idle := Iff.rfl

end Unos.Pic8259
