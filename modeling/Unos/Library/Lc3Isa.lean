import Mathlib.Data.BitVec
import Mathlib.Logic.Function.Basic
import Unos.Library.Turns

namespace Unos.Lc3Isa

open Unos.Turns

abbrev Word := BitVec 16

abbrev Reg := BitVec 3

/-- The condition that the last value left. -/
inductive Sign
  | negative
  | zero
  | positive
  deriving DecidableEq, Repr

def Sign.of (v : Word) : Sign := if v = 0 then .zero else if v.msb then .negative else .positive

inductive Operand
  | reg (r : Reg)
  | imm (v : BitVec 5)
  deriving DecidableEq, Repr

inductive Instr
  | add (dr sr : Reg) (op : Operand)
  | and (dr sr : Reg) (op : Operand)
  | not (dr sr : Reg)
  | br (nzp : BitVec 3) (offset : BitVec 9)
  | jmp (base : Reg)
  | jsr (offset : BitVec 11)
  | jsrr (base : Reg)
  | ld (dr : Reg) (offset : BitVec 9)
  | ldi (dr : Reg) (offset : BitVec 9)
  | ldr (dr base : Reg) (offset : BitVec 6)
  | lea (dr : Reg) (offset : BitVec 9)
  | st (sr : Reg) (offset : BitVec 9)
  | sti (sr : Reg) (offset : BitVec 9)
  | str (sr base : Reg) (offset : BitVec 6)
  | trap (vector : BitVec 8)
  | rti
  | reserved
  deriving DecidableEq, Repr

def word (op : BitVec 4) (rest : BitVec 12) : Word := op ++ rest

def Operand.encode : Operand → BitVec 6
  | .reg r => 0#3 ++ r
  | .imm v => 1#1 ++ v

def Instr.encode : Instr → Word
  | .add dr sr op => word 0b0001#4 (dr ++ (sr ++ op.encode))
  | .and dr sr op => word 0b0101#4 (dr ++ (sr ++ op.encode))
  | .not dr sr => word 0b1001#4 (dr ++ (sr ++ 0b111111#6))
  | .br nzp offset => word 0b0000#4 (nzp ++ offset)
  | .jmp base => word 0b1100#4 (0#3 ++ (base ++ 0#6))
  | .jsr offset => word 0b0100#4 (1#1 ++ offset)
  | .jsrr base => word 0b0100#4 (0#3 ++ (base ++ 0#6))
  | .ld dr offset => word 0b0010#4 (dr ++ offset)
  | .ldi dr offset => word 0b1010#4 (dr ++ offset)
  | .ldr dr base offset => word 0b0110#4 (dr ++ (base ++ offset))
  | .lea dr offset => word 0b1110#4 (dr ++ offset)
  | .st sr offset => word 0b0011#4 (sr ++ offset)
  | .sti sr offset => word 0b1011#4 (sr ++ offset)
  | .str sr base offset => word 0b0111#4 (sr ++ (base ++ offset))
  | .trap vector => word 0b1111#4 (0#4 ++ vector)
  | .rti => word 0b1000#4 0#12
  | .reserved => word 0b1101#4 0#12

def decodeOperand (w : Word) : Operand :=
  if w.getLsbD 5 then .imm (w.extractLsb' 0 5) else .reg (w.extractLsb' 0 3)

/-- The bits that no field uses are not looked at. -/
def decode (w : Word) : Instr :=
  let dr := w.extractLsb' 9 3
  let base := w.extractLsb' 6 3
  let offset9 := w.extractLsb' 0 9
  match w.extractLsb' 12 4 with
  | 0b0001#4 => .add dr base (decodeOperand w)
  | 0b0101#4 => .and dr base (decodeOperand w)
  | 0b1001#4 => .not dr base
  | 0b0000#4 => .br dr offset9
  | 0b1100#4 => .jmp base
  | 0b0100#4 => if w.getLsbD 11 then .jsr (w.extractLsb' 0 11) else .jsrr base
  | 0b0010#4 => .ld dr offset9
  | 0b1010#4 => .ldi dr offset9
  | 0b0110#4 => .ldr dr base (w.extractLsb' 0 6)
  | 0b1110#4 => .lea dr offset9
  | 0b0011#4 => .st dr offset9
  | 0b1011#4 => .sti dr offset9
  | 0b0111#4 => .str dr base (w.extractLsb' 0 6)
  | 0b1111#4 => .trap (w.extractLsb' 0 8)
  | 0b1000#4 => .rti
  | _ => .reserved

section Fields

variable {m n k i : ℕ} (a : BitVec m) (b : BitVec n) (op : BitVec 4) (rest : BitVec 12) (r : Reg)

theorem extractLsb'_append_low (h : i + k ≤ n) :
    (a ++ b).extractLsb' i k = b.extractLsb' i k := by
  ext j hj
  simp only [BitVec.getElem_extractLsb', BitVec.getLsbD_append]
  rw [if_pos (by omega)]

theorem extractLsb'_append_high (h : n ≤ i) :
    (a ++ b).extractLsb' i k = a.extractLsb' (i - n) k := by
  ext j hj
  simp only [BitVec.getElem_extractLsb', BitVec.getLsbD_append]
  rw [if_neg (by omega)]
  congr 1
  omega

@[simp] theorem opcode_word : (word op rest).extractLsb' 12 4 = op := by
  rw [word, extractLsb'_append_high op rest (le_refl 12)]
  exact BitVec.extractLsb'_eq_self

theorem field_word (h : i + k ≤ 12) : (word op rest).extractLsb' i k = rest.extractLsb' i k :=
  extractLsb'_append_low op rest h

theorem bit_word (h : i < 12) : (word op rest).getLsbD i = rest.getLsbD i := by
  rw [word, BitVec.getLsbD_append, if_pos h]

@[simp] theorem dr_word (c : BitVec 9) : (word op (r ++ c)).extractLsb' 9 3 = r := by
  rw [field_word op _ (by decide), extractLsb'_append_high r c (le_refl 9)]
  exact BitVec.extractLsb'_eq_self

@[simp] theorem dr_word_base (r' : Reg) (c : BitVec 6) :
    (word op (r ++ (r' ++ c))).extractLsb' 9 3 = r := dr_word op r (r' ++ c)

@[simp] theorem offset9_word (c : BitVec 9) : (word op (r ++ c)).extractLsb' 0 9 = c := by
  rw [field_word op _ (by decide), extractLsb'_append_low r c (le_refl 9)]
  exact BitVec.extractLsb'_eq_self

@[simp] theorem base_word (r' : Reg) (c : BitVec 6) :
    (word op (r ++ (r' ++ c))).extractLsb' 6 3 = r' := by
  rw [field_word op _ (by decide), extractLsb'_append_low r (r' ++ c) (by decide),
    extractLsb'_append_high r' c (le_refl 6)]
  exact BitVec.extractLsb'_eq_self

@[simp] theorem offset6_word (r' : Reg) (c : BitVec 6) :
    (word op (r ++ (r' ++ c))).extractLsb' 0 6 = c := by
  rw [field_word op _ (by decide), extractLsb'_append_low r (r' ++ c) (by decide),
    extractLsb'_append_low r' c (le_refl 6)]
  exact BitVec.extractLsb'_eq_self

@[simp] theorem decodeOperand_word (r' : Reg) (o : Operand) :
    decodeOperand (word op (r ++ (r' ++ o.encode))) = o := by
  have hbit : (word op (r ++ (r' ++ o.encode))).getLsbD 5 = o.encode.getLsbD 5 := by
    rw [bit_word op _ (by decide), BitVec.getLsbD_append, if_pos (by decide), BitVec.getLsbD_append,
      if_pos (by decide)]
  have hfield : ∀ k ≤ 6, (word op (r ++ (r' ++ o.encode))).extractLsb' 0 k =
      o.encode.extractLsb' 0 k := by
    intro k hk
    rw [field_word op _ (by omega), extractLsb'_append_low r (r' ++ o.encode) (by omega),
      extractLsb'_append_low r' o.encode (by omega)]
  rw [decodeOperand, hbit, hfield 5 (by decide), hfield 3 (by decide)]
  cases o with
  | reg r'' =>
    have hzero : (Operand.reg r'').encode.getLsbD 5 = false := by
      rw [Operand.encode, BitVec.getLsbD_append, if_neg (by decide)]
      rfl
    rw [hzero, if_neg Bool.false_ne_true, Operand.encode,
      extractLsb'_append_low 0#3 r'' (le_refl 3)]
    exact congrArg Operand.reg BitVec.extractLsb'_eq_self
  | imm v =>
    have hone : (Operand.imm v).encode.getLsbD 5 = true := by
      rw [Operand.encode, BitVec.getLsbD_append, if_neg (by decide)]
      rfl
    rw [hone, if_pos rfl, Operand.encode, extractLsb'_append_low 1#1 v (le_refl 5)]
    exact congrArg Operand.imm BitVec.extractLsb'_eq_self

end Fields

theorem decode_encode (i : Instr) : decode i.encode = i := by
  cases i with
  | jsr offset =>
    have hbit : (word 0b0100#4 (1#1 ++ offset)).getLsbD 11 = true := by
      rw [bit_word _ _ (by decide), BitVec.getLsbD_append, if_neg (by decide)]
      rfl
    have hfield : (word 0b0100#4 (1#1 ++ offset)).extractLsb' 0 11 = offset := by
      rw [field_word _ _ (by decide), extractLsb'_append_low 1#1 offset (le_refl 11)]
      exact BitVec.extractLsb'_eq_self
    simp only [Instr.encode, decode, opcode_word, hbit, hfield, if_true]
  | jsrr base =>
    have hbit : (word 0b0100#4 (0#3 ++ (base ++ 0#6))).getLsbD 11 = false := by
      rw [bit_word _ _ (by decide), BitVec.getLsbD_append, if_neg (by decide)]
      rfl
    simp only [Instr.encode, decode, opcode_word, hbit, base_word, Bool.false_eq_true, if_false]
  | trap vector =>
    have hfield : (word 0b1111#4 (0#4 ++ vector)).extractLsb' 0 8 = vector := by
      rw [field_word _ _ (by decide), extractLsb'_append_low 0#4 vector (le_refl 8)]
      exact BitVec.extractLsb'_eq_self
    simp only [Instr.encode, decode, opcode_word, hfield]
  | reserved => decide
  | _ => simp only [Instr.encode, decode, opcode_word, dr_word, dr_word_base,
      offset9_word, base_word, offset6_word, decodeOperand_word]

/-- What a processor reads and writes at an address, and the next character of the console. -/
structure Bus (B : Type*) where
  read : B → Word → Option (Word × B)
  write : B → Word → Word → Option B
  getc : B → Word × B

structure Cpu (B : Type*) where
  regs : Reg → Word
  pc : Word
  sign : Sign
  bus : B

variable {B B' : Type*}

/-- A register is given a value that the conditions speak of. -/
def Cpu.set (c : Cpu B) (dr : Reg) (v : Word) : Cpu B :=
  { c with regs := Function.update c.regs dr v, sign := Sign.of v }

def Operand.value (regs : Reg → Word) : Operand → Word
  | .reg r => regs r
  | .imm v => v.signExtend 16

/-- The condition is one of those that the branch names. -/
def Sign.isIn (nzp : BitVec 3) : Sign → Bool
  | .negative => nzp.getLsbD 2
  | .zero => nzp.getLsbD 1
  | .positive => nzp.getLsbD 0

def Instr.legal : Instr → Bool
  | .rti => false
  | .reserved => false
  | _ => true

def Cpu.load (bus : Bus B) (c : Cpu B) (dr : Reg) (addr : Word) : Option (Cpu B) :=
  (bus.read c.bus addr).map fun (v, b) => { c with bus := b }.set dr v

def Cpu.store (bus : Bus B) (c : Cpu B) (addr v : Word) : Option (Cpu B) :=
  (bus.write c.bus addr v).map fun b => { c with bus := b }

/-- `pc` is the address behind the instruction. An instruction that is not legal is not executed. -/
def exec (bus : Bus B) (c : Cpu B) : Instr → Option (Cpu B)
  | .add dr sr op => some (c.set dr (c.regs sr + op.value c.regs))
  | .and dr sr op => some (c.set dr (c.regs sr &&& op.value c.regs))
  | .not dr sr => some (c.set dr (~~~ c.regs sr))
  | .br nzp offset =>
    some (if c.sign.isIn nzp then { c with pc := c.pc + offset.signExtend 16 } else c)
  | .jmp base => some { c with pc := c.regs base }
  | .jsr offset =>
    some { c with pc := c.pc + offset.signExtend 16, regs := Function.update c.regs 7 c.pc }
  | .jsrr base => some { c with pc := c.regs base, regs := Function.update c.regs 7 c.pc }
  | .ld dr offset => c.load bus dr (c.pc + offset.signExtend 16)
  | .ldi dr offset =>
    (bus.read c.bus (c.pc + offset.signExtend 16)).bind fun (a, b) =>
      { c with bus := b }.load bus dr a
  | .ldr dr base offset => c.load bus dr (c.regs base + offset.signExtend 16)
  | .lea dr offset => some (c.set dr (c.pc + offset.signExtend 16))
  | .st sr offset => c.store bus (c.pc + offset.signExtend 16) (c.regs sr)
  | .sti sr offset =>
    (bus.read c.bus (c.pc + offset.signExtend 16)).bind fun (a, b) =>
      { c with bus := b }.store bus a (c.regs sr)
  | .str sr base offset => c.store bus (c.regs base + offset.signExtend 16) (c.regs sr)
  | .trap vector =>
    if vector = 0x20 then
      some { c with regs := Function.update c.regs 0 (bus.getc c.bus).1, bus := (bus.getc c.bus).2 }
    else
      (bus.read c.bus (vector.setWidth 16)).map fun (v, b) =>
        { c with pc := v, regs := Function.update c.regs 7 c.pc, bus := b }
  | .rti => some c
  | .reserved => some c

/-- Why the machine has stopped. -/
inductive Halt
  | halted
  | illegal
  deriving DecidableEq, Repr

/-- The machine control register, whose first bit is the clock. -/
def mcr : Word := 0xFFFE

/-- One turn of a machine that takes its instructions from `fetch`. -/
def turnWith (bus : Bus B) (fetch : B → Word → Option (Instr × B)) (c : Cpu B) :
    Turn Halt (Cpu B) :=
  match bus.read c.bus mcr with
  | none => .fault
  | some (clock, b) =>
    if clock.msb then
      match fetch b c.pc with
      | none => .fault
      | some (i, b) =>
        let c := { c with pc := c.pc + 1, bus := b }
        if i.legal then (exec bus c i).elim .fault .goOn else .stop .illegal c
    else .stop .halted { c with bus := b }

/-- The instructions are the words in memory. -/
def fetchWord (bus : Bus B) (b : B) (a : Word) : Option (Instr × B) :=
  (bus.read b a).map fun (w, b) => (decode w, b)

def turn (bus : Bus B) : Cpu B → Turn Halt (Cpu B) := turnWith bus (fetchWord bus)

section Buses

variable {bus : Bus B} {bus' : Bus B'} {f : B → B'}

/-- A map of the states of a bus that is not noticed from outside. -/
structure BusMap (bus : Bus B) (bus' : Bus B') (f : B → B') : Prop where
  read : ∀ b a, bus'.read (f b) a = (bus.read b a).map fun (v, b) => (v, f b)
  write : ∀ b a v, bus'.write (f b) a v = (bus.write b a v).map f
  getc : ∀ b, bus'.getc (f b) = ((bus.getc b).1, f (bus.getc b).2)

def Cpu.mapBus (f : B → B') (c : Cpu B) : Cpu B' := ⟨c.regs, c.pc, c.sign, f c.bus⟩

theorem load_map (h : BusMap bus bus' f) (c : Cpu B) (dr : Reg) (a : Word) :
    (c.mapBus f).load bus' dr a = (c.load bus dr a).map (Cpu.mapBus f) := by
  rw [Cpu.load, Cpu.load, Cpu.mapBus, h.read, Option.map_map, Option.map_map]
  rfl

theorem store_map (h : BusMap bus bus' f) (c : Cpu B) (a v : Word) :
    (c.mapBus f).store bus' a v = (c.store bus a v).map (Cpu.mapBus f) := by
  rw [Cpu.store, Cpu.store, Cpu.mapBus, h.write, Option.map_map, Option.map_map]
  rfl

theorem exec_map (h : BusMap bus bus' f) (c : Cpu B) (i : Instr) :
    exec bus' (c.mapBus f) i = (exec bus c i).map (Cpu.mapBus f) := by
  cases i with
  | br nzp offset =>
    by_cases hnzp : c.sign.isIn nzp = true
    · rw [exec, exec, if_pos hnzp, if_pos (by exact hnzp)]
      rfl
    · rw [exec, exec, if_neg hnzp, if_neg (by exact hnzp)]
      rfl
  | ld dr offset => exact load_map h c dr _
  | ldi dr offset =>
    simp only [exec, Option.map_bind]
    rw [show (c.mapBus f).bus = f c.bus from rfl, h.read, Option.bind_map]
    congr 1
    funext vb
    exact load_map h { c with bus := vb.2 } dr vb.1
  | ldr dr base offset => exact load_map h c dr _
  | st sr offset => exact store_map h c _ _
  | sti sr offset =>
    simp only [exec, Option.map_bind]
    rw [show (c.mapBus f).bus = f c.bus from rfl, h.read, Option.bind_map]
    congr 1
    funext vb
    exact store_map h { c with bus := vb.2 } vb.1 _
  | str sr base offset => exact store_map h c _ _
  | trap vector =>
    rw [exec, exec, show (c.mapBus f).bus = f c.bus from rfl]
    by_cases hgetc : vector = 0x20
    · rw [if_pos hgetc, if_pos hgetc, h.getc]
      rfl
    · rw [if_neg hgetc, if_neg hgetc, h.read, Option.map_map, Option.map_map]
      rfl
  | _ => rfl

theorem turn_map (h : BusMap bus bus' f) (c : Cpu B) :
    turn bus' (c.mapBus f) = (turn bus c).map id (Cpu.mapBus f) := by
  rw [turn, turn, turnWith, turnWith, show (c.mapBus f).bus = f c.bus from rfl, h.read]
  cases bus.read c.bus mcr with
  | none => rfl
  | some clock =>
    simp only [Option.map_some]
    by_cases hclock : clock.1.msb = true
    · rw [if_pos hclock, if_pos hclock, show (c.mapBus f).pc = c.pc from rfl, fetchWord,
        fetchWord, h.read]
      cases bus.read clock.2 c.pc with
      | none => rfl
      | some w =>
        simp only [Option.map_some]
        by_cases hlegal : (decode w.1).legal = true
        · rw [if_pos hlegal, if_pos hlegal]
          have hexec := exec_map h { c with pc := c.pc + 1, bus := w.2 } (decode w.1)
          simp only [Cpu.mapBus] at hexec ⊢
          rw [hexec]
          cases exec bus { c with pc := c.pc + 1, bus := w.2 } (decode w.1) <;> rfl
        · rw [if_neg hlegal, if_neg hlegal]
          rfl
    · rw [if_neg hclock, if_neg hclock]
      rfl

/-- The accesses to the bus keep a property of its state. -/
structure BusKeeps (bus : Bus B) (I : B → Prop) : Prop where
  read : ∀ b a v b', I b → bus.read b a = some (v, b') → I b'
  write : ∀ b a v b', I b → bus.write b a v = some b' → I b'
  getc : ∀ b, I b → I (bus.getc b).2

variable {I : B → Prop}

theorem load_keeps (h : BusKeeps bus I) {c c' : Cpu B} {dr : Reg} {a : Word} (hc : I c.bus)
    (hload : c.load bus dr a = some c') : I c'.bus := by
  obtain ⟨vb, hread, rfl⟩ := Option.map_eq_some_iff.mp hload
  exact h.read _ _ _ _ hc hread

theorem store_keeps (h : BusKeeps bus I) {c c' : Cpu B} {a v : Word} (hc : I c.bus)
    (hstore : c.store bus a v = some c') : I c'.bus := by
  obtain ⟨b, hwrite, rfl⟩ := Option.map_eq_some_iff.mp hstore
  exact h.write _ _ _ _ hc hwrite

theorem exec_keeps (h : BusKeeps bus I) {c c' : Cpu B} {i : Instr} (hc : I c.bus)
    (hexec : exec bus c i = some c') : I c'.bus := by
  cases i with
  | br nzp offset =>
    rw [exec, Option.some.injEq] at hexec
    rw [← hexec]
    split_ifs <;> exact hc
  | ld dr offset => exact load_keeps h hc hexec
  | ldi dr offset =>
    obtain ⟨vb, hread, hload⟩ := Option.bind_eq_some_iff.mp hexec
    exact load_keeps h (c := { c with bus := vb.2 }) (h.read _ _ _ _ hc hread) hload
  | ldr dr base offset => exact load_keeps h hc hexec
  | st sr offset => exact store_keeps h hc hexec
  | sti sr offset =>
    obtain ⟨vb, hread, hstore⟩ := Option.bind_eq_some_iff.mp hexec
    exact store_keeps h (c := { c with bus := vb.2 }) (h.read _ _ _ _ hc hread) hstore
  | str sr base offset => exact store_keeps h hc hexec
  | trap vector =>
    rw [exec] at hexec
    by_cases hgetc : vector = 0x20
    · rw [if_pos hgetc, Option.some.injEq] at hexec
      rw [← hexec]
      exact h.getc _ hc
    · rw [if_neg hgetc] at hexec
      obtain ⟨vb, hread, rfl⟩ := Option.map_eq_some_iff.mp hexec
      exact h.read _ _ _ _ hc hread
  | _ =>
    rw [exec, Option.some.injEq] at hexec
    rw [← hexec]
    exact hc

theorem turnWith_keeps {fetch : B → Word → Option (Instr × B)} (h : BusKeeps bus I)
    (hfetch : ∀ b a i b', I b → fetch b a = some (i, b') → I b') (c : Cpu B) (hc : I c.bus) :
    (turnWith bus fetch c).All fun c => I c.bus := by
  rw [turnWith]
  cases hclock : bus.read c.bus mcr with
  | none => trivial
  | some clock =>
    have hb := h.read _ _ _ _ hc hclock
    dsimp only
    by_cases hmsb : clock.1.msb = true
    · rw [if_pos hmsb]
      cases hi : fetch clock.2 c.pc with
      | none => trivial
      | some i =>
        have hb' := hfetch _ _ _ _ hb hi
        dsimp only
        by_cases hlegal : i.1.legal = true
        · rw [if_pos hlegal]
          cases hexec : exec bus { c with pc := c.pc + 1, bus := i.2 } i.1 with
          | none => trivial
          | some c' => exact exec_keeps h (c := { c with pc := c.pc + 1, bus := i.2 }) hb' hexec
        · rw [if_neg hlegal]
          exact hb'
    · rw [if_neg hmsb]
      exact hb

theorem turn_keeps (h : BusKeeps bus I) (c : Cpu B) (hc : I c.bus) :
    (turn bus c).All fun c => I c.bus := by
  apply turnWith_keeps h _ c hc
  intro b a i b' hb hi
  obtain ⟨vb, hread, hvb⟩ := Option.map_eq_some_iff.mp hi
  cases hvb
  exact h.read _ _ _ _ hb hread

end Buses

end Unos.Lc3Isa
