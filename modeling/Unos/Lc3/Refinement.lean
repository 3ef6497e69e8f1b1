import Unos.Library.Lc3Isa
import Unos.Lc3.Model

namespace Unos.Lc3

open Unos.Turns Unos.Lc3Isa

theorem regField_eq (w : Word) (k : ℕ) : regField w k = .r (w.extractLsb' k 3) := by
  rw [regField]
  congr 1
  ext i hi
  simp only [BitVec.getElem_setWidth, BitVec.getLsbD_and, BitVec.getLsbD_ushiftRight,
    BitVec.getElem_extractLsb']
  have hmask : (0b111#16).getLsbD i = true := by
    have hall : ∀ i < 3, (0b111#16).getLsbD i = true := by decide
    exact hall i hi
  rw [hmask, Bool.and_true]

theorem and_bit (w : Word) {k : ℕ} (hk : k < 16) :
    w &&& (1#16 <<< k) ≠ 0 ↔ w.getLsbD k = true := by
  constructor
  · intro hne
    by_contra hbit
    apply hne
    apply BitVec.eq_of_getLsbD_eq
    intro i hi
    rcases eq_or_ne i k with rfl | hik
    · simp [hbit]
    · have hone : (1#16 <<< k).getLsbD i = false := by
        rw [BitVec.getLsbD_shiftLeft, BitVec.getLsbD_one]
        simp only [Bool.and_eq_false_iff, decide_eq_false_iff_not, Bool.not_eq_false',
          decide_eq_true_eq]
        omega
      rw [BitVec.getLsbD_and, hone, Bool.and_false]
      exact BitVec.getLsbD_zero.symm
  · intro hbit hzero
    have hbits := congrArg (fun v => v.getLsbD k) hzero
    simp only [BitVec.getLsbD_and, hbit, BitVec.getLsbD_shiftLeft, BitVec.getLsbD_one] at hbits
    simp [hk] at hbits

theorem xor_two_pow {x k : ℕ} (hx : x < 2 ^ (k + 1)) :
    x ^^^ 2 ^ k = if x < 2 ^ k then x + 2 ^ k else x - 2 ^ k := by
  have hor : ∀ y < 2 ^ k, 2 ^ k + y = 2 ^ k ||| y := fun y hy => by
    have hadd := Nat.two_pow_add_eq_or_of_lt hy 1
    rwa [mul_one] at hadd
  have hbits : ∀ y < 2 ^ k, (2 ^ k ||| y) ^^^ 2 ^ k = y ∧ y ^^^ 2 ^ k = 2 ^ k ||| y :=
      fun y hy => by
    constructor <;>
    · apply Nat.eq_of_testBit_eq
      intro i
      rw [Nat.testBit_xor, Nat.testBit_or, Nat.testBit_two_pow]
      by_cases hik : k = i
      · subst hik
        simp [Nat.testBit_lt_two_pow hy]
      · simp [hik]
  split_ifs with h
  · rw [(hbits x h).2, ← hor x h, Nat.add_comm]
  · obtain ⟨y, rfl⟩ := Nat.exists_eq_add_of_le (Nat.le_of_not_lt h)
    have hy : y < 2 ^ k := by
      rw [pow_succ] at hx
      omega
    rw [hor y hy, (hbits y hy).1, ← hor y hy, Nat.add_sub_cancel_left]

theorem sextend_eq (w : Word) {n : ℕ} (hn : 0 < n) (hn' : n < 16) :
    sextend w n = (w.extractLsb' 0 n).signExtend 16 := by
  obtain ⟨k, rfl⟩ := Nat.exists_eq_add_of_lt hn
  rw [Nat.zero_add] at hn' ⊢
  have hpow : 2 ^ (k + 1) ≤ 2 ^ 15 := Nat.pow_le_pow_right (by decide) (by omega)
  have hdouble : 2 ^ (k + 1) = 2 * 2 ^ k := pow_succ' 2 k
  have hlt : w.toNat % 2 ^ (k + 1) < 2 ^ (k + 1) := Nat.mod_lt _ (Nat.two_pow_pos _)
  have hshift : ∀ i, 2 ^ i < 2 ^ 16 → (1#16 <<< i).toNat = 2 ^ i := fun i hi => by
    rw [BitVec.toNat_shiftLeft, BitVec.toNat_one (by decide), Nat.shiftLeft_eq, one_mul,
      Nat.mod_eq_of_lt hi]
  have hval : (w &&& (1#16 <<< (k + 1) - 1#16)).toNat = w.toNat % 2 ^ (k + 1) := by
    have hmask : (1#16 <<< (k + 1) - 1#16).toNat = 2 ^ (k + 1) - 1 := by
      rw [BitVec.toNat_sub, hshift _ (by omega), BitVec.toNat_one (by decide)]
      omega
    rw [BitVec.toNat_and, hmask, Nat.and_two_pow_sub_one_eq_mod]
  have hext : (w.extractLsb' 0 (k + 1)).toNat = w.toNat % 2 ^ (k + 1) := by
    rw [BitVec.extractLsb'_toNat, Nat.shiftRight_zero]
  apply BitVec.eq_of_toNat_eq
  rw [sextend, BitVec.toNat_sub, BitVec.toNat_xor, hval, Nat.add_sub_cancel, hshift k (by omega),
    xor_two_pow hlt, BitVec.toNat_signExtend, BitVec.toNat_setWidth, hext,
      BitVec.msb_eq_decide, hext,
    Nat.add_sub_cancel]
  by_cases h : w.toNat % 2 ^ (k + 1) < 2 ^ k
  · rw [if_pos h, decide_eq_false (by omega), if_neg Bool.false_ne_true]
    omega
  · rw [if_neg h, decide_eq_true (by omega), if_pos rfl]
    omega

/-- The bit of the condition in the status register. -/
def code : Sign → Word
  | .negative => vmFlagNegative
  | .zero => vmFlagZero
  | .positive => vmFlagPositive

theorem vmSignFlag_eq (v : Word) : vmSignFlag v = code (Sign.of v) := by
  have hsign : v &&& vmSignBit ≠ 0 ↔ v.msb = true := by
    rw [vmSignBit, and_bit v (by decide), BitVec.msb_eq_getLsbD_last]
  rw [vmSignFlag, Sign.of]
  by_cases hzero : v = 0
  · rw [if_pos hzero, if_pos hzero]
    rfl
  · rw [if_neg hzero, if_neg hzero]
    by_cases hmsb : v.msb = true
    · rw [if_pos (hsign.mpr hmsb), if_pos hmsb]
      rfl
    · rw [if_neg (mt hsign.mp hmsb), if_neg hmsb]
      rfl

theorem and_nzp (s : Sign) (w : Word) :
    (code s &&& 0b111#16) &&& ((w >>> 9) &&& 0b111#16) ≠ 0 ↔ s.isIn (w.extractLsb' 9 3) = true := by
  have hbit : ∀ k < 3, (w >>> 9) &&& (1#16 <<< k) ≠ 0 ↔ (w.extractLsb' 9 3).getLsbD k = true := by
    intro k hk
    rw [and_bit _ (by omega), BitVec.getLsbD_ushiftRight, BitVec.getLsbD_extractLsb',
      decide_eq_true hk, Bool.true_and]
  have hmask : code s &&& 0b111#16 = code s := by
    cases s <;> decide
  rw [hmask, BitVec.and_comm, BitVec.and_assoc, BitVec.and_comm 0b111#16, hmask]
  cases s with
  | negative => exact hbit 2 (by decide)
  | zero => exact hbit 1 (by decide)
  | positive => exact hbit 0 (by decide)

theorem opcode_toNat (w : Word) : (w >>> 12).toNat = (w.extractLsb' 12 4).toNat := by
  rw [BitVec.toNat_ushiftRight, BitVec.extractLsb'_toNat, Nat.mod_eq_of_lt]
  rw [Nat.shiftRight_eq_div_pow]
  omega

theorem trapvect_eq (w : Word) : w &&& 0xFF#16 = (w.extractLsb' 0 8).setWidth 16 := by
  apply BitVec.eq_of_toNat_eq
  have hmask : (0xFF#16).toNat = 2 ^ 8 - 1 := rfl
  rw [BitVec.toNat_and, hmask, Nat.and_two_pow_sub_one_eq_mod, BitVec.toNat_setWidth,
    BitVec.extractLsb'_toNat, Nat.shiftRight_zero]
  omega

/-- What answers at an address. -/
inductive Site
  | keyboardStatus
  | keyboardData
  | displayStatus
  | displayData
  | cell (i : Fin vmAddrMax)
  | outside

def site (a : Word) : Site :=
  if a = vmAddrKbsr then .keyboardStatus
  else if a = vmAddrKbdr then .keyboardData
  else if a = vmAddrDsr then .displayStatus
  else if a = vmAddrDdr then .displayData
  else if h : a.toNat < vmAddrMax then .cell ⟨a.toNat, h⟩
  else .outside

/-- The memory, the characters that were typed, whether one is there each time the keyboard is
asked, and what is on the display. -/
structure Devices where
  mem : Fin vmAddrMax → Word
  stdin : List (BitVec 8)
  ready : ℕ → Bool
  stdout : List (BitVec 8)

def Devices.polled (d : Devices) : Devices := { d with ready := fun n => d.ready (n + 1) }

def Devices.next (d : Devices) : Word × Devices :=
  ((takeChar d.stdin).1, { d with stdin := (takeChar d.stdin).2 })

def Devices.read (d : Devices) (a : Word) : Option (Word × Devices) :=
  match site a with
  | .keyboardStatus => some (if d.ready 0 then vmStatusBit else 0, d.polled)
  | .keyboardData => some (if d.ready 0 then d.polled.next else (0, d.polled))
  | .displayStatus => some (vmStatusBit, d)
  | .displayData => some (0, d)
  | .cell i => some (d.mem i, d)
  | .outside => none

def Devices.write (d : Devices) (a v : Word) : Option Devices :=
  match site a with
  | .keyboardStatus => some d
  | .keyboardData => some d
  | .displayStatus => some d
  | .displayData => some { d with stdout := d.stdout ++ [v.setWidth 8] }
  | .cell i => some { d with mem := Function.update d.mem i v }
  | .outside => none

def devices : Bus Devices := ⟨Devices.read, Devices.write, Devices.next⟩

/-- The machine that stands for a processor with its memory and devices. -/
def toVm (c : Cpu Devices) : Vm where
  mem := c.bus.mem
  reg := regFile c.regs c.pc (code c.sign)
  stdin := c.bus.stdin
  ready := c.bus.ready
  stdout := c.bus.stdout

def afterRead (c : Cpu Devices) (vb : Word × Devices) : Word × Vm :=
  (vb.1, toVm { c with bus := vb.2 })

variable (c : Cpu Devices)

@[simp] theorem toVm_r (n : BitVec 3) : (toVm c).reg (.r n) = c.regs n := rfl

@[simp] theorem toVm_pc : (toVm c).reg .pc = c.pc := rfl

@[simp] theorem toVm_psr : (toVm c).reg .psr = code c.sign := rfl

theorem setReg_r (n : BitVec 3) (v : Word) :
    (toVm c).setReg (.r n) v = toVm { c with regs := Function.update c.regs n v } := by
  simp only [Vm.setReg, toVm]
  congr 1
  funext r
  cases r with
  | r m => simp only [regFile, Function.update_apply, VmReg.r.injEq]
  | pc => rfl
  | psr => rfl

theorem setReg_pc (v : Word) : (toVm c).setReg .pc v = toVm { c with pc := v } := by
  simp only [Vm.setReg, toVm]
  congr 1
  funext r
  cases r <;> rfl

theorem vmSetcc_setReg (n : BitVec 3) (v : Word) :
    vmSetcc ((toVm c).setReg (.r n) v) (.r n) = toVm (c.set n v) := by
  rw [setReg_r, vmSetcc, toVm_r]
  dsimp only
  rw [Function.update_self, vmSignFlag_eq]
  simp only [Vm.setReg, toVm, Cpu.set]
  congr 1
  funext r
  cases r <;> rfl

theorem getchar_eq : (toVm c).getchar = afterRead c c.bus.next := rfl

theorem vmRead_eq (a : Word) : vmRead (toVm c) a = (devices.read c.bus a).map (afterRead c) := by
  simp only [vmRead, devices, Devices.read, site]
  by_cases hkbsr : a = vmAddrKbsr
  · rw [if_pos hkbsr, if_pos hkbsr]
    rfl
  rw [if_neg hkbsr, if_neg hkbsr]
  by_cases hkbdr : a = vmAddrKbdr
  · rw [if_pos hkbdr, if_pos hkbdr]
    have hready : (toVm c).ready 0 = c.bus.ready 0 := rfl
    rw [hready]
    by_cases hanswer : c.bus.ready 0 = true
    · simp only [hanswer, if_true]
      rfl
    · simp only [hanswer]
      rfl
  rw [if_neg hkbdr, if_neg hkbdr]
  by_cases hdsr : a = vmAddrDsr
  · rw [if_pos hdsr, if_pos hdsr]
    rfl
  rw [if_neg hdsr, if_neg hdsr]
  by_cases hddr : a = vmAddrDdr
  · rw [if_pos hddr, if_pos hddr]
    rfl
  rw [if_neg hddr, if_neg hddr]
  split_ifs <;> rfl

theorem vmWrite_eq (a v : Word) :
    vmWrite (toVm c) a v = (devices.write c.bus a v).map fun b => toVm { c with bus := b } := by
  simp only [vmWrite, devices, Devices.write, site]
  by_cases hkbsr : a = vmAddrKbsr
  · rw [if_pos (Or.inl hkbsr), if_pos hkbsr]
    rfl
  by_cases hkbdr : a = vmAddrKbdr
  · rw [if_pos (Or.inr (Or.inl hkbdr)), if_neg hkbsr, if_pos hkbdr]
    rfl
  by_cases hdsr : a = vmAddrDsr
  · rw [if_pos (Or.inr (Or.inr hdsr)), if_neg hkbsr, if_neg hkbdr, if_pos hdsr]
    rfl
  rw [if_neg (not_or.mpr ⟨hkbsr, not_or.mpr ⟨hkbdr, hdsr⟩⟩), if_neg hkbsr,
    if_neg hkbdr, if_neg hdsr]
  by_cases hddr : a = vmAddrDdr
  · rw [if_pos hddr, if_pos hddr]
    rfl
  rw [if_neg hddr, if_neg hddr]
  split_ifs <;> rfl

/-- How `vm_perform` reports a processor that has executed an instruction. -/
def done (c : Cpu Devices) : VmRunResult × Vm := (.success, toVm c)

theorem load_eq (dr : Reg) (a : Word) :
    ((vmRead (toVm c) a).map fun (val, vm) =>
      (VmRunResult.success, vmSetcc (vm.setReg (.r dr) val) (.r dr))) =
      (c.load devices dr a).map done := by
  rw [vmRead_eq, Cpu.load, Option.map_map, Option.map_map]
  congr 1
  funext vb
  simp only [Function.comp_apply, afterRead, vmSetcc_setReg]
  rfl

theorem store_eq (a v : Word) :
    ((vmWrite (toVm c) a v).map fun vm => (VmRunResult.success, vm)) =
    (c.store devices a v).map done := by
  rw [vmWrite_eq, Cpu.store, Option.map_map, Option.map_map]
  rfl

theorem operand_eq (w : Word) (r : VmReg) (f : Word → Word) :
    (if w &&& (1#16 <<< 5) ≠ 0 then (toVm c).setReg r (f (sextend w 5))
      else (toVm c).setReg r (f ((toVm c).reg (.r (w.extractLsb' 0 3))))) =
      (toVm c).setReg r (f ((decodeOperand w).value c.regs)) := by
  have hbit := and_bit w (k := 5) (by decide)
  rw [decodeOperand, sextend_eq w (by decide) (by decide)]
  by_cases h : w.getLsbD 5 = true
  · rw [if_pos (hbit.mpr h), if_pos h]
    rfl
  · rw [if_neg (mt hbit.mp h), if_neg h]
    rfl

theorem vmPerform_eq (w : Word) : vmPerform (toVm c) w =
    if (decode w).legal then (exec devices c (decode w)).map done
    else some (.unimplementedOpcode, toVm c) := by
  have hcases : ∀ op : BitVec 4, op = 0#4 ∨ op = 1#4 ∨ op = 2#4 ∨ op = 3#4 ∨ op = 4#4 ∨ op = 5#4 ∨
      op = 6#4 ∨ op = 7#4 ∨ op = 8#4 ∨ op = 9#4 ∨ op = 10#4 ∨ op = 11#4 ∨ op = 12#4 ∨ op = 13#4 ∨
      op = 14#4 ∨ op = 15#4 := by decide
  rw [vmPerform, vmOpcode, opcode_toNat, decode]
  rcases hcases (w.extractLsb' 12 4)
    with h | h | h | h | h | h | h | h | h | h | h | h | h | h | h | h <;>
    rw [h] <;> simp only [BitVec.toNat_ofNat, Nat.reducePow, Nat.reduceMod, regField_eq,
      sextend_eq w (n := 9) (by decide) (by decide), sextend_eq w (n := 6) (by decide) (by decide)]
  · -- br
    rw [toVm_psr, exec]
    by_cases hnzp : c.sign.isIn (w.extractLsb' 9 3) = true
    · rw [if_pos ((and_nzp c.sign w).mpr hnzp), if_pos hnzp, setReg_pc]
      rfl
    · rw [if_neg (mt (and_nzp c.sign w).mp hnzp), if_neg hnzp]
      rfl
  · -- add
    rw [operand_eq c w _ fun v => (toVm c).reg (.r (w.extractLsb' 6 3)) + v, vmSetcc_setReg]
    rfl
  · -- ld
    exact load_eq c _ _
  · -- st
    exact store_eq c _ _
  · -- jsr and jsrr
    have hbit := and_bit w (k := 11) (by decide)
    rw [sextend_eq w (n := 11) (by decide) (by decide)]
    by_cases hrel : w.getLsbD 11 = true
    · rw [if_pos (hbit.mpr hrel), if_pos hrel, setReg_pc, setReg_r]
      rfl
    · rw [if_neg (mt hbit.mp hrel), if_neg hrel, setReg_pc, setReg_r]
      rfl
  · -- and
    rw [operand_eq c w _ fun v => (toVm c).reg (.r (w.extractLsb' 6 3)) &&& v, vmSetcc_setReg]
    rfl
  · -- ldr
    exact load_eq c _ _
  · -- str
    exact store_eq c _ _
  · -- rti
    rfl
  · -- not
    rw [vmSetcc_setReg]
    rfl
  · -- ldi
    simp only [vmRead_eq c, Option.bind_map, exec, Instr.legal, if_true, Option.map_bind, toVm_pc]
    congr 1
    funext vb
    exact load_eq { c with bus := vb.2 } _ vb.1
  · -- sti
    simp only [vmRead_eq c, Option.bind_map, exec, Instr.legal, if_true, Option.map_bind, toVm_pc]
    congr 1
    funext vb
    exact store_eq { c with bus := vb.2 } vb.1 _
  · -- jmp
    rw [setReg_pc]
    rfl
  · -- reserved
    rfl
  · -- lea
    rw [vmSetcc_setReg]
    rfl
  · -- trap
    have hgetc : w &&& 0xFF#16 = 0x20 ↔ w.extractLsb' 0 8 = 0x20 := by
      rw [trapvect_eq]
      constructor
      · intro heq
        have hlow := congrArg (BitVec.setWidth 8) heq
        simpa using hlow
      · intro heq
        rw [heq]
        rfl
    rw [exec]
    by_cases hv : w.extractLsb' 0 8 = 0x20
    · rw [if_pos (hgetc.mpr hv), if_pos hv, getchar_eq, afterRead, setReg_r]
      rfl
    · rw [if_neg (mt hgetc.mp hv), if_neg hv, trapvect_eq, setReg_r, vmRead_eq]
      simp only [Option.map_map, Instr.legal, if_true, toVm_pc]
      congr 1
      funext vb
      simp only [Function.comp_apply, afterRead, setReg_pc]
      rfl

/-- What `vm_run` returns. -/
def result : Halt → VmRunResult
  | .halted => .success
  | .illegal => .unimplementedOpcode

theorem vmTurn_eq : vmTurn (toVm c) = (turn devices c).map result toVm := by
  rw [vmTurn, turn, turnWith, vmRead_eq, show vmAddrMcr = mcr from rfl]
  cases devices.read c.bus mcr with
  | none => rfl
  | some clock =>
    have hclock : clock.1 &&& vmStatusBit ≠ 0 ↔ clock.1.msb = true := by
      rw [vmStatusBit, and_bit _ (by decide), BitVec.msb_eq_getLsbD_last]
    simp only [Option.map_some, afterRead]
    by_cases hmsb : clock.1.msb = true
    · rw [if_pos (hclock.mpr hmsb), if_pos hmsb, toVm_pc, setReg_pc, vmRead_eq, fetchWord]
      dsimp only
      cases devices.read clock.2 c.pc with
      | none => rfl
      | some w =>
        simp only [Option.map_some, Option.bind_some, afterRead]
        rw [vmPerform_eq]
        by_cases hlegal : (decode w.1).legal = true
        · rw [if_pos hlegal, if_pos hlegal]
          cases exec devices { c with pc := c.pc + 1, bus := w.2 } (decode w.1) <;> rfl
        · rw [if_neg hlegal, if_neg hlegal]
          rfl
    · rw [if_neg (mt hclock.mp hmsb), if_neg hmsb]
      rfl

theorem exists_toVm_iff (vm : Vm) : (∃ c, vm = toVm c) ↔ ∃ s, vm.reg .psr = code s := by
  constructor
  · rintro ⟨c, rfl⟩
    exact ⟨c.sign, rfl⟩
  · rintro ⟨s, hs⟩
    refine ⟨⟨fun n => vm.reg (.r n), vm.reg .pc, s, vm.mem, vm.stdin, vm.ready, vm.stdout⟩, ?_⟩
    cases vm with
    | mk mem reg stdin ready stdout =>
      simp only [toVm]
      congr 1
      funext r
      cases r with
      | psr => exact hs
      | _ => rfl

theorem vmRun_eq (n : ℕ) (c : Cpu Devices) :
    vmRun n (toVm c) = (runTurns (turn devices) n c).map result toVm :=
  runTurns_map vmTurn_eq n c

end Unos.Lc3
