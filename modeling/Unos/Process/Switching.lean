import Unos.Interrupts.Stubs

namespace Unos.Process

open Unos.X86 Unos.Interrupts

def loadCode : List Instr :=
  [.mov .ebp .esp 4, .mov .ecx .ebp 4, .mov .edx .ebp 8, .mov .ebx .ebp 12, .mov .esi .ebp 24,
    .mov .edi .ebp 28, .movLow .eax 0x23] ++ loadSegs .eax

def pushCode : List Instr :=
  [.pushImm 0x23, .mov .eax .ebp 16, .push .eax, .mov .eax .ebp 32, .push .eax, .pushImm 0x1B,
    .mov .eax .ebp 40, .push .eax]

def userRegsSwitchCode : List Instr :=
  loadCode ++ pushCode ++ [.mov .eax .ebp 0, .mov .ebp .ebp 20]

def contextAt (mem : Dword → Dword) (p : Dword) : Context where
  eax := (mem p).toNat
  ecx := (mem (p + 4)).toNat
  edx := (mem (p + 8)).toNat
  ebx := (mem (p + 12)).toNat
  esp := (mem (p + 16)).toNat
  ebp := (mem (p + 20)).toNat
  esi := (mem (p + 24)).toNat
  edi := (mem (p + 28)).toNat
  eflags := (mem (p + 32)).toNat
  cr3 := (mem (p + 36)).toNat
  eip := (mem (p + 40)).toNat

/-- The five double words below the stack pointer are not the `context_t`. -/
def ContextApart (esp p : Dword) : Prop :=
  ∀ i < 5, ∀ j < 11, p + BitVec.ofNat 32 (4 * j) ≠ esp - BitVec.ofNat 32 (4 * (i + 1))

variable {c : Cpu} {p : Dword} {r : Reg} {u v w : Dword}

theorem push_setReg (h : r ≠ .esp) (c : Cpu) (u v : Dword) :
    (c.setReg r u).push v = (c.push v).setReg r u := by
  have hesp : (c.setReg r u).esp = c.esp := reg_setReg h.symm c u
  rw [Cpu.push, hesp, Cpu.push, Cpu.setReg, Cpu.setReg, Function.update_comm h]

theorem setReg_setReg (c : Cpu) (r : Reg) (u v : Dword) :
    (c.setReg r u).setReg r v = c.setReg r v := by
  rw [Cpu.setReg, Cpu.setReg, Cpu.setReg, Function.update_idem]

theorem load_push (c : Cpu) (u disp : Dword) :
    X86.exec (X86.exec (c.setReg .eax u) (.mov .eax .ebp disp)) (.push .eax) =
      (c.push (c.mem (c.reg .ebp + disp))).setReg .eax (c.mem (c.reg .ebp + disp)) := by
  have hmov : X86.exec (c.setReg .eax u) (.mov .eax .ebp disp) = c.setReg .eax
      (c.mem (c.reg .ebp + disp)) :=
    setReg_setReg c .eax u _
  have heax : (c.setReg .eax (c.mem (c.reg .ebp + disp))).reg .eax = c.mem (c.reg .ebp + disp) :=
    reg_setReg_self ..
  rw [hmov, show ∀ x, X86.exec x (.push .eax) = x.push (x.reg .eax) from fun _ => rfl, heax]
  exact push_setReg (by decide) c _ _

theorem mem_pushes (c : Cpu) (ws : List Dword) (a : Dword)
    (h : ∀ i < ws.length, a ≠ c.esp - BitVec.ofNat 32 (4 * (i + 1))) :
    (c.pushes ws).mem a = c.mem a := by
  induction ws generalizing c with
  | nil => rfl
  | cons w ws ih =>
    rw [List.length_cons] at h
    have hrest : ∀ i < ws.length, a ≠ (c.push w).esp - BitVec.ofNat 32 (4 * (i + 1)) :=
        fun i hi => by
      rw [esp_push, show (4 : Dword) = BitVec.ofNat 32 4 from rfl, BitVec.sub_sub,
        ← BitVec.ofNat_add, Nat.add_comm, ← Nat.mul_succ]
      exact h (i + 1) (by omega)
    exact (ih (c.push w) hrest).trans (Function.update_of_ne (h 0 (by omega)) ..)

theorem loadCode_frame (c : Cpu) :
    (execAll c loadCode).mem = c.mem ∧ (execAll c loadCode).esp = c.esp ∧
    (execAll c loadCode).reg .ebp = c.stack 1 ∧
    (execAll c loadCode).reg .ecx = c.mem (c.stack 1 + 4) ∧
    (execAll c loadCode).reg .edx = c.mem (c.stack 1 + 8) ∧
    (execAll c loadCode).reg .ebx = c.mem (c.stack 1 + 12) ∧
    (execAll c loadCode).reg .esi = c.mem (c.stack 1 + 24) ∧
    (execAll c loadCode).reg .edi = c.mem (c.stack 1 + 28) ∧
    ∀ t, (execAll c loadCode).seg t = 0x23 := by
  refine ⟨rfl, rfl, rfl, rfl, rfl, rfl, rfl, rfl, fun t => ?_⟩
  cases t <;> exact low_withLow (c.reg .eax) 0x23

theorem execute_userRegsSwitchCode {t : Segments} (h : loadable t 0 0x23 = true) (c : Cpu) :
    execute t c userRegsSwitchCode = some (execAll c userRegsSwitchCode) := by
  have hplain : [Instr.mov .ebp .esp 4, .mov .ecx .ebp 4, .mov .edx .ebp 8, .mov .ebx .ebp 12,
      .mov .esi .ebp 24, .mov .edi .ebp 28, .movLow .eax 0x23].all Instr.plain = true := rfl
  have hpush : pushCode.all Instr.plain = true := rfl
  have hlast : [Instr.mov .eax .ebp 0, .mov .ebp .ebp 20].all Instr.plain = true := rfl
  have hlow : ∀ x : Cpu, low ((execAll x [.mov .ebp .esp 4, .mov .ecx .ebp 4, .mov .edx .ebp 8,
      .mov .ebx .ebp 12, .mov .esi .ebp 24, .mov .edi .ebp 28, .movLow .eax 0x23]).reg .eax) =
      0x23 := fun x => low_withLow _ _
  rw [userRegsSwitchCode, loadCode, execute_append, execute_append, execute_append,
    execute_of_plain hplain, Option.bind_some, execute_loadSegs, hlow, if_pos h, Option.bind_some,
    execute_of_plain hpush, Option.bind_some, execute_of_plain hlast, execAll_append,
    execAll_append, execAll_append]

theorem setReg_self (c : Cpu) (r : Reg) : c.setReg r (c.reg r) = c := by
  rw [Cpu.setReg, Function.update_eq_self]

theorem pushCode_eq (h : ContextApart c.esp p) (hebp : c.reg .ebp = p) : execAll c pushCode =
    (c.pushes [0x23, c.mem (p + 16), c.mem (p + 32), 0x1B, c.mem (p + 40)]).setReg .eax
    (c.mem (p + 40)) := by
  have hmem : ∀ ws : List Dword, ws.length ≤ 5 → ∀ j < 11,
      (c.pushes ws).mem ((c.pushes ws).reg .ebp + BitVec.ofNat 32 (4 * j)) = c.mem
          (p + BitVec.ofNat 32 (4 * j)) :=
    fun ws hlen j hj => by
      rw [(pushes_frame c ws).2.2.2 .ebp (by decide), hebp]
      exact mem_pushes c ws _ fun i hi => h i (by omega) j hj
  have h16 : (c.push 0x23).mem ((c.push 0x23).reg .ebp + 16) = c.mem (p + 16) :=
    hmem [0x23] (by simp) 4 (by decide)
  generalize c.mem (p + 16) = m16 at *
  have h32 : ((c.push 0x23).push m16).mem (((c.push 0x23).push m16).reg .ebp + 32) =
      c.mem (p + 32) :=
    hmem [0x23, m16] (by simp) 8 (by decide)
  generalize c.mem (p + 32) = m32 at *
  have h40 : ((((c.push 0x23).push m16).push m32).push 0x1B).mem
      (((((c.push 0x23).push m16).push m32).push 0x1B).reg .ebp + 40) = c.mem (p + 40) :=
    hmem [0x23, m16, m32, 0x1B] (by simp) 10 (by decide)
  generalize c.mem (p + 40) = m40 at *
  have himm : ∀ x v, X86.exec x (.pushImm v) = x.push v := fun _ _ => rfl
  rw [pushCode, execAll_cons, himm, ← setReg_self (c.push 0x23) .eax, execAll_cons, execAll_cons,
    load_push, h16, execAll_cons, execAll_cons, load_push, h32, execAll_cons, himm,
      push_setReg (by decide), execAll_cons,
    execAll_cons, load_push, h40, execAll_nil]
  rfl

theorem lastLoads (h : ContextApart c.esp p) (hebp : c.reg .ebp = p) {ws : List Dword}
    (hlen : ws.length ≤ 5) (u : Dword) :
    ∃ z, execAll ((c.pushes ws).setReg .eax u) [.mov .eax .ebp 0, .mov .ebp .ebp 20] = z ∧
      z.reg .eax = c.mem p ∧ z.reg .ebp = c.mem (p + 20) ∧
      (∀ q, q ≠ .eax → q ≠ .ebp → q ≠ .esp → z.reg q = c.reg q) ∧ z.stack = (c.pushes ws).stack ∧
      z.seg = c.seg := by
  obtain ⟨hseg, -, -, hreg⟩ := pushes_frame c ws
  have hmem : ∀ j < 11, (c.pushes ws).mem (p + BitVec.ofNat 32 (4 * j)) = c.mem
      (p + BitVec.ofNat 32 (4 * j)) :=
    fun j hj => mem_pushes c ws _ fun i hi => h i (by omega) j hj
  have hp : (c.pushes ws).reg .ebp = p := (hreg .ebp (by decide)).trans hebp
  have hzero : (c.pushes ws).mem (p + 0) = c.mem p :=
    (hmem 0 (by decide)).trans (congrArg c.mem (BitVec.add_zero p))
  have htwenty : (c.pushes ws).mem (p + 20) = c.mem (p + 20) := hmem 5 (by decide)
  have hmov : ∀ (x : Cpu) r b d, X86.exec x (.mov r b d) = x.setReg r (x.mem (x.reg b + d)) :=
    fun _ _ _ _ => rfl
  have hload : execAll ((c.pushes ws).setReg .eax u) [.mov .eax .ebp 0, .mov .ebp .ebp 20] =
      ((c.pushes ws).setReg .eax (c.mem p)).setReg .ebp (c.mem (p + 20)) := by
    have hbp : ∀ v, ((c.pushes ws).setReg .eax v).reg .ebp = p := fun v =>
      (reg_setReg (by decide) _ v).trans hp
    have hsame : ∀ v, ((c.pushes ws).setReg .eax v).mem = (c.pushes ws).mem := fun _ => rfl
    rw [execAll_cons, execAll_cons, execAll_nil, hmov, hmov, setReg_setReg, hbp, hbp,
      hsame, hsame, hzero, htwenty]
  refine ⟨_, hload, ?_, reg_setReg_self .., fun q ha hb hs => ?_, ?_, hseg⟩
  · rw [reg_setReg (by decide), reg_setReg_self]
  · rw [reg_setReg hb, reg_setReg ha, hreg q hs]
  · rw [stack_setReg (by decide), stack_setReg (by decide)]

theorem userRegsSwitchCode_frame (t : Segments) (c : Cpu) (h : ContextApart c.esp (c.stack 1)) :
    (execAll c userRegsSwitchCode).Tops [c.mem (c.stack 1 + 40), 0x1B, c.mem (c.stack 1 + 32),
      c.mem (c.stack 1 + 16), 0x23] ∧
    userRegs (returns t (execAll c userRegsSwitchCode)) =
      userRegsSwitch (contextAt c.mem (c.stack 1)) ∧
    ∀ s, (execAll c userRegsSwitchCode).seg s = 0x23 := by
  obtain ⟨hmem, hesp, hebp, hecx, hedx, hebx, hesi, hedi, hseg⟩ := loadCode_frame c
  generalize hx : execAll c loadCode = x at *
  have hapart : ContextApart x.esp (c.stack 1) := hesp ▸ h
  have hpush := pushCode_eq hapart hebp
  obtain ⟨z, hz, heax, hbp, hreg, hstack, hzseg⟩ := lastLoads hapart hebp
    (show [0x23, x.mem (c.stack 1 + 16), x.mem (c.stack 1 + 32), 0x1B,
      x.mem (c.stack 1 + 40)].length ≤ 5 by simp) (x.mem (c.stack 1 + 40))
  have hcode : execAll c userRegsSwitchCode = z := by
    rw [userRegsSwitchCode, execAll_append, execAll_append, hx, hpush]
    exact hz
  have htop := (tops_nil x).pushes
    [0x23, x.mem (c.stack 1 + 16), x.mem (c.stack 1 + 32), 0x1B, x.mem (c.stack 1 + 40)] (by simp)
  rw [Cpu.Tops, ← hstack] at htop
  have hcs : low (z.stack 1) = 0x1B := by rw [htop 1 _ rfl]; rfl
  obtain ⟨heip, -, heflags, -, hreg'⟩ := returns_frame t z
  obtain ⟨hesp', -⟩ := esp_returns_outer (t := t) (c := z) (by rw [hcs]; decide)
  rw [hcode]
  refine ⟨hmem ▸ htop, ?_, fun s => by rw [hzseg, hseg]⟩
  have hkeep : ∀ q, q ≠ .eax → q ≠ .ebp → q ≠ .esp → (returns t z).reg q = x.reg q :=
    fun q ha hb hs => (hreg' q hs).trans (hreg q ha hb hs)
  rw [userRegs, hreg' .eax (by decide), heax, hreg' .ebp (by decide), hbp, ← Cpu.esp, hesp',
    heip, heflags, hkeep .ebx (by decide) (by decide) (by decide),
      hkeep .ecx (by decide) (by decide) (by decide),
    hkeep .edx (by decide) (by decide) (by decide), hkeep .esi (by decide) (by decide) (by decide),
    hkeep .edi (by decide) (by decide) (by decide), hecx, hedx, hebx, hesi, hedi,
      htop 0 _ rfl, htop 2 _ rfl,
    htop 3 _ rfl, hmem]
  rfl

theorem userRegsSwitchCode_eq {entries es : Gdt} {kernelTss : ℕ}
    (hes : ((initGdt entries).bind fun es => tssInit es 5 kernelTss) = some es) (c : Cpu)
    (h : ContextApart c.esp (c.stack 1)) : ∃ x, leave (segments es) c userRegsSwitchCode =
        (if (c.mem (c.stack 1 + 32)).getLsbD 17 then .virtual8086 else .enters x) ∧
      userRegs x = userRegsSwitch (contextAt c.mem (c.stack 1)) ∧
        x.cs = 0x1B ∧ x.ss = 0x23 ∧ ∀ t, x.seg t = 0x23 := by
  obtain ⟨htop, huser, hseg⟩ := userRegsSwitchCode_frame (segments es) c h
  obtain ⟨-, hcs, -, hseg', -⟩ := returns_frame (segments es) (execAll c userRegsSwitchCode)
  have hring : ring (low ((execAll c userRegsSwitchCode).stack 1)) = 3 := by
    rw [htop 1 _ rfl]
    decide
  obtain ⟨-, hss⟩ := esp_returns_outer (t := segments es) (c := execAll c userRegsSwitchCode)
    (by rw [hring]; decide)
  have hcs' : low (0x1B : Dword) = 0x1B := by decide
  have hss' : low (0x23 : Dword) = 0x23 := by decide
  have henter : canEnter (segments es) 0x1B (c.mem (c.stack 1 + 40)) 0x23 = true :=
    (canEnter_iff hes).mpr (Or.inr ⟨rfl, rfl⟩)
  have hdata : loadable (segments es) 3 0x23 = true := (loadable_own hes).2
  have hrun := execute_userRegsSwitchCode (loadable_zero hdata) c
  refine ⟨returns (segments es) (execAll c userRegsSwitchCode), ?_, huser, ?_, ?_, fun t => ?_⟩
  · rw [leave, hrun, Option.elim_some, iret, htop 0 _ rfl, htop 1 _ rfl, htop 2 _ rfl,
      htop 4 _ rfl, hcs', hss', if_pos henter]
  · rw [hcs, htop 1 _ rfl, hcs']
  · rw [hss, htop 4 _ rfl, hss']
  · rw [hseg', hring, hseg]
    exact kept_of_loadable (segments_null es) hdata

theorem frameOf_user (h : ring c.cs ≠ 0) (g : Gate) (v : BitVec 8) (e : Option Dword) :
    (frameOf c g v e).user = userRegs c := by
  rw [frameOf, Registers.user, frameBase, if_neg h]
  rfl

/-- The instructions do what the scheduler takes them to do. A program of ring 3 that is interrupted
goes on with its own registers when those that were pushed are loaded, however much later. -/
theorem userRegsSwitch_refines {entries es : Gdt} {kernelTss : ℕ}
    (hes : ((initGdt entries).bind fun es => tssInit es 5 kernelTss) = some es) :
    (∀ c : Cpu, ContextApart c.esp (c.stack 1) → ∃ x, leave (segments es) c userRegsSwitchCode =
        (if (c.mem (c.stack 1 + 32)).getLsbD 17 then .virtual8086 else .enters x) ∧
      userRegs x = userRegsSwitch (contextAt c.mem (c.stack 1)) ∧
        x.cs = 0x1B ∧ x.ss = 0x23 ∧ ∀ t, x.seg t = 0x23) ∧
    ∀ (c : Cpu) (g : Gate) (v : BitVec 8) (e : Option Dword) (cr3 : ℕ), Matches v e →
      ring c.cs ≠ 0 →
      userRegsSwitch (saveRegs (registers (atCall c g v e)) cr3) = userRegs c := by
  refine ⟨userRegsSwitchCode_eq hes, fun c g v e cr3 hmatch hring => ?_⟩
  rw [registers_atCall g hmatch, ← frameOf_user hring g v e]
  rfl

/-- A processor in ring 0 whose argument is the `context_t` at 0. -/
def switchCpu : Cpu := ⟨fun _ => 0x400000, fun _ => 0x10, 0x08, 0x10, 0, 0, fun _ => 0⟩

theorem userRegsSwitch_refines_zero : ∃ es x,
    ((initGdt fun _ => 0).bind fun es => tssInit es 5 0x300000) = some es ∧
      leave (segments es) switchCpu userRegsSwitchCode = .enters x ∧ x.cs = 0x1B ∧
      userRegsSwitch (saveRegs (registers (atCall userCpu kernelGate 0x20 none)) 0) =
        userRegs userCpu := by
  obtain ⟨es, hes, -⟩ := initGdt_tssInit (fun _ => 0) 0x300000
  obtain ⟨hcode, hsaved⟩ := userRegsSwitch_refines hes
  obtain ⟨x, hleave, -, hcs, -⟩ := hcode switchCpu (by unfold ContextApart; decide)
  exact ⟨es, x, hes, hleave, hcs, hsaved userCpu kernelGate 0x20 none 0 rfl (by decide)⟩

end Unos.Process
