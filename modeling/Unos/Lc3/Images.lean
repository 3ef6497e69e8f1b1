import Unos.Library.Lc3Programs
import Unos.Lc3.Devices

namespace Unos.Lc3

open Unos.Turns Unos.Lc3Isa

def bigEndian (w : Word) : List (BitVec 8) := [w.extractLsb' 8 8, w.extractLsb' 0 8]

def wordsOf : List (BitVec 8) → List Word
  | b0 :: b1 :: rest => (b0 ++ b1) :: wordsOf rest
  | _ => []

def image (origin : Word) (ws : List Word) : List (BitVec 8) :=
  bigEndian origin ++ ws.flatMap bigEndian

/-- The memory with words from an address on. -/
def place (mem : Fin vmAddrMax → Word) (dest : ℕ) (ws : List Word) (i : Fin vmAddrMax) : Word :=
  if dest ≤ i.val then (ws[i.val - dest]?).getD (mem i) else mem i

theorem append_bytes (w : Word) : w.extractLsb' 8 8 ++ w.extractLsb' 0 8 = w := by
  apply BitVec.eq_of_getLsbD_eq
  intro i hi
  rw [BitVec.getLsbD_append, BitVec.getLsbD_extractLsb', BitVec.getLsbD_extractLsb']
  by_cases hlow : i < 8
  · simp [hlow]
  · rw [if_neg hlow, decide_eq_true (by omega), Bool.true_and,
      Nat.add_sub_cancel' (Nat.le_of_not_lt hlow)]

theorem wordsOf_bigEndian (ws : List Word) : wordsOf (ws.flatMap bigEndian) = ws := by
  induction ws with
  | nil => rfl
  | cons w ws ih =>
    rw [List.flatMap_cons, bigEndian, List.cons_append, List.cons_append,
      List.nil_append, wordsOf, ih, append_bytes]

theorem wordsOf_image (origin : Word) (ws : List Word) : wordsOf (image origin ws) = origin :: ws :=
  wordsOf_bigEndian (origin :: ws)

theorem length_wordsOf (bs : List (BitVec 8)) : (wordsOf bs).length = bs.length / 2 := by
  induction bs using wordsOf.induct with
  | case1 b0 b1 rest ih =>
    rw [wordsOf, List.length_cons, ih, List.length_cons, List.length_cons]
    omega
  | case2 bs hbs =>
    rw [wordsOf]
    · rcases bs with _ | ⟨b0, _ | ⟨b1, rest⟩⟩
      · rfl
      · simp
      · exact absurd rfl (hbs b0 b1 rest)
    · exact hbs

theorem swap16_hostWord (b0 b1 : BitVec 8) : swap16 (hostWord b0 b1) = b0 ++ b1 := by
  apply BitVec.eq_of_getLsbD_eq
  intro i hi
  rw [swap16, hostWord, BitVec.getLsbD_or, BitVec.getLsbD_shiftLeft, BitVec.getLsbD_ushiftRight,
    BitVec.getLsbD_append, BitVec.getLsbD_append, BitVec.getLsbD_append]
  by_cases hlow : i < 8
  · simp [hlow]
  · have hhigh : i - 8 < 8 := by omega
    simp [hlow, hi, hhigh, show ¬ 8 + i < 8 by omega, BitVec.getLsbD_of_ge b1 i (by omega)]

theorem place_cons (mem : Fin vmAddrMax → Word) {dest : ℕ} (h : dest < vmAddrMax) (w : Word)
    (ws : List Word) :
    place mem dest (w :: ws) = place (Function.update mem ⟨dest, h⟩ w) (dest + 1) ws := by
  funext i
  rcases Nat.lt_trichotomy i.val dest with hlt | heq | hgt
  · rw [place, place, if_neg (by omega), if_neg (by omega), Function.update_of_ne]
    exact fun hi => absurd (congrArg Fin.val hi) (Nat.ne_of_lt hlt)
  · have hi : i = ⟨dest, h⟩ := Fin.ext heq
    rw [place, place, if_pos (by omega), if_neg (by omega), hi, Nat.sub_self, Function.update_self]
    rfl
  · rw [place, place, if_pos (by omega), if_pos (by omega), Function.update_of_ne,
      show i.val - dest = (i.val - (dest + 1)) + 1 by omega, List.getElem?_cons_succ]
    exact fun hi => absurd (congrArg Fin.val hi) (Nat.ne_of_gt hgt)

theorem loadLoop_eq (mem : Fin vmAddrMax → Word) (dest : ℕ) (source : List (BitVec 8))
    (hfit : dest + source.length / 2 ≤ vmAddrMax) :
    loadLoop mem dest source = some (place mem dest (wordsOf source)) := by
  induction source using wordsOf.induct generalizing mem dest with
  | case1 b0 b1 rest ih =>
    rw [List.length_cons, List.length_cons] at hfit
    have hlt : dest < vmAddrMax := by omega
    rw [loadLoop, dif_pos hlt, ih _ _ (by omega), swap16_hostWord, wordsOf, place_cons mem hlt]
  | case2 bs hbs =>
    have hnil : wordsOf bs = [] := by
      rw [wordsOf]
      exact hbs
    rw [loadLoop, hnil]
    · congr 1
      funext i
      rw [place, List.getElem?_nil, Option.getD_none, ite_self]
    · exact hbs

def Vm.loaded (vm : Vm) (origin : Word) (ws : List Word) : Vm :=
  { vm with mem := place vm.mem origin.toNat ws }.setReg .pc origin

theorem vmLoadData_eq (vm : Vm) (data : List (BitVec 8)) :
    vmLoadData vm data =
      match wordsOf data with
      | [] => none
      | origin :: ws =>
        if origin.toNat + ws.length < vmAddrMax then some (.success, vm.loaded origin ws)
            else none := by
  rcases data with _ | ⟨b0, _ | ⟨b1, source⟩⟩
  · rfl
  · rfl
  · rw [vmLoadData, wordsOf, swap16_hostWord]
    dsimp only
    rw [length_wordsOf]
    by_cases hfit : (b0 ++ b1).toNat + source.length / 2 < vmAddrMax
    · rw [if_pos hfit, if_neg (Nat.not_le_of_lt hfit), if_pos hfit, loadLoop_eq _ _ _ hfit.le]
      rfl
    · rw [if_neg hfit, if_neg hfit]

/-- The words of an image are put where it says, or the assertion fails. The error that the source
has for an image that is too large is not returned. An image is read as it was written. -/
theorem vmLoadData_image : (∀ vm data, vmLoadData vm data =
      match wordsOf data with
      | [] => none
      | origin :: ws =>
        if origin.toNat + ws.length < vmAddrMax then some
          (.success, vm.loaded origin ws) else none) ∧
    ∀ origin ws, wordsOf (image origin ws) = origin :: ws :=
  ⟨vmLoadData_eq, wordsOf_image⟩

variable {origin a : Word} {p : List Instr}

def programCpu (stdin : List (BitVec 8)) (ready : ℕ → Bool) (origin : Word) (p : List Instr) :
    Cpu Devices where
  regs := fun _ => 0
  pc := origin
  sign := .zero
  bus := {
    mem := place (vmCreate stdin ready).mem origin.toNat (p.map Instr.encode)
    stdin := stdin
    ready := ready
    stdout := [] }

theorem instrAt_cell (hfit : origin.toNat + p.length ≤ 0xFE00) {i : Instr}
    (hi : instrAt origin p a = some i) :
    ∃ h : a.toNat < vmAddrMax, site a = .cell ⟨a.toNat, h⟩ ∧ origin.toNat ≤ a.toNat ∧
      p[a.toNat - origin.toNat]? = some i := by
  obtain ⟨hlt, -⟩ := List.getElem?_eq_some_iff.mp hi
  rw [instrAt] at hi
  have hsub : (a - origin).toNat = a.toNat - origin.toNat ∧ origin.toNat ≤ a.toNat := by
    rw [BitVec.toNat_sub] at hlt ⊢
    omega
  rw [hsub.1] at hlt hi
  have hbelow : a.toNat < 0xFE00 := by omega
  have hne : ∀ b : Word, 0xFE00 ≤ b.toNat → a ≠ b := fun b hb heq => by
    rw [heq] at hbelow
    omega
  have hcell : a.toNat < vmAddrMax := hbelow.trans (by decide)
  refine ⟨hcell, ?_, hsub.2, hi⟩
  rw [site, if_neg (hne _ (by decide)), if_neg (hne _ (by decide)), if_neg (hne _ (by decide)),
    if_neg (hne _ (by decide)), dif_pos hcell]

theorem inMemory_iff (hfit : origin.toNat + p.length ≤ 0xFE00) (d : Devices) :
    InMemory devices origin p d ↔
      ∀ a i, instrAt origin p a = some i → ∀ h : a.toNat < vmAddrMax,
      d.mem ⟨a.toNat, h⟩ = i.encode := by
  refine forall₃_congr fun a i hi => ?_
  obtain ⟨hcell, hsite, -⟩ := instrAt_cell hfit hi
  simp only [devices, Devices.read, hsite, Option.some.injEq, Prod.mk.injEq, and_true]
  exact ⟨fun heq _ => heq, fun hall => hall hcell⟩

theorem inMemory_program (hfit : origin.toNat + p.length ≤ 0xFE00) (stdin : List (BitVec 8))
    (ready : ℕ → Bool) : InMemory devices origin p (programCpu stdin ready origin p).bus := by
  rw [inMemory_iff hfit]
  intro a i hi h
  obtain ⟨-, -, hle, hget⟩ := instrAt_cell hfit hi
  simp only [programCpu, place, if_pos hle, List.getElem?_map, hget, Option.map_some,
    Option.getD_some]

theorem read_mem {d d' : Devices} {v : Word} (h : d.read a = some (v, d')) : d'.mem = d.mem := by
  rw [Devices.read] at h
  cases hsite : site a with
  | keyboardData =>
    rw [hsite] at h
    dsimp only at h
    split_ifs at h <;>
    · cases h
      rfl
  | outside =>
    rw [hsite] at h
    cases h
  | _ =>
    rw [hsite] at h
    cases h
    rfl

theorem busKeeps_program (hfit : origin.toNat + p.length ≤ 0xFE00) :
    BusKeeps (protect devices origin p) (InMemory devices origin p) where
  read d a v d' hd hread := by
    rw [inMemory_iff hfit] at hd ⊢
    rw [read_mem hread]
    exact hd
  write d a v d' hd hwrite := by
    rw [inMemory_iff hfit] at hd ⊢
    rw [protect, Option.ite_none_left_eq_some] at hwrite
    obtain ⟨hout, hwrite⟩ := hwrite
    simp only [devices, Devices.write] at hwrite
    cases hsite : site a with
    | cell j =>
      rw [hsite] at hwrite
      cases hwrite
      intro a' i hi h
      dsimp only
      rw [Function.update_of_ne]
      · exact hd a' i hi h
      · rintro rfl
        have haddr : a' = a := BitVec.eq_of_toNat_eq (site_cell hsite).1
        rw [← haddr, hi] at hout
        exact hout rfl
    | outside =>
      rw [hsite] at hwrite
      cases hwrite
    | _ =>
      rw [hsite] at hwrite
      cases hwrite
      exact hd
  getc d hd := by
    rw [inMemory_iff hfit] at hd ⊢
    exact hd

/-- The machine that is given the image of a program does what the program does, until the program
is left or written to. -/
theorem vmRun_program (hfit : origin.toNat + p.length ≤ 0xFE00) (stdin : List (BitVec 8))
    (ready : ℕ → Bool) :
    vmLoadData (vmCreate stdin ready) (image origin (p.map Instr.encode)) =
        some (.success, toVm (programCpu stdin ready origin p)) ∧
      ∀ n, runTurns (programTurn devices origin p) n (programCpu stdin ready origin p) ≠ .fault →
        vmRun n (toVm (programCpu stdin ready origin p)) =
          (runTurns (programTurn devices origin p) n (programCpu stdin ready origin p)).map
          result toVm := by
  constructor
  · rw [vmLoadData_eq, wordsOf_image]
    dsimp only
    rw [List.length_map, if_pos (by unfold vmAddrMax; omega)]
    congr 2
    exact setReg_pc ⟨fun _ => 0, vmAddrInitial, .zero, (programCpu stdin ready origin p).bus⟩ origin
  · intro n hrun
    rw [vmRun_eq, runTurns_program (busKeeps_program hfit)
      (inMemory_program hfit stdin ready) n hrun]

def stopProgram : List Instr :=
  [.and 0 0 (.imm 0), .add 1 0 (.imm 1), .not 1 1, .str 0 1 0]

theorem vmRun_program_stops :
    ∃ vm, vmRun 5 (toVm (programCpu [] (fun _ => false) 0x3000 stopProgram)) = .stop .success vm ∧
      vm.reg .pc = 0x3004 := by
  have hrun : ∃ c, runTurns (programTurn devices 0x3000 stopProgram) 5
      (programCpu [] (fun _ => false) 0x3000 stopProgram) = .stop .halted c ∧ c.pc = 0x3004 :=
    ⟨_, rfl, rfl⟩
  obtain ⟨c, hstop, hpc⟩ := hrun
  have hvm := (@vmRun_program 0x3000 stopProgram (by decide) [] fun _ => false).2 5
    (by rw [hstop]; exact fun hfault => nomatch hfault)
  rw [hstop] at hvm
  exact ⟨toVm c, hvm, hpc⟩

end Unos.Lc3
