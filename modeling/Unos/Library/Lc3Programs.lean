import Unos.Library.Lc3Isa

namespace Unos.Lc3Isa

open Unos.Turns

variable {B : Type*}

/-- The instruction that a program has at an address. -/
def instrAt (origin : Word) (p : List Instr) (a : Word) : Option Instr := p[(a - origin).toNat]?

/-- The bus without the writes to the program. -/
def protect (bus : Bus B) (origin : Word) (p : List Instr) : Bus B :=
  { bus with write := fun b a v => if (instrAt origin p a).isSome then none else bus.write b a v }

/-- One turn of the program. It is a fault to leave it or to write to it. -/
def programTurn (bus : Bus B) (origin : Word) (p : List Instr) : Cpu B → Turn Halt (Cpu B) :=
  turnWith (protect bus origin p) fun b a => (instrAt origin p a).map fun i => (i, b)

/-- The words of the program are read where it is. -/
def InMemory (bus : Bus B) (origin : Word) (p : List Instr) (b : B) : Prop :=
  ∀ a i, instrAt origin p a = some i → bus.read b a = some (i.encode, b)

variable {bus : Bus B} {origin : Word} {p : List Instr} {c c' : Cpu B}

theorem store_of_protect {a v : Word} (h : c.store (protect bus origin p) a v = some c') :
    c.store bus a v = some c' := by
  obtain ⟨b, hwrite, rfl⟩ := Option.map_eq_some_iff.mp h
  rw [protect, Option.ite_none_left_eq_some] at hwrite
  rw [Cpu.store, hwrite.2, Option.map_some]

theorem exec_of_protect {i : Instr} (h : exec (protect bus origin p) c i = some c') :
    exec bus c i = some c' := by
  cases i with
  | st sr offset => exact store_of_protect h
  | sti sr offset =>
    obtain ⟨vb, hread, hstore⟩ := Option.bind_eq_some_iff.mp h
    exact Option.bind_eq_some_iff.mpr ⟨vb, hread, store_of_protect hstore⟩
  | str sr base offset => exact store_of_protect h
  | _ => exact h

theorem turn_eq_programTurn (hkeep : BusKeeps (protect bus origin p) (InMemory bus origin p))
    (hc : InMemory bus origin p c.bus) (hfault : programTurn bus origin p c ≠ .fault) :
    turn bus c = programTurn bus origin p c := by
  rw [programTurn, turnWith] at hfault ⊢
  rw [turn, turnWith, show bus.read = (protect bus origin p).read from rfl]
  cases hclock : (protect bus origin p).read c.bus mcr with
  | none => rfl
  | some clock =>
    have hb := hkeep.read _ _ _ _ hc hclock
    rw [hclock] at hfault
    dsimp only at hfault ⊢
    by_cases hmsb : clock.1.msb = true
    · rw [if_pos hmsb] at hfault ⊢
      rw [if_pos hmsb]
      cases hi : instrAt origin p c.pc with
      | none =>
        rw [hi] at hfault
        exact absurd rfl hfault
      | some i =>
        rw [hi] at hfault
        rw [fetchWord, hb c.pc i hi]
        dsimp only [Option.map_some] at hfault ⊢
        rw [decode_encode]
        by_cases hlegal : i.legal = true
        · rw [if_pos hlegal] at hfault ⊢
          rw [if_pos hlegal]
          cases hexec : exec (protect bus origin p) { c with pc := c.pc + 1, bus := clock.2 } i with
          | none =>
            rw [hexec] at hfault
            exact absurd rfl hfault
          | some c' =>
            rw [exec_of_protect hexec]
        · rw [if_neg hlegal, if_neg hlegal]
    · rw [if_neg hmsb, if_neg hmsb]

theorem programTurn_keeps (hkeep : BusKeeps (protect bus origin p) (InMemory bus origin p))
    (hc : InMemory bus origin p c.bus) :
    (programTurn bus origin p c).All fun c => InMemory bus origin p c.bus := by
  apply turnWith_keeps hkeep _ c hc
  intro b a i b' hb hi
  obtain ⟨j, -, hj⟩ := Option.map_eq_some_iff.mp hi
  cases hj
  exact hb

theorem runTurns_program (hkeep : BusKeeps (protect bus origin p) (InMemory bus origin p))
    (hc : InMemory bus origin p c.bus) (n : ℕ)
    (hrun : runTurns (programTurn bus origin p) n c ≠ .fault) :
    runTurns (turn bus) n c = runTurns (programTurn bus origin p) n c :=
  runTurns_of_guarded (fun _ hc hfault => turn_eq_programTurn hkeep hc hfault)
    (fun _ hc => programTurn_keeps hkeep hc) n hc hrun

end Unos.Lc3Isa
