import Mathlib.Data.BitVec
import Mathlib.Data.Finset.Basic
import Mathlib.Logic.Function.Basic
import Unos.Library.Runs

namespace Unos.Spinlock

open Unos.Runs

abbrev Dword := BitVec 32

/-- Two double words of memory that share no byte. -/
def Apart (a b : Dword) : Prop := 4 ≤ a - b ∧ 4 ≤ b - a

instance (a b : Dword) : Decidable (Apart a b) := inferInstanceAs (Decidable (_ ∧ _))

theorem Apart.ne {a b : Dword} (h : Apart a b) : a ≠ b := by
  intro hab
  have h := h.1
  rw [hab, BitVec.sub_self] at h
  exact absurd h (by decide)

/-- The arguments that are used, and the locks that they stand for: the double word behind an
argument is the address of its lock. No lock is where the address of one is kept, or overlaps
another lock. -/
structure Layout where
  args : Finset Dword
  lock : Dword → Dword
  apart : ∀ a ∈ args, ∀ b ∈ args, Apart (lock a) (b + 4)
  locks : ∀ a ∈ args, ∀ b ∈ args, lock a = lock b ∨ Apart (lock a) (lock b)

/-- The next instruction of a thread. `load`, `bts` and `jc` are those of `spinlock_lock`, with the
argument and `eax`; `unload` and `store` are those of `spinlock_unlock`. -/
inductive Pc
  | outside
  | load (arg : Dword)
  | bts (arg eax : Dword)
  | jc (arg eax : Dword) (carry : Bool)
  | inside (arg : Dword)
  | unload (arg : Dword)
  | store (arg eax : Dword)
  deriving DecidableEq, Repr

structure System (ι : Type*) where
  mem : Dword → Dword
  pc : ι → Pc

/-- Calls of the two functions, their instructions, and the other code of a thread. -/
inductive Action
  | lock (arg : Dword)
  | unlock
  | next
  | write (a v : Dword)

/-- Other code leaves the locks and their addresses alone. -/
def Layout.Free (l : Layout) (a : Dword) : Prop :=
  ∀ b ∈ l.args, Apart a (b + 4) ∧ Apart a (l.lock b)

instance (l : Layout) (a : Dword) : Decidable (l.Free a) := inferInstanceAs (Decidable (∀ _ ∈ _, _))

section Steps

variable {ι : Type*} [DecidableEq ι]

def System.goto (s : System ι) (i : ι) (pc : Pc) : System ι :=
  { s with pc := Function.update s.pc i pc }

def System.store (s : System ι) (a v : Dword) : System ι :=
  { s with mem := Function.update s.mem a v }

/-- `pause` does nothing, and `ebx` is the argument. -/
def instruction (s : System ι) (i : ι) : Pc → Option (System ι)
  | .load arg => some (s.goto i (.bts arg (s.mem (arg + 4))))
  | .bts arg eax => some
    ((s.store eax (s.mem eax ||| 1)).goto i (.jc arg eax ((s.mem eax).getLsbD 0)))
  | .jc arg eax carry => some (s.goto i (if carry then .bts arg eax else .inside arg))
  | .unload arg => some (s.goto i (.store arg (s.mem (arg + 4))))
  | .store _ eax => some ((s.store eax 0).goto i .outside)
  | .outside => none
  | .inside _ => none

def step (l : Layout) (s : System ι) (e : ι × Action) : Option (System ι) :=
  match e.2 with
  | .lock arg => if s.pc e.1 = .outside ∧ arg ∈ l.args then some (s.goto e.1 (.load arg)) else none
  | .unlock =>
    match s.pc e.1 with
    | .inside arg => some (s.goto e.1 (.unload arg))
    | _ => none
  | .next => instruction s e.1 (s.pc e.1)
  | .write a v => if instruction s e.1 (s.pc e.1) = none ∧
    l.Free a then some (s.store a v) else none

end Steps

/-- The lock that a thread has taken and not given back. -/
def Layout.held (l : Layout) : Pc → Option Dword
  | .jc _ eax false => some eax
  | .inside arg => some (l.lock arg)
  | .unload arg => some (l.lock arg)
  | .store _ eax => some eax
  | _ => none

/-- The argument is one that is used, and `eax` is its lock. -/
def Layout.Ok (l : Layout) : Pc → Prop
  | .outside => True
  | .load arg => arg ∈ l.args
  | .bts arg eax => arg ∈ l.args ∧ eax = l.lock arg
  | .jc arg eax _ => arg ∈ l.args ∧ eax = l.lock arg
  | .inside arg => arg ∈ l.args
  | .unload arg => arg ∈ l.args
  | .store arg eax => arg ∈ l.args ∧ eax = l.lock arg

structure Start (l : Layout) where
  mem : Dword → Dword
  address : ∀ a ∈ l.args, mem (a + 4) = l.lock a
  free : ∀ a ∈ l.args, (mem (l.lock a)).getLsbD 0 = false

section Invariant

variable {ι : Type*}

/-- The lowest bit of a lock is set exactly while a thread has the lock, and no two threads have
it. -/
structure Inv (l : Layout) (s : System ι) : Prop where
  ok : ∀ i, l.Ok (s.pc i)
  address : ∀ a ∈ l.args, s.mem (a + 4) = l.lock a
  bit : ∀ a ∈ l.args, (s.mem (l.lock a)).getLsbD 0 = true ↔ ∃ i, l.held (s.pc i) = some (l.lock a)
  unique : ∀ i j w, l.held (s.pc i) = some w → l.held (s.pc j) = some w → i = j

def boot {l : Layout} (m : Start l) : System ι := ⟨m.mem, fun _ => .outside⟩

variable {l : Layout} {s t : System ι} {i j : ι} {pc : Pc} {arg eax a v w : Dword}

theorem inv_boot (m : Start l) : Inv l (boot m : System ι) where
  ok _ := trivial
  address := m.address
  bit b hb := by
    rw [show (boot m : System ι).mem = m.mem from rfl, m.free b hb]
    exact ⟨fun h => (nomatch h), fun ⟨_, h⟩ => nomatch h⟩
  unique _ _ _ h := nomatch h

theorem inv_write (h : Inv l s) (hfree : l.Free a) (v : Dword) : Inv l (s.store a v) where
  ok := h.ok
  address b hb := (Function.update_of_ne (hfree b hb).1.ne.symm ..).trans (h.address b hb)
  bit b hb := by
    rw [show (s.store a v).mem (l.lock b) = s.mem (l.lock b) from
      Function.update_of_ne (hfree b hb).2.ne.symm ..]
    exact h.bit b hb
  unique := h.unique

variable [DecidableEq ι]

theorem pc_goto_self (s : System ι) (i : ι) (pc : Pc) : (s.goto i pc).pc i = pc :=
  Function.update_self ..

theorem pc_goto (h : j ≠ i) (s : System ι) (pc : Pc) : (s.goto i pc).pc j = s.pc j :=
  Function.update_of_ne h ..

theorem ok_goto (h : ∀ j, l.Ok (s.pc j)) (hok : l.Ok pc) (j : ι) : l.Ok ((s.goto i pc).pc j) := by
  by_cases hj : j = i
  · rw [hj, pc_goto_self]
    exact hok
  · rw [pc_goto hj]
    exact h j

theorem inv_goto (h : Inv l s) (hok : l.Ok pc) (hheld : l.held pc = l.held (s.pc i)) :
    Inv l (s.goto i pc) := by
  have hsame : ∀ j, l.held ((s.goto i pc).pc j) = l.held (s.pc j) := fun j => by
    by_cases hj : j = i
    · rw [hj, pc_goto_self, hheld]
    · rw [pc_goto hj]
  refine ⟨ok_goto h.ok hok, h.address, fun b hb => ?_, fun j k w hj hk => ?_⟩
  · rw [show (s.goto i pc).mem = s.mem from rfl, h.bit b hb]
    exact exists_congr fun j => by rw [hsame]
  · rw [hsame] at hj hk
    exact h.unique j k w hj hk

theorem inv_own (h : Inv l s) (harg : arg ∈ l.args) (hok : l.Ok pc)
    (hbefore : ∀ w, l.held (s.pc i) = some w → w = l.lock arg)
    (hafter : ∀ w, l.held pc = some w → w = l.lock arg)
    (hothers : ∀ j, j ≠ i → l.held (s.pc j) ≠ some (l.lock arg))
    (hbit : v.getLsbD 0 = true ↔ l.held pc = some (l.lock arg)) :
    Inv l ((s.store (l.lock arg) v).goto i pc) := by
  have hother : ∀ j, j ≠ i → ((s.store (l.lock arg) v).goto i pc).pc j = s.pc j :=
    fun j hj => pc_goto hj ..
  have hmine : ∀ j, l.held (((s.store (l.lock arg) v).goto i pc).pc j) = some (l.lock arg) →
      j = i ∧ l.held pc = some (l.lock arg) := by
    intro j hj
    by_cases hji : j = i
    · rw [hji, pc_goto_self] at hj
      exact ⟨hji, hj⟩
    · rw [hother j hji] at hj
      exact absurd hj (hothers j hji)
  have hrest : ∀ w, w ≠ l.lock arg → ∀ j,
      (l.held (((s.store (l.lock arg) v).goto i pc).pc j) = some w ↔ l.held (s.pc j) = some w) := by
    intro w hw j
    by_cases hji : j = i
    · rw [hji, pc_goto_self]
      exact ⟨fun hj => absurd (hafter w hj) hw, fun hj => absurd (hbefore w hj) hw⟩
    · rw [hother j hji]
  refine ⟨ok_goto (s := s.store (l.lock arg) v) h.ok hok, fun b hb => ?_, fun b hb => ?_,
    fun j k w hj hk => ?_⟩
  · exact (Function.update_of_ne (l.apart arg harg b hb).ne.symm ..).trans (h.address b hb)
  · by_cases hlock : l.lock b = l.lock arg
    · rw [hlock]
      rw [show ((s.store (l.lock arg) v).goto i pc).mem (l.lock arg) = v
        from Function.update_self .., hbit]
      constructor
      · intro hheld
        use i
        rw [pc_goto_self]
        exact hheld
      · intro ⟨j, hj⟩
        exact (hmine j hj).2
    · rw [show ((s.store (l.lock arg) v).goto i pc).mem (l.lock b) = s.mem (l.lock b) from
        Function.update_of_ne hlock .., h.bit b hb]
      exact exists_congr fun j => (hrest (l.lock b) hlock j).symm
  · by_cases hw : w = l.lock arg
    · rw [hw] at hj hk
      rw [(hmine j hj).1, (hmine k hk).1]
    · exact h.unique j k w ((hrest w hw j).mp hj) ((hrest w hw k).mp hk)

theorem bit_or_one (x : Dword) : (x ||| 1).getLsbD 0 = true := by
  rw [BitVec.getLsbD_or]
  simp

theorem or_one_of_bit {x : Dword} (h : x.getLsbD 0 = true) : x ||| 1 = x := by
  apply BitVec.eq_of_getLsbD_eq
  intro k hk
  rw [BitVec.getLsbD_or]
  cases k with
  | zero => rw [h, Bool.true_or]
  | succ k => simp

theorem inv_bts (h : Inv l s) (hpc : s.pc i = .bts arg eax) :
    Inv l ((s.store eax (s.mem eax ||| 1)).goto i (.jc arg eax ((s.mem eax).getLsbD 0))) := by
  have hok := h.ok i
  rw [hpc] at hok
  obtain ⟨harg, rfl⟩ := hok
  cases hcarry : (s.mem (l.lock arg)).getLsbD 0 with
  | true =>
    have hsame : s.store (l.lock arg) (s.mem (l.lock arg) ||| 1) = s := by
      rw [or_one_of_bit hcarry, System.store, Function.update_eq_self]
    rw [hsame]
    have hwaits : l.Ok (.jc arg (l.lock arg) true) := ⟨harg, rfl⟩
    apply inv_goto h hwaits
    rw [hpc]
    rfl
  | false =>
    have hnobody : ¬∃ j, l.held (s.pc j) = some (l.lock arg) := by
      rw [← h.bit arg harg, hcarry]
      decide
    have htakes : l.Ok (.jc arg (l.lock arg) false) := ⟨harg, rfl⟩
    apply inv_own h harg htakes
    · intro w hw
      rw [hpc] at hw
      cases hw
    · intro w hw
      exact (Option.some.inj hw).symm
    · intro j _ hj
      exact hnobody ⟨j, hj⟩
    · exact iff_of_true (bit_or_one _) rfl

theorem inv_store (h : Inv l s) (hpc : s.pc i = .store arg eax) :
    Inv l ((s.store eax 0).goto i .outside) := by
  have hok := h.ok i
  rw [hpc] at hok
  obtain ⟨harg, rfl⟩ := hok
  have hheld : l.held (s.pc i) = some (l.lock arg) := by
    rw [hpc]
    rfl
  have hdone : l.Ok .outside := trivial
  apply inv_own h harg hdone
  · intro w hw
    rw [hheld] at hw
    exact (Option.some.inj hw).symm
  · intro w hw
    cases hw
  · intro j hji hj
    exact hji (h.unique j i _ hj hheld)
  · exact iff_of_false (by decide) (by intro hw; cases hw)

theorem inv_instruction (h : Inv l s) (hstep : instruction s i (s.pc i) = some t) : Inv l t := by
  have hok := h.ok i
  cases hpc : s.pc i with
  | outside | inside arg =>
    rw [hpc] at hstep
    cases hstep
  | load arg =>
    rw [hpc] at hstep hok
    cases hstep
    have hnext : l.Ok (.bts arg (s.mem (arg + 4))) := ⟨hok, h.address arg hok⟩
    apply inv_goto h hnext
    rw [hpc]
    rfl
  | bts arg eax =>
    rw [hpc] at hstep
    cases hstep
    exact inv_bts h hpc
  | jc arg eax carry =>
    rw [hpc] at hstep hok
    cases hstep
    obtain ⟨harg, rfl⟩ := hok
    cases carry with
    | true =>
      have hagain : l.Ok (.bts arg (l.lock arg)) := ⟨harg, rfl⟩
      apply inv_goto h hagain
      rw [hpc]
      rfl
    | false =>
      have hinside : l.Ok (.inside arg) := harg
      apply inv_goto h hinside
      rw [hpc]
      rfl
  | unload arg =>
    rw [hpc] at hstep hok
    cases hstep
    have hnext : l.Ok (.store arg (s.mem (arg + 4))) := ⟨hok, h.address arg hok⟩
    apply inv_goto h hnext
    rw [hpc, h.address arg hok]
    rfl
  | store arg eax =>
    rw [hpc] at hstep
    cases hstep
    exact inv_store h hpc

theorem inv_step {e : ι × Action} (h : Inv l s) (hstep : step l s e = some t) : Inv l t := by
  obtain ⟨i, action⟩ := e
  cases action with
  | lock arg =>
    obtain ⟨⟨hout, harg⟩, ht⟩ := Option.ite_none_right_eq_some.mp hstep
    cases ht
    have hload : l.Ok (.load arg) := harg
    apply inv_goto h hload
    rw [hout]
    rfl
  | unlock =>
    have hok := h.ok i
    simp only [step] at hstep
    split at hstep
    next arg hpc =>
      rw [hpc] at hok
      cases hstep
      have hunload : l.Ok (.unload arg) := hok
      apply inv_goto h hunload
      rw [hpc]
      rfl
    next => cases hstep
  | next => exact inv_instruction h hstep
  | write a v =>
    obtain ⟨⟨_, hfree⟩, ht⟩ := Option.ite_none_right_eq_some.mp hstep
    cases ht
    exact inv_write h hfree v

/-- What a lock is for. Two steps of a thread that waits for a lock bring it inside when no thread
has that lock, and otherwise change nothing. A thread that is inside can always give its lock
back. -/
structure Excludes (l : Layout) (s : System ι) : Prop where
  one : ∀ i j a b, s.pc i = .inside a → s.pc j = .inside b → l.lock a = l.lock b → i = j
  takes : ∀ i arg eax, s.pc i = .bts arg eax → (∀ j, l.held (s.pc j) ≠ some (l.lock arg)) →
    ∃ t, run (step l) s [(i, .next), (i, .next)] = some t ∧ t.pc i = .inside arg
  waits : ∀ i j arg eax, s.pc i = .bts arg eax → l.held (s.pc j) = some (l.lock arg) →
    run (step l) s [(i, .next), (i, .next)] = some s
  gives : ∀ i arg, s.pc i = .inside arg →
    ∃ t, run (step l) s [(i, .unlock), (i, .next), (i, .next)] = some t ∧
      t.pc i = .outside ∧ ∀ j, l.held (t.pc j) ≠ some (l.lock arg)

theorem goto_goto (s : System ι) (i : ι) (p q : Pc) : (s.goto i p).goto i q = s.goto i q := by
  rw [System.goto, System.goto, System.goto, Function.update_idem]

theorem goto_of_eq (h : s.pc i = pc) : s.goto i pc = s := by
  rw [System.goto, ← h, Function.update_eq_self]

theorem run_bts (hpc : s.pc i = .bts arg eax) :
    run (step l) s [(i, .next), (i, .next)] = some ((s.store eax (s.mem eax ||| 1)).goto i
      (if (s.mem eax).getLsbD 0 then .bts arg eax else .inside arg)) := by
  have hfirst : step l s (i, .next) =
      some ((s.store eax (s.mem eax ||| 1)).goto i (.jc arg eax ((s.mem eax).getLsbD 0))) := by
    rw [step, hpc]
    rfl
  rw [run_cons, hfirst, Option.bind_some, run_cons, step, pc_goto_self, instruction, goto_goto]
  rfl

theorem run_unlock (hpc : s.pc i = .inside arg) :
    run (step l) s [(i, .unlock), (i, .next), (i, .next)] =
      some ((s.store (s.mem (arg + 4)) 0).goto i .outside) := by
  have hfirst : step l s (i, .unlock) = some (s.goto i (.unload arg)) := by
    rw [step, hpc]
  have hsecond : step l (s.goto i (.unload arg)) (i, .next) = some
      (s.goto i (.store arg (s.mem (arg + 4)))) := by
    rw [step, pc_goto_self, instruction, goto_goto]
    rfl
  have hthird : step l (s.goto i (.store arg (s.mem (arg + 4)))) (i, .next) =
      some ((s.store (s.mem (arg + 4)) 0).goto i .outside) := by
    rw [step, pc_goto_self]
    exact congrArg some (goto_goto (s.store (s.mem (arg + 4)) 0) i _ _)
  rw [run_cons, hfirst, Option.bind_some, run_cons, hsecond, Option.bind_some, run_cons, hthird]
  rfl

theorem excludes_of_inv (h : Inv l s) : Excludes l s where
  one i j a b hi hj hlock := by
    apply h.unique i j (l.lock a)
    · rw [hi]
      rfl
    · rw [hj, hlock]
      rfl
  takes i arg eax hpc hfree := by
    have hok := h.ok i
    rw [hpc] at hok
    obtain ⟨harg, rfl⟩ := hok
    have hclear : ¬(s.mem (l.lock arg)).getLsbD 0 = true := by
      rw [h.bit arg harg]
      intro ⟨j, hj⟩
      exact hfree j hj
    rw [run_bts hpc, if_neg hclear]
    exact ⟨_, rfl, pc_goto_self ..⟩
  waits i j arg eax hpc hj := by
    have hok := h.ok i
    rw [hpc] at hok
    obtain ⟨harg, rfl⟩ := hok
    have hset : (s.mem (l.lock arg)).getLsbD 0 = true := (h.bit arg harg).mpr ⟨j, hj⟩
    rw [run_bts hpc, if_pos hset, or_one_of_bit hset]
    rw [System.store, Function.update_eq_self, goto_of_eq hpc]
  gives i arg hpc := by
    have hok := h.ok i
    rw [hpc] at hok
    have hheld : l.held (s.pc i) = some (l.lock arg) := by
      rw [hpc]
      rfl
    rw [run_unlock hpc, h.address arg hok]
    refine ⟨_, rfl, pc_goto_self .., fun j hj => ?_⟩
    by_cases hji : j = i
    · rw [hji, pc_goto_self] at hj
      cases hj
    · rw [pc_goto hji] at hj
      exact hji (h.unique j i _ hj hheld)

/-- In every interleaving of any number of threads. -/
theorem always_excludes (m : Start l) (es : List (ι × Action)) :
    Always (step l) (Excludes l) (boot m : System ι) es :=
  always_of_steps (fun _ _ _ h _ => inv_step h) (fun _ => excludes_of_inv) (inv_boot m)
    (steps_true _ es)

end Invariant

def threeLock (a : Dword) : Dword := if a = 0x1010 then 0x2004 else 0x2000

def threeFinset : Finset Dword := {0x1000, 0x1008, 0x1010}

theorem mem_threeFinset {a : Dword} : a ∈ threeFinset ↔ a = 0x1000 ∨ a = 0x1008 ∨ a = 0x1010 := by
  rw [threeFinset, Finset.mem_insert, Finset.mem_insert, Finset.mem_singleton]

theorem threeLock_apart : ∀ a ∈ threeFinset, ∀ b ∈ threeFinset, Apart (threeLock a) (b + 4) := by
  intro a ha b hb
  rcases mem_threeFinset.mp ha with rfl | rfl | rfl <;>
    rcases mem_threeFinset.mp hb with rfl | rfl | rfl <;> decide

theorem threeLock_locks : ∀ a ∈ threeFinset, ∀ b ∈ threeFinset,
    threeLock a = threeLock b ∨ Apart (threeLock a) (threeLock b) := by
  intro a ha b hb
  rcases mem_threeFinset.mp ha with rfl | rfl | rfl <;>
    rcases mem_threeFinset.mp hb with rfl | rfl | rfl <;> decide

def threeArgs : Layout where
  args := threeFinset
  lock := threeLock
  apart := threeLock_apart
  locks := threeLock_locks

def threeMem (x : Dword) : Dword :=
  if x = 0x1004 ∨ x = 0x100C ∨ x = 0x1014 then threeLock (x - 4) else 0

theorem threeMem_address : ∀ a ∈ threeFinset, threeMem (a + 4) = threeLock a := by
  intro a ha
  rcases mem_threeFinset.mp ha with rfl | rfl | rfl <;> decide

theorem threeMem_free : ∀ a ∈ threeFinset, (threeMem (threeLock a)).getLsbD 0 = false := by
  intro a ha
  rcases mem_threeFinset.mp ha with rfl | rfl | rfl <;> decide

def threeStart : Start threeArgs where
  mem := threeMem
  address := threeMem_address
  free := threeMem_free

def contend : List (Bool × Action) :=
  [(false, .lock 0x1000), (true, .lock 0x1008), (false, .next), (true, .next), (false, .next),
    (true, .next), (false, .next), (true, .next)]

def handOver : List (Bool × Action) :=
  [(false, .unlock), (true, .next), (false, .next), (false, .next), (true, .next), (true, .next),
    (true, .next)]

def contended : System Bool :=
  (run (step threeArgs) (boot threeStart) contend).getD (boot threeStart)

def handedOver : System Bool :=
  (run (step threeArgs) (boot threeStart) (contend ++ handOver)).getD (boot threeStart)

theorem always_excludes_contended :
    contended.pc false = .inside 0x1000 ∧ contended.pc true = .bts 0x1008 0x2000 ∧
      handedOver.pc false = .outside ∧ handedOver.pc true = .inside 0x1008 ∧
      Excludes threeArgs contended ∧ Excludes threeArgs handedOver := by
  have hcontend : run (step threeArgs) (boot threeStart) contend = some contended :=
    run_eq_getD _ (by decide +kernel)
  have hhandOver : run (step threeArgs) (boot threeStart) (contend ++ handOver) = some handedOver :=
    run_eq_getD _ (by decide +kernel)
  exact ⟨by decide +kernel, by decide +kernel, by decide +kernel, by decide +kernel,
    (always_excludes threeStart contend).last hcontend,
    (always_excludes threeStart (contend ++ handOver)).last hhandOver⟩

end Unos.Spinlock
