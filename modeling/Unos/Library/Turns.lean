import Mathlib.Tactic.Common

namespace Unos.Turns

/-- How a turn ends. -/
inductive Turn (R S : Type*)
  | goOn (s : S)
  | stop (r : R) (s : S)
  | fault

variable {R R' S T : Type*}

/-- At most `n` turns. -/
def runTurns (turn : S → Turn R S) : ℕ → S → Turn R S
  | 0, s => .goOn s
  | n + 1, s =>
    match turn s with
    | .goOn s => runTurns turn n s
    | .stop r s => .stop r s
    | .fault => .fault

namespace Turn

def map (g : R → R') (f : S → T) : Turn R S → Turn R' T
  | .goOn s => .goOn (f s)
  | .stop r s => .stop (g r) (f s)
  | .fault => .fault

/-- The state that a turn ends in has the property. -/
def All (P : S → Prop) : Turn R S → Prop
  | .goOn s => P s
  | .stop _ s => P s
  | .fault => True

end Turn

variable {turn : S → Turn R S}

theorem runTurns_succ (turn : S → Turn R S) (n : ℕ) (s : S) : runTurns turn (n + 1) s =
    match turn s with
    | .goOn s => runTurns turn n s
    | .stop r s => .stop r s
    | .fault => .fault := rfl

theorem runTurns_map {turn' : T → Turn R' T} {g : R → R'} {f : S → T}
    (h : ∀ s, turn' (f s) = (turn s).map g f) (n : ℕ) (s : S) :
    runTurns turn' n (f s) = (runTurns turn n s).map g f := by
  induction n generalizing s with
  | zero => rfl
  | succ n ih =>
    rw [runTurns_succ, runTurns_succ, h]
    cases turn s with
    | goOn s => exact ih s
    | stop r s => rfl
    | fault => rfl

/-- A machine that does the same as another one wherever it is no fault, as long as `I` holds. -/
theorem runTurns_of_guarded {turn' : S → Turn R S} {I : S → Prop}
    (h : ∀ s, I s → turn' s ≠ .fault → turn s = turn' s)
    (hI : ∀ s, I s → (turn' s).All I) (n : ℕ) {s : S} (hs : I s)
    (hrun : runTurns turn' n s ≠ .fault) : runTurns turn n s = runTurns turn' n s := by
  induction n generalizing s with
  | zero => rfl
  | succ n ih =>
    have hkeep := hI s hs
    have hsame := h s hs
    rw [runTurns_succ] at hrun ⊢
    rw [runTurns_succ]
    cases hturn : turn' s with
    | goOn t =>
      rw [hturn] at hrun hkeep hsame
      rw [hsame fun hfault => nomatch hfault]
      exact ih hkeep hrun
    | stop r t =>
      rw [hturn] at hsame
      rw [hsame fun hfault => nomatch hfault]
    | fault =>
      rw [hturn] at hrun
      exact absurd rfl hrun

theorem runTurns_all {P : S → Prop} (h : ∀ s, P s → (turn s).All P) (n : ℕ) {s : S} (hs : P s) :
    (runTurns turn n s).All P := by
  induction n generalizing s with
  | zero => exact hs
  | succ n ih =>
    have hturn := h s hs
    rw [runTurns_succ]
    generalize turn s = a at hturn
    cases a with
    | goOn s => exact ih hturn
    | stop r s => exact hturn
    | fault => trivial

/-- After enough turns the machine has stopped with the result. -/
def Ends (turn : S → Turn R S) (s : S) (r : R) : Prop := ∃ n t, runTurns turn n s = .stop r t

variable {s t : S} {r : R}

theorem Ends.of_stop (h : turn s = .stop r t) : Ends turn s r := by
  use 1, t
  rw [runTurns_succ, h]

theorem Ends.of_goOn (h : turn s = .goOn t) (ht : Ends turn t r) : Ends turn s r := by
  obtain ⟨n, u, hrun⟩ := ht
  use n + 1, u
  rw [runTurns_succ, h]
  exact hrun

theorem Ends.of_path (states : ℕ → S) {n : ℕ}
    (h : ∀ k < n, turn (states k) = .goOn (states (k + 1)))
    (hn : Ends turn (states n) r) : Ends turn (states 0) r := by
  induction n generalizing states with
  | zero => exact hn
  | succ n ih =>
    have hrest : Ends turn (states 1) r :=
      ih (fun k => states (k + 1)) (fun k hk => h (k + 1) (Nat.succ_lt_succ hk)) hn
    exact hrest.of_goOn (h 0 (Nat.zero_lt_succ n))

/-- There is one result. -/
theorem Ends.unique {r' : R} (h : Ends turn s r) (h' : Ends turn s r') : r = r' := by
  obtain ⟨n, t, hrun⟩ := h
  obtain ⟨m, u, hrun'⟩ := h'
  induction n generalizing s m with
  | zero => cases hrun
  | succ n ih =>
    cases m with
    | zero => cases hrun'
    | succ m =>
      rw [runTurns_succ] at hrun hrun'
      cases hturn : turn s with
      | goOn v =>
        rw [hturn] at hrun hrun'
        exact ih hrun m hrun'
      | stop q v =>
        rw [hturn] at hrun hrun'
        cases hrun
        cases hrun'
        rfl
      | fault =>
        rw [hturn] at hrun
        cases hrun

end Unos.Turns
