import Mathlib.Logic.Function.Iterate
import Mathlib.Tactic.Common

namespace Unos.Loops

variable {S : Type*} (test : S → Prop) [DecidablePred test] (body : S → S)

/-- The state that the loop leaves within so many tests, `none` if it goes on. -/
def loop : ℕ → S → Option S
  | 0, _ => none
  | n + 1, s => if test s then loop n (body s) else some s

variable {test body}

theorem loop_of_test {s : S} (h : test s) (n : ℕ) :
    loop test body (n + 1) s = loop test body n (body s) := if_pos h

theorem loop_of_not_test {s : S} (h : ¬ test s) (n : ℕ) : loop test body (n + 1) s = some s :=
  if_neg h

/-- The loop returns after `n` turns exactly when the test fails then for the first time. -/
theorem loop_eq_some_iff {s t : S} :
    (∃ fuel, loop test body fuel s = some t) ↔
      ∃ n, (∀ k < n, test (body^[k] s)) ∧ ¬ test (body^[n] s) ∧ t = body^[n] s := by
  constructor
  · rintro ⟨fuel, hloop⟩
    induction fuel generalizing s with
    | zero => exact nomatch hloop
    | succ fuel ih =>
      by_cases htest : test s
      · rw [loop_of_test htest] at hloop
        obtain ⟨n, hturns, hstop, ht⟩ := ih hloop
        refine ⟨n + 1, fun k hk => ?_, hstop, ht⟩
        cases k with
        | zero => exact htest
        | succ k => exact hturns k (Nat.lt_of_succ_lt_succ hk)
      · rw [loop_of_not_test htest] at hloop
        exact ⟨0, fun _ hk => absurd hk (Nat.not_lt_zero _), htest, (Option.some.inj hloop).symm⟩
  · rintro ⟨n, hturns, hstop, rfl⟩
    induction n generalizing s with
    | zero => exact ⟨1, loop_of_not_test hstop 0⟩
    | succ n ih =>
      have hfirst : test s := hturns 0 (Nat.zero_lt_succ n)
      obtain ⟨fuel, hloop⟩ :=
        ih (s := body s) (fun k hk => hturns (k + 1) (Nat.succ_lt_succ hk)) hstop
      exact ⟨fuel + 1, (loop_of_test hfirst fuel).trans hloop⟩

theorem loop_eq_none {I : S → Prop} (hbody : ∀ s, I s → I (body s))
    (htest : ∀ s, I s → test s) {s : S} (hs : I s) (fuel : ℕ) : loop test body fuel s = none := by
  induction fuel generalizing s with
  | zero => rfl
  | succ fuel ih => exact (loop_of_test (htest s hs) fuel).trans (ih (hbody s hs))

end Unos.Loops
