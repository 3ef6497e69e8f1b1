import Unos.Library.Runs

namespace Unos.Runs

variable {S O : Type*} {step : S → O → Option S}

/-- What the operations of a run add up to, each counted in the state that it is performed in. -/
def tally (step : S → O → Option S) (f : S → O → ℕ) : S → List O → ℕ
  | _, [] => 0
  | s, o :: os => f s o + ((step s o).map fun t => tally step f t os).getD 0

theorem tally_cons {f : S → O → ℕ} {s t : S} {o : O} (h : step s o = some t) (os : List O) :
    tally step f s (o :: os) = f s o + tally step f t os := by
  rw [tally, h, Option.map_some, Option.getD_some]

theorem tally_balance {I : S → Prop} {a : S → ℕ} {f g : S → O → ℕ}
    (hI : ∀ s o t, I s → step s o = some t → I t)
    (hstep : ∀ s o t, I s → step s o = some t → a s + f s o = g s o + a t)
    {s t : S} {os : List O} (hs : I s) (h : run step s os = some t) :
    a s + tally step f s os = tally step g s os + a t := by
  induction os generalizing s with
  | nil =>
    cases h
    exact Nat.add_comm _ _
  | cons o os ih =>
    rw [run_cons, Option.bind_eq_some_iff] at h
    obtain ⟨u, hu, h⟩ := h
    have hone := hstep s o u hs hu
    have hrest := ih (hI s o u hs hu) h
    rw [tally_cons hu, tally_cons hu]
    omega

end Unos.Runs
