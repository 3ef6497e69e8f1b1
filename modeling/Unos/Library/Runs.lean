import Mathlib.Data.List.Basic
import Mathlib.Tactic.Common

namespace Unos.Runs

variable {S O : Type*} {step : S → O → Option S}

/-- The state after a whole sequence of operations; `none` when one of them is not possible in the
state that it comes in. -/
def run (step : S → O → Option S) (s : S) (os : List O) : Option S := os.foldlM step s

@[simp] theorem run_nil (s : S) : run step s [] = some s := rfl

theorem run_cons (s : S) (o : O) (os : List O) :
    run step s (o :: os) = (step s o).bind fun t => run step t os := rfl

theorem run_append (s : S) (as bs : List O) :
    run step s (as ++ bs) = (run step s as).bind fun t => run step t bs := by
  simp only [run, List.foldlM_append]
  rfl

theorem run_concat {s t u : S} {os : List O} {o : O}
    (h : run step s os = some t) (ho : step t o = some u) :
    run step s (os ++ [o]) = some u := by
  rw [run_append, h]
  simp [run_cons, ho]

/-- A run that can be performed ends in the state that `getD` reads off. -/
theorem run_eq_getD {s : S} {os : List O} (d : S) (h : (run step s os).isSome) :
    run step s os = some ((run step s os).getD d) := by
  obtain ⟨t, ht⟩ := Option.isSome_iff_exists.mp h
  rw [ht, Option.getD_some]

/-- The same for a computation that does not fail. -/
theorem eq_ok_getD {ε : Type*} {x : Except ε S} (d : S) (h : x.isOk = true) :
    x = .ok (x.toOption.getD d) := by
  cases x with
  | error e => cases h
  | ok s => rfl

theorem run_invariant_mem {I : S → Prop} {s t : S} {os : List O}
    (hstep : ∀ s, ∀ o ∈ os, ∀ t, I s → step s o = some t → I t)
    (hs : I s) (h : run step s os = some t) : I t := by
  induction os generalizing s with
  | nil =>
    cases h
    exact hs
  | cons o os ih =>
    rw [run_cons, Option.bind_eq_some_iff] at h
    obtain ⟨u, hu, h⟩ := h
    exact ih (fun s o ho => hstep s o (List.mem_cons_of_mem _ ho))
      (hstep s o List.mem_cons_self u hs hu) h

/-- A property kept by every step is kept by every run. -/
theorem run_invariant {I : S → Prop} (hstep : ∀ s o t, I s → step s o = some t → I t)
    {s t : S} {os : List O} (hs : I s) (h : run step s os = some t) : I t :=
  run_invariant_mem (fun s o _ t => hstep s o t) hs h

/-- `P` holds of every state that the run visits, the first one included. -/
def Always (step : S → O → Option S) (P : S → Prop) : S → List O → Prop
  | s, [] => P s
  | s, o :: os => P s ∧ ∀ t, step s o = some t → Always step P t os

/-- Every operation that the run performs meets `C` in the state it is performed in. -/
def Steps (step : S → O → Option S) (C : S → O → Prop) : S → List O → Prop
  | _, [] => True
  | s, o :: os => ∀ t, step s o = some t → C s o ∧ Steps step C t os

theorem Always.head {P : S → Prop} {s : S} {os : List O} (h : Always step P s os) : P s := by
  cases os with
  | nil => exact h
  | cons o os => exact h.1

theorem Always.last {P : S → Prop} {s t : S} {os : List O} (h : Always step P s os)
    (hrun : run step s os = some t) : P t := by
  induction os generalizing s with
  | nil =>
    cases hrun
    exact h
  | cons o os ih =>
    rw [run_cons, Option.bind_eq_some_iff] at hrun
    obtain ⟨u, hu, hrun⟩ := hrun
    exact ih (h.2 u hu) hrun

theorem steps_append {C : S → O → Prop} {s : S} {as bs : List O} :
    Steps step C s (as ++ bs) ↔
      Steps step C s as ∧ ∀ t, run step s as = some t → Steps step C t bs := by
  induction as generalizing s with
  | nil => exact ⟨fun h => ⟨trivial, fun t ht => Option.some.inj ht ▸ h⟩, fun h => h.2 s rfl⟩
  | cons o as ih =>
    constructor
    · intro h
      refine ⟨fun u hu => ⟨(h u hu).1, (ih.mp (h u hu).2).1⟩, fun t ht => ?_⟩
      rw [run_cons, Option.bind_eq_some_iff] at ht
      obtain ⟨u, hu, ht⟩ := ht
      exact (ih.mp (h u hu).2).2 t ht
    · intro h u hu
      refine ⟨(h.1 u hu).1, ih.mpr ⟨(h.1 u hu).2, fun t ht => h.2 t ?_⟩⟩
      rw [run_cons, hu]
      exact ht

instance Always.decidable {P : S → Prop} [DecidablePred P] :
    (s : S) → (os : List O) → Decidable (Always step P s os)
  | s, [] => inferInstanceAs (Decidable (P s))
  | s, o :: os =>
    match h : step s o with
    | none => decidable_of_iff (P s)
      ⟨fun hs => ⟨hs, fun _ ht => nomatch h.symm.trans ht⟩, And.left⟩
    | some u =>
      have := Always.decidable (P := P) u os
      decidable_of_iff (P s ∧ Always step P u os)
        ⟨fun hs => ⟨hs.1, fun _ ht => Option.some.inj (h.symm.trans ht) ▸ hs.2⟩,
          fun hs => ⟨hs.1, hs.2 u h⟩⟩

instance Steps.decidable {C : S → O → Prop} [∀ s o, Decidable (C s o)] :
    (s : S) → (os : List O) → Decidable (Steps step C s os)
  | _, [] => isTrue trivial
  | s, o :: os =>
    match h : step s o with
    | none => isTrue fun _ ht => nomatch h.symm.trans ht
    | some u =>
      have := Steps.decidable (C := C) u os
      decidable_of_iff (C s o ∧ Steps step C u os)
        ⟨fun hs _ ht => Option.some.inj (h.symm.trans ht) ▸ hs, fun hs => hs u h⟩

/-- When one step keeps `P` only under `C`, as far as the operations meet `N`, a run whose states
all satisfy `P` has operations that all meet `C`. The invariant `I` holds as long as `P` does. -/
theorem steps_of_always {I P : S → Prop} {C N : S → O → Prop}
    (hI : ∀ s o t, I s → P s → N s o → step s o = some t → P t → I t)
    (hC : ∀ s o t, I s → P s → N s o → step s o = some t → P t → C s o)
    {s : S} (hs : I s) {os : List O} (hN : Steps step N s os) (h : Always step P s os) :
    Steps step C s os := by
  induction os generalizing s with
  | nil => trivial
  | cons o os ih =>
    intro t ht
    obtain ⟨hNo, hNrest⟩ := hN t ht
    have hPt : P t := (h.2 t ht).head
    exact ⟨hC s o t hs h.1 hNo ht hPt, ih (hI s o t hs h.1 hNo ht hPt) hNrest (h.2 t ht)⟩

/-- When it keeps `P` exactly under `C`, the two say the same of a run. -/
theorem always_iff_steps_of {I P : S → Prop} {C N : S → O → Prop}
    (hI : ∀ s o t, I s → P s → N s o → step s o = some t → P t → I t)
    (hP : ∀ s o t, I s → P s → N s o → step s o = some t → (P t ↔ C s o))
    {s : S} (hs : I s) (h0 : P s) {os : List O} (hN : Steps step N s os) :
    Always step P s os ↔ Steps step C s os := by
  constructor
  · exact steps_of_always hI (fun s o t hs h0 hNo ht => (hP s o t hs h0 hNo ht).mp) hs hN
  · induction os generalizing s with
    | nil => exact fun _ => h0
    | cons o os ih =>
      refine fun h => ⟨h0, fun t ht => ?_⟩
      obtain ⟨hC, hrest⟩ := h t ht
      obtain ⟨hNo, hNrest⟩ := hN t ht
      have hPt : P t := (hP s o t hs h0 hNo ht).mpr hC
      exact ih (hI s o t hs h0 hNo ht hPt) hPt hNrest hrest

theorem steps_true (s : S) (os : List O) : Steps step (fun _ _ => True) s os := by
  induction os generalizing s with
  | nil => trivial
  | cons o os ih => exact fun t _ => ⟨trivial, ih t⟩

theorem always_iff_steps {I P : S → Prop} {C : S → O → Prop}
    (hI : ∀ s o t, I s → P s → step s o = some t → P t → I t)
    (hP : ∀ s o t, I s → P s → step s o = some t → (P t ↔ C s o))
    {s : S} (hs : I s) (h0 : P s) (os : List O) :
    Always step P s os ↔ Steps step C s os :=
  always_iff_steps_of (fun s o t hs h0 _ => hI s o t hs h0) (fun s o t hs h0 _ => hP s o t hs h0)
    hs h0 (steps_true s os)

theorem Steps.mono {C D : S → O → Prop} (hCD : ∀ s o, C s o → D s o) {s : S} {os : List O}
    (hC : Steps step C s os) : Steps step D s os := by
  induction os generalizing s with
  | nil => trivial
  | cons o os ih => exact fun t ht => ⟨hCD s o (hC t ht).1, ih (hC t ht).2⟩

theorem Steps.and {C D : S → O → Prop} {s : S} {os : List O} (hC : Steps step C s os)
    (hD : Steps step D s os) : Steps step (fun s o => C s o ∧ D s o) s os := by
  induction os generalizing s with
  | nil => trivial
  | cons o os ih =>
    intro t ht
    exact ⟨⟨(hC t ht).1, (hD t ht).1⟩, ih (hC t ht).2 (hD t ht).2⟩

/-- Two conditions on operations that say the same in the states of an invariant, which holds as
long as they do. -/
theorem steps_congr {I : S → Prop} {P C : S → O → Prop}
    (hI : ∀ s o t, I s → C s o → step s o = some t → I t)
    (hP : ∀ s o t, I s → step s o = some t → (P s o ↔ C s o)) {s : S} (hs : I s) (os : List O) :
    Steps step P s os ↔ Steps step C s os := by
  induction os generalizing s with
  | nil => exact Iff.rfl
  | cons o os ih =>
    refine forall₂_congr fun t ht => ?_
    rw [hP s o t hs ht]
    exact and_congr_right fun hC => ih (hI s o t hs hC ht)

/-- An invariant that the operations of a run keep under `C` holds all along. -/
theorem always_of_steps {I P : S → Prop} {C : S → O → Prop}
    (hI : ∀ s o t, I s → C s o → step s o = some t → I t) (hP : ∀ s, I s → P s)
    {s : S} (hs : I s) {os : List O} (hC : Steps step C s os) : Always step P s os := by
  induction os generalizing s with
  | nil => exact hP s hs
  | cons o os ih =>
    refine ⟨hP s hs, fun t ht => ?_⟩
    obtain ⟨hCo, hrest⟩ := hC t ht
    exact ih (hI s o t hs hCo ht) hrest

end Unos.Runs
