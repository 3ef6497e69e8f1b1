import Mathlib.Data.List.Count
import Unos.Library.Links
import Unos.Timer.Model

namespace Unos.Timer

open Unos.Links Unos.Runs Unos.Words

variable {κ : Type*} {s s' : State κ}

/-- The callback of the node `a` is due on the next tick. -/
def Due (s : State κ) (a : ℕ) : Prop := wrap32 (s.jiffies + 1) % (s.nodes a).offset = 0

instance Due.decidable (s : State κ) (a : ℕ) : Decidable (Due s a) :=
  inferInstanceAs (Decidable (_ = _))

def Exact (s : State κ) : Prop :=
  ∃ called t, timerHandler s = some (called, t) ∧
    ∀ a, called.count a = if a ∈ s.live ∧ Due s a then 1 else 0

/-- The nodes of a list that the loop looks at. -/
def visited {α : Type*} : List α → List α
  | [] => []
  | a :: rest => a :: rest.dropLast

structure Inv (s : State κ) : Prop where
  path : Path (fun a => (s.nodes a).next) s.head s.live 0
  nodup : s.live.Nodup
  ne_zero : 0 ∉ s.live

theorem visited_sublist {α : Type*} (xs : List α) : (visited xs).Sublist xs := by
  cases xs with
  | nil => exact List.Sublist.refl []
  | cons a rest => exact (List.dropLast_sublist rest).cons_cons a

theorem visited_concat (xs : List ℕ) (z : ℕ) :
    visited (xs ++ [z]) = if xs = [] then [z] else xs := by
  cases xs with
  | nil => rfl
  | cons a rest =>
    rw [List.cons_append, visited, List.dropLast_concat, if_neg (List.cons_ne_nil a _)]

theorem dispatchLoop_eq {xs : List ℕ} {a fuel : ℕ}
    (h : Path (fun b => (s.nodes b).next) a xs 0) (hz : 0 ∉ xs) (hxs : xs ≠ [])
    (hfuel : xs.length ≤ fuel) :
    dispatchLoop s fuel a =
      some ((visited xs).filter fun b => s.jiffies % (s.nodes b).offset = 0) := by
  -- a round of the loop for each node but the last one
  induction xs generalizing a fuel with
  | nil => exact absurd rfl hxs
  | cons x rest ih =>
    obtain ⟨rfl, hrest⟩ := h
    obtain ⟨fuel, rfl⟩ : ∃ n, fuel = n + 1 :=
      Nat.exists_eq_succ_of_ne_zero (by simp at hfuel; omega)
    have hcalled : ([a].filter fun b => s.jiffies % (s.nodes b).offset = 0) =
        if s.jiffies % (s.nodes a).offset = 0 then [a] else [] := by
      simp [List.filter_cons]
    cases rest with
    | nil =>
      have hend : (s.nodes a).next = 0 := hrest
      simp [dispatchLoop, visited, hend, hcalled]
    | cons y more =>
      obtain ⟨hy, hmore⟩ := hrest
      have hy : (s.nodes a).next = y := hy
      have hy0 : y ≠ 0 := fun h => hz (h ▸ List.mem_cons_of_mem _ List.mem_cons_self)
      cases more with
      | nil =>
        have hend : (s.nodes y).next = 0 := hmore
        simp [dispatchLoop, visited, hy, hend, hcalled]
      | cons w more =>
        have hw : (s.nodes y).next = w := hmore.1
        have hw0 : w ≠ 0 := fun h => hz (by simp [h])
        have hrest : (y :: w :: more).length ≤ fuel := by
          simp at hfuel ⊢
          omega
        have hloop := ih (a := y) ⟨rfl, hmore⟩ (fun h => hz (List.mem_cons_of_mem _ h))
          (List.cons_ne_nil _ _) hrest
        rw [dispatchLoop]
        simp only [hy, hw, ne_eq, hy0, hw0, not_false_eq_true, and_self, if_true]
        rw [hloop, Option.map_some, ← hcalled, ← List.filter_append]
        rfl

theorem Inv.timerHandler_eq (h : Inv s) :
    timerHandler s = some ((visited s.live).filter fun a => decide (Due s a),
      { s with jiffies := wrap32 (s.jiffies + 1) }) := by
  by_cases hl : s.live = []
  · have hp := h.path
    rw [hl] at hp
    have hhead : s.head = 0 := hp
    simp [timerHandler, hhead, hl, visited]
  · have hhead : s.head ≠ 0 := by
      obtain ⟨a, rest, hl'⟩ := List.exists_cons_of_ne_nil hl
      have hp := h.path
      rw [hl'] at hp
      have hnz := h.ne_zero
      rw [hl', ← hp.1] at hnz
      exact fun h0 => hnz (h0 ▸ List.mem_cons_self)
    have hloop := dispatchLoop_eq (s := { s with jiffies := wrap32 (s.jiffies + 1) })
      h.path h.ne_zero hl le_rfl
    simp only [timerHandler, hhead, ne_eq, not_false_eq_true, if_true]
    rw [hloop]
    rfl

theorem Inv.register (h : Inv s) {callback : κ} {offset node : ℕ} (hnode : node ≠ 0)
    (hfresh : node ∉ s.live) : Inv (registerTimerCallback s callback offset node) where
  path := by
    have hnext : ((registerTimerCallback s callback offset node).nodes node).next = s.head := by
      simp [registerTimerCallback]
    have hrest : Path (fun a => ((registerTimerCallback s callback offset node).nodes a).next)
        s.head s.live 0 := by
      apply h.path.congr
      intro a ha
      have hne : a ≠ node := fun hn => hfresh (hn ▸ ha)
      simp [registerTimerCallback, hne]
    rw [← hnext] at hrest
    exact ⟨rfl, hrest⟩
  nodup := List.nodup_cons.mpr ⟨hfresh, h.nodup⟩
  ne_zero := List.not_mem_cons_of_ne_of_not_mem hnode.symm h.ne_zero

theorem Inv.step (h : Inv s) {e : Event κ} (hstep : timerStep s e = some s') : Inv s' := by
  cases e with
  | register callback offset node =>
    rw [timerStep, Option.ite_none_right_eq_some] at hstep
    obtain ⟨⟨hnode, hfresh, -⟩, hs⟩ := hstep
    rw [← Option.some.inj hs]
    exact h.register hnode hfresh
  | tick =>
    rw [timerStep, h.timerHandler_eq, Option.map_some] at hstep
    rw [← Option.some.inj hstep]
    exact ⟨h.path, h.nodup, h.ne_zero⟩

theorem Inv.run {nodes : ℕ → TimeListNode κ} {es : List (Event κ)}
    (h : run timerStep (.boot nodes) es = some s) : Inv s := by
  have hboot : Inv (.boot nodes) := ⟨by rfl, List.nodup_nil, List.not_mem_nil⟩
  exact run_invariant (fun _ _ _ hs hstep => hs.step hstep) hboot h

theorem Inv.exact_iff (h : Inv s) :
    Exact s ↔ ∀ a ∈ s.live, Due s a → a ∈ visited s.live := by
  have hcount : ∀ a, ((visited s.live).filter fun a => decide (Due s a)).count a =
      if a ∈ visited s.live ∧ Due s a then 1 else 0 := by
    intro a
    have hnd : ((visited s.live).filter fun a => decide (Due s a)).Nodup :=
      (h.nodup.sublist (visited_sublist _)).filter _
    rw [hnd.count]
    simp
  constructor
  · rintro ⟨called, t, hcall, hexact⟩ a ha hdue
    rw [h.timerHandler_eq, Option.some.injEq, Prod.mk.injEq] at hcall
    by_contra hv
    have hnone : called.count a = 0 := by
      rw [← hcall.1, hcount, if_neg fun hc => hv hc.1]
    have hone := hexact a
    rw [hnone, if_pos ⟨ha, hdue⟩] at hone
    omega
  · intro hall
    refine ⟨_, _, h.timerHandler_eq, fun a => ?_⟩
    rw [hcount]
    refine if_congr ⟨fun hc => ⟨(visited_sublist _).subset hc.1, hc.2⟩, fun hc => ?_⟩ rfl rfl
    exact ⟨hall a hc.1 hc.2, hc.2⟩

/-- The tick is exact when there is one callback, or when the callback that was registered
first is not due; otherwise that one is left out. -/
theorem timerHandler_exact_iff {nodes : ℕ → TimeListNode κ} {es : List (Event κ)}
    (hrun : run timerStep (.boot nodes) es = some s) (hne : s.live ≠ []) :
    Exact s ↔ s.live.length = 1 ∨ ¬ Due s (s.live.getLast hne) := by
  have hinv := Inv.run hrun
  rw [hinv.exact_iff]
  obtain ⟨xs, z, hl⟩ := (List.eq_nil_or_concat' s.live).resolve_left hne
  have hz : z ∉ xs := by
    have hnd := hinv.nodup
    rw [hl] at hnd
    exact fun hmem => List.disjoint_of_nodup_append hnd hmem List.mem_cons_self
  have hlast : s.live.getLast hne = z := by simp [hl]
  rw [hlast, hl, visited_concat]
  by_cases hxs : xs = []
  · simp [hxs]
  · have hlen : (xs ++ [z]).length ≠ 1 := by simp [hxs]
    rw [if_neg hxs]
    constructor
    · intro hall
      exact Or.inr fun hdue => hz (hall z (by simp) hdue)
    · rintro (h1 | hdue) a ha hda
      · exact absurd h1 hlen
      · rcases List.mem_append.mp ha with ha | ha
        · exact ha
        · exact absurd (List.mem_singleton.mp ha ▸ hda) hdue

def threeCallbacks : State ℕ :=
  (run timerStep (.boot fun _ => ⟨0, 0, 0, 0⟩)
    [.register 0 3 4096, .register 1 1 8192, .register 2 2 12288, .tick]).getD
    (.boot fun _ => ⟨0, 0, 0, 0⟩)

theorem timerHandler_exact_three : threeCallbacks.live = [12288, 8192, 4096] ∧
    Exact threeCallbacks := by
  have hrun : run timerStep (.boot fun _ => ⟨0, 0, 0, 0⟩)
      [.register 0 3 4096, .register 1 1 8192, .register 2 2 12288, .tick] =
      some threeCallbacks := run_eq_getD _ (by decide +kernel)
  have hlive : threeCallbacks.live = [12288, 8192, 4096] := by decide +kernel
  have hne : threeCallbacks.live ≠ [] := by
    rw [hlive]
    exact List.cons_ne_nil _ _
  have hlast : threeCallbacks.live.getLast hne = 4096 :=
    List.getLast_congr hne (List.cons_ne_nil 12288 [8192, 4096]) hlive
  have hfirst : ¬ Due threeCallbacks (threeCallbacks.live.getLast hne) := by
    rw [hlast]
    decide +kernel
  exact ⟨hlive, (timerHandler_exact_iff hrun hne).mpr (Or.inr hfirst)⟩

def twoCallbacks : State ℕ :=
  (run timerStep (.boot fun _ => ⟨0, 0, 0, 0⟩) [.register 0 1 4096, .register 1 1 8192]).getD
    (.boot fun _ => ⟨0, 0, 0, 0⟩)

/-- Only the second one is invoked. -/
theorem timerHandler_skips_first : ¬ Exact twoCallbacks := by
  rintro ⟨called, t, hcall, hexact⟩
  have hcalled : (timerHandler twoCallbacks).map Prod.fst = some [8192] := by decide +kernel
  rw [hcall, Option.map_some, Option.some.injEq] at hcalled
  have hcalled : called = [8192] := hcalled
  have hdue : 4096 ∈ twoCallbacks.live ∧ Due twoCallbacks 4096 := by decide +kernel
  have hone := hexact 4096
  rw [hcalled, if_pos hdue] at hone
  exact absurd hone (by decide)

end Unos.Timer
