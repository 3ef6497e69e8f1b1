import Mathlib.Data.Finset.Card
import Mathlib.Logic.Relation
import Mathlib.Order.WellFounded
import Mathlib.Tactic.Common

namespace Unos.Nesting

open Relation

section Cycles

variable {α : Type*} {r : α → α → Prop} {a b : α}

theorem acc_of_reach (h : Acc (flip r) a) (hreach : ReflTransGen r a b) : Acc (flip r) b := by
  induction hreach with
  | refl => exact h
  | tail _ hstep ih => exact ih.inv hstep

theorem not_cycle_of_acc (h : Acc (flip r) a) : ¬ TransGen r a a := by
  induction h with
  | intro a _ ih =>
    intro hcycle
    obtain ⟨b, hab, hba⟩ := TransGen.head'_iff.mp hcycle
    exact ih b hab (TransGen.tail' hba hab)

end Cycles

variable {r : ℕ → ℕ → Prop} {n a : ℕ}

theorem acc_of_acyclic (hbound : ∀ a b, r a b → b < n)
    (h : ∀ b, ReflTransGen r a b → ¬ TransGen r b b) : Acc (flip r) a := by
  classical
  induction hcard : ((Finset.range n).filter fun x => TransGen r a x).card using Nat.strongRecOn
    generalizing a with
  | ind c ih =>
    constructor
    intro b hab
    have hb : b ∈ (Finset.range n).filter fun x => TransGen r a x :=
      Finset.mem_filter.mpr ⟨Finset.mem_range.mpr (hbound a b hab), .single hab⟩
    have hnot : b ∉ (Finset.range n).filter fun x => TransGen r b x :=
      fun hmem => h b (.single hab) (Finset.mem_filter.mp hmem).2
    have hsub : (Finset.range n).filter (fun x => TransGen r b x) ⊆
        (Finset.range n).filter fun x => TransGen r a x := by
      intro x hx
      obtain ⟨hxn, hbx⟩ := Finset.mem_filter.mp hx
      exact Finset.mem_filter.mpr ⟨hxn, .head hab hbx⟩
    have hlt := Finset.card_lt_card (Finset.ssubset_iff_of_subset hsub |>.mpr ⟨b, hb, hnot⟩)
    rw [hcard] at hlt
    exact ih _ hlt (fun x hx => h x (.head hab hx)) rfl

theorem acc_iff_acyclic (hbound : ∀ a b, r a b → b < n) :
    Acc (flip r) a ↔ ∀ b, ReflTransGen r a b → ¬ TransGen r b b :=
  ⟨fun h _ hreach => not_cycle_of_acc (acc_of_reach h hreach), acc_of_acyclic hbound⟩

section Levels

variable {C : ℕ → ℕ → Prop} (hzero : ∀ a, ¬ C 0 a)
  (hsucc : ∀ k a, C (k + 1) a ↔ ∀ b, r a b → C k b)
include hzero hsucc

theorem ok_mono {k l : ℕ} (hkl : k ≤ l) (h : C k a) : C l a := by
  induction k generalizing a l with
  | zero => exact absurd h (hzero a)
  | succ k ih =>
    obtain ⟨m, rfl⟩ := Nat.exists_eq_add_of_le' hkl
    rw [← Nat.add_assoc, hsucc] at *
    exact fun b hab => ih (Nat.le_add_left k m) (h b hab)

theorem acc_of_ok {k : ℕ} (h : C k a) : Acc (flip r) a := by
  induction k generalizing a with
  | zero => exact absurd h (hzero a)
  | succ k ih => exact ⟨a, fun b hab => ih ((hsucc k a).mp h b hab)⟩

theorem ok_common {P : ℕ → Prop} {m : ℕ} (h : ∀ b < m, P b → ∃ k, C k b) :
    ∃ k, ∀ b < m, P b → C k b := by
  induction m with
  | zero => exact ⟨0, fun b hb => absurd hb (Nat.not_lt_zero b)⟩
  | succ m ih =>
    obtain ⟨k, hk⟩ := ih fun b hb => h b (Nat.lt_succ_of_lt hb)
    by_cases hm : P m
    · obtain ⟨l, hl⟩ := h m (Nat.lt_succ_self m) hm
      refine ⟨max k l, fun b hb hP => ?_⟩
      rcases Nat.lt_succ_iff_lt_or_eq.mp hb with hbm | rfl
      · exact ok_mono hzero hsucc (Nat.le_max_left k l) (hk b hbm hP)
      · exact ok_mono hzero hsucc (Nat.le_max_right k l) hl
    · refine ⟨k, fun b hb hP => ?_⟩
      rcases Nat.lt_succ_iff_lt_or_eq.mp hb with hbm | rfl
      · exact hk b hbm hP
      · exact absurd hP hm

theorem ok_of_acc (hbound : ∀ a b, r a b → b < n) (h : Acc (flip r) a) : ∃ k, C k a := by
  induction h with
  | intro a _ ih =>
    obtain ⟨k, hk⟩ := ok_common hzero hsucc (P := r a) (m := n) fun b _ hab => ih b hab
    exact ⟨k + 1, (hsucc k a).mpr fun b hab => hk b (hbound a b hab) hab⟩

theorem returns_iff_acyclic (hbound : ∀ a b, r a b → b < n) :
    (∃ k, C k a) ↔ ∀ b, ReflTransGen r a b → ¬ TransGen r b b := by
  rw [← acc_iff_acyclic hbound]
  exact ⟨fun ⟨_, h⟩ => acc_of_ok hzero hsucc h, ok_of_acc hzero hsucc hbound⟩

end Levels

end Unos.Nesting
