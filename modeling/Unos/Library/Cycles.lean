import Mathlib.Data.Fintype.Pigeonhole
import Mathlib.Dynamics.PeriodicPts.Defs

namespace Unos.Cycles

open Function

variable {α : Type*} {f : α → α} {x : α} {j k m : ℕ}

theorem exists_iterate_mem_periodicPts [Finite α] (f : α → α) (x : α) :
    ∃ n, f^[n] x ∈ periodicPts f := by
  obtain ⟨m, n, hne, heq⟩ := Finite.exists_ne_map_eq_of_infinite fun n => f^[n] x
  wlog hlt : m < n generalizing m n
  · exact this n m hne.symm heq.symm (by omega)
  refine ⟨m, mk_mem_periodicPts (Nat.sub_pos_of_lt hlt) ?_⟩
  rw [IsPeriodicPt, IsFixedPt, ← iterate_add_apply, Nat.sub_add_cancel hlt.le]
  exact heq.symm

/-- The points of the sequence that are on the cycle are those from `tail` on. -/
def IsTail (f : α → α) (x : α) (tail : ℕ) : Prop := ∀ k, f^[k] x ∈ periodicPts f ↔ tail ≤ k

theorem iterate_mem_periodicPts (h : x ∈ periodicPts f) (n : ℕ) : f^[n] x ∈ periodicPts f := by
  obtain ⟨p, hp, hx⟩ := h
  exact mk_mem_periodicPts hp (hx.apply_iterate n)

theorem exists_isTail [Finite α] (f : α → α) (x : α) : ∃ tail, IsTail f x tail := by
  classical
  have hcycle := exists_iterate_mem_periodicPts f x
  refine ⟨Nat.find hcycle, fun k => ⟨fun hk => Nat.find_min' hcycle hk, fun hle => ?_⟩⟩
  obtain ⟨j, rfl⟩ := Nat.exists_eq_add_of_le hle
  rw [Nat.add_comm, iterate_add_apply]
  exact iterate_mem_periodicPts (Nat.find_spec hcycle) j

/-- How long the cycle is that the sequence comes to. -/
noncomputable def period (f : α → α) (x : α) (tail : ℕ) : ℕ := minimalPeriod f (f^[tail] x)

variable {tail : ℕ}

theorem IsTail.period_pos (h : IsTail f x tail) : 0 < period f x tail :=
  minimalPeriod_pos_of_mem_periodicPts ((h tail).mpr (Nat.le_refl tail))

theorem IsTail.iterate_eq_iff (h : IsTail f x tail) (hm : 0 < m) :
    f^[k] x = f^[k + m] x ↔ tail ≤ k ∧ period f x tail ∣ m := by
  have hshift : f^[k + m] x = f^[m] (f^[k] x) := by rw [Nat.add_comm, iterate_add_apply]
  have hperiodic : f^[k] x = f^[k + m] x ↔ IsPeriodicPt f m (f^[k] x) := by
    rw [hshift]
    exact eq_comm
  rw [hperiodic]
  constructor
  · intro hk
    have hle : tail ≤ k := (h k).mp (mk_mem_periodicPts hm hk)
    obtain ⟨j, rfl⟩ := Nat.exists_eq_add_of_le hle
    refine ⟨hle, ?_⟩
    rw [Nat.add_comm, iterate_add_apply] at hk
    rw [period, ← minimalPeriod_apply_iterate ((h tail).mpr (Nat.le_refl tail)) j]
    exact hk.minimalPeriod_dvd
  · rintro ⟨hle, hdvd⟩
    obtain ⟨j, rfl⟩ := Nat.exists_eq_add_of_le hle
    rw [Nat.add_comm, iterate_add_apply]
    exact (isPeriodicPt_iff_minimalPeriod_dvd.mpr hdvd).apply_iterate j

/-- The hare goes twice as fast, and they meet for the first time after `meet` steps. -/
structure IsMeeting (f : α → α) (x : α) (meet : ℕ) : Prop where
  pos : 0 < meet
  meets : f^[2 * meet] x = f^[meet] x
  first : ∀ k, 0 < k → k < meet → f^[2 * k] x ≠ f^[k] x

theorem IsTail.meets_iff (h : IsTail f x tail) (hk : 0 < k) :
    f^[2 * k] x = f^[k] x ↔ tail ≤ k ∧ period f x tail ∣ k := by
  rw [← h.iterate_eq_iff hk, Nat.two_mul]
  exact eq_comm

theorem IsTail.exists_isMeeting (h : IsTail f x tail) : ∃ meet, IsMeeting f x meet := by
  classical
  have hpos := h.period_pos
  have hsome : ∃ k, 0 < k ∧ f^[2 * k] x = f^[k] x := by
    have hlong : 0 < period f x tail * (tail + 1) := Nat.mul_pos hpos (Nat.succ_pos tail)
    refine ⟨period f x tail * (tail + 1), hlong,
      (h.meets_iff hlong).mpr ⟨?_, Nat.dvd_mul_right _ _⟩⟩
    calc tail ≤ 1 * (tail + 1) := by omega
      _ ≤ period f x tail * (tail + 1) := Nat.mul_le_mul_right _ hpos
  obtain ⟨hfind, hmeets⟩ := Nat.find_spec hsome
  exact ⟨Nat.find hsome, hfind, hmeets, fun k hk hlt heq => Nat.find_min hsome hlt ⟨hk, heq⟩⟩

/-- When one of them starts again at `x` and both go equally fast, they meet from where the cycle
begins on. -/
theorem IsMeeting.again_iff {meet : ℕ} (hmeet : IsMeeting f x meet) (h : IsTail f x tail) :
    f^[j] x = f^[meet + j] x ↔ tail ≤ j := by
  have hdvd : period f x tail ∣ meet := ((h.meets_iff hmeet.pos).mp hmeet.meets).2
  rw [Nat.add_comm, h.iterate_eq_iff hmeet.pos]
  exact and_iff_left hdvd

end Unos.Cycles
