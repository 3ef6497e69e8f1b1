import Unos.Library.Runs
import Unos.Library.Tiling
import Unos.Kmalloc.Model

namespace Unos.Kmalloc

open Unos.Words Unos.Tiling Unos.Runs

/-- The test of `dmm_sbrk`, where `incr` is negative as an `int` from `2^31` on. -/
def Refuses (s : State) (incr : ℕ) : Prop :=
  0x80000000 ≤ incr ∨ s.memMaxAddr < wrap32 (s.memBrk + incr)

instance (s : State) (incr : ℕ) : Decidable (Refuses s incr) := inferInstanceAs (Decidable (_ ∨ _))

/-- `dmm_sbrk` where `PANIC`, which halts the processor until the next interrupt, returns, so that
it goes on to return -1. -/
def Returning.dmmSbrk (s : State) (incr : ℕ) : ℕ × State :=
  if Refuses s incr then (0xFFFFFFFF, s)
  else (s.memBrk, { s with memBrk := wrap32 (s.memBrk + incr) })

/-- Where `PANIC` halts, only the refusals are different. -/
theorem dmmSbrk_eq (s : State) (incr : ℕ) :
    dmmSbrk s incr = if Refuses s incr then .error .panic else .ok (Returning.dmmSbrk s incr) := by
  by_cases hrefuses : Refuses s incr
  · rw [if_pos hrefuses]
    exact if_pos hrefuses
  · rw [if_neg hrefuses, Returning.dmmSbrk, if_neg hrefuses]
    exact if_neg hrefuses

structure Grown where
  state : State
  given : List (ℕ × ℕ)

def sbrkStep (g : Grown) (incr : ℕ) : Option Grown :=
  let r := Returning.dmmSbrk g.state incr
  some ⟨r.2, if Refuses g.state incr then g.given else g.given ++ [(r.1, incr)]⟩

structure InBounds (start size : ℕ) (g : Grown) : Prop where
  low : g.state.memHeap ≤ g.state.memBrk
  high : g.state.memBrk ≤ g.state.memMaxAddr
  consecutive : Consecutive start g.given g.state.memBrk
  inside : ∀ r ∈ g.given, start ≤ r.1 ∧ r.1 + r.2 ≤ start + size
  apart : g.given.Pairwise fun r r' => r.1 + r.2 ≤ r'.1

def NoWrap (g : Grown) (incr : ℕ) : Prop :=
  0x80000000 ≤ incr ∨ g.state.memBrk + incr < 4294967296

instance (g : Grown) (incr : ℕ) : Decidable (NoWrap g incr) := inferInstanceAs (Decidable (_ ∨ _))

/-- The bounds that `dmm_init` sets. -/
structure Region (start size : ℕ) (g : Grown) : Prop where
  heap : g.state.memHeap = start
  max : g.state.memMaxAddr = start + size

variable {start size incr : ℕ} {g t : Grown}

theorem Region.step (hr : Region start size g) (hstep : sbrkStep g incr = some t) :
    Region start size t := by
  cases hstep
  rw [Returning.dmmSbrk]
  split_ifs
  · exact ⟨hr.heap, hr.max⟩
  · exact ⟨hr.heap, hr.max⟩

/-- A call keeps the bounds exactly when the sum does not wrap: a sum that does is below the break,
so it is not refused. -/
theorem InBounds.step_iff (hb : InBounds start size g) (hr : Region start size g)
    (hsize : start + size < 4294967296) (hstep : sbrkStep g incr = some t) :
    InBounds start size t ↔ NoWrap g incr := by
  have hhigh := hb.high
  have hmax := hr.max
  cases hstep
  by_cases hrefuses : Refuses g.state incr
  · rw [Returning.dmmSbrk, if_pos hrefuses, if_pos hrefuses]
    refine iff_of_true ⟨hb.low, hb.high, hb.consecutive, hb.inside, hb.apart⟩ ?_
    by_cases hneg : 0x80000000 ≤ incr
    · exact Or.inl hneg
    · have hfull := hrefuses.resolve_left hneg
      right
      unfold wrap32 at hfull
      omega
  · rw [Returning.dmmSbrk, if_neg hrefuses, if_neg hrefuses]
    obtain ⟨hpos, hroom⟩ := not_or.mp hrefuses
    constructor
    · intro ht
      have hlast := (ht.inside (g.state.memBrk, incr) (by simp)).2
      exact Or.inr (hlast.trans_lt hsize)
    · intro hnowrap
      rw [wrap32_of_lt (hnowrap.resolve_left hpos)] at hroom ⊢
      have hlow := hb.low
      have hconsecutive := hb.consecutive.concat incr
      refine ⟨?_, ?_, hconsecutive, fun r hrange => ?_, hconsecutive.apart⟩
      · dsimp only
        omega
      · exact Nat.le_of_not_lt hroom
      · obtain ⟨hfirst, hlast⟩ := hconsecutive.inside hrange
        omega

/-- A refused call changes nothing, and the break and the ranges stay in their bounds in every state
of a run exactly when no sum wraps. -/
theorem sbrk_inBounds_iff (s : State) {start size : ℕ} (hsize : start + size < 4294967296)
    (incrs : List ℕ) :
    (∀ (u : State) incr, Refuses u incr → Returning.dmmSbrk u incr = (0xFFFFFFFF, u)) ∧
    (Always sbrkStep (InBounds start size) ⟨dmmInit s start size, []⟩ incrs ↔
      Steps sbrkStep NoWrap ⟨dmmInit s start size, []⟩ incrs) := by
  have hmax : wrap32 (start + size) = start + size := wrap32_of_lt hsize
  refine ⟨fun u incr hrefuses => if_pos hrefuses, ?_⟩
  apply always_iff_steps (I := Region start size)
  · exact fun g incr t hr _ hstep _ => hr.step hstep
  · exact fun g incr t hr hb hstep => hb.step_iff hr hsize hstep
  · exact ⟨rfl, hmax⟩
  · refine ⟨Nat.le_refl start, ?_, rfl, ?_, List.Pairwise.nil⟩
    · show start ≤ wrap32 (start + size)
      omega
    · exact fun r hr => absurd hr List.not_mem_nil

/-- 64 KB in the upper half: two calls are served, and a negative increment is refused between
them. -/
theorem sbrk_inBounds_iff_upper :
    Always sbrkStep (InBounds 0xC0400000 0x10000)
      ⟨dmmInit ⟨fun _ => 0, 0, 0, 0, 0⟩ 0xC0400000 0x10000, []⟩ [4096, 0xFFFFFFFF, 8192] :=
  (sbrk_inBounds_iff _ (by decide) _).2.mpr (by decide +kernel)

/-- There a second increment of 2 GB wraps, and the break ends below the heap. -/
theorem sbrk_not_inBounds :
    ¬ Always sbrkStep (InBounds 0xC0400000 0x10000)
      ⟨dmmInit ⟨fun _ => 0, 0, 0, 0, 0⟩ 0xC0400000 0x10000, []⟩ [4096, 0x7FFFFFFF] := by
  intro halways
  have hlast : InBounds 0xC0400000 0x10000
      ((run sbrkStep ⟨dmmInit ⟨fun _ => 0, 0, 0, 0, 0⟩ 0xC0400000 0x10000, []⟩
        [4096, 0x7FFFFFFF]).getD ⟨⟨fun _ => 0, 0, 0, 0, 0⟩, []⟩) :=
    halways.last (run_eq_getD _ rfl)
  exact absurd hlast.low (by decide +kernel)

end Unos.Kmalloc
