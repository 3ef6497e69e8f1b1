import Unos.Library.Loops
import Unos.Pmm.Contiguous
import Unos.Vmm.Agreement

namespace Unos.Vmm

open Unos.Words Unos.ByteMemory Unos.Loops

/-- `pmm_alloc_blocks` on the frames. -/
def allocBlocks (s : Frames) (size : ℕ) : ℕ × Frames :=
  ((Pmm.pmmAllocBlocks s.1 size).1, ⟨(Pmm.pmmAllocBlocks s.1 size).2, by
    rw [Pmm.pmmAllocBlocks_maxBlocks]
    exact s.2⟩)

structure AllocLoop where
  i : ℕ
  pageCount : ℕ
  state : State Frames

def allocTurn (dir p va attr : ℕ) (l : AllocLoop) : AllocLoop where
  i := l.i
  pageCount := wrap32 (l.pageCount + 1)
  state := vmmMapPage pmmFrames l.state dir (wrap32 (p + l.i * 4096))
    (wrap32 (va + l.i * 4096)) attr

/-- `none` where `PANIC` halts for a null directory, and while the loop goes on. -/
def vmmAllocPage (fuel : ℕ) (s : State Frames) (dir va sz attr : ℕ) :
    Option (Bool × State Frames) :=
  if dir = 0 then none
  else
    let pageCount := sub32 sz 1
    let r := allocBlocks s.pmm (wrap32 (pageCount + 1))
    (loop (fun l : AllocLoop => l.i ≤ l.pageCount) (allocTurn dir r.1 va attr) fuel
      ⟨0, pageCount, { s with pmm := r.2 }⟩).map fun l => (true, l.state)

/-- The call returns. If there are blocks for the pages it has mapped them, and if there are none
it reports so; no other translation is changed. -/
def MapsRange (s : State Frames) (dir va sz attr : ℕ) : Prop :=
  let p := (allocBlocks s.pmm sz).1
  ∃ fuel success t, vmmAllocPage fuel s dir va sz attr = some (success, t) ∧
    (p = 0 → success = false) ∧
    ∀ v < 4294967296, virt2phys t.mem dir v =
      if p ≠ 0 ∧ va / 4096 ≤ v / 4096 ∧ v / 4096 < va / 4096 + sz then p + (v - va)
      else virt2phys s.mem dir v

variable {s : State Frames} {dir p va attr pageCount : ℕ}

theorem vmmAllocPage_none (fuel : ℕ) (s : State Frames) (dir va sz attr : ℕ) :
    vmmAllocPage fuel s dir va sz attr = none := by
  have hgoes : ∀ (p : ℕ) (l : AllocLoop), l.i = 0 →
      loop (fun l : AllocLoop => l.i ≤ l.pageCount) (allocTurn dir p va attr) fuel l = none := by
    intro p l hl
    apply loop_eq_none (I := fun l : AllocLoop => l.i = 0)
    · exact fun _ hi => hi
    · intro l hi
      rw [hi]
      exact Nat.zero_le _
    · exact hl
  rw [vmmAllocPage]
  split_ifs
  · rfl
  · rw [Option.map_eq_none_iff]
    exact hgoes _ _ rfl

/-- No call maps a range, whatever its arguments are. -/
theorem vmmAllocPage_never (s : State Frames) (dir va sz attr : ℕ) :
    ¬ MapsRange s dir va sz attr := by
  rintro ⟨fuel, success, t, hcall, -⟩
  rw [vmmAllocPage_none] at hcall
  exact nomatch hcall

/-- One page at 4 MB, with a block for it. -/
theorem vmmAllocPage_not_single :
    (allocBlocks smallPaging.pmm 1).1 ≠ 0 ∧
      ¬ MapsRange smallPaging smallPaging.kpageDir 0x400000 1 7 := by
  refine ⟨by decide +kernel, ?_⟩
  rintro ⟨fuel, success, t, hcall, -⟩
  rw [vmmAllocPage_none] at hcall
  exact nomatch hcall

end Unos.Vmm
