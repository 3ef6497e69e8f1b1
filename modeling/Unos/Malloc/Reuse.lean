import Unos.Library.Search
import Unos.Malloc.Heap

namespace Unos.Malloc

open Unos.Words Unos.ByteMemory Unos.Tiling Unos.Search Unos.Runs

def IsBlock (s : State) (x : ℕ) : Prop :=
  ∃ hs, Tiles (blockLen s.mem) s.heapBegin s.lastAlloc hs ∧ x ∈ hs

/-- A block that was given back and records at least `size` bytes. -/
def FreedFor (h : Heap) (size x : ℕ) : Prop :=
  IsBlock h.state x ∧ x + 8 ∉ h.live.map Prod.fst ∧ size ≤ allocSize h.state.mem x

def HeaderKept (s t : State) (y : ℕ) : Prop := ∀ z, y ≤ z → z < y + 8 → t.mem z = s.mem z

section Calls

variable {h : Heap} {hs : List ℕ} {size x : ℕ}

theorem HeapInv.isBlock_iff (hi : HeapInv h hs) : IsBlock h.state x ↔ x ∈ hs := by
  constructor
  · rintro ⟨ks, htiles, hx⟩
    rwa [hi.tiles.unique htiles]
  · exact fun hx => ⟨hs, hi.tiles, hx⟩

theorem HeapInv.freedFor_iff (hi : HeapInv h hs) :
    FreedFor h size x ↔ x ∈ hs ∧ suits h.state.mem size x = true := by
  rw [FreedFor, hi.isBlock_iff, suits_iff]
  refine and_congr_right fun hx => and_congr_left fun _ => ?_
  rw [← hi.status x hx, not_not]

theorem HeapInv.malloc_freed (hi : HeapInv h hs) (hsize : size ≠ 0)
    (hfreed : ∃ x, FreedFor h size x) :
    ∃ x u, FreedFor h size x ∧ (∀ y, FreedFor h size y → x ≤ y) ∧
      malloc h.state size = .ok (x + 8, u) ∧ u.lastAlloc = h.state.lastAlloc ∧
      (∀ y, IsBlock h.state y → y ≠ x → HeaderKept h.state u y) ∧
      ∀ i, i < size → u.mem (x + 8 + i) = 0 := by
  have heq := hi.malloc_eq hsize
  cases hfind : hs.find? (suits h.state.mem size) with
  | none =>
    obtain ⟨x, hx⟩ := hfreed
    obtain ⟨hmem, hsuits⟩ := hi.freedFor_iff.mp hx
    exact absurd hsuits (List.find?_eq_none.mp hfind x hmem)
  | some x =>
    simp only [hfind] at heq
    have hx := List.mem_of_find?_eq_some hfind
    have hsuits := List.find?_some hfind
    have hle := (suits_iff.mp hsuits).2
    refine ⟨x, _, hi.freedFor_iff.mpr ⟨hx, hsuits⟩, fun y hy => ?_, heq, rfl,
      fun y hy hyx z hlow hhigh => ?_, fun i hlt => ?_⟩
    · obtain ⟨hmem, hysuits⟩ := hi.freedFor_iff.mp hy
      exact find?_least hi.tiles.sorted hfind hmem hysuits
    · have hapart := hi.tiles.disjoint (hi.isBlock_iff.mp hy) hx hyx
      unfold blockLen at hapart
      exact reuse_outside (by omega) (by omega)
    · dsimp only
      rw [fill_apply, if_pos (by omega)]
      rfl

theorem HeapInv.malloc_unfreed (hi : HeapInv h hs) (hsize : size ≠ 0)
    (hfit : h.state.lastAlloc + size + 8 < 4294967296) (hnone : ¬ ∃ x, FreedFor h size x) :
    malloc h.state size = .error .panic ∨
    ∃ u, malloc h.state size = .ok (h.state.lastAlloc + 8, u) ∧
      u.lastAlloc = h.state.lastAlloc + size + 12 ∧
      (∀ y, IsBlock h.state y → HeaderKept h.state u y) ∧
      ∀ i, i < size → u.mem (h.state.lastAlloc + 8 + i) = 0 := by
  obtain ⟨x, hx, hfree, hle, -⟩ | heq | ⟨-, heq⟩ := hi.malloc_cases hsize hfit
  · exact absurd ⟨x, hi.freedFor_iff.mpr ⟨hx, suits_iff.mpr ⟨hfree, hle⟩⟩⟩ hnone
  · exact Or.inl heq
  · refine Or.inr ⟨_, heq, rfl, fun y hy z hlow hhigh => ?_, fun i hlt => ?_⟩
    · have hbound := (hi.tiles.bounds (hi.isBlock_iff.mp hy)).2.2
      unfold blockLen at hbound
      exact append_outside (by omega)
    · dsimp only
      rw [fill_apply, if_pos (by omega)]
      rfl

end Calls

/-- After every run `malloc` takes the lowest freed block that is large enough, and grows the heap
only when there is none. What it returns is cleared. -/
theorem malloc_reuses_first (s : State) {start stop : ℕ} (hstart : start + 131072 < stop)
    (hstop : stop < 4294967296) {t : State} (hinit : initMm s start stop = .ok t) {ops : List Op}
    {h : Heap} (hrun : run heapStep ⟨t, [(t.pheapDesc, 32)]⟩ ops = some h) {size : ℕ}
    (hsize : 0 < size) (hfit : h.state.lastAlloc + size + 8 < 4294967296) :
    ((∃ x, FreedFor h size x) → ∃ x u, FreedFor h size x ∧ (∀ y, FreedFor h size y → x ≤ y) ∧
      malloc h.state size = .ok (x + 8, u) ∧ u.lastAlloc = h.state.lastAlloc ∧
      (∀ y, IsBlock h.state y → y ≠ x → HeaderKept h.state u y) ∧
      ∀ i, i < size → u.mem (x + 8 + i) = 0) ∧
    ((¬ ∃ x, FreedFor h size x) → malloc h.state size = .error .panic ∨
      ∃ u, malloc h.state size = .ok (h.state.lastAlloc + 8, u) ∧
        u.lastAlloc = h.state.lastAlloc + size + 12 ∧
        (∀ y, IsBlock h.state y → HeaderKept h.state u y) ∧
        ∀ i, i < size → u.mem (h.state.lastAlloc + 8 + i) = 0) := by
  rcases initMm_cases s hstart hstop with heq | ⟨t', heq, hs, hi⟩
  · rw [heq] at hinit
    cases hinit
  · rw [heq] at hinit
    cases hinit
    obtain ⟨hs', hh⟩ := hi.run hrun
    exact ⟨hh.malloc_freed (Nat.ne_of_gt hsize), hh.malloc_unfreed (Nat.ne_of_gt hsize) hfit⟩

/-- In a heap of 256 bytes 10 and 7 bytes are allocated, and the freed 10 are taken for 5. -/
theorem malloc_reuses_first_ten :
    let s : State := ⟨fun _ => 0, 0, 0, 0, 0, 0, 0, 0⟩
    let t := (initMm s 4096 135424).toOption.getD s
    let h := (run heapStep ⟨t, [(t.pheapDesc, 32)]⟩
      [.malloc 10, .malloc 7, .write 4149 255, .free 4148]).getD ⟨t, []⟩
    ∃ x u, malloc h.state 5 = .ok (x + 8, u) ∧ u.lastAlloc = h.state.lastAlloc := by
  intro s t h
  have ht : initMm s 4096 135424 = .ok t := eq_ok_getD s (by decide +kernel)
  have hrun : run heapStep ⟨t, [(t.pheapDesc, 32)]⟩
      [.malloc 10, .malloc 7, .write 4149 255, .free 4148] = some h :=
    run_eq_getD (⟨t, []⟩ : Heap) (by decide +kernel)
  have htiles : Tiles (blockLen h.state.mem) h.state.heapBegin h.state.lastAlloc
      [4096, 4140, 4162] := by
    decide +kernel
  have hfreed : FreedFor h 5 4140 :=
    ⟨⟨_, htiles, by decide⟩, by decide +kernel, by decide +kernel⟩
  obtain ⟨x, u, -, -, heq, hlast, -⟩ := (malloc_reuses_first s (by decide) (by decide) ht hrun
    (by decide : 0 < 5) (by decide +kernel)).1 ⟨4140, hfreed⟩
  exact ⟨x, u, heq, hlast⟩

end Unos.Malloc
