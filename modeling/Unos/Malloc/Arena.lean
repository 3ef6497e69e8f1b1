import Unos.Malloc.Heap

namespace Unos.Malloc

open Unos.Words Unos.ByteMemory Unos.Tiling Unos.Runs

def OutsideKept (s t : State) : Prop :=
  ∀ z, z < s.heapBegin ∨ s.heapEnd ≤ z → t.mem z = s.mem z

/-- The call halts, or returns 0 for a request of no bytes, or a pointer to `size` bytes of the
heap. -/
def MallocContained (s : State) (size : ℕ) : Prop :=
  match malloc s size with
  | .ok (p, t) => (size = 0 ∧ p = 0 ∨ s.heapBegin < p ∧ p + size ≤ s.heapEnd) ∧ OutsideKept s t
  | .error .panic => True
  | .error .outOfFuel => False

def KcallocContained (s : State) (num size : ℕ) : Prop :=
  match kcalloc s num size with
  | .ok (p, t) => (p = 0 ∨ s.heapBegin < p ∧ p + num * size ≤ s.heapEnd ∧
      num * size ≤ allocSize t.mem (p - 8)) ∧ OutsideKept s t
  | .error .panic => True
  | .error .outOfFuel => False

def Reusable (s : State) (size : ℕ) : Prop :=
  ∃ hs, Tiles (blockLen s.mem) s.heapBegin s.lastAlloc hs ∧ ∃ x ∈ hs, suits s.mem size x = true

def Refused (s : State) (size : ℕ) : Prop :=
  size ≠ 0 ∧ ¬ Reusable s size ∧ s.heapEnd ≤ wrap32 (s.lastAlloc + size + 8)

/-- The request is served without a new block, or refused, or the sum does not wrap. -/
def Fits (s : State) (size : ℕ) : Prop :=
  size = 0 ∨ Reusable s size ∨ Refused s size ∨ s.lastAlloc + size + 8 < 4294967296

def KcallocFits (s : State) (num size : ℕ) : Prop :=
  wrap32 (num * size) = 0 ∨ Refused s (wrap32 (num * size)) ∨
    num * size < 4294967296 ∧ Fits s (num * size)

/-- One operation, with requests of any 32-bit size. -/
def arenaStep (h : Heap) : Op → Option Heap
  | .malloc size =>
    if size < 4294967296 then
      match malloc h.state size with
      | .ok (p, s) => some ⟨s, if p = 0 then h.live else (p, size) :: h.live⟩
      | .error _ => none
    else none
  | .free p => heapStep h (.free p)
  | .write x v => heapStep h (.write x v)

def OpFits (h : Heap) : Op → Prop
  | .malloc size => Fits h.state size
  | .free _ | .write _ _ => True

section Calls

variable {h h' : Heap} {hs : List ℕ} {size : ℕ}

theorem HeapInv.reusable_iff (hi : HeapInv h hs) :
    Reusable h.state size ↔ ∃ x ∈ hs, suits h.state.mem size x = true := by
  constructor
  · rintro ⟨ks, htiles, hx⟩
    rwa [hi.tiles.unique htiles]
  · exact fun hx => ⟨hs, hi.tiles, hx⟩

theorem HeapInv.malloc_ends_in (hi : HeapInv h hs) (hsize : size ≠ 0) :
    (∃ x ∈ hs, suits h.state.mem size x = true ∧ malloc h.state size = .ok (x + 8,
      { h.state with
        mem := fill (store8 h.state.mem x 1) (x + 8) 0 size
        memoryUsed := wrap32 (h.state.memoryUsed + size + 8) })) ∨
    (Refused h.state size ∧ malloc h.state size = .error .panic) ∨
    ¬ Reusable h.state size ∧ wrap32 (h.state.lastAlloc + size + 8) < h.state.heapEnd ∧
      malloc h.state size = .ok (h.state.lastAlloc + 8,
        { h.state with
          mem := fill (store32 (store8 h.state.mem h.state.lastAlloc 1)
            (h.state.lastAlloc + 4) size)
            (h.state.lastAlloc + 8) 0 size
          lastAlloc := wrap32 (h.state.lastAlloc + size + 8 + 4)
          memoryUsed := wrap32 (h.state.memoryUsed + size + 4 + 8) }) := by
  have heq := hi.malloc_eq hsize
  cases hfind : hs.find? (suits h.state.mem size) with
  | some x =>
    simp only [hfind] at heq
    exact Or.inl ⟨x, List.mem_of_find?_eq_some hfind, List.find?_some hfind, heq⟩
  | none =>
    have hno : ¬ Reusable h.state size := by
      rw [hi.reusable_iff]
      rintro ⟨x, hx, hsuits⟩
      exact List.find?_eq_none.mp hfind x hx hsuits
    simp only [hfind] at heq
    by_cases hroom : h.state.heapEnd ≤ wrap32 (h.state.lastAlloc + size + 8)
    · rw [if_pos hroom] at heq
      exact Or.inr (Or.inl ⟨⟨hsize, hno, hroom⟩, heq⟩)
    · rw [if_neg hroom] at heq
      exact Or.inr (Or.inr ⟨hno, Nat.lt_of_not_le hroom, heq⟩)

theorem HeapInv.begin_le (hi : HeapInv h hs) : h.state.heapBegin ≤ h.state.lastAlloc := hi.tiles.le

theorem HeapInv.reuse_contained (hi : HeapInv h hs) {x : ℕ} (hx : x ∈ hs)
    (hsuits : suits h.state.mem size x = true) :
    h.state.heapBegin < x + 8 ∧ x + 8 + size ≤ h.state.heapEnd ∧
      ∀ z, z < h.state.heapBegin ∨ h.state.heapEnd ≤ z →
        fill (store8 h.state.mem x 1) (x + 8) 0 size z = h.state.mem z := by
  have hlow := (hi.tiles.bounds hx).1
  have hhigh := (hi.sized x hx).2
  have hle := (suits_iff.mp hsuits).2
  exact ⟨by omega, by omega, fun z hz => reuse_outside (by omega) (by omega)⟩

theorem HeapInv.append_contained (hi : HeapInv h hs)
    (hroom : h.state.lastAlloc + size + 8 < h.state.heapEnd) :
    h.state.heapBegin < h.state.lastAlloc + 8 ∧ h.state.lastAlloc + 8 + size ≤ h.state.heapEnd ∧
      ∀ z, z < h.state.heapBegin ∨ h.state.heapEnd ≤ z →
        fill (store32 (store8 h.state.mem h.state.lastAlloc 1) (h.state.lastAlloc + 4) size)
          (h.state.lastAlloc + 8) 0 size z = h.state.mem z := by
  have hlow := hi.begin_le
  exact ⟨by omega, by omega, fun z hz => append_outside (by omega)⟩

theorem HeapInv.mallocContained_iff (hi : HeapInv h hs) :
    MallocContained h.state size ↔ Fits h.state size := by
  have htop := hi.top
  by_cases hsize : size = 0
  · refine iff_of_true ?_ (Or.inl hsize)
    rw [MallocContained, malloc, if_pos hsize]
    exact ⟨Or.inl ⟨hsize, rfl⟩, fun z _ => rfl⟩
  rcases hi.malloc_ends_in hsize with ⟨x, hx, hsuits, heq⟩ | ⟨hrefused, heq⟩ | ⟨hno, hroom, heq⟩
  · obtain ⟨hlow, hhigh, hkept⟩ := hi.reuse_contained hx hsuits
    rw [MallocContained, heq]
    exact iff_of_true ⟨Or.inr ⟨hlow, hhigh⟩, hkept⟩
      (Or.inr (Or.inl (hi.reusable_iff.mpr ⟨x, hx, hsuits⟩)))
  · rw [MallocContained, heq]
    exact iff_of_true trivial (Or.inr (Or.inr (Or.inl hrefused)))
  · rw [MallocContained, heq]
    constructor
    · rintro ⟨⟨h0, -⟩ | ⟨-, hhigh⟩, -⟩
      · exact absurd h0 hsize
      · exact Or.inr (Or.inr (Or.inr (by omega)))
    · rintro (h0 | hreuse | hrefused | hlt)
      · exact absurd h0 hsize
      · exact absurd hreuse hno
      · exact absurd hrefused.2.2 hroom.not_ge
      · rw [wrap32_of_lt hlt] at hroom
        obtain ⟨hlow, hhigh, hkept⟩ := hi.append_contained hroom
        exact ⟨Or.inr ⟨hlow, hhigh⟩, hkept⟩

theorem HeapInv.malloc_recorded (hi : HeapInv h hs) (hsize : size ≠ 0) (hlt : size < 4294967296)
    {p : ℕ} {t : State} (hok : malloc h.state size = .ok (p, t)) :
    p ≠ 0 ∧ ¬ Refused h.state size ∧ size ≤ allocSize t.mem (p - 8) ∧
      fill t.mem p 0 size = t.mem := by
  rcases hi.malloc_ends_in hsize with ⟨x, hx, hsuits, heq⟩ | ⟨hrefused, heq⟩ | ⟨hno, hroom, heq⟩
  · have hle := (suits_iff.mp hsuits).2
    have hkept := (hi.headers_kept hx (m := fill (store8 h.state.mem x 1) (x + 8) 0 size)
      (fun z hz hout => reuse_outside hz (by omega)) hx).1
    rw [heq] at hok
    cases hok
    refine ⟨Nat.succ_ne_zero _, fun hrefused => ?_, ?_, fill_fill _ _ _ _⟩
    · exact hrefused.2.1 (hi.reusable_iff.mpr ⟨x, hx, hsuits⟩)
    · rwa [Nat.add_sub_cancel, hkept]
  · rw [heq] at hok
    cases hok
  · rw [heq] at hok
    cases hok
    refine ⟨Nat.succ_ne_zero _, fun hrefused => ?_, ?_, fill_fill _ _ _ _⟩
    · exact hrefused.2.2.not_gt hroom
    · rw [Nat.add_sub_cancel, allocSize_append _ _ hlt]

theorem HeapInv.kcalloc_eq (hi : HeapInv h hs) (num : ℕ) :
    kcalloc h.state num size = malloc h.state (wrap32 (num * size)) := by
  rw [kcalloc]
  by_cases hsize : wrap32 (num * size) = 0
  · rw [hsize, malloc, if_pos rfl]
    rfl
  · cases hok : malloc h.state (wrap32 (num * size)) with
    | error e => rfl
    | ok r =>
      have hfill := (hi.malloc_recorded hsize (wrap32_lt _) hok).2.2.2
      simp only [hfill]

theorem HeapInv.kcallocContained_iff (hi : HeapInv h hs) {num : ℕ} :
    KcallocContained h.state num size ↔ KcallocFits h.state num size := by
  have hcontained : MallocContained h.state (wrap32 (num * size)) ↔ _ := hi.mallocContained_iff
  rw [KcallocContained, hi.kcalloc_eq, KcallocFits]
  by_cases hsize : wrap32 (num * size) = 0
  · refine iff_of_true ?_ (Or.inl hsize)
    rw [hsize, malloc, if_pos rfl]
    exact ⟨Or.inl rfl, fun z _ => rfl⟩
  · rw [or_iff_right hsize]
    rw [MallocContained] at hcontained
    cases hok : malloc h.state (wrap32 (num * size)) with
    | error e =>
      simp only [hok] at hcontained
      rcases hi.malloc_ends_in hsize with ⟨x, -, -, heq⟩ | ⟨hrefused, heq⟩ | ⟨-, -, heq⟩
      · cases hok.symm.trans heq
      · obtain rfl : e = .panic := Except.error.inj (hok.symm.trans heq)
        exact iff_of_true trivial (Or.inl hrefused)
      · cases hok.symm.trans heq
    | ok r =>
      obtain ⟨p, t⟩ := r
      obtain ⟨hp, hserved, hrecorded, -⟩ := hi.malloc_recorded hsize (wrap32_lt _) hok
      simp only [hok] at hcontained
      rw [or_iff_right hserved]
      dsimp only
      rw [or_iff_right hp]
      constructor
      · rintro ⟨⟨hlow, hhigh, hprod⟩, hkept⟩
        have hlt : num * size < 4294967296 := hprod.trans_lt (load32_lt _ _)
        rw [wrap32_of_lt hlt] at hcontained
        exact ⟨hlt, hcontained.mp ⟨Or.inr ⟨hlow, hhigh⟩, hkept⟩⟩
      · rintro ⟨hlt, hfits⟩
        rw [wrap32_of_lt hlt] at hcontained hrecorded
        obtain ⟨⟨-, h0⟩ | ⟨hlow, hhigh⟩, hkept⟩ := hcontained.mpr hfits
        · exact absurd h0 hp
        · exact ⟨⟨hlow, hhigh, hrecorded⟩, hkept⟩

theorem HeapInv.arena_effect (hi : HeapInv h hs) {op : Op} (hfits : OpFits h op)
    (hstep : arenaStep h op = some h') : Effect h hs op h' := by
  cases op with
  | malloc size =>
    have htop := hi.top
    rw [arenaStep] at hstep
    split_ifs at hstep with hlt
    by_cases hsize : size = 0
    · rw [malloc, if_pos hsize] at hstep
      cases hstep
      rw [hsize]
      exact .none
    · rcases hi.malloc_ends_in hsize with ⟨x, hx, hsuits, heq⟩ | ⟨hrefused, heq⟩ | ⟨hno, hroom, heq⟩
      · rw [heq] at hstep
        simp only [if_neg (Nat.succ_ne_zero (x + 7))] at hstep
        cases hstep
        exact .reuse hsize hx hsuits
      · rw [heq] at hstep
        cases hstep
      · -- a request that fits is not one whose sum wraps
        have hsum : h.state.lastAlloc + size + 8 < 4294967296 := by
          rcases hfits with h0 | hreuse | hrefused | hsum
          · exact absurd h0 hsize
          · exact absurd hreuse hno
          · exact absurd hroom hrefused.2.2.not_gt
          · exact hsum
        rw [wrap32_of_lt hsum] at hroom
        rw [heq] at hstep
        simp only [if_neg (Nat.succ_ne_zero (h.state.lastAlloc + 7)),
          wrap32_of_lt (show h.state.lastAlloc + size + 8 + 4 < 4294967296 by omega)] at hstep
        cases hstep
        exact .append hsize hroom
  | free p => exact free_effect hstep
  | write x v => exact write_effect hstep

theorem HeapInv.arena_run (hi : HeapInv h hs) {ops : List Op}
    (hfits : Steps arenaStep OpFits h ops) (hrun : Runs.run arenaStep h ops = some h') :
    ∃ hs', HeapInv h' hs' :=
  (always_of_steps (I := fun h => ∃ hs, HeapInv h hs) (P := fun h => ∃ hs, HeapInv h hs)
    (fun _ _ _ ⟨_, hi⟩ hop hstep => (hi.arena_effect hop hstep).inv hi)
      (fun _ hi => hi) ⟨hs, hi⟩ hfits).last hrun

end Calls

/-- After every run of requests that fit, a call stays inside the heap exactly when its request
fits. -/
theorem arena_contained_iff (s : State) {start stop : ℕ} (hstart : start + 131072 < stop)
    (hstop : stop < 4294967296) {t : State} (hinit : initMm s start stop = .ok t) {ops : List Op}
    {h : Heap} (hfits : Steps arenaStep OpFits ⟨t, [(t.pheapDesc, 32)]⟩ ops)
    (hrun : run arenaStep ⟨t, [(t.pheapDesc, 32)]⟩ ops = some h) :
    (∀ size < 4294967296, MallocContained h.state size ↔ Fits h.state size) ∧
    ∀ num < 4294967296, ∀ size < 4294967296,
      KcallocContained h.state num size ↔ KcallocFits h.state num size := by
  rcases initMm_cases s hstart hstop with heq | ⟨t', heq, hs, hi⟩
  · rw [heq] at hinit
    cases hinit
  · rw [heq] at hinit
    cases hinit
    obtain ⟨hs', hh⟩ := hi.arena_run hfits hrun
    exact ⟨fun size _ => hh.mallocContained_iff, fun num _ size _ => hh.kcallocContained_iff⟩

def kmainHeap : Heap :=
  let t := (initMm ⟨fun _ => 0, 0, 0, 0, 0, 0, 0, 0⟩ 0xC0110000 0xC03FF000).toOption.getD
    ⟨fun _ => 0, 0, 0, 0, 0, 0, 0, 0⟩
  ⟨t, [(t.pheapDesc, 32)]⟩

/-- Of two blocks the first is freed; 64 bytes are in place then. -/
theorem arena_contained_iff_kmain :
    let h := (run arenaStep kmainHeap [.malloc 100, .malloc 200, .free 0xC0110034]).getD kmainHeap
    h.live.length = 2 ∧ MallocContained h.state 64 ∧ KcallocContained h.state 4 16 := by
  intro h
  have hinit : initMm ⟨fun _ => 0, 0, 0, 0, 0, 0, 0, 0⟩ 0xC0110000 0xC03FF000 =
      .ok kmainHeap.state := eq_ok_getD _ (by decide +kernel)
  have hfits : Steps arenaStep OpFits kmainHeap [.malloc 100, .malloc 200, .free 0xC0110034] := by
    refine fun u hu => ⟨Or.inr (Or.inr (Or.inr (by decide +kernel))), fun v _ => ?_⟩
    have hread : (arenaStep kmainHeap (.malloc 100)).getD kmainHeap = u := by
      rw [hu]
      rfl
    refine ⟨Or.inr (Or.inr (Or.inr ?_)), fun _ _ => ⟨trivial, trivial⟩⟩
    rw [← hread]
    decide +kernel
  have hrun : run arenaStep kmainHeap [.malloc 100, .malloc 200, .free 0xC0110034] = some h :=
    run_eq_getD kmainHeap (by decide +kernel)
  obtain ⟨hmalloc, hkcalloc⟩ := arena_contained_iff _ (by decide) (by decide) hinit hfits hrun
  have hroom : Fits h.state 64 := Or.inr (Or.inr (Or.inr (by decide +kernel)))
  exact ⟨by decide +kernel, (hmalloc 64 (by decide)).mpr hroom,
    (hkcalloc 4 (by decide) 16 (by decide)).mpr (Or.inr (Or.inr ⟨by decide, hroom⟩))⟩

/-- Below `0xC03FF000` the sum wraps for a request of 1 GB, and the product for 268435457 cells of
16 bytes. -/
theorem arena_not_contained :
    let s : State := ⟨fun _ => 0, 0, 0, 0, 0, 0, 0, 0⟩
    let t := (initMm s 0xC0110000 0xC03FF000).toOption.getD s
    initMm s 0xC0110000 0xC03FF000 = .ok t ∧
      ¬ MallocContained t 0x40000000 ∧ ¬ KcallocContained t 0x10000001 16 := by
  intro s t
  have ht : initMm s 0xC0110000 0xC03FF000 = .ok t := eq_ok_getD s (by decide +kernel)
  obtain heq | ⟨u, heq, hs, hi⟩ := initMm_cases s
    (by decide : 0xC0110000 + 131072 < 0xC03FF000) (by decide)
  · rw [ht] at heq
    cases heq
  · obtain rfl : t = u := Except.ok.inj (ht.symm.trans heq)
    have hlast : t.lastAlloc = 0xC011002C := by decide +kernel
    have hend : t.heapEnd = 0xC03DF000 := by decide +kernel
    have htiles : Tiles (blockLen t.mem) t.heapBegin t.lastAlloc [0xC0110000] := by decide +kernel
    refine ⟨ht, fun hcontained => ?_, fun hcontained => ?_⟩
    · rcases hi.mallocContained_iff.mp hcontained with h0 | hreuse | ⟨-, -, hfull⟩ | hsum
      · exact absurd h0 (by decide)
      · obtain ⟨x, hx, hsuits⟩ := hi.reusable_iff.mp hreuse
        rw [hi.tiles.unique htiles, List.mem_singleton] at hx
        rw [hx] at hsuits
        exact absurd hsuits (by decide +kernel)
      · rw [hlast, hend] at hfull
        exact absurd hfull (by decide +kernel)
      · rw [hlast] at hsum
        exact absurd hsum (by decide)
    · rcases hi.kcallocContained_iff.mp hcontained with h0 | ⟨-, -, hfull⟩ | ⟨hprod, -⟩
      · exact absurd h0 (by decide +kernel)
      · rw [hlast, hend] at hfull
        exact absurd hfull (by decide +kernel)
      · exact absurd hprod (by decide)

end Unos.Malloc
