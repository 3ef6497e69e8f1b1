import Unos.Kmalloc.Heap

namespace Unos.Kmalloc

open Unos.Words Unos.ByteMemory Unos.BoundaryTags Unos.Runs

def InBlock (m : Mem) (bp z : ℕ) : Prop := hdrp bp ≤ z ∧ z < ftrp m bp + 4

/-- The call halts, or returns `NULL`, or a block of the heap with `size` bytes between its tags,
apart from the blocks that are live. -/
def Delivers (h : Heap) (size : ℕ) : Prop :=
  match mmMalloc h.state size with
  | .ok (bp, t) => bp ≠ 0 →
      8 ∣ bp ∧ bp + size ≤ ftrp t.mem bp ∧ get t.mem (ftrp t.mem bp) = get t.mem (hdrp bp) ∧
      (∀ z, InBlock t.mem bp z → t.memHeap ≤ z ∧ z < t.memBrk) ∧
      ∀ p ∈ h.live, ∀ z, InBlock t.mem bp z → ¬ InBlock t.mem p z
  | .error .panic => True
  | .error .outOfFuel => False

/-- Rounding does not wrap, or `NULL` is returned for a high break, or no chunk is left. -/
def RoundFits (s : State) (size : ℕ) : Prop :=
  size + 15 < 4294967296 ∨ 0x80000000 ≤ s.memBrk ∨ s.memMaxAddr < s.memBrk + chunksize

def BreakFits (s : State) (size : ℕ) : Prop :=
  0x80000000 ≤ extendsize size ∨ s.memBrk + extendsize size < 4294967296

/-- One operation, with requests of any 32-bit size. -/
def requestStep (h : Heap) : Op → Option Heap
  | .malloc size =>
    if size < 4294967296 then
      match mmMalloc h.state size with
      | .ok (bp, s) => some ⟨s, if bp = 0 then h.live else bp :: h.live⟩
      | .error _ => none
    else none
  | .free bp => heapStep h (.free bp)

def RequestFits (h : Heap) : Op → Prop
  | .malloc size => size = 0 ∨ RoundFits h.state size ∧ BreakFits h.state size
  | .free _ => True

/-- The blocks reach up to `stop`. That is the break, unless a request was refused because the
break is too high; from then on no block is added. -/
structure Standing (h : Heap) (bs : List Block) (stop : ℕ) : Prop where
  inv : Inv ⟨{ h.state with memBrk := stop }, h.live⟩ bs
  le : stop ≤ h.state.memBrk
  top : h.state.memBrk ≤ h.state.memMaxAddr
  high : stop = h.state.memBrk ∨ 0x80000000 ≤ h.state.memBrk

structure Held (h : Heap) (bs : List Block) (stop : ℕ) : Prop extends Standing h bs stop where
  dvd : 8 ∣ h.state.heapListp
  base : h.state.memHeap + 8 = h.state.heapListp

variable {h t : Heap} {bs : List Block} {stop size : ℕ}

theorem dmmSbrk_base {s u : State} {incr p : ℕ} (hok : dmmSbrk s incr = .ok (p, u)) :
    u.heapListp = s.heapListp ∧ u.memHeap = s.memHeap := by
  rw [dmmSbrk] at hok
  split_ifs at hok
  cases hok
  exact ⟨rfl, rfl⟩

theorem extendHeap_base {s u : State} {words bp : ℕ} (hok : extendHeap s words = .ok (bp, u)) :
    u.heapListp = s.heapListp ∧ u.memHeap = s.memHeap := by
  rw [extendHeap] at hok
  cases hsbrk : dmmSbrk s (if words % 2 ≠ 0 then wrap32 ((words + 1) * wsize)
      else wrap32 (words * wsize)) with
  | error e =>
    rw [hsbrk] at hok
    cases hok
  | ok r =>
    have hbase := dmmSbrk_base hsbrk
    rw [hsbrk] at hok
    by_cases hhigh : 0x80000000 ≤ r.1
    · simp only [if_pos hhigh] at hok
      cases hok
      exact hbase
    · simp only [if_neg hhigh] at hok
      cases hok
      exact hbase

theorem mmMalloc_base {s u : State} {bp : ℕ} (hok : mmMalloc s size = .ok (bp, u)) :
    u.heapListp = s.heapListp ∧ u.memHeap = s.memHeap := by
  rw [mmMalloc] at hok
  by_cases hsize : size = 0
  · rw [if_pos hsize] at hok
    cases hok
    exact ⟨rfl, rfl⟩
  · rw [if_neg hsize] at hok
    cases hfind : findFit s.mem (adjust size) s.fuel s.heapListp with
    | error e =>
      simp only [hfind] at hok
      cases hok
    | ok p =>
      simp only [hfind] at hok
      by_cases hp : p = 0
      · rw [if_neg (not_not.mpr hp)] at hok
        cases hext : extendHeap s
            ((if chunksize < adjust size then adjust size else chunksize) / wsize) with
        | error e =>
          rw [hext] at hok
          cases hok
        | ok r =>
          have hbase := extendHeap_base hext
          rw [hext] at hok
          dsimp only at hok
          split_ifs at hok with hnull
          · cases hok
            exact hbase
          · cases hok
            exact hbase
      · rw [if_pos hp] at hok
        cases hok
        exact ⟨rfl, rfl⟩

theorem le_adjust (hfit : size + 15 < 4294967296) : size + 8 ≤ adjust size := by
  unfold adjust dsize overhead
  split_ifs with hsmall
  · omega
  · rw [wrap32_of_lt (by omega : size + 8 + (8 - 1) < 4294967296), wrap32_of_lt (by omega)]
    omega

theorem extendsize_of_wrap (hlt : size < 4294967296) (hwrap : 4294967296 ≤ size + 15) :
    extendsize size = chunksize := by
  have hadjust : adjust size ≤ 8 := by
    unfold adjust dsize overhead
    have hsum : wrap32 (size + 8 + (8 - 1)) ≤ 14 := by
      unfold wrap32
      omega
    rw [if_neg (by omega), wrap32_of_lt (by omega)]
    omega
  unfold extendsize chunksize
  rw [if_neg (by omega)]

theorem placed_head (bp : ℕ) {n asize : ℕ} (hle : asize ≤ n) :
    ∃ k zs, placed bp n asize = ⟨bp, k, true⟩ :: zs ∧ asize ≤ k := by
  rw [placed]
  split_ifs
  · exact ⟨asize, _, rfl, Nat.le_refl _⟩
  · exact ⟨n, _, rfl, hle⟩

section Blocks

variable {s : State}

theorem HeapInv.inBlock_iff (hi : HeapInv s bs) {x : Block} (hx : x ∈ bs) {z : ℕ} :
    InBlock s.mem x.addr z ↔ x.addr ≤ z + 4 ∧ z + 4 < x.addr + x.size := by
  have htop := hi.top
  have hmax := hi.max
  have haddr := hi.addr_gt hx
  have hmem : x ∈ (⟨s.heapListp, 8, true⟩ : Block) :: bs := List.mem_cons_of_mem _ hx
  have htag := hi.layout.tagged hmem
  have hbound := (hi.layout.bounds hmem).2
  have hsize := htag.size_ge
  rw [InBlock, hdrp_eq (by omega) (by omega), ftrp_eq htag (by omega) (by omega)]
  omega

theorem HeapInv.delivered {zs : List Block} {bp k : ℕ} (hi : HeapInv s (bs ++ ⟨bp, k, true⟩ :: zs))
    (hdvd : 8 ∣ s.heapListp) (hbase : s.memHeap + 8 = s.heapListp) (hk : size + 8 ≤ k) :
    8 ∣ bp ∧ bp + size ≤ ftrp s.mem bp ∧ get s.mem (ftrp s.mem bp) = get s.mem (hdrp bp) ∧
      (∀ z, InBlock s.mem bp z → s.memHeap ≤ z ∧ z < s.memBrk) ∧
      ∀ x ∈ bs, ∀ z, InBlock s.mem bp z → ¬ InBlock s.mem x.addr z := by
  let y : Block := ⟨bp, k, true⟩
  have hy : y ∈ bs ++ y :: zs := by simp
  have hlow := hi.low
  have htop := hi.top
  have hmax := hi.max
  have haddr : 16 < bp := hi.addr_gt hy
  have hlay : Layout s.mem s.heapListp ((⟨s.heapListp, 8, true⟩ :: bs) ++ y :: zs) s.memBrk :=
    hi.layout
  have htag := hlay.tagged (x := y) (by simp)
  have hbound : s.heapListp ≤ bp ∧ bp + k ≤ s.memBrk := hlay.bounds (x := y) (by simp)
  have hprologue : s.heapListp + 8 ≤ bp := hlay.before (z := ⟨s.heapListp, 8, true⟩) (by simp)
  have hftrp : ftrp s.mem bp = bp + k - 8 := ftrp_eq htag (by show 4 ≤ bp; omega)
    (by show bp + k < _; omega)
  have hin : ∀ z, InBlock s.mem bp z ↔ bp ≤ z + 4 ∧ z + 4 < bp + k := fun z => hi.inBlock_iff hy
  refine ⟨hlay.dvd_addr hdvd (x := y) (by simp), ?_, ?_, fun z hz => ?_, fun x hx z hz hxz => ?_⟩
  · rw [hftrp]
    omega
  · rw [hftrp, hdrp_eq (by omega) (by omega), get, get]
    exact htag.footer.trans htag.header.symm
  · rw [hin] at hz
    omega
  · -- the blocks before it end where it starts
    have hbefore : x.addr + x.size ≤ bp := hlay.before (z := x) (List.mem_cons_of_mem _ hx)
    rw [hin] at hz
    rw [hi.inBlock_iff (List.mem_append_left _ hx)] at hxz
    omega

theorem HeapInv.mmMalloc_wrapped (hi : HeapInv s bs) (hbrk : s.memBrk < 0x80000000)
    (hlt : size < 4294967296) (hwrap : 4294967296 ≤ size + 15) :
    (s.memMaxAddr < s.memBrk + chunksize ∧ mmMalloc s size = .error .panic) ∨
    (s.memBrk + chunksize ≤ s.memMaxAddr ∧ ∃ t, mmMalloc s size = .ok (s.memBrk, t)) := by
  have hlow := hi.low
  have htop := hi.top
  have hmax := hi.max
  have hle := hi.layout.le
  have heq := mmMalloc_eq hi.layout hi.epilogue (by omega) (by omega) (Nat.le_refl _)
    (by omega : size ≠ 0)
  rw [extendsize_of_wrap hlt hwrap] at heq
  rcases hi.extendHeap_cases (n := chunksize) (by decide) (by decide) (by decide) with
    ⟨hpanic, hext⟩ | ⟨-, hhigh, -⟩ | ⟨-, hroom, m, hext, -⟩
  · left
    rw [hext] at heq
    unfold chunksize at hpanic ⊢
    rw [wrap32_of_lt (by omega)] at hpanic
    exact ⟨by omega, heq⟩
  · exact absurd hhigh hbrk.not_ge
  · right
    rw [hext] at heq
    dsimp only at heq
    rw [if_neg (by omega)] at heq
    exact ⟨hroom, _, heq⟩

end Blocks

theorem Standing.layout (hh : Standing h bs stop) :
    Layout h.state.mem h.state.heapListp (⟨h.state.heapListp, 8, true⟩ :: bs) stop :=
  hh.inv.heap.layout

theorem Standing.bounds (hh : Standing h bs stop) :
    8 < h.state.heapListp ∧ stop < 4294967296 ∧ h.state.memBrk < 4294967296 := by
  have hmax : h.state.memMaxAddr < 4294967296 := hh.inv.heap.max
  have hbrk := hh.top.trans_lt hmax
  exact ⟨hh.inv.heap.low, hh.le.trans_lt hbrk, hbrk⟩

theorem Standing.findFit_eq (hh : Standing h bs stop) (asize : ℕ) :
    findFit h.state.mem asize h.state.fuel h.state.heapListp = .ok 0 := by
  obtain ⟨hlow, hstop, -⟩ := hh.bounds
  have hlen := hh.layout.length_le
  have hle := hh.le
  exact Kmalloc.findFit_eq hh.layout hh.inv.heap.epilogue (by omega) hstop asize
    (by unfold State.fuel; omega)

theorem Standing.mmMalloc_eq (hh : Standing h bs stop) (hsize : size ≠ 0) :
    mmMalloc h.state size = match extendHeap h.state (extendsize size / wsize) with
      | .error e => .error e
      | .ok (bp, t) =>
        if bp = 0 then .ok (0, t) else .ok
            (bp, { t with mem := place t.mem bp (adjust size) }) := by
  obtain ⟨hlow, hstop, -⟩ := hh.bounds
  exact Kmalloc.mmMalloc_eq hh.layout hh.inv.heap.epilogue (by omega) hstop hh.le hsize

theorem Standing.malloc_high (hh : Standing h bs stop) (hhigh : 0x80000000 ≤ h.state.memBrk)
    (hsize : size ≠ 0) :
    mmMalloc h.state size = .error .panic ∨
    (extendsize size < 0x80000000 ∧
      wrap32 (h.state.memBrk + extendsize size) ≤ h.state.memMaxAddr ∧
      mmMalloc h.state size =
        .ok (0, { h.state with memBrk := wrap32 (h.state.memBrk + extendsize size) })) := by
  obtain ⟨hdvd, -, -, hlt⟩ := extendsize_spec size
  have hext := extendHeap_high h.state hdvd hlt hhigh
  have heq := hh.mmMalloc_eq hsize
  rw [hext] at heq
  by_cases hpanic : 0x80000000 ≤ extendsize size ∨
      h.state.memMaxAddr < wrap32 (h.state.memBrk + extendsize size)
  · rw [if_pos hpanic] at heq
    exact Or.inl heq
  · rw [if_neg hpanic] at heq
    rw [not_or] at hpanic
    exact Or.inr ⟨Nat.lt_of_not_le hpanic.1, Nat.le_of_not_lt hpanic.2, heq⟩

/-- Below `2^31` the blocks reach up to the break. -/
theorem Standing.inv_of_low (hh : Standing h bs stop) (hlow : h.state.memBrk < 0x80000000) :
    Inv h bs := by
  have hstop : stop = h.state.memBrk := hh.high.resolve_right hlow.not_ge
  have hinv := hh.inv
  rwa [hstop] at hinv

theorem Held.delivers_iff (hh : Held h bs stop) (hsize : size ≠ 0) (hlt : size < 4294967296) :
    Delivers h size ↔ RoundFits h.state size := by
  have htop := hh.top
  have hmax : h.state.memMaxAddr < 4294967296 := hh.inv.heap.max
  by_cases hhigh : 0x80000000 ≤ h.state.memBrk
  · refine iff_of_true ?_ (Or.inr (Or.inl hhigh))
    rcases hh.malloc_high hhigh hsize with heq | ⟨-, -, heq⟩
    · rw [Delivers, heq]
      trivial
    · rw [Delivers, heq]
      exact fun hne => absurd rfl hne
  · have hlow : h.state.memBrk < 0x80000000 := Nat.lt_of_not_le hhigh
    have hi := hh.inv_of_low hlow
    by_cases hfit : size + 15 < 4294967296
    · refine iff_of_true ?_ (Or.inl hfit)
      rcases hi.heap.mmMalloc_cases hsize hfit
        with heq | ⟨n, -, -, hbrk, -⟩ | ⟨-, m, n, hn, heq, hnew⟩
      · rw [Delivers, heq]
        trivial
      · exact absurd hbrk hhigh
      · obtain ⟨k, zs, hplaced, hk⟩ := placed_head h.state.memBrk hn
        rw [hplaced] at hnew
        obtain ⟨h8, hpayload, htags, hinside, hapart⟩ :=
          hnew.delivered hh.dvd hh.base ((le_adjust hfit).trans hk)
        rw [Delivers, heq]
        refine fun _ => ⟨h8, hpayload, htags, hinside, fun p hp => ?_⟩
        obtain ⟨x, hx, rfl, -⟩ := (hi.live p).mp hp
        exact hapart x hx
    · rcases hi.heap.mmMalloc_wrapped hlow hlt (Nat.le_of_not_lt hfit) with
        ⟨hfull, heq⟩ | ⟨hroom, u, heq⟩
      · refine iff_of_true ?_ (Or.inr (Or.inr hfull))
        rw [Delivers, heq]
        trivial
      · have hbegin : 8 < h.state.heapListp := hi.heap.low
        have hbelow := hi.heap.layout.2.2.le
        refine iff_of_false ?_ ?_
        · -- no block has as many bytes
          rw [Delivers, heq]
          intro hdelivers
          have hpayload := (hdelivers (by omega)).2.1
          have hend := hpayload.trans_lt (sub32_lt _ _)
          omega
        · rintro (hfit' | hbrk | hfull)
          · exact hfit hfit'
          · exact hhigh hbrk
          · exact absurd hroom hfull.not_ge

/-- Operations that fit keep the blocks, also after a request that was refused. -/
theorem Standing.step (hh : Standing h bs stop) {op : Op} (hfits : RequestFits h op)
    (hstep : requestStep h op = some t) : ∃ bs' stop', Standing t bs' stop' := by
  have htop := hh.top
  have hmax : h.state.memMaxAddr < 4294967296 := hh.inv.heap.max
  cases op with
  | malloc size =>
    rw [requestStep] at hstep
    split_ifs at hstep with hlt
    by_cases hsize : size = 0
    · have hnull : mmMalloc h.state size = .ok (0, h.state) := if_pos hsize
      rw [hnull] at hstep
      cases hstep
      exact ⟨bs, stop, hh⟩
    · obtain ⟨hround, hbreak⟩ := hfits.resolve_left hsize
      by_cases hhigh : 0x80000000 ≤ h.state.memBrk
      · rcases hh.malloc_high hhigh hsize with heq | ⟨hsmall, hroom, heq⟩
        · rw [heq] at hstep
          cases hstep
        · -- the break moves on and the blocks stay behind
          have hsum := hbreak.resolve_left hsmall.not_ge
          rw [wrap32_of_lt hsum] at hroom heq
          rw [heq] at hstep
          cases hstep
          have hle := hh.le
          exact ⟨bs, stop, hh.inv, by dsimp only; omega, hroom, Or.inr (by dsimp only; omega)⟩
      · have hi := hh.inv_of_low (Nat.lt_of_not_le hhigh)
        by_cases hfit : size + 15 < 4294967296
        · rcases hi.heap.mmMalloc_cases hsize hfit with heq | ⟨n, -, -, hbrk, -⟩ |
            ⟨-, m, n, hn, heq, hnew⟩
          · rw [heq] at hstep
            cases hstep
          · exact absurd hbrk hhigh
          · rw [heq] at hstep
            cases hstep
            have hbegin : 8 < h.state.heapListp := hi.heap.low
            have hbelow := hi.heap.layout.le
            rw [if_neg (by omega)]
            exact ⟨_, _, hi.placed hnew, Nat.le_refl _, hnew.top, Or.inl rfl⟩
        · -- no chunk is left, so the kernel halts
          have hfull := (hround.resolve_left hfit).resolve_left hhigh
          rcases hi.heap.mmMalloc_wrapped (Nat.lt_of_not_le hhigh) hlt (Nat.le_of_not_lt hfit) with
            ⟨-, heq⟩ | ⟨hroom, -⟩
          · rw [heq] at hstep
            cases hstep
          · exact absurd hroom hfull.not_ge
  | free bp =>
    rw [requestStep, heapStep] at hstep
    split_ifs at hstep with hlive
    cases hstep
    obtain ⟨x, hx, rfl, -⟩ := (hh.inv.live bp).mp hlive
    obtain ⟨xs, ys, rfl⟩ := List.append_of_mem hx
    exact ⟨_, stop, hh.inv.free, hh.le, hh.top, hh.high⟩

theorem requestStep_base {op : Op} (hstep : requestStep h op = some t) :
    t.state.heapListp = h.state.heapListp ∧ t.state.memHeap = h.state.memHeap := by
  cases op with
  | malloc size =>
    rw [requestStep] at hstep
    split_ifs at hstep with hlt
    cases hok : mmMalloc h.state size with
    | error e =>
      rw [hok] at hstep
      cases hstep
    | ok r =>
      rw [hok] at hstep
      cases hstep
      exact mmMalloc_base hok
  | free bp =>
    rw [requestStep, heapStep] at hstep
    split_ifs at hstep with hlive
    cases hstep
    exact ⟨rfl, rfl⟩

theorem Held.step (hh : Held h bs stop) {op : Op} (hfits : RequestFits h op)
    (hstep : requestStep h op = some t) : ∃ bs' stop', Held t bs' stop' := by
  obtain ⟨bs', stop', ht⟩ := hh.toStanding.step hfits hstep
  obtain ⟨hlist, hmem⟩ := requestStep_base hstep
  refine ⟨bs', stop', ht, ?_, ?_⟩
  · rw [hlist]
    exact hh.dvd
  · rw [hlist, hmem]
    exact hh.base

theorem Standing.run (hh : Standing h bs stop) {ops : List Op}
    (hfits : Steps requestStep RequestFits h ops) (hrun : Runs.run requestStep h ops = some t) :
    ∃ bs' stop', Standing t bs' stop' :=
  (always_of_steps (I := fun h => ∃ bs stop, Standing h bs stop)
    (P := fun h => ∃ bs stop, Standing h bs stop)
    (fun _ _ _ ⟨_, _, hh⟩ hop hstep => hh.step hop hstep)
      (fun _ hh => hh) ⟨bs, stop, hh⟩ hfits).last
    hrun

theorem Held.run (hh : Held h bs stop) {ops : List Op} (hfits : Steps requestStep RequestFits h ops)
    (hrun : Runs.run requestStep h ops = some t) : ∃ bs' stop', Held t bs' stop' :=
  (always_of_steps (I := fun h => ∃ bs stop, Held h bs stop) (P := fun h => ∃ bs stop,
    Held h bs stop) (fun _ _ _ ⟨_, _, hh⟩ hop hstep => hh.step hop hstep) (fun _ hh =>
      hh) ⟨bs, stop, hh⟩ hfits).last
    hrun

theorem mmInit_standing {s t : State} {base len : ℕ} (hbase : base + 16 < 4294967296)
    (hinit : mmInit (dmmInit s base len) = .ok (0, t)) :
    Standing ⟨t, []⟩ [⟨t.heapListp + 8, 4096, false⟩] t.memBrk :=
  ⟨mmInit_heap hbase hinit, Nat.le_refl _, (mmInit_inv hbase hinit).1.top, Or.inl rfl⟩

theorem mmInit_held {s t : State} {base len : ℕ} (h8 : 8 ∣ base) (hbase : base < 0x80000000)
    (hinit : mmInit (dmmInit s base len) = .ok (0, t)) :
    Held ⟨t, []⟩ [⟨t.heapListp + 8, 4096, false⟩] t.memBrk := by
  obtain ⟨-, hmem, hlist⟩ := mmInit_inv (by omega) hinit
  refine ⟨mmInit_standing (by omega) hinit, ?_, ?_⟩
  · dsimp only
    omega
  · dsimp only
    omega

/-- After every run of requests that fit, `mm_malloc` delivers what was asked for exactly when the
size is rounded without a wrap, or no block is returned. -/
theorem mmMalloc_delivers_iff {s t : State} {base len : ℕ} (h8 : 8 ∣ base)
    (hbase : base < 0x80000000) (hinit : mmInit (dmmInit s base len) = .ok (0, t))
    {ops : List Op} {h : Heap} (hfits : Steps requestStep RequestFits ⟨t, []⟩ ops)
    (hrun : run requestStep ⟨t, []⟩ ops = some h) {size : ℕ} (hsize : 0 < size)
    (hlt : size < 4294967296) : Delivers h size ↔ RoundFits h.state size := by
  obtain ⟨bs, stop, hh⟩ := (mmInit_held h8 hbase hinit).run hfits hrun
  exact hh.delivers_iff (Nat.ne_of_gt hsize) hlt

/-- 100 bytes are allocated and freed, and 200 bytes are delivered. -/
theorem mmMalloc_delivers_iff_small :
    let h := (run requestStep smallHeap [.malloc 100, .free 69648]).getD smallHeap
    Delivers h 200 := by
  intro h
  have hfits : Steps requestStep RequestFits smallHeap [.malloc 100, .free 69648] := by
    refine fun u _ => ⟨Or.inr ⟨Or.inl (by decide), Or.inr (by decide +kernel)⟩, fun v _ => ?_⟩
    exact ⟨trivial, trivial⟩
  have hrun : run requestStep smallHeap [.malloc 100, .free 69648] = some h :=
    run_eq_getD smallHeap (by decide +kernel)
  exact (mmMalloc_delivers_iff (by decide) (by decide) smallHeap_init hfits hrun (by decide)
    (by decide)).mpr (Or.inl (by decide))

/-- For 4294967295 bytes a block of 8 bytes is placed, whose payload is empty. -/
theorem mmMalloc_not_delivers :
    mmInit smallArena = .ok (0, smallHeap.state) ∧ ¬ Delivers smallHeap 4294967295 ∧
      (mmMalloc smallHeap.state 4294967295).toOption.map Prod.fst = some 69648 := by
  have hh := mmInit_held (by decide) (by decide) smallHeap_init
  refine ⟨smallHeap_init, fun hdelivers => ?_, by decide +kernel⟩
  rcases (hh.delivers_iff (by decide) (by decide)).mp hdelivers with hfit | hbrk | hfull
  · exact absurd hfit (by decide)
  · exact absurd hbrk (by decide +kernel)
  · exact absurd hfull (by decide +kernel)

end Unos.Kmalloc
