import Unos.Kmalloc.Heap

namespace Unos.Kmalloc

open Unos.Words Unos.ByteMemory Unos.BoundaryTags Unos.Runs

/-- What is printed. The flags of a block stand for `a` and `f`. -/
inductive Line
  | heap (listp : ℕ)
  | badPrologue
  | notAligned (bp : ℕ)
  | mismatch
  | endOfList (bp : ℕ)
  | block (bp hsize : ℕ) (halloc : Bool) (fsize : ℕ) (falloc : Bool)
  | badEpilogue
  deriving DecidableEq

def printblock (m : Mem) (bp : ℕ) : List Line :=
  let hsize := getSize m (hdrp bp)
  let halloc := getAlloc m (hdrp bp)
  let fsize := getSize m (ftrp m bp)
  let falloc := getAlloc m (ftrp m bp)
  if hsize = 0 then [.endOfList bp] else [.block bp hsize (halloc ≠ 0) fsize (falloc ≠ 0)]

def checkblock (m : Mem) (bp : ℕ) : List Line :=
  (if bp % 8 ≠ 0 then [.notAligned bp] else []) ++
    if get m (hdrp bp) ≠ get m (ftrp m bp) then [.mismatch] else []

def checkLoop (m : Mem) (verbose : Bool) : ℕ → ℕ → Except Stop (ℕ × List Line)
  | 0, _ => .error .outOfFuel
  | fuel + 1, bp =>
    if 0 < getSize m (hdrp bp) then
      match checkLoop m verbose fuel (nextBlkp m bp) with
      | .error e => .error e
      | .ok (last, out) =>
        .ok (last, (if verbose then printblock m bp else []) ++ checkblock m bp ++ out)
    else .ok (bp, [])

def mmCheckheap (s : State) (verbose : Bool) : Except Stop (List Line) :=
  let first := if verbose then [.heap s.heapListp] else []
  let prologue :=
    if getSize s.mem (hdrp s.heapListp) ≠ dsize ∨
      getAlloc s.mem (hdrp s.heapListp) = 0 then [.badPrologue] else []
  match checkLoop s.mem verbose s.fuel s.heapListp with
  | .error e => .error e
  | .ok (bp, out) =>
    let last := if verbose then printblock s.mem bp else []
    let epilogue :=
      if getSize s.mem (hdrp bp) ≠ 0 ∨ getAlloc s.mem (hdrp bp) = 0 then [.badEpilogue] else []
    .ok (first ++ prologue ++ checkblock s.mem s.heapListp ++ out ++ last ++ epilogue)

def listing (verbose : Bool) (x : Block) : List Line :=
  (if verbose then [.block x.addr x.size true x.size true] else []) ++
    if x.addr % 8 ≠ 0 then [.notAligned x.addr] else []

def report (listp brk : ℕ) (verbose : Bool) (bs : List Block) : List Line :=
  (if verbose then [.heap listp] else []) ++ (if listp % 8 ≠ 0 then [.notAligned listp] else []) ++
    ((⟨listp, 8, true⟩ : Block) :: bs).flatMap (listing verbose) ++
    (if verbose then [.endOfList brk] else []) ++ [.badEpilogue]

section Walk

variable {m : Mem} {x : Block} {a b fuel : ℕ} {bs : List Block} {verbose : Bool}

theorem checkblock_eq (hx : Tagged m x) (h4 : 4 ≤ x.addr) (hlt : x.addr + x.size < 4294967296) :
    checkblock m x.addr = if x.addr % 8 ≠ 0 then [.notAligned x.addr] else [] := by
  have hsame : get m (hdrp x.addr) = get m (ftrp m x.addr) := by
    rw [hdrp_eq h4 (by omega), ftrp_eq hx h4 hlt, get, get, hx.header, hx.footer]
  rw [checkblock, if_neg (not_not.mpr hsame), List.append_nil]

theorem printblock_eq (hx : Tagged m x) (h4 : 4 ≤ x.addr) (hlt : x.addr + x.size < 4294967296) :
    printblock m x.addr = [.block x.addr x.size true x.size true] := by
  have hpos := hx.pos
  have hsize := getSize_hdrp hx h4 hlt
  have halloc := getAlloc_hdrp hx h4 hlt
  have hsame : load32 m (ftrp m x.addr) = load32 m (hdrp x.addr) := by
    rw [hdrp_eq h4 (by omega), ftrp_eq hx h4 hlt, hx.header, hx.footer]
  have hfsize : getSize m (ftrp m x.addr) = x.size := by
    rw [← hsize, getSize, get, hsame]
    rfl
  have hfalloc : getAlloc m (ftrp m x.addr) = x.size := by
    rw [← halloc, getAlloc, get, hsame]
    rfl
  have hne : x.size ≠ 0 := Nat.ne_of_gt hpos
  simp only [printblock, hsize, halloc, hfsize, hfalloc, if_neg hne, decide_eq_true hne]

theorem checkLoop_eq (hl : Layout m a bs b) (ha : 4 ≤ a) (hb : b < 4294967296)
    (hend : getSize m (hdrp b) = 0) (hfuel : b < a + fuel) :
    checkLoop m verbose fuel a = .ok (b, bs.flatMap (listing verbose)) := by
  induction fuel generalizing a bs with
  | zero =>
    have hle := hl.le
    omega
  | succ fuel ih =>
    cases bs with
    | nil =>
      obtain rfl : a = b := hl
      rw [checkLoop, hend]
      rfl
    | cons x xs =>
      obtain ⟨rfl, htag, hrest⟩ := hl
      have hpos := htag.pos
      have hle := hrest.le
      have hlt : x.addr + x.size < 4294967296 := by omega
      rw [checkLoop, getSize_hdrp htag ha hlt, if_pos hpos, nextBlkp_eq htag ha hlt,
        ih hrest (by omega) (by omega), checkblock_eq htag ha hlt, printblock_eq htag ha hlt]
      rfl

end Walk

variable {h t : Heap} {bs : List Block}

theorem HeapInv.mmCheckheap_eq {s : State} (hi : HeapInv s bs) (verbose : Bool) :
    mmCheckheap s verbose = .ok (report s.heapListp s.memBrk verbose bs) := by
  have hlow := hi.low
  have htop := hi.top
  have hmax := hi.max
  have hle := hi.layout.le
  obtain ⟨-, hprologue, hrest⟩ := hi.layout
  have hle' := hrest.le
  have h8 : s.heapListp + 8 < 4294967296 := by
    have hsize : s.heapListp + 8 ≤ s.memBrk := hle'
    omega
  have hbrk : hdrp s.memBrk = s.memBrk - 4 := hdrp_eq (by omega) (by omega)
  have hlast : getSize s.mem (hdrp s.memBrk) = 0 := by
    rw [hbrk, getSize_eq, hi.epilogue]
  have hlastAlloc : getAlloc s.mem (hdrp s.memBrk) = 0 := by
    rw [hbrk, getAlloc_eq, hi.epilogue]
  have h4 : 4 ≤ s.heapListp := by omega
  have hsize : getSize s.mem (hdrp s.heapListp) = 8 := getSize_hdrp hprologue h4 h8
  have halloc : getAlloc s.mem (hdrp s.heapListp) = 8 := getAlloc_hdrp hprologue h4 h8
  have hfirst : checkblock s.mem s.heapListp = _ := checkblock_eq hprologue h4 h8
  have hfuel : s.memBrk < s.heapListp + s.fuel := by
    unfold State.fuel
    omega
  have hloop : checkLoop s.mem verbose s.fuel s.heapListp = _ :=
    checkLoop_eq hi.layout (by omega) (by omega) hlast hfuel
  have hgood : ¬ (8 ≠ dsize ∨ 8 = 0) := by decide
  rw [mmCheckheap, hloop, hsize, halloc, if_neg hgood, hfirst]
  simp only [hlast, hlastAlloc, printblock, report, if_true, or_true, List.append_nil]

/-- Memory is only asked for while the break is positive as an `int`. -/
def Low (h : Heap) : Op → Prop
  | .malloc size => size = 0 ∨ h.state.memBrk < 0x80000000
  | .free _ => True

instance Low.decidable (h : Heap) : (op : Op) → Decidable (Low h op)
  | .malloc _ => inferInstanceAs (Decidable (_ ∨ _))
  | .free _ => inferInstanceAs (Decidable True)

theorem Inv.low_step (hi : Inv h bs) {op : Op} (hlow : Low h op) (hstep : heapStep h op = some t) :
    (∃ bs', Inv t bs') ∧ t.state.heapListp = h.state.heapListp := by
  cases op with
  | malloc size =>
    simp only [heapStep] at hstep
    split_ifs at hstep with hfit
    by_cases hsize : size = 0
    · have hnull : mmMalloc h.state size = .ok (0, h.state) := if_pos hsize
      rw [hnull] at hstep
      cases hstep
      exact ⟨⟨bs, hi⟩, rfl⟩
    · have hbrk := hlow.resolve_left hsize
      rcases hi.heap.mmMalloc_cases hsize hfit
        with hm | ⟨_, -, -, hhigh, -⟩ | ⟨-, m, n, hn, hm, hinv⟩
      · rw [hm] at hstep
        cases hstep
      · exact absurd hbrk (Nat.not_lt.mpr hhigh)
      · have hlist := hi.heap.low
        have hle := hi.heap.layout.le
        have hbrk0 : h.state.memBrk ≠ 0 := by omega
        rw [hm] at hstep
        cases hstep
        rw [if_neg hbrk0]
        exact ⟨⟨_, hi.placed hinv⟩, rfl⟩
  | free bp =>
    rw [heapStep] at hstep
    split_ifs at hstep with hlive
    cases hstep
    obtain ⟨x, hx, rfl, -⟩ := (hi.live bp).mp hlive
    obtain ⟨xs, ys, rfl⟩ := List.append_of_mem hx
    obtain ⟨m, hfree, -⟩ := hi.heap.mmFree_eq
    refine ⟨⟨_, hi.free⟩, ?_⟩
    rw [hfree]

/-- In every state of a run the checker complains of the epilogue, and of the alignment of every
block when the heap does not start at a multiple of 8, but of nothing else; it lists each block as
allocated. -/
theorem always_checkheap {s t : State} {base size : ℕ} (hbase : base < 0x80000000)
    (hinit : mmInit (dmmInit s base size) = .ok (0, t)) {ops : List Op}
    (hlow : Steps heapStep Low ⟨t, []⟩ ops) :
    Always heapStep (fun h => ∃ bs, Inv h bs ∧
      ∀ verbose, mmCheckheap h.state verbose = .ok (report (base + 8) h.state.memBrk verbose bs))
      ⟨t, []⟩ ops := by
  have hfirst : (∃ bs, Inv ⟨t, []⟩ bs) ∧ t.heapListp = base + 8 :=
    ⟨⟨_, mmInit_heap (by omega) hinit⟩, (mmInit_inv (by omega) hinit).2.2⟩
  apply always_of_steps
    (I := fun h => (∃ bs, Inv h bs) ∧ h.state.heapListp = base + 8) _ _ hfirst hlow
  · intro h op u ⟨⟨bs, hi⟩, hlist⟩ hop hstep
    obtain ⟨hkeep, hsame⟩ := hi.low_step hop hstep
    exact ⟨hkeep, hsame.trans hlist⟩
  · intro h ⟨⟨bs, hi⟩, hlist⟩
    refine ⟨bs, hi, fun verbose => ?_⟩
    rw [hi.heap.mmCheckheap_eq, hlist]

/-- Two blocks, of which the first is freed. -/
theorem always_checkheap_small : mmInit smallArena = .ok (0, smallHeap.state) ∧
    Always heapStep (fun h => ∃ bs, Inv h bs ∧
      ∀ verbose, mmCheckheap h.state verbose = .ok (report (65536 + 8) h.state.memBrk verbose bs))
      smallHeap [.malloc 8, .malloc 100, .free 69648] :=
  ⟨smallHeap_init, always_checkheap (by decide) smallHeap_init (by decide +kernel)⟩

end Unos.Kmalloc
