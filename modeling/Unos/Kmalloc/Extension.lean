import Unos.Kmalloc.Growth

namespace Unos.Kmalloc

open Unos.Words Unos.ByteMemory Unos.BoundaryTags Unos.Runs

def extendBytes (words : ℕ) : ℕ :=
  if words % 2 ≠ 0 then wrap32 ((words + 1) * wsize) else wrap32 (words * wsize)

namespace Returning

/-- `extend_heap` where `PANIC` returns; 0 is `NULL`. -/
def extendHeap (s : State) (words : ℕ) : ℕ × State :=
  let size := if words % 2 ≠ 0 then wrap32 ((words + 1) * wsize) else wrap32 (words * wsize)
  let r := dmmSbrk s size
  let bp := r.1
  if 0x80000000 ≤ bp then (0, r.2)
  else
    let m := put r.2.mem (hdrp bp) (pack size 0)
    let m := put m (ftrp m bp) (pack size 0)
    let m := put m (hdrp (nextBlkp m bp)) (pack 0 1)
    let c := coalesce m bp
    (c.1, { r.2 with mem := c.2 })

/-- `mm_init` where `PANIC` returns. -/
def mmInit (s : State) : ℤ × State :=
  let r := dmmSbrk s (4 * wsize)
  let heapListp := r.1
  let s := { r.2 with heapListp := heapListp }
  if heapListp = 0 then (-1, s)
  else
    let m := put s.mem heapListp 0
    let m := put m (wrap32 (heapListp + wsize)) (pack overhead 1)
    let m := put m (wrap32 (heapListp + dsize)) (pack overhead 1)
    let m := put m (wrap32 (heapListp + (wsize + dsize))) (pack 0 1)
    let s := { s with mem := m, heapListp := wrap32 (heapListp + dsize) }
    let e := extendHeap s (chunksize / wsize)
    (if e.1 = 0 then -1 else 0, e.2)

/-- `mm_malloc` where `PANIC` returns. -/
def mmMalloc (s : State) (size : ℕ) : Except Stop (ℕ × State) :=
  if size = 0 then .ok (0, s)
  else
    let asize := adjust size
    match findFit s.mem asize s.fuel s.heapListp with
    | .error e => .error e
    | .ok bp =>
      if bp ≠ 0 then .ok (bp, { s with mem := place s.mem bp asize })
      else
        let extendsize := if chunksize < asize then asize else chunksize
        let r := extendHeap s (extendsize / wsize)
        if r.1 = 0 then .ok (0, r.2) else .ok (r.1, { r.2 with mem := place r.2.mem r.1 asize })

/-- One operation, with requests of any 32-bit size. -/
def requestStep (h : Heap) : Op → Option Heap
  | .malloc size =>
    if size < 4294967296 then
      match mmMalloc h.state size with
      | .ok (bp, s) => some ⟨s, if bp = 0 then h.live else bp :: h.live⟩
      | .error _ => none
    else none
  | .free bp => heapStep h (.free bp)

end Returning

/-- `extend_heap` returns `NULL` exactly when `dmm_sbrk` fails. -/
def ExtendExact (s : State) (words : ℕ) : Prop :=
  (Returning.extendHeap s words).1 = 0 ↔ Refuses s (extendBytes words)

def MallocExact (s : State) (size : ℕ) : Prop :=
  ∃ r, Returning.mmMalloc s size = .ok r ∧ (r.1 = 0 ↔ Refuses s (extendsize size))

/-- Where `mm_malloc` returns `NULL`, neither the break nor a tag has changed. -/
def MallocAtomic (s : State) (size : ℕ) : Prop :=
  ∀ t, Returning.mmMalloc s size = .ok (0, t) → t.memBrk = s.memBrk ∧ t.mem = s.mem

/-- `mm_init` reports that its own call of `dmm_sbrk` fails. -/
def InitReports (s : State) : Prop := Refuses s (4 * wsize) → (Returning.mmInit s).1 = -1

/-- Unless its own call returns `NULL`, it reports an error exactly when one of the two calls
fails. -/
def InitExact (s : State) : Prop :=
  let r := Returning.dmmSbrk s (4 * wsize)
  r.1 ≠ 0 → ((Returning.mmInit s).1 = -1 ↔ Refuses s (4 * wsize) ∨ Refuses r.2 chunksize)

variable {s : State} {h t : Heap} {bs : List Block} {stop size words : ℕ}

theorem Returning.extendHeap_refused (hrefuses : Refuses s (extendBytes words)) :
    Returning.extendHeap s words = (0, s) := by
  unfold extendBytes at hrefuses
  simp only [Returning.extendHeap, Returning.dmmSbrk, if_pos hrefuses]
  rfl

theorem Returning.extendHeap_served (hserved : ¬ Refuses s (extendBytes words)) :
    Kmalloc.extendHeap s words = .ok (Returning.extendHeap s words) := by
  unfold extendBytes at hserved
  simp only [Kmalloc.extendHeap, Returning.extendHeap, dmmSbrk_eq, if_neg hserved]
  by_cases hhigh : 0x80000000 ≤ (Returning.dmmSbrk s (if words % 2 ≠ 0 then
      wrap32 ((words + 1) * wsize) else wrap32 (words * wsize))).1
  · simp only [if_pos hhigh]
  · simp only [if_neg hhigh]

theorem extendBytes_spec (words : ℕ) : 8 ∣ extendBytes words ∧ extendBytes words < 4294967296 := by
  unfold extendBytes wsize
  split_ifs with hodd
  · refine ⟨?_, wrap32_lt _⟩
    unfold wrap32
    omega
  · refine ⟨?_, wrap32_lt _⟩
    unfold wrap32
    omega

theorem extendBytes_of_dvd {n : ℕ} (hdvd : 8 ∣ n) (hn : n < 4294967296) :
    extendBytes (n / wsize) = n := extendHeap_size hdvd hn

theorem extendHeap_words (s : State) (words : ℕ) :
    Kmalloc.extendHeap s words = Kmalloc.extendHeap s (extendBytes words / wsize) := by
  obtain ⟨hdvd, hlt⟩ := extendBytes_spec words
  have hsize := extendHeap_size hdvd hlt
  unfold Kmalloc.extendHeap
  simp only [hsize]
  rfl

section Empty

variable {m : Mem} {bp : ℕ} (h8 : 8 ≤ bp) (hbp : bp < 4294967296)
include h8 hbp

theorem prevBlkp_empty (hzero : getSize m (bp - 8) = 0) : prevBlkp m bp = bp := by
  have hdsize : sub32 bp dsize = bp - 8 := sub32_of_le h8 hbp
  rw [prevBlkp, hdsize, hzero, sub32_of_le (Nat.zero_le bp) hbp, Nat.sub_zero]

theorem nextBlkp_empty (hzero : getSize m (bp - 4) = 0) : nextBlkp m bp = bp := by
  have hwsize : sub32 bp wsize = bp - 4 := hdrp_eq (by omega) hbp
  rw [nextBlkp, hwsize, hzero, Nat.add_zero, wrap32_of_lt hbp]

theorem ftrp_empty (hzero : getSize m (bp - 4) = 0) : ftrp m bp = bp - 8 := by
  have hdsize : sub32 bp dsize = bp - 8 := sub32_of_le h8 hbp
  rw [ftrp, hdrp_eq (by omega) hbp, hzero, Nat.add_zero, wrap32_of_lt hbp, hdsize]

theorem coalesce_empty (hbefore : load32 m (bp - 8) = 0) (hheader : load32 m (bp - 4) = 1) :
    (coalesce m bp).1 = bp := by
  have hhdrp : hdrp bp = bp - 4 := hdrp_eq (by omega) hbp
  have hzero : getSize m (bp - 8) = 0 := by
    rw [getSize_eq, hbefore]
  have hone : getSize m (bp - 4) = 0 := by
    rw [getSize_eq, hheader]
  have hprev := prevBlkp_empty h8 hbp hzero
  have hnext := nextBlkp_empty h8 hbp hone
  have hftrp := ftrp_empty h8 hbp hone
  have hprevAlloc : getAlloc m (bp - 8) = 0 := by
    rw [getAlloc_eq, hbefore]
  have hnextAlloc : getAlloc m (bp - 4) = 0 := by
    rw [getAlloc_eq, hheader]
  have hsum : pack (wrap32 (0 + (0 + 0))) 0 = 0 := by
    rw [pack_zero, wrap32_of_lt (by decide)]
  -- both tags are written with 0 before the pointer is read again
  have hheader' : getSize (put m (bp - 4) 0) (bp - 4) = 0 := by
    rw [getSize_eq, put, load32_store32 _ (by decide)]
  have hnext' := nextBlkp_empty h8 hbp hheader'
  have hftrp' := ftrp_empty h8 hbp hheader'
  have hbefore' : getSize (put (put m (bp - 4) 0) (bp - 8) 0) (bp - 8) = 0 := by
    rw [getSize_eq, put, load32_store32 _ (by decide)]
  have hprev' := prevBlkp_empty h8 hbp hbefore'
  unfold coalesce
  simp only [hprev, hnext, hftrp, hhdrp, hprevAlloc, hnextAlloc, hzero, hone, hsum, hnext',
    hftrp', hprev', ne_eq, not_true_eq_false, and_false, and_true, if_false]

end Empty

theorem HeapInv.extendHeap_low (hi : HeapInv s bs) (hlow : s.memBrk < 0x80000000)
    (hserved : ¬ Refuses s (extendBytes words)) :
    (Returning.extendHeap s words).1 = s.memBrk := by
  obtain ⟨hdvd, hlt⟩ := extendBytes_spec words
  have heq := Returning.extendHeap_served hserved
  by_cases hpos : 0 < extendBytes words
  · rw [extendHeap_words] at heq
    rcases hi.extendHeap_cases hpos hdvd hlt with ⟨hrefuses, -⟩ | ⟨-, hhigh, -⟩ | ⟨-, -, m, hext, -⟩
    · exact absurd hrefuses hserved
    · exact absurd hhigh hlow.not_ge
    · rw [hext] at heq
      rw [← Except.ok.inj heq]
  · have hzero : extendBytes words = 0 := Nat.eq_zero_of_not_pos hpos
    have hle := hi.layout.le
    have hbegin := hi.low
    have h8 : 8 ≤ s.memBrk := by omega
    have hbrk : s.memBrk < 4294967296 := by omega
    have hheader : getSize (put s.mem (s.memBrk - 4) 0) (s.memBrk - 4) = 0 := by
      rw [getSize_eq, put, load32_store32 _ (by decide)]
    have hftrp := ftrp_empty h8 hbrk hheader
    have hheader' : getSize (put (put s.mem (s.memBrk - 4) 0) (s.memBrk - 8) 0)
        (s.memBrk - 4) = 0 := by
      rw [getSize_eq, put, load32_store32_of_disjoint (by omega), ← getSize_eq, hheader]
    have hnext := nextBlkp_empty h8 hbrk hheader'
    have hcoalesce := coalesce_empty
      (m := put (put (put s.mem (s.memBrk - 4) 0) (s.memBrk - 8) 0) (s.memBrk - 4) 1) h8 hbrk
      (by rw [put, load32_store32_of_disjoint (by omega), put, load32_store32 _ (by decide)])
      (by rw [put, load32_store32 _ (by decide)])
    have hhdrp : hdrp s.memBrk = s.memBrk - 4 := hdrp_eq (by omega) hbrk
    have hpack : pack 0 1 = 1 := rfl
    rw [hzero] at hserved
    unfold extendBytes at hzero
    simp only [Returning.extendHeap, Returning.dmmSbrk, hzero, if_neg hserved,
      if_neg hlow.not_ge, hhdrp, pack_zero, hftrp, hnext, hpack]
    exact hcoalesce

/-- From `2^31` on `NULL` is returned and the break has moved. -/
theorem Returning.extendHeap_high (hhigh : 0x80000000 ≤ s.memBrk)
    (hserved : ¬ Refuses s (extendBytes words)) :
    Returning.extendHeap s words =
    (0, { s with memBrk := wrap32 (s.memBrk + extendBytes words) }) := by
  have hserved' := hserved
  unfold extendBytes at hserved'
  simp only [Returning.extendHeap, Returning.dmmSbrk, if_neg hserved', if_pos hhigh]
  rfl

theorem Standing.extendExact_iff (hh : Standing h bs stop) :
    ExtendExact h.state words ↔
      h.state.memBrk < 0x80000000 ∨ Refuses h.state (extendBytes words) := by
  by_cases hrefuses : Refuses h.state (extendBytes words)
  · refine iff_of_true ?_ (Or.inr hrefuses)
    rw [ExtendExact, Returning.extendHeap_refused hrefuses]
    exact iff_of_true rfl hrefuses
  · rw [or_iff_left hrefuses]
    by_cases hlow : h.state.memBrk < 0x80000000
    · refine iff_of_true (iff_of_false ?_ hrefuses) hlow
      have hi := hh.inv_of_low hlow
      have hbegin : 8 < h.state.heapListp := hi.heap.low
      have hle := hi.heap.layout.le
      rw [hi.heap.extendHeap_low hlow hrefuses]
      omega
    · refine iff_of_false ?_ hlow
      intro hexact
      rw [ExtendExact, Returning.extendHeap_high (Nat.le_of_not_lt hlow) hrefuses] at hexact
      exact hrefuses (hexact.mp rfl)

theorem Standing.returning_mmMalloc (hh : Standing h bs stop) (hsize : size ≠ 0) :
    Returning.mmMalloc h.state size =
      let r := Returning.extendHeap h.state (extendsize size / wsize)
      if r.1 = 0 then .ok (0, r.2)
      else .ok (r.1, { r.2 with mem := place r.2.mem r.1 (adjust size) }) := by
  have hfind := hh.findFit_eq (adjust size)
  simp only [Returning.mmMalloc, if_neg hsize, hfind, ne_eq, not_true_eq_false, if_false]
  rfl

theorem Standing.mallocExact_iff (hh : Standing h bs stop) (hsize : size ≠ 0) :
    MallocExact h.state size ↔
      h.state.memBrk < 0x80000000 ∨ Refuses h.state (extendsize size) := by
  obtain ⟨hdvd, -, -, hlt⟩ := extendsize_spec size
  have hbytes := extendBytes_of_dvd hdvd hlt
  have hexact : ExtendExact h.state (extendsize size / wsize) ↔ _ := hh.extendExact_iff
  have heq := hh.returning_mmMalloc hsize
  rw [hbytes] at hexact
  rw [← hexact, ExtendExact, hbytes]
  dsimp only at heq
  by_cases hnull : (Returning.extendHeap h.state (extendsize size / wsize)).1 = 0
  · rw [if_pos hnull] at heq
    rw [MallocExact, heq]
    constructor
    · rintro ⟨r, hr, hiff⟩
      cases hr
      exact iff_of_true hnull (hiff.mp rfl)
    · intro hiff
      exact ⟨_, rfl, iff_of_true rfl (hiff.mp hnull)⟩
  · rw [if_neg hnull] at heq
    rw [MallocExact, heq]
    constructor
    · rintro ⟨r, hr, hiff⟩
      cases hr
      exact hiff
    · intro hiff
      exact ⟨_, rfl, hiff⟩

theorem Standing.mallocAtomic_iff (hh : Standing h bs stop) (hsize : size ≠ 0) :
    MallocAtomic h.state size ↔
      h.state.memBrk < 0x80000000 ∨ Refuses h.state (extendsize size) := by
  obtain ⟨hdvd, -, hpos, hlt⟩ := extendsize_spec size
  have hbytes := extendBytes_of_dvd hdvd hlt
  have heq := hh.returning_mmMalloc hsize
  by_cases hrefuses : Refuses h.state (extendsize size)
  · refine iff_of_true ?_ (Or.inr hrefuses)
    rw [← hbytes] at hrefuses
    rw [Returning.extendHeap_refused hrefuses] at heq
    intro t ht
    rw [heq] at ht
    cases ht
    exact ⟨rfl, rfl⟩
  · rw [or_iff_left hrefuses]
    rw [← hbytes] at hrefuses
    by_cases hlow : h.state.memBrk < 0x80000000
    · refine iff_of_true ?_ hlow
      have hi := hh.inv_of_low hlow
      have hbegin : 8 < h.state.heapListp := hi.heap.low
      have hle := hi.heap.layout.le
      have hbp := hi.heap.extendHeap_low hlow hrefuses
      have hnull : ¬ h.state.memBrk = 0 := by omega
      intro t ht
      rw [heq] at ht
      dsimp only at ht
      rw [hbp, if_neg hnull] at ht
      exact absurd (congrArg Prod.fst (Except.ok.inj ht)) hnull
    · refine iff_of_false ?_ hlow
      rw [Returning.extendHeap_high (Nat.le_of_not_lt hlow) hrefuses, hbytes] at heq
      intro hatomic
      have hbrk : wrap32 (h.state.memBrk + extendsize size) = h.state.memBrk := (hatomic _ heq).1
      obtain ⟨-, -, hlt32⟩ := hh.bounds
      unfold wrap32 at hbrk
      omega

/-- A request that `dmm_sbrk` refuses changes nothing, and for the others it does not matter whether
`PANIC` returns. -/
theorem Standing.returning_step (hh : Standing h bs stop) {op : Op} (hfits : RequestFits h op)
    (hstep : Returning.requestStep h op = some t) : ∃ bs' stop', Standing t bs' stop' := by
  cases op with
  | free bp => exact hh.step hfits hstep
  | malloc size =>
    by_cases hsize : size = 0
    · subst hsize
      cases hstep
      exact ⟨bs, stop, hh⟩
    · obtain ⟨hdvd, -, -, hlt⟩ := extendsize_spec size
      have hbytes := extendBytes_of_dvd hdvd hlt
      have heq := hh.returning_mmMalloc hsize
      by_cases hrefuses : Refuses h.state (extendsize size)
      · rw [← hbytes] at hrefuses
        rw [Returning.extendHeap_refused hrefuses] at heq
        dsimp only at heq
        rw [if_pos rfl] at heq
        rw [Returning.requestStep, heq] at hstep
        split_ifs at hstep with h32
        cases hstep
        exact ⟨bs, stop, hh⟩
      · have hsame : Kmalloc.mmMalloc h.state size = Returning.mmMalloc h.state size := by
          rw [← hbytes] at hrefuses
          rw [heq, hh.mmMalloc_eq hsize, Returning.extendHeap_served hrefuses]
        refine hh.step hfits ?_
        rw [Kmalloc.requestStep, hsame]
        exact hstep

theorem Standing.returning_run (hh : Standing h bs stop) {ops : List Op}
    (hfits : Steps Returning.requestStep RequestFits h ops)
    (hrun : Runs.run Returning.requestStep h ops = some t) : ∃ bs' stop', Standing t bs' stop' :=
  (always_of_steps (I := fun h => ∃ bs stop, Standing h bs stop)
    (P := fun h => ∃ bs stop, Standing h bs stop)
    (fun _ _ _ ⟨_, _, hh⟩ hop hstep => hh.returning_step hop hstep) (fun _ hh => hh)
    ⟨bs, stop, hh⟩ hfits).last hrun

theorem Returning.mmInit_refused (hrefuses : Refuses s (4 * wsize)) :
    (Returning.mmInit s).1 = -1 := by
  have hneg : ¬ 0x80000000 ≤ 4 * wsize := by decide
  have hfull : s.memMaxAddr < wrap32 (s.memBrk + 4 * wsize) := hrefuses.resolve_left hneg
  -- the second call is refused as well, or the break is among the last pages
  have hnull : ∀ u : State, u.memBrk = s.memBrk → u.memMaxAddr = s.memMaxAddr →
      (Returning.extendHeap u (chunksize / wsize)).1 = 0 := by
    intro u hbrk hmax
    by_cases hagain : Refuses u (extendBytes (chunksize / wsize))
    · rw [Returning.extendHeap_refused hagain]
    · rw [Returning.extendHeap_high ?_ hagain]
      have hbytes : extendBytes (chunksize / wsize) = 4096 :=
        extendBytes_of_dvd (by decide) (by decide)
      rw [hbytes] at hagain
      have hroom := (not_or.mp hagain).2
      rw [hbrk, hmax] at hroom
      rw [hbrk]
      unfold wrap32 wsize at *
      omega
  simp only [Returning.mmInit, Returning.dmmSbrk, if_pos hrefuses]
  rw [if_neg (by decide)]
  refine if_pos (hnull _ ?_ ?_)
  · rfl
  · rfl

theorem Returning.mmInit_served (hfirst : ¬ Refuses s (4 * wsize))
    (hsecond : ¬ Refuses (Returning.dmmSbrk s (4 * wsize)).2 chunksize) :
    Kmalloc.mmInit s = .ok (Returning.mmInit s) := by
  have hbytes : extendBytes (chunksize / wsize) = 4096 :=
    extendBytes_of_dvd (by decide) (by decide)
  simp only [Kmalloc.mmInit, Returning.mmInit, dmmSbrk_eq, if_neg hfirst]
  by_cases hnull : (Returning.dmmSbrk s (4 * wsize)).1 = 0
  · simp only [if_pos hnull]
  · simp only [if_neg hnull]
    rw [Returning.extendHeap_served]
    rw [hbytes]
    exact hsecond

theorem Returning.mmInit_fst (s : State) {base len : ℕ} (hpos : base ≠ 0)
    (hbase : base + 16 < 4294967296) (hfirst : ¬ Refuses (dmmInit s base len) (4 * wsize)) :
    (Returning.mmInit (dmmInit s base len)).1 =
      if (Returning.extendHeap { dmmInit s base len with
          mem := emptyHeap s.mem base
          heapListp := base + 8
          memBrk := base + 16 } (chunksize / wsize)).1 = 0 then -1 else 0 := by
  have hsum : wrap32 (base + 4 * wsize) = base + 16 := wrap32_of_lt hbase
  have h4 : wrap32 (base + wsize) = base + 4 := wrap32_of_lt (by unfold wsize; omega)
  have h8 : wrap32 (base + dsize) = base + 8 := wrap32_of_lt (by unfold dsize; omega)
  have h12 : wrap32 (base + (wsize + dsize)) = base + 12 :=
    wrap32_of_lt (by unfold wsize dsize; omega)
  have hmem : put (put (put (put s.mem base 0) (base + 4) (pack overhead 1)) (base + 8)
      (pack overhead 1)) (base + 12) (pack 0 1) = emptyHeap s.mem base := rfl
  simp only [Returning.mmInit, Returning.dmmSbrk, if_neg hfirst]
  have hnull : ¬ (dmmInit s base len).memBrk = 0 := hpos
  simp only [if_neg hnull]
  show (if (Returning.extendHeap { dmmInit s base len with
      mem := put (put (put (put s.mem base 0) (wrap32 (base + wsize)) (pack overhead 1))
        (wrap32 (base + dsize)) (pack overhead 1)) (wrap32 (base + (wsize + dsize))) (pack 0 1)
      heapListp := wrap32 (base + dsize)
      memBrk := wrap32 (base + 4 * wsize) } (chunksize / wsize)).1 = 0 then (-1 : ℤ) else 0) = _
  rw [h4, h8, h12, hsum, hmem]

theorem initExact_iff (s : State) {base len : ℕ} (hbase : base + 16 < 4294967296) :
    InitExact (dmmInit s base len) ↔
      base = 0 ∨ base + 16 < 0x80000000 ∨ Refuses (dmmInit s base len) 16 ∨
        Refuses { dmmInit s base len with memBrk := base + 16 } 4096 := by
  have hfour : 4 * wsize = 16 := rfl
  have hbytes : extendBytes (chunksize / wsize) = 4096 :=
    extendBytes_of_dvd (by decide) (by decide)
  have hsum : wrap32 ((dmmInit s base len).memBrk + 16) = base + 16 := wrap32_of_lt hbase
  by_cases hfirst : Refuses (dmmInit s base len) 16
  · refine iff_of_true ?_ (Or.inr (Or.inr (Or.inl hfirst)))
    exact fun _ => iff_of_true (Returning.mmInit_refused hfirst) (Or.inl hfirst)
  · rw [or_iff_right hfirst, InitExact, Returning.dmmSbrk, hfour, if_neg hfirst, hsum]
    by_cases hzero : base = 0
    · exact iff_of_true (fun hne => absurd hzero hne) (Or.inl hzero)
    · have hroom : ¬ wrap32 (base + len) < wrap32 (base + 16) := (not_or.mp hfirst).2
      rw [wrap32_of_lt hbase] at hroom
      have hi := emptyHeap_inv (s := dmmInit s base len) s.mem (Nat.pos_of_ne_zero hzero)
        (Nat.le_of_not_lt hroom) (wrap32_lt _)
      rw [or_iff_right hzero, or_iff_right hfirst, Returning.mmInit_fst s hzero hbase hfirst]
      show (base ≠ 0 → _) ↔ _
      rw [imp_iff_right hzero]
      by_cases hsecond : Refuses { dmmInit s base len with memBrk := base + 16 } 4096
      · refine iff_of_true (iff_of_true ?_ hsecond) (Or.inr hsecond)
        rw [Returning.extendHeap_refused (by rw [hbytes]; exact hsecond)]
        exact if_pos rfl
      · rw [or_iff_left hsecond]
        by_cases hlow : base + 16 < 0x80000000
        · refine iff_of_true (iff_of_false ?_ hsecond) hlow
          rw [hi.extendHeap_low hlow (by rw [hbytes]; exact hsecond)]
          show ¬ (if base + 16 = 0 then (-1 : ℤ) else 0) = -1
          rw [if_neg (by omega)]
          decide
        · refine iff_of_false (fun hexact => hsecond (hexact.mp ?_)) hlow
          rw [Returning.extendHeap_high (Nat.le_of_not_lt hlow) (by rw [hbytes]; exact hsecond)]
          exact if_pos rfl

theorem Returning.mmInit_standing (s : State) {t : State} {base len : ℕ}
    (hbase : base + 16 < 4294967296) (hinit : Returning.mmInit (dmmInit s base len) = (0, t)) :
    Standing ⟨t, []⟩ [⟨t.heapListp + 8, 4096, false⟩] t.memBrk := by
  have hret : (Returning.mmInit (dmmInit s base len)).1 = 0 := by
    rw [hinit]
  have hfirst : ¬ Refuses (dmmInit s base len) (4 * wsize) := by
    intro hrefuses
    rw [Returning.mmInit_refused hrefuses] at hret
    exact absurd hret (by decide)
  have hzero : base ≠ 0 := by
    intro hzero
    have hnull : (dmmInit s base len).memBrk = 0 := hzero
    simp only [Returning.mmInit, Returning.dmmSbrk, if_neg hfirst, if_pos hnull] at hret
    exact absurd hret (by decide)
  have hsecond : ¬ Refuses { dmmInit s base len with memBrk := base + 16 } chunksize := by
    intro hrefuses
    have hbytes : extendBytes (chunksize / wsize) = chunksize :=
      extendBytes_of_dvd (by decide) (by decide)
    rw [Returning.mmInit_fst s hzero hbase hfirst, Returning.extendHeap_refused (by
      rw [hbytes]
      exact hrefuses), if_pos rfl] at hret
    exact absurd hret (by decide)
  have hserved : Kmalloc.mmInit (dmmInit s base len) = .ok (0, t) := by
    rw [← hinit]
    refine Returning.mmInit_served hfirst ?_
    have hsum : wrap32 (base + 4 * wsize) = base + 16 := wrap32_of_lt hbase
    rw [Returning.dmmSbrk, if_neg hfirst]
    show ¬ Refuses { dmmInit s base len with memBrk := wrap32 (base + 4 * wsize) } chunksize
    rw [hsum]
    exact hsecond
  exact Kmalloc.mmInit_standing hbase hserved

/-- `mm_init` reports a failure of its own call, and it judges the second call exactly unless the
break is high. After every run of requests that fit, `extend_heap` and `mm_malloc` judge a call
exactly, and a request for which `NULL` is returned changes nothing, as long as the break is low or
the call fails. -/
theorem extendHeap_exact_iff (s : State) {base len : ℕ} (hbase : base + 16 < 4294967296) :
    InitReports (dmmInit s base len) ∧
    (InitExact (dmmInit s base len) ↔
      base = 0 ∨ base + 16 < 0x80000000 ∨ Refuses (dmmInit s base len) 16 ∨
        Refuses { dmmInit s base len with memBrk := base + 16 } 4096) ∧
    ∀ t, Returning.mmInit (dmmInit s base len) = (0, t) → ∀ ops h,
      Steps Returning.requestStep RequestFits ⟨t, []⟩ ops →
      run Returning.requestStep ⟨t, []⟩ ops = some h →
      (∀ words, ExtendExact h.state words ↔
        h.state.memBrk < 0x80000000 ∨ Refuses h.state (extendBytes words)) ∧
      ∀ size, 0 < size → (MallocExact h.state size ∧ MallocAtomic h.state size ↔
        h.state.memBrk < 0x80000000 ∨ Refuses h.state (extendsize size)) := by
  refine ⟨Returning.mmInit_refused, initExact_iff s hbase, fun t hinit ops h hfits hrun => ?_⟩
  obtain ⟨bs, stop, hh⟩ := (Returning.mmInit_standing s hbase hinit).returning_run hfits hrun
  refine ⟨fun words => hh.extendExact_iff, fun size hsize => ?_⟩
  rw [hh.mallocExact_iff (Nat.ne_of_gt hsize), hh.mallocAtomic_iff (Nat.ne_of_gt hsize), and_self]

/-- 64 KB from `0x10000` on: 100 bytes are allocated, 100000 bytes are refused, and the next request
is judged exactly. -/
theorem extendHeap_exact_iff_small :
    let h := (run Returning.requestStep smallHeap [.malloc 100, .malloc 100000]).getD smallHeap
    MallocExact h.state 200 ∧ MallocAtomic h.state 200 := by
  intro h
  have hinit : Returning.mmInit smallArena = (0, smallHeap.state) := by
    have hserved := Returning.mmInit_served (s := smallArena) (by decide +kernel)
      (by decide +kernel)
    rw [smallHeap_init] at hserved
    exact (Except.ok.inj hserved).symm
  have hfits : Steps Returning.requestStep RequestFits smallHeap [.malloc 100, .malloc 100000] := by
    refine fun u hu => ⟨Or.inr ⟨Or.inl (by decide), Or.inr (by decide +kernel)⟩, fun v _ => ?_⟩
    have hread : (Returning.requestStep smallHeap (.malloc 100)).getD smallHeap = u := by
      rw [hu]
      rfl
    refine ⟨Or.inr ⟨Or.inl (by decide), Or.inr ?_⟩, trivial⟩
    rw [← hread]
    decide +kernel
  have hrun : run Returning.requestStep smallHeap [.malloc 100, .malloc 100000] = some h :=
    run_eq_getD smallHeap (by decide +kernel)
  have hlow : h.state.memBrk < 0x80000000 := by decide +kernel
  exact (((extendHeap_exact_iff _ (by decide)).2.2 _ hinit _ h hfits hrun).2 200 (by decide)).mpr
    (Or.inl hlow)

/-- At `0xC0400000` both calls are served, and `mm_init` reports an error. -/
theorem mmInit_not_exact :
    let s := dmmInit ⟨fun _ => 0, 0, 0, 0, 0⟩ 0xC0400000 0x10000
    ¬ InitExact s ∧ (Returning.mmInit s).2.memBrk = 0xC0401010 := by
  refine ⟨?_, by decide +kernel⟩
  rw [initExact_iff _ (by decide)]
  decide +kernel

end Unos.Kmalloc
