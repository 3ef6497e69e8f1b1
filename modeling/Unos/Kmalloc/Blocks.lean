import Unos.Library.BoundaryTags
import Unos.Kmalloc.Model

namespace Unos.Kmalloc

open Unos.Words Unos.ByteMemory Unos.BoundaryTags

theorem getSize_eq (m : Mem) (p : ℕ) : getSize m p = 8 * (load32 m p / 8) :=
  and_high_mask (n := 32) (k := 3) (load32_lt m p) (by decide)

theorem getAlloc_eq (m : Mem) (p : ℕ) : getAlloc m p = 2 * (load32 m p / 2) :=
  and_high_mask (n := 32) (k := 1) (load32_lt m p) (by decide)

theorem pack_zero (n : ℕ) : pack n 0 = n := Nat.or_zero n

theorem pack_one {n : ℕ} (h : 8 ∣ n) : pack n 1 = n + 1 := by
  obtain ⟨j, rfl⟩ := h
  exact or_low_bits (k := 3) (by decide) j

theorem hdrp_eq {bp : ℕ} (h : 4 ≤ bp) (hb : bp < 4294967296) : hdrp bp = bp - 4 := sub32_of_le h hb

variable {m : Mem} {w x : Block} {a b n p asize : ℕ} {xs ys bs : List Block}

section Tagged

variable (hx : Tagged m x) (ha : 4 ≤ x.addr) (hb : x.addr + x.size < 4294967296)
include hx ha hb

theorem getSize_hdrp : getSize m (hdrp x.addr) = x.size := by
  obtain ⟨j, hj⟩ := hx.dvd
  have hbit := x.alloc.toNat_le
  rw [hdrp_eq ha (by omega), getSize_eq, hx.header, Block.tag]
  omega

theorem ftrp_eq : ftrp m x.addr = x.addr + x.size - 8 := by
  have hsize := hx.size_ge
  rw [ftrp, getSize_hdrp hx ha hb, wrap32_of_lt hb]
  exact sub32_of_le (by unfold dsize; omega) hb

theorem nextBlkp_eq : nextBlkp m x.addr = x.addr + x.size := by
  have hsize : getSize m (sub32 x.addr wsize) = x.size := getSize_hdrp hx ha hb
  rw [nextBlkp, hsize, wrap32_of_lt hb]

theorem getAlloc_hdrp : getAlloc m (hdrp x.addr) = x.size := by
  obtain ⟨j, hj⟩ := hx.dvd
  have hbit := x.alloc.toNat_le
  rw [hdrp_eq ha (by omega), getAlloc_eq, hx.header, Block.tag]
  omega

theorem getAlloc_ftrp : getAlloc m (ftrp m x.addr) = x.size := by
  obtain ⟨j, hj⟩ := hx.dvd
  have hbit := x.alloc.toNat_le
  rw [ftrp_eq hx ha hb, getAlloc_eq, hx.footer, Block.tag]
  omega

theorem prevBlkp_eq : prevBlkp m (x.addr + x.size) = x.addr := by
  obtain ⟨j, hj⟩ := hx.dvd
  have hbit := x.alloc.toNat_le
  have hsize := hx.size_ge
  have hfooter : getSize m (sub32 (x.addr + x.size) dsize) = x.size := by
    rw [sub32_of_le (by unfold dsize; omega) hb, getSize_eq]
    show 8 * (load32 m (x.addr + x.size - 8) / 8) = x.size
    rw [hx.footer, Block.tag]
    omega
  rw [prevBlkp, hfooter, sub32_of_le (by omega) hb]
  omega

end Tagged

theorem put_tags (m : Mem) (ha : 4 ≤ x.addr) (hb : x.addr + x.size < 4294967296) (hpos : 0 < x.size)
    (hdvd : 8 ∣ x.size) :
    put (put m (hdrp x.addr) x.tag) (ftrp (put m (hdrp x.addr) x.tag) x.addr) x.tag =
      writeTags m x := by
  have hbit := x.alloc.toNat_le
  have hsize := Nat.le_of_dvd hpos hdvd
  have hhdrp := hdrp_eq ha (by omega)
  have htag : x.tag < 4294967296 := by
    unfold Block.tag
    omega
  have hget : getSize (put m (hdrp x.addr) x.tag) (hdrp x.addr) = x.size := by
    obtain ⟨j, hj⟩ := hdvd
    rw [getSize_eq, put, load32_store32 m htag, Block.tag]
    omega
  have hftrp : ftrp (put m (hdrp x.addr) x.tag) x.addr = x.addr + x.size - 8 := by
    rw [ftrp, hget, wrap32_of_lt hb]
    exact sub32_of_le (by unfold dsize; omega) hb
  rw [hftrp, hhdrp]
  rfl

/-- `coalesce` at a free block `x` behind a block `w`: at most the tags of `x` are written
again, which happens in front of the epilogue. -/
theorem coalesce_eq (hw : Tagged m w) (hx : Tagged m x) (hwx : w.addr + w.size = x.addr)
    (ha : 4 ≤ w.addr) (hb : x.addr + x.size < 4294967296) (hfree : x.alloc = false)
    (hnext : getAlloc m (hdrp (x.addr + x.size)) ≠ 0 ∨ load32 m (x.addr + x.size - 4) = 1) :
    coalesce m x.addr = (x.addr, m) ∨ coalesce m x.addr = (x.addr, writeTags m x) := by
  have hsize := hx.size_ge
  have hprev : getAlloc m (ftrp m (prevBlkp m x.addr)) ≠ 0 := by
    rw [← hwx, prevBlkp_eq hw ha (by omega), getAlloc_ftrp hw ha (by omega)]
    exact Nat.ne_of_gt hw.pos
  have hnextp := nextBlkp_eq hx (by omega) hb
  have hsz := getSize_hdrp hx (by omega) hb
  by_cases hn : getAlloc m (hdrp (x.addr + x.size)) = 0
  · right
    have hend := hnext.resolve_left fun h => h hn
    -- the epilogue counts as a free block of size 0
    have hzero : getSize m (hdrp (x.addr + x.size)) = 0 := by
      rw [hdrp_eq (by omega) hb, getSize_eq, hend]
    have htag : pack x.size 0 = x.tag := by
      rw [pack_zero, Block.tag, hfree]
      rfl
    have hsum : wrap32 (x.size + 0) = x.size := wrap32_of_lt (by omega)
    simp only [coalesce, hprev, hnextp, hn, hsz, hzero, hsum, htag, ne_eq, not_true_eq_false,
      and_false, not_false_eq_true, and_self, if_false, if_true]
    rw [put_tags m (by omega) hb hx.pos hx.dvd]
  · left
    simp only [coalesce, hprev, hnextp, hn, ne_eq, not_false_eq_true, and_self, if_true]

/-- The blocks that `place` makes of a free block. -/
def placed (bp csize asize : ℕ) : List Block :=
  if 16 ≤ csize - asize then [⟨bp, asize, true⟩, ⟨bp + asize, csize - asize, false⟩]
  else [⟨bp, csize, true⟩]

theorem place_layout (h : Layout m a (xs ++ x :: ys) b) (ha : 4 ≤ a) (hb : b < 4294967296)
    (hpos : 0 < asize) (hdvd : 8 ∣ asize) (hle : asize ≤ x.size) :
    Layout (place m x.addr asize) a (xs ++ placed x.addr x.size asize ++ ys) b ∧
      ∀ p, x.addr + x.size ≤ p + 4 → place m x.addr asize p = m p := by
  obtain ⟨c, h1, hc, htag, h2⟩ := layout_append.mp h
  subst hc
  have hend := h2.le
  have hx4 : 4 ≤ x.addr := ha.trans h1.le
  have hsub : sub32 x.size asize = x.size - asize := sub32_of_le hle (by omega)
  have hsz := getSize_hdrp htag hx4 (by omega)
  have hcond : dsize + overhead = 16 := rfl
  have hasize := Nat.le_of_dvd hpos hdvd
  by_cases hsplit : 16 ≤ x.size - asize
  · -- the front part is allocated and the rest stays free
    let y : Block := ⟨x.addr, asize, true⟩
    let z : Block := ⟨x.addr + asize, x.size - asize, false⟩
    have hz : z.addr + z.size = x.addr + x.size := by
      show x.addr + asize + (x.size - asize) = _
      omega
    have hnil : Layout m (y.addr + y.size) [] (x.addr + asize) := rfl
    have hy : Layout (writeTags m y) a (xs ++ [y]) (x.addr + asize) :=
      Layout.write (x := y) h1 hnil ha hpos hdvd (by show asize + 1 < _; omega)
    have hys : Layout (writeTags m y) (z.addr + z.size) ys b := by
      rw [hz]
      exact h2.writeTags (by omega) hx4 hasize (.inr (by show x.addr + asize ≤ _; omega))
    have hlay : Layout (writeTags (writeTags m y) z) a (xs ++ [y] ++ z :: ys) b :=
      hy.write hys ha (by show 0 < x.size - asize; omega) (Nat.dvd_sub htag.dvd hdvd)
        (by show x.size - asize + 0 < _; omega)
    have hfront := put_tags m hx4 (x := y) (by show x.addr + asize < _; omega) hpos hdvd
    have hnextp : nextBlkp (writeTags m y) x.addr = x.addr + asize :=
      nextBlkp_eq (x := y) (hy.tagged (by simp)) hx4 (by show x.addr + asize < _; omega)
    have hrest := put_tags (writeTags m y) (x := z) (by show 4 ≤ x.addr + asize; omega)
      (by omega) (by show 0 < x.size - asize; omega) (Nat.dvd_sub htag.dvd hdvd)
    have hplace : place m x.addr asize = writeTags (writeTags m y) z := by
      simp only [place, hsz, hsub, hcond, if_pos hsplit, pack_one hdvd, pack_zero]
      have hfront' : put (put m (hdrp x.addr) (asize + 1))
          (ftrp (put m (hdrp x.addr) (asize + 1)) x.addr) (asize + 1) = writeTags m y := hfront
      rw [hfront', hnextp]
      exact hrest
    rw [hplace, placed, if_pos hsplit]
    refine ⟨by simpa using hlay, fun p hp => ?_⟩
    have hz8 : 8 ≤ z.size := by
      show 8 ≤ x.size - asize
      omega
    have hz4 : 4 ≤ z.addr := by
      show 4 ≤ x.addr + asize
      omega
    have hyp : y.addr + y.size ≤ p + 4 := by
      show x.addr + asize ≤ p + 4
      omega
    rw [writeTags_of_outside hz4 hz8 (.inr (by omega)),
      writeTags_of_outside (x := y) hx4 hasize (.inr hyp)]
  · let y : Block := ⟨x.addr, x.size, true⟩
    have hlay : Layout (writeTags m y) a (xs ++ y :: ys) b := h.retag ha hb rfl rfl
    have hplace : place m x.addr asize = writeTags m y := by
      simp only [place, hsz, hsub, hcond, if_neg hsplit, pack_one htag.dvd]
      exact put_tags m hx4 (x := y) (by show x.addr + x.size < _; omega) htag.pos htag.dvd
    rw [hplace, placed, if_neg hsplit]
    exact ⟨by simpa using hlay, fun p hp => writeTags_of_outside hx4 htag.size_ge (.inr hp)⟩

/-- The loop of `find_fit` passes all blocks and ends at the epilogue. -/
theorem findFit_eq (h : Layout m a bs b) (hend : load32 m (b - 4) = 1) (ha : 4 ≤ a)
    (hb : b < 4294967296) (asize : ℕ) {fuel : ℕ} (hfuel : bs.length < fuel) :
    findFit m asize fuel a = .ok 0 := by
  induction bs generalizing a fuel with
  | nil =>
    obtain rfl : a = b := h
    obtain ⟨fuel, rfl⟩ := Nat.exists_eq_succ_of_ne_zero (Nat.ne_of_gt hfuel)
    have hzero : ¬ 0 < getSize m (hdrp a) := by
      rw [hdrp_eq ha hb, getSize_eq, hend]
      decide
    rw [findFit, if_neg hzero]
  | cons x xs ih =>
    obtain ⟨rfl, htag, hrest⟩ := h
    obtain ⟨fuel, rfl⟩ := Nat.exists_eq_succ_of_ne_zero (Nat.ne_of_gt (Nat.zero_lt_of_lt hfuel))
    have hle := hrest.le
    have hpos := htag.pos
    have hsz := getSize_hdrp htag ha (by omega)
    have halloc := getAlloc_hdrp htag ha (by omega)
    have hskip : ¬ (x.size = 0 ∧ asize ≤ x.size) := fun hfit => by omega
    rw [findFit, hsz, halloc, if_pos hpos, if_neg hskip, nextBlkp_eq htag ha (by omega)]
    rw [List.length_cons] at hfuel
    exact ih hrest (by omega) (by omega)

theorem append_free (h : Layout m a xs x.addr) (hx : x.alloc = false) (ha : 4 ≤ a)
    (hpos : 0 < x.size) (hdvd : 8 ∣ x.size) (hb : x.addr + x.size < 4294967296) :
    Layout (store32 (writeTags m x) (x.addr + x.size - 4) 1) a (xs ++ [x]) (x.addr + x.size) ∧
      load32 (store32 (writeTags m x) (x.addr + x.size - 4) 1) (x.addr + x.size - 4) = 1 := by
  have htag : x.tag < 4294967296 := by
    rw [Block.tag, hx]
    show x.size + 0 < _
    omega
  have hnil : Layout m (x.addr + x.size) [] (x.addr + x.size) := rfl
  have hnew := h.write hnil ha hpos hdvd htag
  refine ⟨hnew.congr ha fun p _ hp => store32_of_outside (by omega), load32_store32 _ (by decide)⟩

theorem coalesce_layout (h : Layout m a (xs ++ x :: ys) b) (hend : load32 m (b - 4) = 1)
    (ha : 4 ≤ a) (hb : b < 4294967296) (hfree : x.alloc = false) (hxs : xs ≠ []) :
    ∃ m', coalesce m x.addr = (x.addr, m') ∧ Layout m' a (xs ++ x :: ys) b ∧
      load32 m' (b - 4) = 1 := by
  obtain ⟨zs, w, rfl⟩ := (List.eq_nil_or_concat' xs).resolve_left hxs
  obtain ⟨c, h1, hc, hx, h2⟩ := layout_append.mp h
  obtain ⟨d, h3, hd, hw, hdc⟩ := layout_append.mp h1
  subst hc hd
  have hle := h3.le
  have hle' := h2.le
  have hsize := hx.size_ge
  have hwx : w.addr + w.size = x.addr := hdc
  have hx4 : 4 ≤ x.addr := by omega
  -- the next block has a size, and without a next block there is the epilogue
  have hnext : getAlloc m (hdrp (x.addr + x.size)) ≠ 0 ∨ load32 m (x.addr + x.size - 4) = 1 := by
    cases ys with
    | nil =>
      have hxb : x.addr + x.size = b := h2
      exact .inr (hxb ▸ hend)
    | cons z ys =>
      obtain ⟨hz, hztag, hrest⟩ := h2
      have hzle := hrest.le
      have halloc := getAlloc_hdrp hztag (by omega) (by omega)
      have hzpos := hztag.pos
      left
      rw [← hz, halloc]
      omega
  rcases coalesce_eq hw hx hwx (by omega) (by omega) hfree hnext with heq | heq
  · exact ⟨m, heq, h, hend⟩
  · refine ⟨writeTags m x, heq, h.retag ha hb rfl rfl, ?_⟩
    rw [← hend]
    exact load32_congr fun p h4 h5 => writeTags_of_outside hx4 hsize (.inr (by omega))

/-- The prologue and the blocks `bs` fill the heap up to the epilogue at the break. -/
structure HeapInv (s : State) (bs : List Block) : Prop where
  low : 8 < s.heapListp
  top : s.memBrk ≤ s.memMaxAddr
  max : s.memMaxAddr < 4294967296
  layout : Layout s.mem s.heapListp (⟨s.heapListp, 8, true⟩ :: bs) s.memBrk
  epilogue : load32 s.mem (s.memBrk - 4) = 1

variable {s : State}

theorem HeapInv.addr_gt (h : HeapInv s bs) (hx : x ∈ bs) : 16 < x.addr := by
  have hlow := h.low
  have hbound := (h.layout.2.2.bounds hx).1
  have hbound' : s.heapListp + 8 ≤ x.addr := hbound
  omega

/-- `mm_free` changes the tags of one block. -/
theorem HeapInv.mmFree_eq (h : HeapInv s (xs ++ x :: ys)) :
    ∃ m, mmFree s x.addr = { s with mem := m } ∧
      HeapInv { s with mem := m } (xs ++ { x with alloc := false } :: ys) := by
  let y : Block := { x with alloc := false }
  have hlow := h.low
  have htop := h.top
  have hmax := h.max
  have hx4 := h.addr_gt (x := x) (by simp)
  have hlay : Layout s.mem s.heapListp ((⟨s.heapListp, 8, true⟩ :: xs) ++ x :: ys) s.memBrk :=
    h.layout
  have hbound := (hlay.bounds (x := x) (by simp)).2
  have htag := hlay.tagged (x := x) (by simp)
  have hnew := hlay.retag (y := y) (by omega) (by omega) rfl rfl
  have hend : load32 (writeTags s.mem y) (s.memBrk - 4) = 1 := by
    rw [← h.epilogue]
    have hy4 : 4 ≤ y.addr := by
      show 4 ≤ x.addr
      omega
    have hin : y.addr + y.size ≤ s.memBrk := hbound
    exact load32_congr fun p h1 h2 => writeTags_of_outside hy4 htag.size_ge (.inr (by omega))
  obtain ⟨m', hcoalesce, hlay', hend'⟩ := coalesce_layout hnew hend (by omega) (by omega) rfl
    (List.cons_ne_nil _ xs)
  have hsz := getSize_hdrp htag (by omega) (by omega)
  have htags : put (put s.mem (hdrp x.addr) x.size)
      (ftrp (put s.mem (hdrp x.addr) x.size) x.addr) x.size = writeTags s.mem y :=
    put_tags s.mem (x := y) (by show 4 ≤ x.addr; omega) (by show x.addr + x.size < _; omega)
      htag.pos htag.dvd
  have hcoalesce' : coalesce (writeTags s.mem y) x.addr = (x.addr, m') := hcoalesce
  refine ⟨m', ?_, h.low, h.top, h.max, hlay', hend'⟩
  simp only [mmFree, hsz, pack_zero, htags, hcoalesce']

theorem extendHeap_size (hdvd : 8 ∣ n) (hn : n < 4294967296) :
    (if n / wsize % 2 ≠ 0 then wrap32 ((n / wsize + 1) * wsize) else wrap32 (n / wsize * wsize)) =
      n := by
  obtain ⟨j, rfl⟩ := hdvd
  have heven : 8 * j / wsize % 2 = 0 := by
    unfold wsize
    omega
  have hmul : 8 * j / wsize * wsize = 8 * j := by
    unfold wsize
    omega
  rw [if_neg (fun hne => hne heven), hmul, wrap32_of_lt hn]

/-- A break from `2^31` on is moved all the same. -/
theorem extendHeap_high (s : State) (hdvd : 8 ∣ n) (hn : n < 4294967296)
    (hhigh : 0x80000000 ≤ s.memBrk) :
    extendHeap s (n / wsize) =
      if 0x80000000 ≤ n ∨ s.memMaxAddr < wrap32 (s.memBrk + n) then .error .panic
      else .ok (0, { s with memBrk := wrap32 (s.memBrk + n) }) := by
  by_cases hpanic : 0x80000000 ≤ n ∨ s.memMaxAddr < wrap32 (s.memBrk + n)
  · simp only [extendHeap, extendHeap_size hdvd hn, dmmSbrk, if_pos hpanic]
  · simp only [extendHeap, extendHeap_size hdvd hn, dmmSbrk, if_neg hpanic, if_pos hhigh]

/-- `extend_heap` halts, gives up on a break that is too high, or adds a free block. -/
theorem HeapInv.extendHeap_cases (h : HeapInv s bs) (hpos : 0 < n) (hdvd : 8 ∣ n)
    (hn : n < 4294967296) :
    ((0x80000000 ≤ n ∨ s.memMaxAddr < wrap32 (s.memBrk + n)) ∧
      extendHeap s (n / wsize) = .error .panic) ∨
    (n < 0x80000000 ∧ 0x80000000 ≤ s.memBrk ∧
      extendHeap s (n / wsize) = .ok (0, { s with memBrk := wrap32 (s.memBrk + n) })) ∨
    (s.memBrk < 0x80000000 ∧ s.memBrk + n ≤ s.memMaxAddr ∧
      ∃ m, extendHeap s (n / wsize) = .ok (s.memBrk, { s with mem := m, memBrk := s.memBrk + n }) ∧
        HeapInv { s with mem := m, memBrk := s.memBrk + n } (bs ++ [⟨s.memBrk, n, false⟩])) := by
  have hle := h.layout.le
  have hlow := h.low
  have htop := h.top
  have hmax := h.max
  have hwords := extendHeap_size hdvd hn
  by_cases hpanic : 0x80000000 ≤ n ∨ s.memMaxAddr < wrap32 (s.memBrk + n)
  · left
    refine ⟨hpanic, ?_⟩
    simp only [extendHeap, hwords, dmmSbrk, if_pos hpanic]
  · right
    by_cases hhigh : 0x80000000 ≤ s.memBrk
    · left
      have hext := extendHeap_high s hdvd hn hhigh
      rw [if_neg hpanic] at hext
      exact ⟨by omega, hhigh, hext⟩
    · right
      rw [not_or] at hpanic
      obtain ⟨hsmall, hroom⟩ := hpanic
      have hsbrk : dmmSbrk s n = .ok (s.memBrk, { s with memBrk := wrap32 (s.memBrk + n) }) :=
        if_neg (not_or.mpr ⟨hsmall, hroom⟩)
      have hbrk : wrap32 (s.memBrk + n) = s.memBrk + n := wrap32_of_lt (by omega)
      rw [hbrk] at hroom hsbrk
      refine ⟨by omega, by omega, ?_⟩
      let y : Block := ⟨s.memBrk, n, false⟩
      have hn8 := Nat.le_of_dvd hpos hdvd
      have hy4 : 4 ≤ y.addr := by
        show 4 ≤ s.memBrk
        omega
      have hyb : y.addr + y.size < 4294967296 := by
        show s.memBrk + n < _
        omega
      obtain ⟨hlay, hend⟩ := append_free (x := y) h.layout rfl (by omega) hpos hdvd hyb
      obtain ⟨m', hcoalesce, hlay', hend'⟩ := coalesce_layout hlay hend (by omega) hyb rfl
        (List.cons_ne_nil _ bs)
      refine ⟨m', ?_, ⟨h.low, Nat.not_lt.mp hroom, h.max, by simpa using hlay', hend'⟩⟩
      have htags : put (put s.mem (hdrp s.memBrk) n)
        (ftrp (put s.mem (hdrp s.memBrk) n) s.memBrk) n =
          writeTags s.mem y := put_tags s.mem (x := y) hy4 hyb hpos hdvd
      have hnextp : nextBlkp (writeTags s.mem y) s.memBrk = s.memBrk + n :=
        nextBlkp_eq (x := y) (tagged_writeTags s.mem hy4 hpos hdvd
          (by show n + 0 < _; omega)) hy4 hyb
      have hepi : hdrp (s.memBrk + n) = s.memBrk + n - 4 := hdrp_eq (by omega) hyb
      have hone : pack 0 1 = 1 := rfl
      simp only [extendHeap, hwords, hsbrk, if_neg hhigh, pack_zero, htags, hnextp, hepi, hone]
      have hcoalesce' : coalesce (put (writeTags s.mem y) (s.memBrk + n - 4) 1) s.memBrk =
          (s.memBrk, m') := hcoalesce
      rw [hcoalesce']

theorem adjust_spec {size : ℕ} (h : size + 15 < 4294967296) :
    8 ∣ adjust size ∧ 16 ≤ adjust size ∧ adjust size < 4294967296 := by
  unfold adjust dsize overhead
  split_ifs with hsmall
  · decide
  · rw [wrap32_of_lt (by omega : size + 8 + (8 - 1) < 4294967296), wrap32_of_lt (by omega)]
    omega

/-- How far `mm_malloc` moves the break. -/
def extendsize (size : ℕ) : ℕ := if chunksize < adjust size then adjust size else chunksize

theorem extendsize_spec (size : ℕ) :
    8 ∣ extendsize size ∧ adjust size ≤ extendsize size ∧ 4096 ≤ extendsize size ∧
      extendsize size < 4294967296 := by
  have hadjust : 8 ∣ adjust size ∧ adjust size < 4294967296 := by
    unfold adjust dsize overhead
    split_ifs with hsmall
    · decide
    · refine ⟨?_, wrap32_lt _⟩
      unfold wrap32
      omega
  unfold extendsize chunksize
  split_ifs <;> omega

/-- As no free block is found, `mm_malloc` always asks for more memory. -/
theorem mmMalloc_eq (hl : Layout s.mem s.heapListp bs b) (hend : load32 s.mem (b - 4) = 1)
    (ha : 4 ≤ s.heapListp) (hb : b < 4294967296) (hbrk : b ≤ s.memBrk) {size : ℕ}
    (hsize : size ≠ 0) :
    mmMalloc s size = match extendHeap s (extendsize size / wsize) with
      | .error e => .error e
      | .ok (bp, t) =>
        if bp = 0 then .ok (0, t) else .ok
            (bp, { t with mem := place t.mem bp (adjust size) }) := by
  have hlen := hl.length_le
  have hfind : findFit s.mem (adjust size) s.fuel s.heapListp = .ok 0 :=
    findFit_eq hl hend ha hb _ (by unfold State.fuel; omega)
  simp only [mmMalloc, if_neg hsize, hfind, ne_eq, not_true_eq_false, if_false]
  rfl

/-- `mm_malloc` halts, gives up on a break that is too high, or adds blocks at the end. -/
theorem HeapInv.mmMalloc_cases (h : HeapInv s bs) {size : ℕ} (hsize : size ≠ 0)
    (hfit : size + 15 < 4294967296) :
    mmMalloc s size = .error .panic ∨
    (∃ n, 0 < n ∧ n < 0x80000000 ∧ 0x80000000 ≤ s.memBrk ∧
      mmMalloc s size = .ok (0, { s with memBrk := wrap32 (s.memBrk + n) })) ∨
    (s.memBrk < 0x80000000 ∧ ∃ m n, adjust size ≤ n ∧
      mmMalloc s size = .ok (s.memBrk, { s with mem := m, memBrk := s.memBrk + n }) ∧
      HeapInv { s with mem := m, memBrk := s.memBrk + n }
        (bs ++ placed s.memBrk n (adjust size))) := by
  obtain ⟨hdvd, hge, -⟩ := adjust_spec hfit
  obtain ⟨hn8, hnge, hnpos, hnlt⟩ := extendsize_spec size
  have hlow := h.low
  have htop := h.top
  have hmax := h.max
  have hle := h.layout.le
  have heq := mmMalloc_eq h.layout h.epilogue (by omega) (by omega) (Nat.le_refl _) hsize
  rcases h.extendHeap_cases (n := extendsize size) (by omega) hn8 hnlt with ⟨-, hext⟩ |
    ⟨hsmall, hhigh, hext⟩ | ⟨hbrk, hroom, m, hext, hinv⟩
  · left
    simp only [heq, hext]
  · right; left
    refine ⟨extendsize size, by omega, hsmall, hhigh, ?_⟩
    simp only [heq, hext, if_true]
  · right; right
    have hbrk0 : s.memBrk ≠ 0 := by omega
    let y : Block := ⟨s.memBrk, extendsize size, false⟩
    have hlay : Layout m s.heapListp ((⟨s.heapListp, 8, true⟩ :: bs) ++ y :: [])
        (s.memBrk + extendsize size) := hinv.layout
    obtain ⟨hplace, hkeep⟩ := place_layout hlay (by omega) (by omega) (by omega) hdvd hnge
    refine ⟨hbrk, place m s.memBrk (adjust size), extendsize size, hnge, ?_, hinv.low, hinv.top,
      hinv.max, ?_, ?_⟩
    · simp only [heq, hext, if_neg hbrk0]
    · rw [List.append_nil, List.cons_append] at hplace
      exact hplace
    · have hend : load32 m (s.memBrk + extendsize size - 4) = 1 := hinv.epilogue
      rw [← hend]
      refine load32_congr fun p h1 h2 => hkeep p ?_
      have h1' : s.memBrk + extendsize size - 4 ≤ p := h1
      show s.memBrk + extendsize size ≤ p + 4
      omega

end Unos.Kmalloc
