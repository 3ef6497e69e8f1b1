import Unos.Library.Links
import Unos.Library.Runs
import Unos.Library.Splits
import Unos.Kmalloc.Blocks

namespace Unos.Kmalloc

open Unos.Words Unos.ByteMemory Unos.BoundaryTags Unos.Links Unos.Runs Unos.Splits

/-- The heap with the blocks that were handed out and not freed. -/
structure Heap where
  state : State
  live : List ℕ

inductive Op
  | malloc (size : ℕ)
  | free (bp : ℕ)

/-- One operation. Requests do not overflow when they are rounded, and only live blocks are
freed. A call that panics has no next state. -/
def heapStep (h : Heap) : Op → Option Heap
  | .malloc size =>
    if size + 15 < 4294967296 then
      match mmMalloc h.state size with
      | .ok (bp, s) => some ⟨s, if bp = 0 then h.live else bp :: h.live⟩
      | .error _ => none
    else none
  | .free bp =>
    if bp ∈ h.live then some ⟨mmFree h.state bp, h.live.filter fun p => p ≠ bp⟩ else none

def Bit (m : Mem) (p : ℕ) : Prop := get m p % 2 = 1

instance (m : Mem) (p : ℕ) : Decidable (Bit m p) := inferInstanceAs (Decidable (_ = _))

/-- The walk from the prologue meets the blocks `bs` and ends at the epilogue at the break. -/
structure Walk (h : Heap) (bs : List ℕ) : Prop where
  path : Path (nextBlkp h.state.mem) h.state.heapListp (h.state.heapListp :: bs) h.state.memBrk
  epilogue : get h.state.mem (hdrp h.state.memBrk) = pack 0 1
  tags : ∀ b ∈ h.state.heapListp :: bs,
    get h.state.mem (hdrp b) = get h.state.mem (ftrp h.state.mem b)
  size : ∀ b ∈ h.state.heapListp :: bs,
    0 < getSize h.state.mem (hdrp b) ∧ 8 ∣ getSize h.state.mem (hdrp b)
  alloc : ∀ b ∈ h.state.heapListp :: bs,
    Bit h.state.mem (hdrp b) ↔ b = h.state.heapListp ∨ b ∈ h.live
  live : ∀ b ∈ h.live, b ∈ bs
  merged : bs.IsChain fun a b => Bit h.state.mem (hdrp a) ∨ Bit h.state.mem (hdrp b)

def WellFormed (h : Heap) : Prop := ∃ bs, Walk h bs

/-- A block is only freed between allocated ones, and memory is only asked for while the
break is positive as an `int`. -/
def Quiet (h : Heap) : Op → Prop
  | .malloc size => size = 0 ∨ h.state.memBrk < 0x80000000
  | .free bp =>
    Bit h.state.mem (sub32 bp dsize) ∧ Bit h.state.mem (hdrp (nextBlkp h.state.mem bp))

instance Quiet.decidable (h : Heap) : (op : Op) → Decidable (Quiet h op)
  | .malloc _ => inferInstanceAs (Decidable (_ ∨ _))
  | .free _ => inferInstanceAs (Decidable (_ ∧ _))

/-- The blocks with their sizes; the live ones are those that are allocated. -/
structure Inv (h : Heap) (bs : List Block) : Prop where
  heap : HeapInv h.state bs
  live : ∀ p, p ∈ h.live ↔ ∃ x ∈ bs, x.addr = p ∧ x.alloc = true

variable {m : Mem} {a b : ℕ} {h t : Heap} {bs : List Block}

theorem path_of_layout (hl : Layout m a bs b) (ha : 4 ≤ a) (hb : b < 4294967296) :
    Path (nextBlkp m) a (bs.map Block.addr) b := by
  induction bs generalizing a with
  | nil => exact hl
  | cons x xs ih =>
    obtain ⟨rfl, htag, hrest⟩ := hl
    have hle := hrest.le
    refine ⟨rfl, ?_⟩
    rw [nextBlkp_eq htag ha (by omega)]
    exact ih hrest (by omega)

theorem Inv.blocks (hi : Inv h bs) :
    ∀ x ∈ (⟨h.state.heapListp, 8, true⟩ : Block) :: bs, Tagged h.state.mem x ∧ 4 ≤ x.addr ∧
      x.addr + x.size < 4294967296 := by
  intro x hx
  have hlow := hi.heap.low
  have htop := hi.heap.top
  have hmax := hi.heap.max
  have hbound := hi.heap.layout.bounds hx
  exact ⟨hi.heap.layout.tagged hx, by omega, by omega⟩

theorem Inv.bit_iff (hi : Inv h bs) {x : Block}
    (hx : x ∈ (⟨h.state.heapListp, 8, true⟩ : Block) :: bs) :
    Bit h.state.mem (hdrp x.addr) ↔ x.alloc = true := by
  obtain ⟨htag, h4, hlt⟩ := hi.blocks x hx
  rw [Bit, hdrp_eq h4 (by omega), get, htag.header]
  exact tag_mod htag.dvd

theorem Inv.epilogue_eq (hi : Inv h bs) : get h.state.mem (hdrp h.state.memBrk) = 1 := by
  have hlow := hi.heap.low
  have htop := hi.heap.top
  have hmax := hi.heap.max
  have hle := hi.heap.layout.le
  rw [hdrp_eq (by omega) (by omega)]
  exact hi.heap.epilogue

theorem Inv.walk_eq (hi : Inv h bs) {brk : ℕ} {ps : List ℕ}
    (hpath : Path (nextBlkp h.state.mem) h.state.heapListp (h.state.heapListp :: ps) brk)
    (hend : get h.state.mem (hdrp brk) = pack 0 1)
    (hsize : ∀ p ∈ h.state.heapListp :: ps, 0 < getSize h.state.mem (hdrp p)) :
    ps = bs.map Block.addr ∧ brk = h.state.memBrk := by
  have hlow := hi.heap.low
  have htop := hi.heap.top
  have hmax := hi.heap.max
  have hown := path_of_layout hi.heap.layout (by omega) (by omega)
  have hone : ∀ p, get h.state.mem p = 1 → ¬ 0 < getSize h.state.mem p := by
    intro p hp
    rw [get] at hp
    rw [getSize_eq, hp]
    decide
  have hvisited : ∀ p ∈ ((⟨h.state.heapListp, 8, true⟩ : Block) :: bs).map Block.addr,
      0 < getSize h.state.mem (hdrp p) := by
    intro p hp
    obtain ⟨x, hx, rfl⟩ := List.mem_map.mp hp
    obtain ⟨htag, h4, hlt⟩ := hi.blocks x hx
    rw [getSize_hdrp htag h4 hlt]
    exact htag.pos
  obtain ⟨heq, hbrk⟩ := hpath.end_unique hown hsize (hone _ hend) hvisited (hone _ hi.epilogue_eq)
  rw [List.map_cons] at heq
  exact ⟨(List.cons.inj heq).2, hbrk⟩

theorem Inv.merged_iff (hi : Inv h bs) :
    ((bs.map Block.addr).IsChain fun p q =>
      Bit h.state.mem (hdrp p) ∨ Bit h.state.mem (hdrp q)) ↔ Settled bs := by
  rw [List.isChain_map, Settled]
  refine List.IsChain.iff_of_mem_imp fun x y hx hy => ?_
  rw [hi.bit_iff (List.mem_cons_of_mem _ hx), hi.bit_iff (List.mem_cons_of_mem _ hy)]

theorem Inv.wellFormed_iff (hi : Inv h bs) : WellFormed h ↔ Settled bs := by
  have hlow := hi.heap.low
  have htop := hi.heap.top
  have hmax := hi.heap.max
  have hpath := path_of_layout hi.heap.layout (by omega) (by omega)
  have hmem : ∀ p ∈ h.state.heapListp :: bs.map Block.addr,
      ∃ x ∈ (⟨h.state.heapListp, 8, true⟩ : Block) :: bs, x.addr = p := by
    intro p hp
    rw [← List.map_cons (f := Block.addr) (a := ⟨h.state.heapListp, 8, true⟩)] at hp
    exact List.mem_map.mp hp
  constructor
  · rintro ⟨ps, hw⟩
    obtain ⟨rfl, -⟩ := hi.walk_eq hw.path hw.epilogue fun p hp => (hw.size p hp).1
    exact hi.merged_iff.mp hw.merged
  · intro hset
    refine ⟨bs.map Block.addr, hpath, hi.epilogue_eq, ?_, ?_, ?_, ?_, hi.merged_iff.mpr hset⟩
    · intro p hp
      obtain ⟨x, hx, rfl⟩ := hmem p hp
      obtain ⟨htag, h4, hlt⟩ := hi.blocks x hx
      rw [hdrp_eq h4 (by omega), ftrp_eq htag h4 hlt, get, get, htag.header, htag.footer]
    · intro p hp
      obtain ⟨x, hx, rfl⟩ := hmem p hp
      obtain ⟨htag, h4, hlt⟩ := hi.blocks x hx
      rw [getSize_hdrp htag h4 hlt]
      exact ⟨htag.pos, htag.dvd⟩
    · intro p hp
      obtain ⟨x, hx, rfl⟩ := hmem p hp
      rw [hi.bit_iff hx, hi.live]
      rcases List.mem_cons.mp hx with rfl | hx
      · exact iff_of_true rfl (.inl rfl)
      · -- a block behind the prologue
        have hlay : Layout h.state.mem h.state.heapListp
            ([] ++ (⟨h.state.heapListp, 8, true⟩ : Block) :: bs) h.state.memBrk := hi.heap.layout
        have hne : x.addr ≠ h.state.heapListp := hlay.addr_ne hx
        constructor
        · exact fun halloc => .inr ⟨x, hx, rfl, halloc⟩
        · rintro (heq | ⟨y, hy, hyx, halloc⟩)
          · exact absurd heq hne
          · have hxy := hi.heap.layout.eq_of_addr (List.mem_cons_of_mem _ hx)
              (List.mem_cons_of_mem _ hy) hyx
            exact hxy ▸ halloc
    · intro p hp
      obtain ⟨x, hx, rfl, -⟩ := (hi.live p).mp hp
      exact List.mem_map_of_mem hx

theorem settled_placed {n asize brk : ℕ} (hset : Settled bs) :
    Settled (bs ++ placed brk n asize) := by
  rw [placed]
  split_ifs
  · rw [settled_of_alloc rfl]
    exact ⟨hset, List.isChain_singleton _⟩
  · rw [settled_of_alloc rfl]
    exact ⟨hset, List.isChain_nil⟩

theorem placed_alloc {n asize brk p : ℕ} :
    (∃ x ∈ placed brk n asize, x.addr = p ∧ x.alloc = true) ↔ brk = p := by
  rw [placed]
  split_ifs <;> simp

/-- The block that is placed is live. -/
theorem Inv.placed (hi : Inv h bs) {s : State} {brk n asize : ℕ}
    (hinv : HeapInv s (bs ++ placed brk n asize)) :
    Inv ⟨s, brk :: h.live⟩ (bs ++ Kmalloc.placed brk n asize) := by
  refine ⟨hinv, fun p => ?_⟩
  rw [List.mem_cons, hi.live]
  simp only [List.mem_append, or_and_right, exists_or, placed_alloc]
  rw [or_comm, eq_comm]

theorem Inv.malloc_step (hi : Inv h bs) (hset : Settled bs) {size : ℕ}
    (hstep : heapStep h (.malloc size) = some t) :
    (Quiet h (.malloc size) ∧ ∃ bs', Inv t bs' ∧ Settled bs') ∨
      (¬ Quiet h (.malloc size) ∧ ¬ WellFormed t) := by
  have hlow := hi.heap.low
  have hle := hi.heap.layout.le
  have htop := hi.heap.top
  have hmax := hi.heap.max
  simp only [heapStep] at hstep
  split_ifs at hstep with hfit
  by_cases hsize : size = 0
  · have hnull : mmMalloc h.state size = .ok (0, h.state) := if_pos hsize
    rw [hnull] at hstep
    cases hstep
    exact .inl ⟨.inl hsize, bs, hi, hset⟩
  · rcases hi.heap.mmMalloc_cases hsize hfit
      with hm | ⟨n, hn0, hn, hbrk, hm⟩ | ⟨hbrk, m, n, hn, hm, hinv⟩
    · rw [hm] at hstep
      exact absurd hstep nofun
    · right
      rw [hm] at hstep
      cases hstep
      refine ⟨?_, ?_⟩
      · rintro (h0 | hlt)
        · exact hsize h0
        · exact absurd hbrk (Nat.not_le.mpr hlt)
      · -- the walk still ends at the old break
        rintro ⟨ps, hw⟩
        obtain ⟨-, heq⟩ := hi.walk_eq hw.path hw.epilogue fun p hp => (hw.size p hp).1
        have heq' : wrap32 (h.state.memBrk + n) = h.state.memBrk := heq
        unfold wrap32 at heq'
        omega
    · left
      rw [hm] at hstep
      cases hstep
      have hbrk0 : h.state.memBrk ≠ 0 := by omega
      rw [if_neg hbrk0]
      exact ⟨.inr hbrk, _, hi.placed hinv, settled_placed hset⟩

theorem Inv.bit_before {xs ys : List Block} {x : Block} (hi : Inv h (xs ++ x :: ys)) :
    Bit h.state.mem (sub32 x.addr dsize) ↔ ∀ z ∈ xs.getLast?, z.alloc = true := by
  have hlay : Layout h.state.mem h.state.heapListp
      (((⟨h.state.heapListp, 8, true⟩ : Block) :: xs) ++ x :: ys) h.state.memBrk := hi.heap.layout
  obtain ⟨c, h1, hc, -, -⟩ := layout_append.mp hlay
  subst hc
  obtain ⟨-, -, hlt⟩ := hi.blocks x (by simp)
  have haddr := hi.heap.addr_gt (x := x) (by simp)
  have hsub : sub32 x.addr dsize = x.addr - 8 :=
    sub32_of_le (by unfold dsize; omega) (by omega)
  rcases List.eq_nil_or_concat' xs with rfl | ⟨zs, w, rfl⟩
  · obtain ⟨-, htag, hend⟩ := h1
    have hend' : h.state.heapListp + 8 = x.addr := hend
    have hfooter : load32 h.state.mem (h.state.heapListp + 8 - 8) = 9 := htag.footer
    rw [hend'] at hfooter
    rw [Bit, hsub, get, hfooter]
    simp
  · obtain ⟨d, h2, hd, htag, hend⟩ := layout_append.mp (List.cons_append ▸ h1)
    subst hd
    have hend' : w.addr + w.size = x.addr := hend
    have hfooter := htag.footer
    rw [hend'] at hfooter
    rw [Bit, hsub, get, hfooter, tag_mod htag.dvd]
    simp

theorem Inv.bit_behind {xs ys : List Block} {x : Block} (hi : Inv h (xs ++ x :: ys)) :
    Bit h.state.mem (hdrp (nextBlkp h.state.mem x.addr)) ↔ ∀ z ∈ ys.head?, z.alloc = true := by
  have hlay : Layout h.state.mem h.state.heapListp
      (((⟨h.state.heapListp, 8, true⟩ : Block) :: xs) ++ x :: ys) h.state.memBrk := hi.heap.layout
  obtain ⟨c, h1, hc, -, h2⟩ := layout_append.mp hlay
  subst hc
  obtain ⟨htag, h4, hlt⟩ := hi.blocks x (by simp)
  rw [nextBlkp_eq htag h4 hlt]
  cases ys with
  | nil =>
    have hend : x.addr + x.size = h.state.memBrk := h2
    rw [Bit, hend, hi.epilogue_eq]
    simp
  | cons z ys =>
    have hz : z.addr = x.addr + x.size := h2.1
    rw [← hz, hi.bit_iff (by simp)]
    simp

/-- `mm_free` clears the mark of one block. -/
theorem Inv.free {xs ys : List Block} {x : Block} (hi : Inv h (xs ++ x :: ys)) :
    Inv ⟨mmFree h.state x.addr, h.live.filter fun p => p ≠ x.addr⟩
      (xs ++ { x with alloc := false } :: ys) := by
  obtain ⟨m, hfree, hinv⟩ := hi.heap.mmFree_eq
  refine ⟨hfree ▸ hinv, fun p => ?_⟩
  have hother : ∀ z ∈ xs ++ ys, z.addr ≠ x.addr := by
    have hlay : Layout h.state.mem h.state.heapListp
        (((⟨h.state.heapListp, 8, true⟩ : Block) :: xs) ++ x :: ys) h.state.memBrk :=
      hi.heap.layout
    exact fun z hz => hlay.addr_ne (List.mem_cons_of_mem _ hz)
  rw [List.mem_filter, decide_eq_true_eq, hi.live]
  constructor
  · rintro ⟨⟨z, hz, rfl, hzalloc⟩, hne⟩
    exact ⟨z, mem_middle_of_mem (mem_of_mem_middle hz fun heq => hne (heq ▸ rfl)), rfl, hzalloc⟩
  · rintro ⟨z, hz, rfl, hzalloc⟩
    have hz' : z ∈ xs ++ ys := by
      apply mem_of_mem_middle hz
      rintro rfl
      exact Bool.false_ne_true hzalloc
    exact ⟨⟨z, mem_middle_of_mem hz', rfl, hzalloc⟩, hother z hz'⟩

theorem Inv.free_step (hi : Inv h bs) (hset : Settled bs) {bp : ℕ}
    (hstep : heapStep h (.free bp) = some t) :
    (Quiet h (.free bp) ∧ ∃ bs', Inv t bs' ∧ Settled bs') ∨
      (¬ Quiet h (.free bp) ∧ ¬ WellFormed t) := by
  rw [heapStep] at hstep
  split_ifs at hstep with hlive
  cases hstep
  obtain ⟨x, hx, rfl, halloc⟩ := (hi.live bp).mp hlive
  obtain ⟨xs, ys, rfl⟩ := List.append_of_mem hx
  have hnew := hi.free
  have hiff : Settled (xs ++ { x with alloc := false } :: ys) ↔ Quiet h (.free x.addr) := by
    rw [settled_of_free rfl, Quiet, hi.bit_before, hi.bit_behind]
    exact and_iff_right ((settled_of_alloc halloc).mp hset)
  by_cases hq : Quiet h (.free x.addr)
  · exact .inl ⟨hq, _, hnew, hiff.mpr hq⟩
  · exact .inr ⟨hq, fun hw => hq (hiff.mp (hnew.wellFormed_iff.mp hw))⟩

theorem heapStep_cases (hi : Inv h bs) (hset : Settled bs) {op : Op}
    (hstep : heapStep h op = some t) :
    (Quiet h op ∧ ∃ bs', Inv t bs' ∧ Settled bs') ∨ (¬ Quiet h op ∧ ¬ WellFormed t) := by
  cases op with
  | malloc size => exact hi.malloc_step hset hstep
  | free bp => exact hi.free_step hset hstep

def emptyHeap (m : Mem) (base : ℕ) : Mem :=
  store32 (store32 (store32 (store32 m base 0) (base + 4) 9) (base + 8) 9) (base + 12) 1

theorem emptyHeap_inv {s : State} {base : ℕ} (m : Mem) (hbase : 0 < base)
    (htop : base + 16 ≤ s.memMaxAddr) (hmax : s.memMaxAddr < 4294967296) :
    HeapInv { s with mem := emptyHeap m base, heapListp := base + 8, memBrk := base + 16 } [] := by
  have hheader : load32 (emptyHeap m base) (base + 4) = 9 := by
    rw [emptyHeap, load32_store32_of_disjoint (by omega), load32_store32_of_disjoint (by omega),
      load32_store32 _ (by decide)]
  have hfooter : load32 (emptyHeap m base) (base + 8) = 9 := by
    rw [emptyHeap, load32_store32_of_disjoint (by omega), load32_store32 _ (by decide)]
  have hend : load32 (emptyHeap m base) (base + 12) = 1 := by
    rw [emptyHeap, load32_store32 _ (by decide)]
  refine ⟨by show 8 < base + 8; omega, htop, hmax, ⟨rfl, ⟨?_, ?_, ?_, ?_⟩, ?_⟩, ?_⟩
  · exact Nat.zero_lt_succ 7
  · exact Nat.dvd_refl 8
  · exact hheader
  · exact hfooter
  · rfl
  · exact hend

theorem mmInit_of_sbrk {s t : State} {base : ℕ} (hbase : base + 16 < 4294967296) (h0 : base ≠ 0)
    (hsbrk : dmmSbrk s (4 * wsize) = .ok (base, t)) :
    mmInit s = (extendHeap { t with mem := emptyHeap t.mem base, heapListp := base + 8 }
      (4096 / wsize)).map fun r => (if r.1 = 0 then -1 else 0, r.2) := by
  have h4 : wrap32 (base + wsize) = base + 4 := wrap32_of_lt (show base + 4 < _ by omega)
  have h8 : wrap32 (base + dsize) = base + 8 := wrap32_of_lt (show base + 8 < _ by omega)
  have h12 : wrap32 (base + (wsize + dsize)) = base + 12 :=
    wrap32_of_lt (show base + 12 < _ by omega)
  have hnine : pack overhead 1 = 9 := rfl
  have hone : pack 0 1 = 1 := rfl
  rw [mmInit, hsbrk]
  simp only [if_neg h0, put, h4, h8, h12, hnine, hone]
  rw [emptyHeap, show chunksize = 4096 from rfl]
  cases extendHeap { t with
    mem := store32 (store32 (store32 (store32 t.mem base 0) (base + 4) 9) (base + 8) 9)
      (base + 12) 1
    heapListp := base + 8 } (4096 / wsize) <;> rfl

/-- `mm_init` leaves one free block between the prologue and the epilogue. -/
theorem mmInit_inv {s t : State} {base size : ℕ} (hbase : base + 16 < 4294967296)
    (h : mmInit (dmmInit s base size) = .ok (0, t)) :
    HeapInv t [⟨t.heapListp + 8, 4096, false⟩] ∧ t.memHeap = base ∧ t.heapListp = base + 8 := by
  have hmax := wrap32_lt (base + size)
  have hbrk : wrap32 (base + 16) = base + 16 := wrap32_of_lt (by omega)
  by_cases hpanic : 0x80000000 ≤ 16 ∨ wrap32 (base + size) < base + 16
  · have hsbrk : dmmSbrk (dmmInit s base size) (4 * wsize) = .error .panic := by
      rw [← hbrk] at hpanic
      exact if_pos hpanic
    rw [mmInit, hsbrk] at h
    cases h
  · have hsbrk : dmmSbrk (dmmInit s base size) (4 * wsize) =
        .ok (base, { dmmInit s base size with memBrk := base + 16 }) := by
      rw [← hbrk] at hpanic ⊢
      exact if_neg hpanic
    by_cases hbase0 : base = 0
    · rw [mmInit, hsbrk] at h
      have hret := congrArg (fun r => r.map Prod.fst) h
      simp [hbase0, Except.map] at hret
    · rw [not_or] at hpanic
      have hinv := emptyHeap_inv (s := dmmInit s base size) (dmmInit s base size).mem
        (by omega : 0 < base)
        (Nat.not_lt.mp hpanic.2) hmax
      rw [mmInit_of_sbrk hbase hbase0 hsbrk] at h
      rcases hinv.extendHeap_cases (n := 4096) (by decide) (by decide) (by decide) with ⟨-, hext⟩ |
        ⟨-, -, hext⟩ | ⟨-, -, m, hext, hnew⟩
      · rw [hext] at h
        cases h
      · rw [hext] at h
        have hret := congrArg (fun r => r.map Prod.fst) h
        simp [Except.map] at hret
      · rw [hext] at h
        have hst := congrArg (fun r => r.map Prod.snd) h
        simp only [Except.map, Except.ok.injEq] at hst
        rw [← hst]
        exact ⟨hnew, rfl, rfl⟩

theorem mmInit_heap {s t : State} {base size : ℕ} (hbase : base + 16 < 4294967296)
    (h : mmInit (dmmInit s base size) = .ok (0, t)) :
    Inv ⟨t, []⟩ [⟨t.heapListp + 8, 4096, false⟩] :=
  ⟨(mmInit_inv hbase h).1, fun p => by simp⟩

theorem Inv.always_iff (hi : Inv h bs) (hset : Settled bs) (ops : List Op) :
    Always heapStep WellFormed h ops ↔ Steps heapStep Quiet h ops := by
  refine always_iff_steps (I := fun h => ∃ bs, Inv h bs) ?_ ?_ ⟨bs, hi⟩ (hi.wellFormed_iff.mpr hset)
    ops
  · rintro h op u ⟨bs, hbs⟩ hw hstep hu
    rcases heapStep_cases hbs (hbs.wellFormed_iff.mp hw) hstep with ⟨-, bs', hbs', -⟩ | ⟨-, hbad⟩
    · exact ⟨bs', hbs'⟩
    · exact absurd hu hbad
  · rintro h op u ⟨bs, hbs⟩ hw hstep
    rcases heapStep_cases hbs (hbs.wellFormed_iff.mp hw) hstep
      with ⟨hq, bs', hbs', hset⟩ | ⟨hq, hbad⟩
    · exact iff_of_true (hbs'.wellFormed_iff.mpr hset) hq
    · exact iff_of_false hbad hq

/-- Every state of a run is well formed exactly when every block is freed between allocated
ones and no request comes when the break is too high. -/
theorem heap_run_iff {s t : State} {base size : ℕ} (hbase : base < 0x80000000)
    (hinit : mmInit (dmmInit s base size) = .ok (0, t)) (ops : List Op) :
    Always heapStep WellFormed ⟨t, []⟩ ops ↔ Steps heapStep Quiet ⟨t, []⟩ ops :=
  (mmInit_heap (by omega) hinit).always_iff (List.isChain_singleton _) ops

/-- 64 KB of zeroed memory from `0x10000` on. -/
def smallArena : State := dmmInit ⟨fun _ => 0, 0, 0, 0, 0⟩ 65536 65536

def smallHeap : Heap := ⟨((mmInit smallArena).toOption.map Prod.snd).getD smallArena, []⟩

theorem smallHeap_init : mmInit smallArena = .ok (0, smallHeap.state) := by
  have hret : (mmInit smallArena).toOption.map Prod.fst = some 0 := by decide +kernel
  rw [smallHeap]
  cases h : mmInit smallArena with
  | error e =>
    rw [h] at hret
    exact absurd hret nofun
  | ok r =>
    rw [h] at hret
    have hfst : r.1 = 0 := Option.some.inj hret
    rw [← hfst]
    rfl

/-- Three blocks are allocated and the one in the middle is freed. -/
theorem heap_run_small :
    Always heapStep WellFormed smallHeap
      [.malloc 4088, .malloc 4088, .malloc 4088, .free 73744] :=
  (heap_run_iff (by decide) smallHeap_init _).mpr (by decide +kernel)

/-- A block is allocated and freed: it is not merged with the free block before it. -/
theorem malloc_free_not_merged :
    mmInit smallArena = .ok (0, smallHeap.state) ∧
      ¬ Always heapStep WellFormed smallHeap [.malloc 8, .free 69648] := by
  have hi := mmInit_heap (by decide) smallHeap_init
  refine ⟨smallHeap_init, fun halways => ?_⟩
  have hsteps := (hi.always_iff (List.isChain_singleton _) _).mp halways
  exact absurd hsteps (by decide +kernel)

end Unos.Kmalloc
