import Unos.Kmalloc.Break
import Unos.Kmalloc.Delivery

namespace Unos.Kmalloc

open Unos.Words Unos.ByteMemory Unos.BoundaryTags Unos.Runs

/-- The blocks from `a` on up to the epilogue, which the loop of `find_fit` goes through. -/
inductive Listed (m : Mem) : ℕ → ℕ → Prop
  | here {a : ℕ} (hsize : 0 < getSize m (hdrp a)) : Listed m a a
  | next {a b : ℕ} (hsize : 0 < getSize m (hdrp a))
    (hrest : Listed m (nextBlkp m a) b) : Listed m a b

def FreeFit (s : State) (size : ℕ) : Prop :=
  ∃ bp, Listed s.mem s.heapListp bp ∧ ¬ Bit s.mem (hdrp bp) ∧ adjust size ≤ getSize s.mem (hdrp bp)

def GrowsIfFull (s : State) (size : ℕ) : Prop :=
  ∀ bp t, mmMalloc s size = .ok (bp, t) → t.memBrk ≠ s.memBrk → ¬ FreeFit s size

/-- A request after `bp` was freed does not move the break. -/
def FreedReused (s : State) (bp size : ℕ) : Prop :=
  ∀ q t, mmMalloc (mmFree s bp) size = .ok (q, t) → t.memBrk = s.memBrk

variable {h : Heap} {bs : List Block} {stop size : ℕ}

theorem listed_iff {m : Mem} {a b p : ℕ} (hl : Layout m a bs b) (hend : load32 m (b - 4) = 1)
    (ha : 4 ≤ a) (hb : b < 4294967296) : Listed m a p ↔ ∃ x ∈ bs, x.addr = p := by
  induction bs generalizing a with
  | nil =>
    obtain rfl : a = b := hl
    have hzero : ¬ 0 < getSize m (hdrp a) := by
      rw [hdrp_eq ha hb, getSize_eq, hend]
      decide
    refine iff_of_false ?_ (by simp)
    intro hlisted
    cases hlisted with
    | here hsize => exact hzero hsize
    | next hsize hrest => exact hzero hsize
  | cons x xs ih =>
    obtain ⟨rfl, htag, hrest⟩ := hl
    have hle := hrest.le
    have hsize := getSize_hdrp htag ha (by omega)
    have hnext := nextBlkp_eq htag ha (by omega)
    have htail := ih hrest (by omega)
    constructor
    · intro hlisted
      cases hlisted with
      | here _ => exact ⟨x, List.mem_cons_self, rfl⟩
      | next _ hlater =>
        rw [hnext] at hlater
        obtain ⟨y, hy, hyp⟩ := htail.mp hlater
        exact ⟨y, List.mem_cons_of_mem x hy, hyp⟩
    · rintro ⟨y, hy, rfl⟩
      have hpos : 0 < getSize m (hdrp x.addr) := by
        rw [hsize]
        exact htag.pos
      rcases List.mem_cons.mp hy with rfl | hy
      · exact .here hpos
      · refine .next hpos ?_
        rw [hnext]
        exact htail.mpr ⟨y, hy, rfl⟩

theorem Standing.freeFit_iff (hh : Standing h bs stop) :
    FreeFit h.state size ↔ ∃ x ∈ bs, x.alloc = false ∧ adjust size ≤ x.size := by
  obtain ⟨hlow, hstop, -⟩ := hh.bounds
  have hlisted := fun p => listed_iff (p := p) hh.layout hh.inv.heap.epilogue (by omega) hstop
  have hbit : ∀ x ∈ (⟨h.state.heapListp, 8, true⟩ : Block) :: bs,
      Bit h.state.mem (hdrp x.addr) ↔ x.alloc = true := fun x hx => hh.inv.bit_iff hx
  have hsize : ∀ x ∈ (⟨h.state.heapListp, 8, true⟩ : Block) :: bs,
      getSize h.state.mem (hdrp x.addr) = x.size := by
    intro x hx
    obtain ⟨htag, h4, hlt⟩ := hh.inv.blocks x hx
    exact getSize_hdrp htag h4 hlt
  constructor
  · rintro ⟨p, hp, hfree, hfit⟩
    obtain ⟨x, hx, rfl⟩ := (hlisted p).mp hp
    rw [hbit x hx, Bool.not_eq_true] at hfree
    rw [hsize x hx] at hfit
    rcases List.mem_cons.mp hx with rfl | hx
    · exact absurd hfree (fun htrue => Bool.noConfusion htrue)
    · exact ⟨x, hx, hfree, hfit⟩
  · rintro ⟨x, hx, hfree, hfit⟩
    have hmem : x ∈ (⟨h.state.heapListp, 8, true⟩ : Block) :: bs := List.mem_cons_of_mem _ hx
    refine ⟨x.addr, (hlisted x.addr).mpr ⟨x, hmem, rfl⟩, ?_, ?_⟩
    · rw [hbit x hmem, hfree]
      exact Bool.false_ne_true
    · rwa [hsize x hmem]

theorem extendHeap_break (s : State) {n : ℕ} (hdvd : 8 ∣ n) (hn : n < 4294967296) :
    (Refuses s n ∧ extendHeap s (n / wsize) = .error .panic) ∨
    (¬ Refuses s n ∧ ∃ bp t, extendHeap s (n / wsize) = .ok (bp, t) ∧
      t.memBrk = wrap32 (s.memBrk + n)) := by
  by_cases hpanic : Refuses s n
  · left
    refine ⟨hpanic, ?_⟩
    simp only [extendHeap, extendHeap_size hdvd hn, dmmSbrk_eq, if_pos hpanic]
  · right
    refine ⟨hpanic, ?_⟩
    by_cases hhigh : 0x80000000 ≤ s.memBrk
    · refine ⟨0, { s with memBrk := wrap32 (s.memBrk + n) }, ?_, rfl⟩
      simp only [extendHeap, extendHeap_size hdvd hn, dmmSbrk_eq, if_neg hpanic, Returning.dmmSbrk,
        if_pos hhigh]
    · simp only [extendHeap, extendHeap_size hdvd hn, dmmSbrk_eq, if_neg hpanic, Returning.dmmSbrk,
        if_neg hhigh]
      exact ⟨_, _, rfl, rfl⟩

theorem Standing.malloc_break (hh : Standing h bs stop) (hsize : size ≠ 0) :
    (Refuses h.state (extendsize size) ∧ mmMalloc h.state size = .error .panic) ∨
    (¬ Refuses h.state (extendsize size) ∧ ∃ bp t, mmMalloc h.state size = .ok (bp, t) ∧
      t.memBrk ≠ h.state.memBrk) := by
  obtain ⟨hdvd, -, hpos, hlt⟩ := extendsize_spec size
  obtain ⟨-, -, hbrk⟩ := hh.bounds
  have heq := hh.mmMalloc_eq hsize
  have hmoved : wrap32 (h.state.memBrk + extendsize size) ≠ h.state.memBrk := by
    unfold wrap32
    omega
  rcases extendHeap_break h.state hdvd hlt with ⟨hhalts, hext⟩ | ⟨hhalts, bp, t, hext, hbrk⟩
  · rw [hext] at heq
    exact Or.inl ⟨hhalts, heq⟩
  · refine Or.inr ⟨hhalts, ?_⟩
    rw [hext] at heq
    dsimp only at heq
    rw [← hbrk] at hmoved
    by_cases hnull : bp = 0
    · rw [if_pos hnull] at heq
      exact ⟨0, t, heq, hmoved⟩
    · rw [if_neg hnull] at heq
      exact ⟨bp, _, heq, hmoved⟩

theorem Standing.growsIfFull_iff (hh : Standing h bs stop) (hsize : size ≠ 0) :
    GrowsIfFull h.state size ↔ Refuses h.state (extendsize size) ∨ ¬ FreeFit h.state size := by
  rcases hh.malloc_break hsize with ⟨hhalts, heq⟩ | ⟨hhalts, bp, t, heq, hmoved⟩
  · refine iff_of_true ?_ (Or.inl hhalts)
    intro bp t hok
    rw [heq] at hok
    cases hok
  · rw [or_iff_right hhalts]
    exact ⟨fun hgrows => hgrows bp t heq hmoved, fun hfull _ _ _ _ => hfull⟩

theorem Standing.freedReused_iff (hh : Standing h bs stop) {bp : ℕ} (hlive : bp ∈ h.live)
    (hsize : size ≠ 0) : FreedReused h.state bp size ↔ Refuses h.state (extendsize size) := by
  have hstep : requestStep h (.free bp) =
      some ⟨mmFree h.state bp, h.live.filter fun p => p ≠ bp⟩ := if_pos hlive
  have hfits : RequestFits h (.free bp) := trivial
  obtain ⟨bs', stop', hfreed⟩ := hh.step hfits hstep
  rcases hfreed.malloc_break hsize with ⟨hhalts, heq⟩ | ⟨hhalts, q, t, heq, hmoved⟩
  · refine iff_of_true ?_ hhalts
    intro q t hok
    rw [heq] at hok
    cases hok
  · exact iff_of_false (fun hreused => hmoved (hreused q t heq)) hhalts

/-- After every run of requests that fit, the break moves for a request even if a free block is
large enough, and even if one was just freed, unless the kernel halts. -/
theorem mmMalloc_grows_iff {s t : State} {base len : ℕ} (hbase : base + 16 < 4294967296)
    (hinit : mmInit (dmmInit s base len) = .ok (0, t)) {ops : List Op} {h : Heap}
    (hfits : Steps requestStep RequestFits ⟨t, []⟩ ops)
    (hrun : run requestStep ⟨t, []⟩ ops = some h) :
    (∀ size, 0 < size →
      (GrowsIfFull h.state size ↔ Refuses h.state (extendsize size) ∨ ¬ FreeFit h.state size)) ∧
    ∀ bp ∈ h.live, ∀ size, 0 < size → bp + size ≤ ftrp h.state.mem bp →
      (FreedReused h.state bp size ↔ Refuses h.state (extendsize size)) := by
  obtain ⟨bs, stop, hh⟩ := (mmInit_standing hbase hinit).run hfits hrun
  exact ⟨fun size hsize => hh.growsIfFull_iff (Nat.ne_of_gt hsize),
    fun bp hlive size hsize _ => hh.freedReused_iff hlive (Nat.ne_of_gt hsize)⟩

theorem Listed.mem_of_links {m : Mem} {as : List ℕ} {a p : ℕ} (h : Listed m a p) (ha : a ∈ as)
    (hlinks : ∀ x ∈ as, nextBlkp m x ∈ as ∨ getSize m (hdrp (nextBlkp m x)) = 0) : p ∈ as := by
  induction h with
  | here _ => exact ha
  | @next a b _ hrest ih =>
    rcases hlinks a ha with hnext | hend
    · exact ih hnext
    · cases hrest with
      | here hsize => exact absurd hend hsize.ne'
      | next hsize _ => exact absurd hend hsize.ne'

/-- Two blocks are allocated and the first is freed: no free block has room for 5000 bytes, and the
one that is freed next is not used again. -/
theorem mmMalloc_grows_iff_chunk :
    let h := (run requestStep smallHeap [.malloc 100, .malloc 200, .free 69648]).getD smallHeap
    mmInit smallArena = .ok (0, smallHeap.state) ∧ GrowsIfFull h.state 5000 ∧
      ¬ FreedReused h.state 73744 200 := by
  intro h
  have hfits : Steps requestStep RequestFits smallHeap
      [.malloc 100, .malloc 200, .free 69648] := by
    refine fun u hu => ⟨Or.inr ⟨Or.inl (by decide), Or.inr (by decide +kernel)⟩, fun v _ => ?_⟩
    have hread : (requestStep smallHeap (.malloc 100)).getD smallHeap = u := by
      rw [hu]
      rfl
    refine ⟨Or.inr ⟨Or.inl (by decide), Or.inr ?_⟩, fun _ _ => ⟨trivial, trivial⟩⟩
    rw [← hread]
    decide +kernel
  have hrun : run requestStep smallHeap [.malloc 100, .malloc 200, .free 69648] = some h :=
    run_eq_getD smallHeap (by decide +kernel)
  obtain ⟨hgrows, hreused⟩ := mmMalloc_grows_iff (by decide) smallHeap_init hfits hrun
  have hlinks : ∀ x ∈ [65544, 65552, 69648, 69760, 73744, 73952],
      nextBlkp h.state.mem x ∈ [65544, 65552, 69648, 69760, 73744, 73952] ∨
        getSize h.state.mem (hdrp (nextBlkp h.state.mem x)) = 0 := by decide +kernel
  have hsmall : ∀ x ∈ [65544, 65552, 69648, 69760, 73744, 73952],
      getSize h.state.mem (hdrp x) < adjust 5000 := by decide +kernel
  refine ⟨smallHeap_init, (hgrows 5000 (by decide)).mpr (Or.inr ?_), fun hagain => ?_⟩
  · rintro ⟨x, hx, -, hfit⟩
    exact absurd hfit (hsmall x (hx.mem_of_links (by decide +kernel) hlinks)).not_ge
  · have hhalts := (hreused 73744 (by decide +kernel) 200 (by decide) (by decide +kernel)).mp hagain
    exact absurd hhalts (by decide +kernel)

/-- In a heap of one chunk, the chunk is free and has room for 8 bytes, but the break is moved. -/
theorem mmMalloc_grows_not_full :
    mmInit smallArena = .ok (0, smallHeap.state) ∧ FreeFit smallHeap.state 8 ∧
      ¬ GrowsIfFull smallHeap.state 8 := by
  have hh := mmInit_standing (by decide) smallHeap_init
  have hfit : FreeFit smallHeap.state 8 :=
    hh.freeFit_iff.mpr ⟨_, List.mem_singleton_self _, rfl, by decide +kernel⟩
  refine ⟨smallHeap_init, hfit, fun hgrows => ?_⟩
  rcases (hh.growsIfFull_iff (by decide)).mp hgrows with hhalts | hfull
  · exact absurd hhalts (by decide +kernel)
  · exact hfull hfit

end Unos.Kmalloc
