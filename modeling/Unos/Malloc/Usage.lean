import Unos.Malloc.Arena

namespace Unos.Malloc

open Unos.Words Unos.ByteMemory Unos.Tiling Unos.Runs

/-- The size in the header of a live block. -/
def recorded (m : Mem) (a : ℕ × ℕ) : ℕ := allocSize m (a.1 - 8)

def Heap.sizes (h : Heap) : List ℕ := h.live.map (recorded h.state.mem)

/-- The counter is the sum of the charges `c` for the recorded sizes of the live blocks. -/
def Accounted (c : ℕ → ℕ) (h : Heap) : Prop := h.state.memoryUsed = (h.sizes.map c).sum

def NotFree (_ : Heap) : Op → Prop
  | .free _ => False
  | .malloc _ | .write _ _ => True

structure Unfreed (h : Heap) (hs : List ℕ) : Prop where
  inv : HeapInv h hs
  live : ∀ x ∈ hs, x + 8 ∈ h.live.map Prod.fst
  used : h.state.heapBegin + h.state.memoryUsed = h.state.lastAlloc
  accounted : Accounted (· + 12) h

theorem perm_cons_filter_ne {l : List (ℕ × ℕ)} (hnodup : (l.map Prod.fst).Nodup) {a : ℕ × ℕ}
    (ha : a ∈ l) : l.Perm (a :: l.filter fun b => b.1 ≠ a.1) := by
  induction l with
  | nil => exact absurd ha List.not_mem_nil
  | cons b l ih =>
    obtain ⟨hb, hnodup⟩ := List.nodup_cons.mp hnodup
    rcases List.mem_cons.mp ha with rfl | ha
    · have hkept : l.filter (fun b => b.1 ≠ a.1) = l := by
        apply List.filter_eq_self.mpr
        intro b hbl
        exact decide_eq_true fun hba => hb (hba ▸ List.mem_map_of_mem hbl)
      rw [List.filter_cons_of_neg (by simp), hkept]
    · have hne : b.1 ≠ a.1 := fun hba => hb (hba ▸ List.mem_map_of_mem ha)
      rw [List.filter_cons_of_pos (by simpa using hne)]
      exact ((ih hnodup ha).cons b).trans (List.Perm.swap a b _)

section Steps

variable {h h' : Heap} {hs : List ℕ}

theorem HeapInv.sizes_congr (hi : HeapInv h hs) {m : Mem}
    (hm : ∀ x ∈ hs, allocSize m x = allocSize h.state.mem x) :
    h.live.map (recorded m) = h.sizes := by
  apply List.map_congr_left
  intro a ha
  obtain ⟨-, x, hx, hax, -⟩ := hi.live a ha
  rw [recorded, recorded, hax, Nat.add_sub_cancel, hm x hx]

theorem HeapInv.free_sizes (hi : HeapInv h hs) {a : ℕ × ℕ} (ha : a ∈ h.live) :
    h.sizes.Perm (recorded h.state.mem a ::
      (⟨Malloc.free h.state a.1, h.live.filter fun b => b.1 ≠ a.1⟩ : Heap).sizes) ∧
    (Malloc.free h.state a.1).memoryUsed =
      sub32 h.state.memoryUsed (wrap32 (recorded h.state.mem a + 8)) := by
  obtain ⟨-, x, hx, hax, -⟩ := hi.live a ha
  have hbound := (hi.sized x hx).2
  have htop := hi.top
  have hsub : sub32 a.1 8 = x := by
    rw [hax, sub32_of_le (by omega) (by omega), Nat.add_sub_cancel]
  have hrecorded : recorded h.state.mem a = allocSize h.state.mem x := by
    rw [recorded, hax, Nat.add_sub_cancel]
  constructor
  · have hkept : h.live.map (recorded (store8 h.state.mem x 0)) = h.sizes :=
      hi.sizes_congr fun y hy => (hi.headers_kept hx (fun z hz _ => store8_of_ne hz) hy).1
    rw [← hkept, Heap.sizes, Malloc.free, hsub]
    have hperm := (perm_cons_filter_ne hi.nodup ha).map (recorded (store8 h.state.mem x 0))
    rwa [List.map_cons, show recorded (store8 h.state.mem x 0) a = recorded h.state.mem a by
      rw [hrecorded, recorded, hax, Nat.add_sub_cancel,
        (hi.headers_kept hx (fun z hz _ => store8_of_ne hz) hx).1]] at hperm
  · rw [Malloc.free, hsub, hrecorded]

/-- Without `free` there is no block to mark again, so the heap grows by what is counted. -/
theorem Unfreed.step (hu : Unfreed h hs) {op : Op} (hfits : OpFits h op) (hop : NotFree h op)
    (hstep : arenaStep h op = some h') :
    (∃ hs', Unfreed h' hs') ∧
    (h'.sizes = h.sizes ∨ ∃ n, h'.sizes = n :: h.sizes ∧
      h'.state.memoryUsed = h.state.memoryUsed + (n + 12)) := by
  have hi := hu.inv
  cases hi.arena_effect hfits hstep with
  | none => exact ⟨⟨hs, hu⟩, Or.inl rfl⟩
  | @reuse size x hsize hx hsuits =>
    exact absurd (suits_iff.mp hsuits).1 ((hi.status x hx).mpr (hu.live x hx))
  | @append size hsize hroom =>
    have htop := hi.top
    have hused := hu.used
    have hcount : wrap32 (h.state.memoryUsed + size + 4 + 8) = h.state.memoryUsed +
        (size + 12) := by
      rw [wrap32_of_lt (by omega)]
      omega
    have hsizes : (⟨{ h.state with
        mem := fill (store32 (store8 h.state.mem h.state.lastAlloc 1) (h.state.lastAlloc + 4) size)
          (h.state.lastAlloc + 8) 0 size
        lastAlloc := h.state.lastAlloc + size + 8 + 4
        memoryUsed := wrap32 (h.state.memoryUsed + size + 4 + 8) },
        (h.state.lastAlloc + 8, size) :: h.live⟩ : Heap).sizes = size :: h.sizes := by
      rw [Heap.sizes, List.map_cons, recorded, Nat.add_sub_cancel,
        allocSize_append _ _ (by omega),
        hi.sizes_congr fun y hy => hi.allocSize_below (fun z hz => append_outside (Or.inl hz)) hy]
    refine ⟨⟨hs ++ [h.state.lastAlloc], hi.append hsize hroom rfl, fun x hx => ?_, ?_, ?_⟩,
      Or.inr ⟨size, hsizes, hcount⟩⟩
    · rw [List.map_cons, List.mem_cons]
      rcases List.mem_append.mp hx with hx | hx
      · exact Or.inr (hu.live x hx)
      · rw [List.mem_singleton.mp hx]
        exact Or.inl rfl
    · dsimp only
      omega
    · rw [Accounted, hsizes, List.map_cons, List.sum_cons, ← hu.accounted]
      dsimp only
      omega
  | free ha => exact hop.elim
  | @write a x v ha hx =>
    have hsizes : ({ h with state := { h.state with mem := store8 h.state.mem x v }
      } : Heap).sizes =
        h.sizes := by
      obtain ⟨-, y, hy, hay, hsize⟩ := hi.live a ha
      obtain ⟨hlow, hhigh⟩ := hx
      exact hi.sizes_congr fun z hz =>
        (hi.headers_kept hy (fun w _ hout => store8_of_ne (by omega)) hz).1
    refine ⟨⟨hs, hi.write ha hx, hu.live, hu.used, ?_⟩, Or.inl hsizes⟩
    rw [Accounted, hsizes]
    exact hu.accounted

theorem Unfreed.free_not_accounted (hu : Unfreed h hs) {c : ℕ → ℕ}
    (hc : ∀ n ∈ h.sizes, c n = n + 12) {a : ℕ × ℕ} (ha : a ∈ h.live) :
    ¬ Accounted c ⟨Malloc.free h.state a.1, h.live.filter fun b => b.1 ≠ a.1⟩ := by
  intro haccounted
  have htop := hu.inv.top
  have hlast := hu.inv.last
  have hused := hu.used
  obtain ⟨hperm, hcount⟩ := hu.inv.free_sizes ha
  have hsum : (h.sizes.map (· + 12)).sum = h.state.memoryUsed := hu.accounted.symm
  have hcharges : h.sizes.map c = h.sizes.map (· + 12) := List.map_congr_left hc
  rw [← hcharges, (hperm.map c).sum_nat, List.map_cons, List.sum_cons, ← haccounted,
    hc _ (List.mem_map_of_mem ha), hcount] at hsum
  rw [wrap32_of_lt (by omega), sub32_of_le (by omega) (by omega)] at hsum
  omega

/-- A charge that agrees with the counter before and after an operation is 12 bytes more than the
size, and the operation is not `free`. -/
theorem Unfreed.charged_step (hu : Unfreed h hs) {c : ℕ → ℕ} (hc : ∀ n ∈ h.sizes, c n = n + 12)
    {op : Op} (hfits : OpFits h op) (hstep : arenaStep h op = some h') (hbefore : Accounted c h)
    (hafter : Accounted c h') :
    NotFree h op ∧ (∃ hs', Unfreed h' hs') ∧ ∀ n ∈ h'.sizes, c n = n + 12 := by
  have hnot : NotFree h op := by
    cases op with
    | malloc size => trivial
    | write x v => trivial
    | free p =>
      cases hu.inv.arena_effect hfits hstep with
      | free ha => exact absurd hafter (hu.free_not_accounted hc ha)
  obtain ⟨hu', hsizes | ⟨n, hsizes, hcount⟩⟩ := hu.step hfits hnot hstep
  · refine ⟨hnot, hu', ?_⟩
    rwa [hsizes]
  · refine ⟨hnot, hu', ?_⟩
    have hsum : h.state.memoryUsed + (n + 12) = c n + h.state.memoryUsed := by
      rw [← hcount, hafter, hsizes, List.map_cons, List.sum_cons, ← hbefore]
    rw [hsizes]
    intro k hk
    rcases List.mem_cons.mp hk with rfl | hk
    · omega
    · exact hc k hk

end Steps

theorem initMm_unfreed (s : State) {start stop : ℕ} (hused : s.memoryUsed = 0)
    (hstart : start + 131072 < stop) (hstop : stop < 4294967296) {t : State}
    (hinit : initMm s start stop = .ok t) :
    (∃ hs, Unfreed ⟨t, [(t.pheapDesc, 32)]⟩ hs) ∧
      ∃ n, (⟨t, [(t.pheapDesc, 32)]⟩ : Heap).sizes = [n] ∧ t.memoryUsed = n + 12 := by
  have hi := initHeap_inv s hstart hstop
  have hlast : (initHeap s start stop).lastAlloc = start := rfl
  have hzero : (initHeap s start stop).memoryUsed = 0 := hused
  have hu : Unfreed ⟨initHeap s start stop, []⟩ [] := by
    refine ⟨hi, fun x hx => absurd hx List.not_mem_nil, ?_, hzero⟩
    dsimp only
    rw [hzero]
    rfl
  rw [initMm, maxPageAlignedAllocs] at hinit
  cases hok : malloc (initHeap s start stop) 32 with
  | error e =>
    rw [hok] at hinit
    cases hinit
  | ok r =>
    obtain ⟨p, u⟩ := r
    rw [hok] at hinit
    cases hinit
    have hp := (hi.malloc_recorded (by decide) (by decide) hok).1
    have hstep : arenaStep ⟨initHeap s start stop, []⟩ (.malloc 32) = some ⟨u, [(p, 32)]⟩ := by
      rw [arenaStep, if_pos (by decide), hok]
      simp only [if_neg hp]
    have hfits : OpFits ⟨initHeap s start stop, []⟩ (.malloc 32) := by
      refine Or.inr (Or.inr (Or.inr ?_))
      rw [hlast]
      omega
    obtain ⟨⟨hs, hu'⟩, hsizes | ⟨n, hsizes, hcount⟩⟩ := hu.step hfits trivial hstep
    · exact absurd (congrArg List.length hsizes) (by simp [Heap.sizes])
    · refine ⟨⟨hs, hu'.inv.setDesc p, hu'.live, hu'.used, hu'.accounted⟩, n, hsizes, ?_⟩
      dsimp only at hcount ⊢
      omega

/-- The counter is a sum of fixed charges all along exactly in the runs without `free`. -/
theorem memoryUsed_accounted_iff (s : State) {start stop : ℕ} (hused : s.memoryUsed = 0)
    (hstart : start + 131072 < stop) (hstop : stop < 4294967296) {t : State}
    (hinit : initMm s start stop = .ok t) {ops : List Op}
    (hfits : Steps arenaStep OpFits ⟨t, [(t.pheapDesc, 32)]⟩ ops) :
    (∃ c : ℕ → ℕ, Always arenaStep (Accounted c) ⟨t, [(t.pheapDesc, 32)]⟩ ops) ↔
      Steps arenaStep NotFree ⟨t, [(t.pheapDesc, 32)]⟩ ops := by
  obtain ⟨⟨hs, hu⟩, n, hsizes, hcount⟩ := initMm_unfreed s hused hstart hstop hinit
  constructor
  · rintro ⟨c, halways⟩
    have hc : ∀ k ∈ (⟨t, [(t.pheapDesc, 32)]⟩ : Heap).sizes, c k = k + 12 := by
      have hsum : t.memoryUsed = ((⟨t, [(t.pheapDesc, 32)]⟩ : Heap).sizes.map c).sum := halways.head
      rw [hsizes, List.map_singleton, List.sum_singleton] at hsum
      rw [hsizes]
      intro k hk
      rw [List.mem_singleton.mp hk, ← hsum, hcount]
    refine steps_of_always
      (I := fun h => (∃ hs, Unfreed h hs) ∧ ∀ n ∈ h.sizes, c n = n + 12)
      ?_ ?_ ⟨⟨hs, hu⟩, hc⟩ hfits halways
    · rintro h op h' ⟨⟨ks, hks⟩, hck⟩ hbefore hop hstep hafter
      exact (hks.charged_step hck hop hstep hbefore hafter).2
    · rintro h op h' ⟨⟨ks, hks⟩, hck⟩ hbefore hop hstep hafter
      exact (hks.charged_step hck hop hstep hbefore hafter).1
  · intro hnot
    refine ⟨(· + 12), always_of_steps (I := fun h => ∃ hs, Unfreed h hs) ?_ ?_ ⟨hs, hu⟩
      (hfits.and hnot)⟩
    · rintro h op h' ⟨ks, hks⟩ ⟨hop, hkeeps⟩ hstep
      exact (hks.step hop hkeeps hstep).1
    · rintro h ⟨ks, hks⟩
      exact hks.accounted

/-- In a heap of 256 bytes one allocation is counted right. -/
theorem memoryUsed_accounted_iff_ten :
    let s : State := ⟨fun _ => 0, 0, 0, 0, 0, 0, 0, 0⟩
    let t := (initMm s 4096 135424).toOption.getD s
    ∃ c : ℕ → ℕ, Always arenaStep (Accounted c) ⟨t, [(t.pheapDesc, 32)]⟩ [.malloc 10] := by
  intro s t
  have ht : initMm s 4096 135424 = .ok t := eq_ok_getD s (by decide +kernel)
  have hlast : t.lastAlloc = 4140 := by decide +kernel
  have hfits : Steps arenaStep OpFits ⟨t, [(t.pheapDesc, 32)]⟩ [.malloc 10] := by
    refine fun u _ => ⟨Or.inr (Or.inr (Or.inr ?_)), trivial⟩
    dsimp only
    rw [hlast]
    decide
  exact (memoryUsed_accounted_iff s rfl (by decide) (by decide) ht hfits).mpr
    fun u _ => ⟨trivial, trivial⟩

/-- There 10 bytes are allocated and freed. The counter is 4 higher than before. -/
theorem memoryUsed_not_accounted :
    let s : State := ⟨fun _ => 0, 0, 0, 0, 0, 0, 0, 0⟩
    let t := (initMm s 4096 135424).toOption.getD s
    let h := (run arenaStep ⟨t, [(t.pheapDesc, 32)]⟩ [.malloc 10, .free 4148]).getD ⟨t, []⟩
    initMm s 4096 135424 = .ok t ∧
      run arenaStep ⟨t, [(t.pheapDesc, 32)]⟩ [.malloc 10, .free 4148] = some h ∧
      h.live = [(t.pheapDesc, 32)] ∧ t.memoryUsed = 44 ∧ h.state.memoryUsed = 48 ∧
      ¬ ∃ c : ℕ → ℕ, Always arenaStep (Accounted c) ⟨t, [(t.pheapDesc, 32)]⟩
        [.malloc 10, .free 4148] := by
  intro s t h
  have ht : initMm s 4096 135424 = .ok t := eq_ok_getD s (by decide +kernel)
  have hrun : run arenaStep ⟨t, [(t.pheapDesc, 32)]⟩ [.malloc 10, .free 4148] = some h :=
    run_eq_getD (⟨t, []⟩ : Heap) (by decide +kernel)
  have hlive : h.live = [(t.pheapDesc, 32)] := by decide +kernel
  have hbefore : t.memoryUsed = 44 := by decide +kernel
  have hafter : h.state.memoryUsed = 48 := by decide +kernel
  refine ⟨ht, hrun, hlive, hbefore, hafter, ?_⟩
  rintro ⟨c, halways⟩
  have hfirst : t.memoryUsed = ((⟨t, [(t.pheapDesc, 32)]⟩ : Heap).sizes.map c).sum := halways.head
  have hlast : h.state.memoryUsed = (h.sizes.map c).sum := halways.last hrun
  have hsizes : (⟨t, [(t.pheapDesc, 32)]⟩ : Heap).sizes = [32] := by decide +kernel
  have hsizes' : h.sizes = [32] := by decide +kernel
  rw [hsizes, hbefore] at hfirst
  rw [hsizes', hafter, ← hfirst] at hlast
  exact absurd hlast (by decide)

end Unos.Malloc
