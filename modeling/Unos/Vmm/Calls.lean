import Unos.Vmm.Translation
import Unos.Vmm.Walk

namespace Unos.Vmm

open Unos.Words Unos.ByteMemory

section Calls

variable {σ : Type} (A : FrameSource σ) (s : State σ) (dir : ℕ)

def HasTable (m : Mem) (dir page : ℕ) : Prop := pdeOf m dir page % 2 = 1

instance (m : Mem) (dir page : ℕ) : Decidable (HasTable m dir page) :=
  inferInstanceAs (Decidable (_ = _))

theorem hasTable_of_pteOf_ne {m : Mem} {dir page : ℕ} (h : pteOf m dir page ≠ 0) :
    HasTable m dir page := by
  by_contra hmissing
  exact h (pteOf_of_missing hmissing)

/-- The frame that a table for the page is allocated in, if one is missing. -/
def NewTable (page : ℕ) : Prop :=
  ¬ HasTable s.mem dir page → (A.allocBlock s.pmm).1 ≠ 0 →
    NewFrame s.mem dir (A.allocBlock s.pmm).1

/-- A call for the page with `attr` gives it an entry. -/
def Maps (page attr : ℕ) : Prop :=
  HasTable s.mem dir page ∨ (A.allocBlock s.pmm).1 ≠ 0 ∧ attr % 2 = 1

instance (page attr : ℕ) : Decidable (Maps A s dir page attr) :=
  inferInstanceAs (Decidable (_ ∨ _ ∧ _))

variable {A s dir} {phys virt attr : ℕ}

theorem pdeOf_virt (m : Mem) (dir virt : ℕ) :
    pdeOf m dir (virt / 4096) = entry m dir (virt / 4194304) := by
  rw [pdeOf, Nat.div_div_eq_div_mul]

/-- The three ways through the first half of `vmm_map_page`. -/
theorem ensureTable_eq (hvirt : virt < 4294967296) (hattr : attr < 4096) :
    ensureTable A s dir virt attr =
      if HasTable s.mem dir (virt / 4096) then (true, s)
      else if (A.allocBlock s.pmm).1 = 0 then (false, { s with pmm := (A.allocBlock s.pmm).2 })
      else (true, { s with
        pmm := (A.allocBlock s.pmm).2
        mem := enterTable s.mem dir (virt / 4194304) (A.allocBlock s.pmm).1 attr }) := by
  have hentry : (load32 s.mem (dir + 4 * (virt / 4194304)) &&& ptePresent ≠ ptePresent) ↔
      ¬ HasTable s.mem dir (virt / 4096) := by
    rw [HasTable, pdeOf_virt, and_present]
    rfl
  have htable := tableEntry_eq (A.aligned s.pmm) (A.bounded s.pmm) hattr
  simp only [ensureTable, pageDirectoryIndex_eq hvirt, htable]
  by_cases hhas : HasTable s.mem dir (virt / 4096)
  · rw [if_neg fun hne => hentry.mp hne hhas, if_pos hhas]
  · rw [if_pos (hentry.mpr hhas), if_neg hhas]
    rfl

theorem setPage_mem (hphys : phys < 4294967296) (hvirt : virt < 4294967296) (hattr : attr < 4096) :
    (setPage s dir phys virt attr).mem =
      store32 s.mem (tableOf (entry s.mem dir (virt / 4194304)) + 4 * (virt / 4096 % 1024))
        (4096 * (phys / 4096) + attr) := by
  rw [setPage, pageGetPhysicalAddress, pageDirectoryIndex_eq hvirt, pageTableIndex_eq,
    and_wide_frame_mask hphys, or_attr hattr, wrap32_of_lt (by omega), tableOf, entry,
    and_frame_mask (load32_lt _ _)]

theorem newFrame_enter {i t : ℕ} (hmem : Tables s.mem dir) (hnew : NewFrame s.mem dir t)
    (ht : t % 4096 = 0) (hbound : t < 4294967296) (hattr : attr < 4096) (heven : ¬ attr % 2 = 1) :
    NewFrame (enterTable s.mem dir i t attr) dir t := by
  refine ⟨hnew.1, fun k hk hodd => ?_⟩
  rw [entry_enterTable_dir ht hbound hattr hmem hnew hk] at hodd ⊢
  by_cases hki : k = i
  · rw [if_pos hki] at hodd
    omega
  · rw [if_neg hki] at hodd ⊢
    exact hnew.2 k hk hodd

/-- A call writes the entry of its page and changes no other. -/
theorem Tables.vmmMapPage (h : Tables s.mem dir) (hnew : NewTable A s dir (virt / 4096))
    (hphys : phys < 4294967296) (hvirt : virt < 4294967296) (hattr : attr < 4096) :
    Tables (vmmMapPage A s dir phys virt attr).mem dir ∧
    ∀ page < 1048576, pteOf (vmmMapPage A s dir phys virt attr).mem dir page =
      if page = virt / 4096 ∧ Maps A s dir (virt / 4096) attr then 4096 * (phys / 4096) + attr
      else pteOf s.mem dir page := by
  have hi : virt / 4194304 < 1024 := by omega
  have hj : virt / 4096 % 1024 < 1024 := Nat.mod_lt _ (by decide)
  have hpage : 1024 * (virt / 4194304) + virt / 4096 % 1024 = virt / 4096 := by omega
  have hw : 4096 * (phys / 4096) + attr < 4294967296 := by omega
  rw [Vmm.vmmMapPage, ensureTable_eq hvirt hattr]
  by_cases hhas : HasTable s.mem dir (virt / 4096)
  · have hpde : entry s.mem dir (virt / 4194304) % 2 = 1 := by
      rw [← pdeOf_virt]
      exact hhas
    rw [if_pos hhas, if_pos rfl, setPage_mem hphys hvirt hattr]
    refine ⟨h.store_pte hi hj hpde _, fun page hpl => ?_⟩
    rw [h.pteOf_store_pte hi hj hpde hw hpl, hpage]
    exact if_congr (iff_self_and.mpr fun _ => Or.inl hhas) rfl rfl
  have hmissing : ¬ entry s.mem dir (virt / 4194304) % 2 = 1 := by
    rw [← pdeOf_virt]
    exact hhas
  rw [if_neg hhas]
  by_cases ht0 : (A.allocBlock s.pmm).1 = 0
  · -- no frame for the table: nothing is written
    have hnone : ¬ Maps A s dir (virt / 4096) attr := fun hm => hm.elim hhas fun hm => hm.1 ht0
    rw [if_pos ht0]
    exact ⟨h, fun page _ => (if_neg fun hc => hnone hc.2).symm⟩
  have hframe := hnew hhas ht0
  have haligned := A.aligned s.pmm
  have hbound := A.bounded s.pmm
  rw [if_neg ht0, if_pos rfl, setPage_mem hphys hvirt hattr]
  have hpde' : entry (enterTable s.mem dir (virt / 4194304) (A.allocBlock s.pmm).1 attr) dir
      (virt / 4194304) = (A.allocBlock s.pmm).1 + attr := by
    rw [entry_enterTable_dir haligned hbound hattr h hframe hi, if_pos rfl]
  have htables := h.enter (i := virt / 4194304) haligned hbound hattr hframe
  have hsame := fun {page} (hpage : page < 1048576) =>
    h.pteOf_enter haligned hbound hattr hframe hi hmissing hpage
  by_cases hodd : attr % 2 = 1
  · have hpde : entry (enterTable s.mem dir (virt / 4194304) (A.allocBlock s.pmm).1 attr) dir
        (virt / 4194304) % 2 = 1 := by
      rw [hpde']
      omega
    refine ⟨htables.store_pte hi hj hpde _, fun page hpl => ?_⟩
    rw [htables.pteOf_store_pte hi hj hpde hw hpl, hsame hpl, hpage]
    exact if_congr (iff_self_and.mpr fun _ => Or.inr ⟨ht0, hodd⟩) rfl rfl
  · -- the new directory entry is not present, so that its table is not reached
    have hnone : ¬ Maps A s dir (virt / 4096) attr := fun hm => hm.elim hhas fun hm => hodd hm.2
    have hout := newFrame_enter (i := virt / 4194304) h hframe haligned hbound hattr hodd
    rw [hpde', tableOf_enter haligned hattr]
    refine ⟨htables.store_outside hout haligned hj _, fun page hpl => ?_⟩
    rw [htables.pteOf_store_outside hout haligned hj _ hpl, hsame hpl, if_neg fun hc => hnone hc.2]

/-- A call enters a missing table and leaves the rest of the directory alone. -/
theorem Tables.entry_vmmMapPage (h : Tables s.mem dir) (hnew : NewTable A s dir (virt / 4096))
    (hphys : phys < 4294967296) (hvirt : virt < 4294967296) (hattr : attr < 4096) {k : ℕ}
    (hk : k < 1024) :
    entry (Vmm.vmmMapPage A s dir phys virt attr).mem dir k =
      if k = virt / 4194304 ∧ ¬ HasTable s.mem dir (virt / 4096) ∧ (A.allocBlock s.pmm).1 ≠ 0 then
        (A.allocBlock s.pmm).1 + attr
      else entry s.mem dir k := by
  have hi : virt / 4194304 < 1024 := by omega
  have hj : virt / 4096 % 1024 < 1024 := Nat.mod_lt _ (by decide)
  rw [Vmm.vmmMapPage, ensureTable_eq hvirt hattr]
  by_cases hhas : HasTable s.mem dir (virt / 4096)
  · have hpde : entry s.mem dir (virt / 4194304) % 2 = 1 := by
      rw [← pdeOf_virt]
      exact hhas
    rw [if_pos hhas, if_pos rfl, setPage_mem hphys hvirt hattr, h.entry_store_pte hi hj hpde hk,
      if_neg fun hc => hc.2.1 hhas]
  rw [if_neg hhas]
  by_cases ht0 : (A.allocBlock s.pmm).1 = 0
  · rw [if_pos ht0]
    exact (if_neg fun hc => hc.2.2 ht0).symm
  have hframe := hnew hhas ht0
  have haligned := A.aligned s.pmm
  have hbound := A.bounded s.pmm
  have htable : tableOf (entry (enterTable s.mem dir (virt / 4194304) (A.allocBlock s.pmm).1 attr)
      dir (virt / 4194304)) = (A.allocBlock s.pmm).1 := by
    rw [entry_enterTable_dir haligned hbound hattr h hframe hi, if_pos rfl,
      tableOf_enter haligned hattr]
  rw [if_neg ht0, if_pos rfl, setPage_mem hphys hvirt hattr, htable,
    entry_store_of_frame_ne haligned h.aligned hframe.1.symm hj hk,
    entry_enterTable_dir haligned hbound hattr h hframe hk]
  exact if_congr (iff_self_and.mpr fun _ => ⟨hhas, ht0⟩) rfl rfl

theorem vmmMapPage_pmm (hvirt : virt < 4294967296) (hattr : attr < 4096) :
    (Vmm.vmmMapPage A s dir phys virt attr).pmm =
      if HasTable s.mem dir (virt / 4096) then s.pmm else (A.allocBlock s.pmm).2 := by
  rw [Vmm.vmmMapPage, ensureTable_eq hvirt hattr]
  split_ifs <;> rfl

/-- Where the entry of a page that has a table is. -/
def pteAddress (m : Mem) (dir page : ℕ) : ℕ := tableOf (pdeOf m dir page) + 4 * (page % 1024)

theorem load32_pteAddress {m : Mem} {page : ℕ} (hhas : HasTable m dir page) :
    load32 m (pteAddress m dir page) = pteOf m dir page := (if_pos hhas).symm

theorem and_not_present {x : ℕ} (hx : x < 4294967296) : x &&& 0xFFFFFFFE = 2 * (x / 2) :=
  and_high_mask (n := 32) (k := 1) hx (by decide)

variable {freeBlock : σ → ℕ → σ} {page : ℕ}

theorem vmmFreePage_pmm (hhas : HasTable s.mem dir page) :
    (vmmFreePage freeBlock s (pteAddress s.mem dir page)).pmm =
      if pteOf s.mem dir page / 4096 = 0 then s.pmm
      else freeBlock s.pmm (4096 * (pteOf s.mem dir page / 4096)) := by
  have hframe := and_frame_mask (pteOf_lt s.mem dir page)
  simp only [vmmFreePage, load32_pteAddress hhas, hframe]
  by_cases h0 : pteOf s.mem dir page / 4096 = 0
  · simp [h0]
  · rw [if_neg h0, if_pos (by omega)]

theorem vmmFreePage_mem (hhas : HasTable s.mem dir page) :
    (vmmFreePage freeBlock s (pteAddress s.mem dir page)).mem =
      store32 s.mem (tableOf (entry s.mem dir (page / 1024)) + 4 * (page % 1024))
        (2 * (pteOf s.mem dir page / 2)) := by
  simp only [vmmFreePage, load32_pteAddress hhas, and_not_present (pteOf_lt s.mem dir page)]
  rfl

/-- Freeing a page clears the present bit of its entry and changes no other entry. -/
theorem Tables.vmmFreePage (freeBlock : σ → ℕ → σ) (h : Tables s.mem dir) (hpage : page < 1048576)
    (hhas : HasTable s.mem dir page) :
    Tables (vmmFreePage freeBlock s (pteAddress s.mem dir page)).mem dir ∧
    (∀ k < 1024, entry (vmmFreePage freeBlock s (pteAddress s.mem dir page)).mem dir k =
      entry s.mem dir k) ∧
    ∀ p < 1048576, pteOf (vmmFreePage freeBlock s (pteAddress s.mem dir page)).mem dir p =
      if p = page then 2 * (pteOf s.mem dir page / 2) else pteOf s.mem dir p := by
  have hi : page / 1024 < 1024 := by omega
  have hj : page % 1024 < 1024 := Nat.mod_lt _ (by decide)
  have hpte := pteOf_lt s.mem dir page
  have hself : 1024 * (page / 1024) + page % 1024 = page := Nat.div_add_mod page 1024
  rw [vmmFreePage_mem hhas]
  refine ⟨h.store_pte hi hj hhas _, fun k hk => h.entry_store_pte hi hj hhas hk, fun p hp => ?_⟩
  rw [h.pteOf_store_pte hi hj hhas (by omega) hp, hself]

/-- The directory and its tables are frames that the allocator will not hand out. -/
structure Owned (A : FrameSource σ) (s : State σ) (dir : ℕ) : Prop where
  dir_inUse : A.inUse s.pmm dir
  table_inUse : ∀ i < 1024, entry s.mem dir i % 2 = 1 → A.inUse s.pmm (tableOf (entry s.mem dir i))

/-- A frame for a table is then a new one. -/
theorem Owned.newTable (h : Owned A s dir) (page : ℕ) : NewTable A s dir page := by
  intro _ h0
  have hfresh := A.fresh s.pmm h0
  exact ⟨fun heq => hfresh (heq ▸ h.dir_inUse), fun i hi hodd heq =>
    hfresh (heq ▸ h.table_inUse i hi hodd)⟩

theorem Owned.alloc (h : Owned A s dir) :
    Owned A { s with pmm := (A.allocBlock s.pmm).2 } dir where
  dir_inUse := A.keeps _ _ h.dir_inUse
  table_inUse i hi hodd := A.keeps _ _ (h.table_inUse i hi hodd)

theorem Owned.vmmMapPage (h : Owned A s dir) (ht : Tables s.mem dir) (hphys : phys < 4294967296)
    (hvirt : virt < 4294967296) (hattr : attr < 4096) :
    Owned A (vmmMapPage A s dir phys virt attr) dir := by
  have hkeeps : ∀ f, A.inUse s.pmm f → A.inUse (Vmm.vmmMapPage A s dir phys virt attr).pmm f := by
    intro f hf
    rw [vmmMapPage_pmm hvirt hattr]
    split
    · exact hf
    · exact A.keeps _ _ hf
  refine ⟨hkeeps _ h.dir_inUse, fun k hk hodd => ?_⟩
  rw [ht.entry_vmmMapPage (h.newTable _) hphys hvirt hattr hk] at hodd ⊢
  split_ifs at hodd ⊢ with hc
  · rw [tableOf_enter (A.aligned _) hattr, vmmMapPage_pmm hvirt hattr, if_neg hc.2.1]
    exact A.marks _ hc.2.2
  · exact hkeeps _ (h.table_inUse k hk hodd)

end Calls

end Unos.Vmm
