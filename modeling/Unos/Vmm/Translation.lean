import Unos.Vmm.Entries

namespace Unos.Vmm

open Unos.Words Unos.ByteMemory

/-- The frame number of each mapped page. -/
abbrev PageMap := ℕ → Option ℕ

/-- The address that `v` is mapped to: the frame with the offset of `v`, or 0. -/
def PageMap.translate (map : PageMap) (v : ℕ) : ℕ :=
  match map (v / 4096) with
  | some frame => 4096 * frame ||| v &&& 0xfff
  | none => 0

def EntryFor (pte : ℕ) : Option ℕ → Prop
  | some frame => pte ≠ 0 ∧ pte / 4096 = frame
  | none => pte = 0

section Directory

variable {σ : Type} (A : FrameSource σ)

/-- The directory `dir` represents `map`: each of its entries is zero or present, and the
tables are different frames that the allocator will not hand out again. -/
structure Represents (s : State σ) (dir : ℕ) (map : PageMap) : Prop where
  dir_ne : dir ≠ 0
  dir_aligned : dir % 4096 = 0
  dir_inUse : A.inUse s.pmm dir
  empty : ∀ i < 1024, entry s.mem dir i = 0 → ∀ j < 1024, map (1024 * i + j) = none
  present : ∀ i < 1024, entry s.mem dir i ≠ 0 → entry s.mem dir i % 2 = 1
  table_inUse : ∀ i < 1024, entry s.mem dir i ≠ 0 → A.inUse s.pmm (tableOf (entry s.mem dir i))
  table_ne_dir : ∀ i < 1024, entry s.mem dir i ≠ 0 → tableOf (entry s.mem dir i) ≠ dir
  table_ne : ∀ i < 1024, ∀ k < 1024, i ≠ k → entry s.mem dir i ≠ 0 → entry s.mem dir k ≠ 0 →
    tableOf (entry s.mem dir i) ≠ tableOf (entry s.mem dir k)
  entries : ∀ i < 1024, entry s.mem dir i ≠ 0 → ∀ j < 1024,
    EntryFor (entry s.mem (tableOf (entry s.mem dir i)) j) (map (1024 * i + j))

variable {A} {s : State σ} {dir : ℕ} {map : PageMap}

/-- `virt2phys` computes the map that the directory represents. -/
theorem Represents.virt2phys (h : Represents A s dir map) {v : ℕ} (hv : v < 4294967296) :
    virt2phys s.mem dir v = map.translate v := by
  have hi : v / 4194304 < 1024 := by omega
  have hj : v / 4096 % 1024 < 1024 := Nat.mod_lt _ (by decide)
  have hpage : 1024 * (v / 4194304) + v / 4096 % 1024 = v / 4096 := by omega
  have hpde := entry_lt s.mem dir (v / 4194304)
  rw [Vmm.virt2phys, if_neg h.dir_ne, pageDirectoryIndex_eq hv, pageTableIndex_eq,
    pageFrameIndex_eq, ← entry, PageMap.translate]
  by_cases hzero : entry s.mem dir (v / 4194304) = 0
  · have hnone := h.empty _ hi hzero _ hj
    rw [hpage] at hnone
    rw [if_neg (not_not.mpr hzero), hnone]
  · have htable := h.entries _ hi hzero _ hj
    rw [hpage] at htable
    have hpte := entry_lt s.mem (tableOf (entry s.mem dir (v / 4194304))) (v / 4096 % 1024)
    rw [if_pos hzero, and_wide_frame_mask hpde, wrap32_of_lt (by omega), ← tableOf, ← entry]
    cases hmap : map (v / 4096) with
    | none =>
      rw [hmap, EntryFor] at htable
      rw [if_neg (not_not.mpr htable)]
    | some frame =>
      rw [hmap, EntryFor] at htable
      have hoffset : v &&& 0xfff < 4096 := Nat.lt_succ_of_le Nat.and_le_right
      have hphys : 4096 * frame ||| v &&& 0xfff < 4294967296 := by
        rw [or_attr hoffset]
        omega
      rw [if_pos htable.1, and_wide_frame_mask hpte, htable.2, wrap32_of_lt hphys]

/-- The table for `virt` is there, or there is a frame for it. -/
def tableAvailable (A : FrameSource σ) (s : State σ) (dir virt : ℕ) : Prop :=
  load32 s.mem (dir + 4 * pageDirectoryIndex virt) &&& ptePresent = ptePresent ∨
    (A.allocBlock s.pmm).1 ≠ 0

instance (virt : ℕ) : Decidable (tableAvailable A s dir virt) :=
  inferInstanceAs (Decidable (_ ∨ _))

theorem Represents.present_iff (h : Represents A s dir map) {i : ℕ} (hi : i < 1024) :
    entry s.mem dir i &&& ptePresent = ptePresent ↔ entry s.mem dir i ≠ 0 := by
  rw [and_present]
  constructor
  · intro hp h0
    rw [h0] at hp
    exact absurd hp (by decide)
  · exact h.present i hi

theorem Represents.of_alloc (h : Represents A s dir map) :
    Represents A { s with pmm := (A.allocBlock s.pmm).2 } dir map :=
  { h with
    dir_inUse := A.keeps _ _ h.dir_inUse
    table_inUse := fun i hi h0 => A.keeps _ _ (h.table_inUse i hi h0) }

theorem tableEntry_eq {t attr : ℕ} (ht : t % 4096 = 0) (hbound : t < 4294967296)
    (hattr : attr < 4096) : t &&& 0xFFFFF000 ||| attr = t + attr := by
  rw [and_frame_mask hbound, or_attr hattr]
  omega

theorem Represents.add_table (h : Represents A s dir map) {i attr : ℕ} (hi : i < 1024)
    (hzero : entry s.mem dir i = 0) (hattr : attr < 4096) (hodd : attr % 2 = 1)
    (ht : (A.allocBlock s.pmm).1 ≠ 0) :
    Represents A { s with
      pmm := (A.allocBlock s.pmm).2
      mem := store32 (fill s.mem (A.allocBlock s.pmm).1 0 4096) (dir + 4 * i)
        ((A.allocBlock s.pmm).1 &&& 0xFFFFF000 ||| attr) } dir map := by
  have hbound := A.bounded s.pmm
  have haligned := A.aligned s.pmm
  have hfresh := A.fresh s.pmm ht
  have hmarks := A.marks s.pmm ht
  have hkeeps := A.keeps s.pmm
  -- `t` is the new table
  generalize (A.allocBlock s.pmm).1 = t at *
  generalize (A.allocBlock s.pmm).2 = pmm at *
  have htdir : t ≠ dir := fun heq => hfresh (heq ▸ h.dir_inUse)
  have htne : ∀ k < 1024, entry s.mem dir k ≠ 0 → tableOf (entry s.mem dir k) ≠ t :=
    fun k hk h0 heq => hfresh (heq ▸ h.table_inUse k hk h0)
  rw [tableEntry_eq haligned hbound hattr]
  have hself : entry (store32 (fill s.mem t 0 4096) (dir + 4 * i) (t + attr)) dir i = t + attr :=
    entry_store (by omega)
  have hdir : ∀ k, k < 1024 → k ≠ i →
      entry (store32 (fill s.mem t 0 4096) (dir + 4 * i) (t + attr)) dir k = entry s.mem dir k := by
    intro k hk hki
    rw [entry_store_of_ne hki, entry_fill_of_frame_ne haligned h.dir_aligned htdir.symm hk]
  have hnew : tableOf (t + attr) = t := by
    unfold tableOf
    omega
  have hothers : ∀ b j, b % 4096 = 0 → b ≠ dir → b ≠ t → j < 1024 →
      entry (store32 (fill s.mem t 0 4096) (dir + 4 * i) (t + attr)) b j = entry s.mem b j := by
    intro b j hb hbd hbt hj
    rw [entry_store_of_frame_ne h.dir_aligned hb hbd hi hj,
      entry_fill_of_frame_ne haligned hb hbt hj]
  have hcleared : ∀ j < 1024,
      entry (store32 (fill s.mem t 0 4096) (dir + 4 * i) (t + attr)) t j = 0 := by
    intro j hj
    rw [entry_store_of_frame_ne h.dir_aligned haligned htdir hi hj, entry_fill_zero hj]
  generalize store32 (fill s.mem t 0 4096) (dir + 4 * i) (t + attr) = m at *
  refine ⟨h.dir_ne, h.dir_aligned, hkeeps _ h.dir_inUse, fun k hk h0 => ?_, fun k hk h0 => ?_,
    fun k hk h0 => ?_, fun k hk h0 => ?_, fun k hk k' hk' hkk h0 h0' => ?_, fun k hk h0 j hj => ?_⟩
  · by_cases hki : k = i
    · rw [hki]
      exact h.empty i hi hzero
    · simp only [hdir k hk hki] at h0
      exact h.empty k hk h0
  · by_cases hki : k = i
    · simp only [hki, hself]
      omega
    · simp only [hdir k hk hki] at h0 ⊢
      exact h.present k hk h0
  · by_cases hki : k = i
    · simp only [hki, hself, hnew]
      exact hmarks
    · simp only [hdir k hk hki] at h0 ⊢
      exact hkeeps _ (h.table_inUse k hk h0)
  · by_cases hki : k = i
    · simp only [hki, hself, hnew]
      exact htdir
    · simp only [hdir k hk hki] at h0 ⊢
      exact h.table_ne_dir k hk h0
  · by_cases hki : k = i
    · have hk'i : k' ≠ i := fun heq => hkk (hki.trans heq.symm)
      simp only [hki, hself, hnew, hdir k' hk' hk'i] at h0' ⊢
      exact (htne k' hk' h0').symm
    · by_cases hk'i : k' = i
      · simp only [hk'i, hself, hnew, hdir k hk hki] at h0 ⊢
        exact htne k hk h0
      · simp only [hdir k hk hki, hdir k' hk' hk'i] at h0 h0' ⊢
        exact h.table_ne k hk k' hk' hkk h0 h0'
  · by_cases hki : k = i
    · simp only [hki, hself, hnew, hcleared j hj, h.empty i hi hzero j hj]
      rfl
    · simp only [hdir k hk hki] at h0 ⊢
      have hb : tableOf (entry s.mem dir k) % 4096 = 0 := by
        unfold tableOf
        omega
      rw [hothers _ j hb (h.table_ne_dir k hk h0) (htne k hk h0) hj]
      exact h.entries k hk h0 j hj

theorem Represents.set_page (h : Represents A s dir map) {i : ℕ} (j frame attr : ℕ) (hi : i < 1024)
    (hj : j < 1024) (hpde : entry s.mem dir i ≠ 0) (hframe : frame < 1048576)
    (hattr : attr < 4096) (hpos : attr ≠ 0) :
    Represents A { s with
      mem := store32 s.mem (tableOf (entry s.mem dir i) + 4 * j) (4096 * frame + attr) } dir
      (Function.update map (1024 * i + j) (some frame)) := by
  have haligned : ∀ e, tableOf e % 4096 = 0 := fun e => by
    unfold tableOf
    omega
  have htdir := h.table_ne_dir i hi hpde
  have hdir : ∀ k, k < 1024 →
      entry (store32 s.mem (tableOf (entry s.mem dir i) + 4 * j) (4096 * frame + attr)) dir k =
        entry s.mem dir k := fun k hk =>
    entry_store_of_frame_ne (haligned _) h.dir_aligned htdir.symm hj hk
  have hself : entry (store32 s.mem (tableOf (entry s.mem dir i) + 4 * j) (4096 * frame + attr))
      (tableOf (entry s.mem dir i)) j = 4096 * frame + attr := entry_store (by omega)
  have hsame : ∀ k, k ≠ j →
      entry (store32 s.mem (tableOf (entry s.mem dir i) + 4 * j) (4096 * frame + attr))
        (tableOf (entry s.mem dir i)) k = entry s.mem (tableOf (entry s.mem dir i)) k :=
    fun k hk => entry_store_of_ne hk
  have hothers : ∀ b k, b % 4096 = 0 → b ≠ tableOf (entry s.mem dir i) → k < 1024 →
      entry (store32 s.mem (tableOf (entry s.mem dir i) + 4 * j) (4096 * frame + attr)) b k =
        entry s.mem b k := fun b k hb hne hk =>
    entry_store_of_frame_ne (haligned _) hb hne hj hk
  generalize store32 s.mem (tableOf (entry s.mem dir i) + 4 * j) (4096 * frame + attr) = m at *
  refine ⟨h.dir_ne, h.dir_aligned, h.dir_inUse, fun k hk h0 l hl => ?_, fun k hk h0 => ?_,
    fun k hk h0 => ?_, fun k hk h0 => ?_, fun k hk k' hk' hkk h0 h0' => ?_, fun k hk h0 l hl => ?_⟩
  · simp only [hdir k hk] at h0
    have hki : k ≠ i := fun heq => hpde (heq ▸ h0)
    rw [Function.update_of_ne (by omega)]
    exact h.empty k hk h0 l hl
  · simp only [hdir k hk] at h0 ⊢
    exact h.present k hk h0
  · simp only [hdir k hk] at h0 ⊢
    exact h.table_inUse k hk h0
  · simp only [hdir k hk] at h0 ⊢
    exact h.table_ne_dir k hk h0
  · simp only [hdir k hk, hdir k' hk'] at h0 h0' ⊢
    exact h.table_ne k hk k' hk' hkk h0 h0'
  · simp only [hdir k hk] at h0 ⊢
    by_cases hki : k = i
    · rw [hki]
      by_cases hlj : l = j
      · rw [hlj, hself, Function.update_self]
        exact ⟨by omega, by omega⟩
      · rw [hsame l hlj, Function.update_of_ne (by omega)]
        exact h.entries i hi hpde l hl
    · rw [hothers _ l (haligned _) (h.table_ne k hk i hi hki h0 hpde) hl,
        Function.update_of_ne (by omega)]
      exact h.entries k hk h0 l hl

/-- The first half of `vmm_map_page` keeps the map and leaves a table if it can. -/
theorem Represents.ensureTable (h : Represents A s dir map) {virt attr : ℕ}
    (hvirt : virt < 4294967296) (hattr : attr < 0x1000) (hodd : attr % 2 = 1) :
    Represents A (ensureTable A s dir virt attr).2 dir map ∧
    ((ensureTable A s dir virt attr).1 = true ↔ tableAvailable A s dir virt) ∧
    ((ensureTable A s dir virt attr).1 = true →
      entry (ensureTable A s dir virt attr).2.mem dir (virt / 4194304) ≠ 0) := by
  have hi : virt / 4194304 < 1024 := by omega
  have havail : tableAvailable A s dir virt ↔
      entry s.mem dir (virt / 4194304) ≠ 0 ∨ (A.allocBlock s.pmm).1 ≠ 0 := by
    rw [← h.present_iff hi, tableAvailable, pageDirectoryIndex_eq hvirt]
    rfl
  rw [havail, Vmm.ensureTable, pageDirectoryIndex_eq hvirt]
  by_cases hzero : entry s.mem dir (virt / 4194304) = 0
  · have hmissing : load32 s.mem (dir + 4 * (virt / 4194304)) &&& ptePresent ≠ ptePresent :=
      fun hp => (h.present_iff hi).mp hp hzero
    rw [if_pos hmissing]
    by_cases ht : (A.allocBlock s.pmm).1 = 0
    · simp only [if_pos ht]
      exact ⟨h.of_alloc, iff_of_false Bool.false_ne_true fun hp => hp.elim (fun hp => hp hzero)
        fun hp => hp ht, fun hp => absurd hp Bool.false_ne_true⟩
    · simp only [if_neg ht]
      refine ⟨h.add_table hi hzero hattr hodd ht, iff_of_true trivial (Or.inr ht), fun _ => ?_⟩
      have hbound := A.bounded s.pmm
      have haligned := A.aligned s.pmm
      rw [tableEntry_eq haligned hbound hattr, entry_store (by omega)]
      omega
  · have hthere : load32 s.mem (dir + 4 * (virt / 4194304)) &&& ptePresent = ptePresent :=
      (h.present_iff hi).mpr hzero
    rw [if_neg (not_not.mpr hthere)]
    exact ⟨h, iff_of_true rfl (Or.inl hzero), fun _ => hzero⟩

theorem Represents.setPage (h : Represents A s dir map) {phys virt attr : ℕ}
    (hphys : phys < 4294967296) (hvirt : virt < 4294967296) (hattr : attr < 0x1000)
    (hodd : attr % 2 = 1) (hpde : entry s.mem dir (virt / 4194304) ≠ 0) :
    Represents A (setPage s dir phys virt attr) dir
      (Function.update map (virt / 4096) (some (phys / 4096))) := by
  have hset := h.set_page (virt / 4096 % 1024) (phys / 4096) attr
    (by omega) (Nat.mod_lt _ (by decide)) hpde (by omega) hattr (by omega)
  have hpage : 1024 * (virt / 4194304) + virt / 4096 % 1024 = virt / 4096 := by omega
  rw [hpage, tableOf, ← and_frame_mask (entry_lt _ _ _)] at hset
  rw [Vmm.setPage, pageGetPhysicalAddress, pageDirectoryIndex_eq hvirt, pageTableIndex_eq,
    and_wide_frame_mask hphys, or_attr hattr, wrap32_of_lt (by omega)]
  exact hset

/-- A call of `vmm_map_page` updates the represented map at the page of `virt`, or leaves
it alone when there is no frame for the table. -/
theorem Represents.vmmMapPage (h : Represents A s dir map) {phys virt attr : ℕ}
    (hphys : phys < 4294967296) (hvirt : virt < 4294967296) (hattr : attr < 0x1000)
    (hpresent : attr &&& ptePresent = ptePresent) :
    Represents A (vmmMapPage A s dir phys virt attr) dir
      (if tableAvailable A s dir virt then Function.update map (virt / 4096) (some (phys / 4096))
        else map) := by
  have hodd : attr % 2 = 1 := by
    rw [← and_present]
    exact hpresent
  obtain ⟨hmap, hiff, hpde⟩ := h.ensureTable hvirt hattr hodd
  rw [Vmm.vmmMapPage]
  by_cases hr : (Vmm.ensureTable A s dir virt attr).1 = true
  · rw [if_pos hr, if_pos (hiff.mp hr)]
    exact hmap.setPage hphys hvirt hattr hodd (hpde hr)
  · rw [if_neg hr, if_neg fun hav => hr (hiff.mpr hav)]
    exact hmap

end Directory

end Unos.Vmm
