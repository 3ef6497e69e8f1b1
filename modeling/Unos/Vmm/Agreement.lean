import Unos.Vmm.Kernel

namespace Unos.Vmm

open Unos.Words Unos.ByteMemory Unos.Runs

/-- `virt2phys` gives the address that the walk produces, and 0 when the walk faults. -/
def Agrees (m : Mem) (dir v : ℕ) : Prop :=
  virt2phys m dir v = PageMap.translate (walk m dir) v

/-- The calls on one directory. `vmm_free_page` is called for the entry of a page. -/
inductive PageCall
  | map (c : MapCall)
  | free (page : ℕ)

section Agreement

variable {σ : Type} (A : FrameSource σ) (freeBlock : σ → ℕ → σ) (dir : ℕ)

def pageStep (s : State σ) : PageCall → Option (State σ)
  | .map c =>
    if c.phys < 4294967296 ∧ c.virt < 4294967296 ∧ c.attr < 0x1000 ∧
        c.attr &&& ptePresent = ptePresent then
      some (vmmMapPage A s dir c.phys c.virt c.attr)
    else none
  | .free page =>
    if page < 1048576 ∧ HasTable s.mem dir page then
      some (vmmFreePage freeBlock s (pteAddress s.mem dir page))
    else none

/-- The entry that is freed has no bit but the present bit: it is zero, or it maps frame 0
without a further attribute. -/
def FreesBareEntry (s : State σ) : PageCall → Prop
  | .map _ => True
  | .free page => pteOf s.mem dir page ≤ 1

def AllPresent (m : Mem) : Prop :=
  ∀ page < 1048576, pteOf m dir page ≠ 0 → pteOf m dir page % 2 = 1

structure AgreeInv (s : State σ) : Prop where
  dir_ne : dir ≠ 0
  tables : Tables s.mem dir
  owned : Owned A s dir
  present : ∀ i < 1024, entry s.mem dir i ≠ 0 → entry s.mem dir i % 2 = 1

variable {A freeBlock dir} {s t : State σ}

theorem virt2phys_eq (hdir : dir ≠ 0)
    (hpresent : ∀ i < 1024, entry s.mem dir i ≠ 0 → entry s.mem dir i % 2 = 1) {v : ℕ}
    (hv : v < 4294967296) :
    virt2phys s.mem dir v = if pteOf s.mem dir (v / 4096) = 0 then 0
      else 4096 * (pteOf s.mem dir (v / 4096) / 4096) + v % 4096 := by
  have hi : v / 4194304 < 1024 := by omega
  have hoff : v &&& 0xfff = v % 4096 := and_low_mask v 12
  have hmod : v % 4096 < 4096 := Nat.mod_lt _ (by decide)
  have hpde := entry_lt s.mem dir (v / 4194304)
  rw [Vmm.virt2phys, if_neg hdir, pageDirectoryIndex_eq hv, pageTableIndex_eq, pageFrameIndex_eq,
    ← entry, hoff, pteOf, pdeOf_virt]
  by_cases hzero : entry s.mem dir (v / 4194304) = 0
  · have hmissing : ¬ entry s.mem dir (v / 4194304) % 2 = 1 := by omega
    rw [if_neg (not_not.mpr hzero), if_neg hmissing, if_pos rfl]
  · have hpte := entry_lt s.mem (tableOf (entry s.mem dir (v / 4194304))) (v / 4096 % 1024)
    rw [if_pos hzero, if_pos (hpresent _ hi hzero), and_wide_frame_mask hpde,
      wrap32_of_lt (by omega), ← tableOf, ← entry]
    by_cases hpte0 : entry s.mem (tableOf (entry s.mem dir (v / 4194304))) (v / 4096 % 1024) = 0
    · rw [if_neg (not_not.mpr hpte0), if_pos hpte0]
    · rw [if_pos hpte0, if_neg hpte0, and_wide_frame_mask hpte, or_attr hmod,
        wrap32_of_lt (by omega)]

theorem agrees_iff (hdir : dir ≠ 0)
    (hpresent : ∀ i < 1024, entry s.mem dir i ≠ 0 → entry s.mem dir i % 2 = 1) :
    (∀ v < 4294967296, Agrees s.mem dir v) ↔ AllPresent dir s.mem := by
  constructor
  · intro hall page hpage h0
    by_contra hodd
    -- at the second byte of the page the stale address is not 0
    have hv : (4096 * page + 1) / 4096 = page := by omega
    have hfault : walk s.mem dir page = none := if_neg hodd
    have hagree := hall (4096 * page + 1) (by omega)
    rw [Agrees, virt2phys_eq hdir hpresent (by omega), hv, if_neg h0, PageMap.translate, hv,
      hfault] at hagree
    have hzero : 4096 * (pteOf s.mem dir page / 4096) + (4096 * page + 1) % 4096 = 0 := hagree
    omega
  · intro hall v hv
    have hoff : v &&& 0xfff = v % 4096 := and_low_mask v 12
    have hmod : v % 4096 < 4096 := Nat.mod_lt _ (by decide)
    rw [Agrees, virt2phys_eq hdir hpresent hv, PageMap.translate, walk]
    by_cases h0 : pteOf s.mem dir (v / 4096) = 0
    · have heven : ¬ pteOf s.mem dir (v / 4096) % 2 = 1 := by omega
      rw [if_pos h0, if_neg heven]
    · rw [if_neg h0, if_pos (hall _ (by omega) h0), hoff]
      exact (or_attr hmod _).symm

theorem AgreeInv.map (h : AgreeInv A dir s) {c : MapCall}
    (hc : c.phys < 4294967296 ∧ c.virt < 4294967296 ∧ c.attr < 0x1000 ∧
      c.attr &&& ptePresent = ptePresent) (hall : AllPresent dir s.mem) :
    AgreeInv A dir (vmmMapPage A s dir c.phys c.virt c.attr) ∧
      AllPresent dir (vmmMapPage A s dir c.phys c.virt c.attr).mem := by
  obtain ⟨hphys, hvirt, hattr, hset⟩ := hc
  have hodd : c.attr % 2 = 1 := by
    rw [← and_present]
    exact hset
  have hnew := h.owned.newTable (c.virt / 4096)
  obtain ⟨htables, hpte⟩ := h.tables.vmmMapPage hnew hphys hvirt hattr
  refine ⟨⟨h.dir_ne, htables, h.owned.vmmMapPage h.tables hphys hvirt hattr, fun i hi h0 => ?_⟩,
    fun page hpage h0 => ?_⟩
  · have haligned := A.aligned s.pmm
    rw [h.tables.entry_vmmMapPage hnew hphys hvirt hattr hi] at h0 ⊢
    split_ifs at h0 ⊢
    · omega
    · exact h.present i hi h0
  · rw [hpte page hpage] at h0 ⊢
    split_ifs at h0 ⊢
    · omega
    · exact hall page hpage h0

/-- Freeing keeps the directory; the frames stay in use when nothing is given back. -/
theorem AgreeInv.free (h : AgreeInv A dir s) {page : ℕ} (hpage : page < 1048576)
    (hhas : HasTable s.mem dir page) (hbare : pteOf s.mem dir page ≤ 1) :
    AgreeInv A dir (vmmFreePage freeBlock s (pteAddress s.mem dir page)) := by
  obtain ⟨htables, hdir, -⟩ := h.tables.vmmFreePage freeBlock hpage hhas
  have hpmm : (vmmFreePage freeBlock s (pteAddress s.mem dir page)).pmm = s.pmm := by
    rw [vmmFreePage_pmm hhas, if_pos (by omega)]
  refine ⟨h.dir_ne, htables, ⟨?_, fun i hi hodd => ?_⟩, fun i hi h0 => ?_⟩
  · rw [hpmm]
    exact h.owned.dir_inUse
  · rw [hdir i hi] at hodd ⊢
    rw [hpmm]
    exact h.owned.table_inUse i hi hodd
  · rw [hdir i hi] at h0 ⊢
    exact h.present i hi h0

/-- After a call on an entry that is left present or zero everywhere, the entries are so
again exactly when the call frees a bare entry. -/
theorem AgreeInv.allPresent_free (h : AgreeInv A dir s) {page : ℕ} (hpage : page < 1048576)
    (hhas : HasTable s.mem dir page) (hall : AllPresent dir s.mem) :
    AllPresent dir (vmmFreePage freeBlock s (pteAddress s.mem dir page)).mem ↔
      pteOf s.mem dir page ≤ 1 := by
  have hpte := (h.tables.vmmFreePage freeBlock hpage hhas).2.2
  constructor
  · intro hafter
    by_contra hbare
    have hself := hafter page hpage
    rw [hpte page hpage, if_pos rfl] at hself
    have hodd := hself (by omega)
    omega
  · intro hbare p hp h0
    rw [hpte p hp] at h0 ⊢
    split_ifs at h0 ⊢
    · omega
    · exact hall p hp h0

theorem pageStep_kept (h : AgreeInv A dir s) (hall : AllPresent dir s.mem) {c : PageCall}
    (hstep : pageStep A freeBlock dir s c = some t) (hafter : AllPresent dir t.mem) :
    AgreeInv A dir t := by
  cases c with
  | map c =>
    rw [pageStep, Option.ite_none_right_eq_some] at hstep
    rw [← Option.some.inj hstep.2]
    exact (h.map hstep.1 hall).1
  | free page =>
    rw [pageStep, Option.ite_none_right_eq_some] at hstep
    obtain ⟨⟨hpage, hhas⟩, ht⟩ := hstep
    rw [← Option.some.inj ht] at hafter ⊢
    exact h.free hpage hhas ((h.allPresent_free hpage hhas hall).mp hafter)

theorem pageStep_present (h : AgreeInv A dir s) (hall : AllPresent dir s.mem) {c : PageCall}
    (hstep : pageStep A freeBlock dir s c = some t) {i : ℕ} (hi : i < 1024)
    (h0 : entry t.mem dir i ≠ 0) : entry t.mem dir i % 2 = 1 := by
  cases c with
  | map c =>
    rw [pageStep, Option.ite_none_right_eq_some] at hstep
    rw [← Option.some.inj hstep.2] at h0 ⊢
    exact (h.map hstep.1 hall).1.present i hi h0
  | free page =>
    rw [pageStep, Option.ite_none_right_eq_some] at hstep
    obtain ⟨⟨hpage, hhas⟩, ht⟩ := hstep
    have hdir := (h.tables.vmmFreePage freeBlock hpage hhas).2.1
    rw [← Option.some.inj ht, hdir i hi] at h0 ⊢
    exact h.present i hi h0

theorem pageStep_allPresent_iff (h : AgreeInv A dir s) (hall : AllPresent dir s.mem) {c : PageCall}
    (hstep : pageStep A freeBlock dir s c = some t) :
    AllPresent dir t.mem ↔ FreesBareEntry dir s c := by
  cases c with
  | map c =>
    rw [pageStep, Option.ite_none_right_eq_some] at hstep
    rw [← Option.some.inj hstep.2]
    exact iff_of_true (h.map hstep.1 hall).2 trivial
  | free page =>
    rw [pageStep, Option.ite_none_right_eq_some] at hstep
    obtain ⟨⟨hpage, hhas⟩, ht⟩ := hstep
    rw [← Option.some.inj ht]
    exact h.allPresent_free hpage hhas hall

/-- In a run of calls on the directory of `init_paging`, `virt2phys` agrees with the
processor all along exactly when `vmm_free_page` is only called on bare entries. -/
theorem virt2phys_agrees_iff (A : FrameSource σ) (freeBlock : σ → ℕ → σ) {s : State σ}
    (hboot : s.kpageDir = 0) (hdone : (initPaging A s).kpageDir ≠ 0) (calls : List PageCall) :
    Always (pageStep A freeBlock (initPaging A s).kpageDir)
      (fun t => ∀ v < 4294967296, Agrees t.mem (initPaging A s).kpageDir v) (initPaging A s) calls ↔
    Steps (pageStep A freeBlock (initPaging A s).kpageDir)
      (FreesBareEntry (initPaging A s).kpageDir) (initPaging A s) calls := by
  obtain ⟨it, kt, hinit⟩ := initPaging_initial (A := A) hboot hdone
  have hinv : AgreeInv A (initPaging A s).kpageDir (initPaging A s) :=
    ⟨hdone, hinit.tables, hinit.owned, hinit.represents.present⟩
  have hall : AllPresent (initPaging A s).kpageDir (initPaging A s).mem := by
    intro page hpage h0
    rw [hinit.pteOf hpage] at h0 ⊢
    split_ifs at h0 ⊢ <;> omega
  refine always_iff_steps (I := AgreeInv A (initPaging A s).kpageDir) ?_ ?_ hinv
    ((agrees_iff hdone hinv.present).mpr hall) calls
  · intro s c t hs hP hstep hPt
    have hbefore := (agrees_iff hs.dir_ne hs.present).mp hP
    have hpresent := fun i hi => pageStep_present hs hbefore hstep (i := i) hi
    exact pageStep_kept hs hbefore hstep ((agrees_iff hs.dir_ne hpresent).mp hPt)
  · intro s c t hs hP hstep
    have hbefore := (agrees_iff hs.dir_ne hs.present).mp hP
    have hpresent := fun i hi => pageStep_present hs hbefore hstep (i := i) hi
    rw [agrees_iff hs.dir_ne hpresent]
    exact pageStep_allPresent_iff hs hbefore hstep

end Agreement

/-- 64 frames, of which 1 to 63 are available. -/
def smallFrames : Frames :=
  ⟨Pmm.pmmInitRegion (Pmm.initPmm 262144 (Pmm.bootState fun _ => 0)) 4096 258048, bootState_fits⟩

def smallPaging : State Frames := initPaging pmmFrames ⟨fun _ => 0, smallFrames, 0, 0⟩

def freeFrame (s : Frames) (p : ℕ) : Frames :=
  ⟨Pmm.pmmFreeBlock s.1 p, by rw [Pmm.pmmFreeBlock_maxBlocks]; exact s.2⟩

theorem smallPaging_kpageDir : smallPaging.kpageDir ≠ 0 := by decide +kernel

theorem smallPaging_initial : ∃ it kt, Initial pmmFrames smallPaging it kt :=
  initPaging_initial rfl smallPaging_kpageDir

theorem smallPaging_hasTable {page : ℕ} (hpage : page < 1024) :
    HasTable smallPaging.mem smallPaging.kpageDir page := by
  obtain ⟨it, kt, hinit⟩ := smallPaging_initial
  have hwide : page < 1048576 := by omega
  have hpte := hinit.pteOf hwide
  rw [if_pos hpage] at hpte
  apply hasTable_of_pteOf_ne
  omega

/-- A page is mapped beyond the first 4 MB, and its neighbour, which is not, is freed. -/
theorem virt2phys_agrees_mapped :
    Always (pageStep pmmFrames freeFrame smallPaging.kpageDir)
      (fun t => ∀ v < 4294967296, Agrees t.mem smallPaging.kpageDir v) smallPaging
      [.map ⟨0x9000, 0x400000, 3⟩, .free 0x401] := by
  refine (virt2phys_agrees_iff pmmFrames freeFrame rfl smallPaging_kpageDir _).mpr fun t ht => ?_
  refine ⟨trivial, fun u hu => ⟨?_, trivial⟩⟩
  obtain ⟨it, kt, hinit⟩ := smallPaging_initial
  have hnew := hinit.owned.newTable (0x400000 / 4096)
  have hphys : 0x9000 < 4294967296 := by decide
  have hattr : 3 < 4096 := by decide
  have hpte := (hinit.tables.vmmMapPage hnew hphys (by decide) hattr).2 0x401 (by decide)
  rw [if_neg fun hc => absurd hc.1 (by decide), hinit.pteOf (by decide)] at hpte
  rw [pageStep, Option.ite_none_right_eq_some] at ht
  rw [FreesBareEntry, ← Option.some.inj ht.2]
  exact hpte.le.trans (by decide)

/-- A page of the first 4 MB is freed: `virt2phys` still gives its address. -/
theorem virt2phys_stale :
    ¬ Always (pageStep pmmFrames freeFrame smallPaging.kpageDir)
      (fun t => ∀ v < 4294967296, Agrees t.mem smallPaging.kpageDir v) smallPaging [.free 5] := by
  rintro ⟨hnow, hafter⟩
  obtain ⟨it, kt, hinit⟩ := smallPaging_initial
  have hinv : AgreeInv pmmFrames smallPaging.kpageDir smallPaging :=
    ⟨smallPaging_kpageDir, hinit.tables, hinit.owned, hinit.represents.present⟩
  have hall := (agrees_iff hinv.dir_ne hinv.present).mp hnow
  have hstep : pageStep pmmFrames freeFrame smallPaging.kpageDir smallPaging (.free 5) = some _ :=
    if_pos ⟨by decide, smallPaging_hasTable (by decide)⟩
  have hpresent := fun i hi => pageStep_present hinv hall hstep (i := i) hi
  have hbare := (pageStep_allPresent_iff hinv hall hstep).mp
    ((agrees_iff hinv.dir_ne hpresent).mp (hafter _ hstep))
  rw [FreesBareEntry, hinit.pteOf (by decide)] at hbare
  exact absurd hbare (by decide)

end Unos.Vmm
