import Unos.Library.Runs
import Unos.Pmm.Effects
import Unos.Vmm.Calls

namespace Unos.Vmm

open Unos.Words Unos.ByteMemory Unos.Runs

/-- The first 4 MB, mapped to themselves and from 3 GB on. -/
def kernelMap : PageMap := fun page =>
  if page < 1024 then some page
  else if 0xC0000 ≤ page ∧ page < 0xC0400 then some (page - 0xC0000)
  else none

section Init

variable {m : Mem} {table b i j n virt : ℕ}

theorem entry_tableLoop (hvirt : virt % 4194304 = 4096 * i) (hn : i + n ≤ 1024)
    (hv : virt / 4194304 < 1024) (hj : j < 1024) :
    entry (tableLoop m table n (4096 * i) virt) table j =
      if i ≤ j ∧ j < i + n then 4096 * j + 7 else entry m table j := by
  induction n generalizing m i virt with
  | zero => rw [tableLoop, if_neg (by omega)]
  | succ n ih =>
    have hindex : pageTableIndex virt = i := by
      rw [pageTableIndex_eq]
      omega
    have hword : 4096 * i &&& 0xFFFFF000 ||| ptePresent ||| pteWritable ||| pteUser =
        4096 * i + 7 := by
      rw [and_frame_mask (by omega), Nat.mul_div_cancel_left i (by decide), or_flags]
    have hstep : 4096 * i + 4096 = 4096 * (i + 1) := by omega
    rw [tableLoop, hindex, hword, hstep]
    rcases Nat.eq_zero_or_pos n with rfl | hn0
    · rw [tableLoop]
      by_cases hji : j = i
      · rw [hji, entry_store (by omega), if_pos (by omega)]
      · rw [entry_store_of_ne hji, if_neg (by omega)]
    · rw [ih (by omega) (by omega) (by omega)]
      by_cases hji : j = i
      · rw [hji, if_neg (by omega), entry_store (by omega), if_pos (by omega)]
      · rw [entry_store_of_ne hji]
        split_ifs <;> first | rfl | omega

theorem entry_tableLoop_of_frame_ne (ht : table % 4096 = 0) (hb : b % 4096 = 0) (hne : b ≠ table)
    (frame : ℕ) (hj : j < 1024) : entry (tableLoop m table n frame virt) b j = entry m b j := by
  induction n generalizing m frame virt with
  | zero => rfl
  | succ n ih =>
    have hindex : pageTableIndex virt < 1024 := by
      rw [pageTableIndex_eq]
      exact Nat.mod_lt _ (by decide)
    rw [tableLoop, ih, entry_store_of_frame_ne ht hb hne hindex hj]

variable {it kt dir : ℕ}

theorem entry_kernelTables_identity (hit : it % 4096 = 0) (hkt : kt % 4096 = 0) (hne : it ≠ kt)
    (hj : j < 1024) : entry (kernelTables m it kt) it j = 4096 * j + 7 := by
  rw [kernelTables, entry_tableLoop_of_frame_ne hkt hit hne _ hj,
    show (0x0 : ℕ) = 4096 * 0 by rfl,
    entry_tableLoop (by decide) (by decide) (by decide) hj, if_pos (by omega)]

theorem entry_kernelTables_kernel (hj : j < 1024) :
    entry (kernelTables m it kt) kt j = 4096 * j + 7 := by
  rw [kernelTables, show (0x000000 : ℕ) = 4096 * 0 by rfl,
    entry_tableLoop (by decide) (by decide) (by decide) hj, if_pos (by omega)]

theorem kernelPde_eq (hit : it % 4096 = 0) (hbound : it < 4294967296) : kernelPde it = it + 7 := by
  rw [kernelPde, and_frame_mask hbound, or_flags]
  omega

theorem entry_kernelDirectory (hit : it % 4096 = 0) (hbound : it < 4294967296)
    (hkt : kt % 4096 = 0) (hbound' : kt < 4294967296) (hi : i < 1024) :
    entry (kernelDirectory m dir it kt) dir i =
      if i = 0 then it + 7 else if i = 768 then kt + 7 else 0 := by
  have h0 : pageDirectoryIndex 0x00000000 = 0 := by decide
  have h768 : pageDirectoryIndex 0xC0000000 = 768 := by decide
  rw [kernelDirectory, h0, h768, kernelPde_eq hit hbound, kernelPde_eq hkt hbound']
  by_cases hi768 : i = 768
  · rw [hi768, entry_store (by omega), if_neg (by decide), if_pos rfl]
  · rw [entry_store_of_ne hi768, if_neg hi768]
    by_cases hi0 : i = 0
    · rw [hi0, entry_store (by omega), if_pos rfl]
    · rw [entry_store_of_ne hi0, entry_fill_zero hi, if_neg hi0]

theorem entry_kernelDirectory_of_frame_ne (hdir : dir % 4096 = 0) (hb : b % 4096 = 0)
    (hne : b ≠ dir) (hj : j < 1024) :
    entry (kernelDirectory m dir it kt) b j = entry m b j := by
  rw [kernelDirectory, entry_store_of_frame_ne hdir hb hne (by decide) hj,
    entry_store_of_frame_ne hdir hb hne (by decide) hj, entry_fill_of_frame_ne hdir hb hne hj]

variable {σ : Type} {A : FrameSource σ} {s : State σ}

/-- The paging state after `init_paging`, with its two tables. -/
structure Initial (A : FrameSource σ) (s : State σ) (it kt : ℕ) : Prop where
  dir_ne : s.kpageDir ≠ 0
  current : s.curDir = s.kpageDir
  aligned : it % 4096 = 0 ∧ kt % 4096 = 0 ∧ s.kpageDir % 4096 = 0
  inUse : A.inUse s.pmm it ∧ A.inUse s.pmm kt ∧ A.inUse s.pmm s.kpageDir
  distinct : it ≠ kt ∧ it ≠ s.kpageDir ∧ kt ≠ s.kpageDir
  directory : ∀ k < 1024, entry s.mem s.kpageDir k =
    if k = 0 then it + 7 else if k = 768 then kt + 7 else 0
  identity : ∀ k < 1024, entry s.mem it k = 4096 * k + 7
  kernel : ∀ k < 1024, entry s.mem kt k = 4096 * k + 7

theorem initPaging_initial (hboot : s.kpageDir = 0) (hdone : (initPaging A s).kpageDir ≠ 0) :
    ∃ it kt, Initial A (initPaging A s) it kt := by
  by_cases hid : (A.allocBlock s.pmm).1 = 0
  · simp only [initPaging, if_pos hid] at hdone
    exact absurd hboot hdone
  by_cases hkid : (A.allocBlock (A.allocBlock s.pmm).2).1 = 0
  · simp only [initPaging, if_neg hid, if_pos hkid] at hdone
    exact absurd hboot hdone
  by_cases hdid : (A.allocBlock (A.allocBlock (A.allocBlock s.pmm).2).2).1 = 0
  · simp only [initPaging, if_neg hid, if_neg hkid, if_pos hdid] at hdone
    exact absurd rfl hdone
  simp only [initPaging, if_neg hid, if_neg hkid, if_neg hdid]
  have hit := A.aligned s.pmm
  have hitb := A.bounded s.pmm
  have hitu := A.marks s.pmm hid
  generalize A.allocBlock s.pmm = r₁ at *
  have hkt := A.aligned r₁.2
  have hktb := A.bounded r₁.2
  have hktu := A.marks r₁.2 hkid
  have hktf := A.fresh r₁.2 hkid
  have hkeep₂ := A.keeps r₁.2
  generalize A.allocBlock r₁.2 = r₂ at *
  have hd := A.aligned r₂.2
  have hdu := A.marks r₂.2 hdid
  have hdf := A.fresh r₂.2 hdid
  have hkeep₃ := A.keeps r₂.2
  generalize A.allocBlock r₂.2 = r₃ at *
  -- each of the three frames was in use when the next one was handed out
  have hne : r₁.1 ≠ r₂.1 := fun heq => hktf (heq ▸ hitu)
  have hd₁ : r₁.1 ≠ r₃.1 := fun heq => hdf (heq ▸ hkeep₂ _ hitu)
  have hd₂ : r₂.1 ≠ r₃.1 := fun heq => hdf (heq ▸ hktu)
  refine ⟨r₁.1, r₂.1, hdid, rfl, ⟨hit, hkt, hd⟩, ⟨hkeep₃ _ (hkeep₂ _ hitu), hkeep₃ _ hktu, hdu⟩,
    ⟨hne, hd₁, hd₂⟩, fun k hk => entry_kernelDirectory hit hitb hkt hktb hk, fun k hk => ?_,
    fun k hk => ?_⟩
  · rw [entry_kernelDirectory_of_frame_ne hd hit hd₁ hk, entry_kernelTables_identity hit hkt hne hk]
  · rw [entry_kernelDirectory_of_frame_ne hd hkt hd₂ hk, entry_kernelTables_kernel hk]

theorem Initial.entry_cases (h : Initial A s it kt) {k : ℕ} (hk : k < 1024)
    (h0 : entry s.mem s.kpageDir k ≠ 0) :
    (k = 0 ∧ entry s.mem s.kpageDir k = it + 7) ∨
    (k = 768 ∧ entry s.mem s.kpageDir k = kt + 7) := by
  have hentry := h.directory k hk
  split_ifs at hentry with h1 h2
  · exact Or.inl ⟨h1, hentry⟩
  · exact Or.inr ⟨h2, hentry⟩
  · exact absurd hentry h0

theorem tableOf_kernelPde {t : ℕ} (ht : t % 4096 = 0) : tableOf (t + 7) = t := by
  unfold tableOf
  omega

theorem Initial.represents (h : Initial A s it kt) : Represents A s s.kpageDir kernelMap := by
  obtain ⟨hit, hkt, hd⟩ := h.aligned
  obtain ⟨hitu, hktu, hdu⟩ := h.inUse
  obtain ⟨hne, hd₁, hd₂⟩ := h.distinct
  refine ⟨h.dir_ne, hd, hdu, fun k hk h0 l hl => ?_, fun k hk h0 => ?_, fun k hk h0 => ?_,
    fun k hk h0 => ?_, fun k hk k' hk' hkk h0 h0' => ?_, fun k hk h0 l hl => ?_⟩
  · have hk' := h.directory k hk
    rw [h0] at hk'
    split_ifs at hk' with h1 h2
    rw [kernelMap, if_neg (by omega), if_neg (by omega)]
  · rcases h.entry_cases hk h0 with ⟨-, he⟩ | ⟨-, he⟩ <;> rw [he] <;> omega
  · rcases h.entry_cases hk h0 with ⟨-, he⟩ | ⟨-, he⟩
    · rw [he, tableOf_kernelPde hit]
      exact hitu
    · rw [he, tableOf_kernelPde hkt]
      exact hktu
  · rcases h.entry_cases hk h0 with ⟨-, he⟩ | ⟨-, he⟩
    · rw [he, tableOf_kernelPde hit]
      exact hd₁
    · rw [he, tableOf_kernelPde hkt]
      exact hd₂
  · rcases h.entry_cases hk h0 with ⟨hk0, he⟩ | ⟨hk0, he⟩ <;>
      rcases h.entry_cases hk' h0' with ⟨hk0', he'⟩ | ⟨hk0', he'⟩
    · exact absurd (hk0.trans hk0'.symm) hkk
    · rw [he, he', tableOf_kernelPde hit, tableOf_kernelPde hkt]
      exact hne
    · rw [he, he', tableOf_kernelPde hit, tableOf_kernelPde hkt]
      exact hne.symm
    · exact absurd (hk0.trans hk0'.symm) hkk
  · rcases h.entry_cases hk h0 with ⟨hk0, he⟩ | ⟨hk0, he⟩
    · rw [he, tableOf_kernelPde hit, h.identity l hl, kernelMap, if_pos (by omega)]
      exact ⟨by omega, by omega⟩
    · rw [he, tableOf_kernelPde hkt, h.kernel l hl, kernelMap, if_neg (by omega), if_pos (by omega)]
      exact ⟨by omega, by omega⟩

/-- Unless a frame is missing, `init_paging` builds a directory that represents
`kernelMap`, and makes it the current one. -/
theorem initPaging_represents (hboot : s.kpageDir = 0) (hdone : (initPaging A s).kpageDir ≠ 0) :
    Represents A (initPaging A s) (initPaging A s).kpageDir kernelMap ∧
    (initPaging A s).curDir = (initPaging A s).kpageDir := by
  obtain ⟨it, kt, h⟩ := initPaging_initial hboot hdone
  exact ⟨h.represents, h.current⟩

theorem Initial.tables (h : Initial A s it kt) : Tables s.mem s.kpageDir where
  aligned := h.aligned.2.2
  ne_dir k hk hodd := h.represents.table_ne_dir k hk fun h0 => by simp [h0] at hodd
  ne k hk l hl hkl hodd hodd' :=
    h.represents.table_ne k hk l hl hkl (fun h0 => by simp [h0] at hodd)
    fun h0 => by simp [h0] at hodd'

theorem Initial.owned (h : Initial A s it kt) : Owned A s s.kpageDir where
  dir_inUse := h.represents.dir_inUse
  table_inUse k hk hodd := h.represents.table_inUse k hk fun h0 => by simp [h0] at hodd

/-- The table entry of each page after `init_paging`. -/
theorem Initial.pteOf (h : Initial A s it kt) {page : ℕ} (hpage : page < 1048576) :
    pteOf s.mem s.kpageDir page =
      if page < 1024 then 4096 * page + 7
      else if 0xC0000 ≤ page ∧ page < 0xC0400 then 4096 * (page - 0xC0000) + 7
      else 0 := by
  have hk : page / 1024 < 1024 := by omega
  have hl : page % 1024 < 1024 := Nat.mod_lt _ (by decide)
  obtain ⟨hit, hkt, -⟩ := h.aligned
  have hpde : pdeOf s.mem s.kpageDir page = _ := h.directory _ hk
  rw [Vmm.pteOf, hpde]
  by_cases h0 : page / 1024 = 0
  · have hlow : page < 1024 := by omega
    rw [if_pos h0, if_pos (by omega), tableOf_kernelPde hit, h.identity _ hl, if_pos hlow,
      Nat.mod_eq_of_lt hlow]
  · have hlow : ¬ page < 1024 := by omega
    rw [if_neg h0, if_neg hlow]
    by_cases h768 : page / 1024 = 768
    · have hkernel : 0xC0000 ≤ page ∧ page < 0xC0400 := by omega
      rw [if_pos h768, if_pos (by omega), tableOf_kernelPde hkt, h.kernel _ hl, if_pos hkernel]
      omega
    · have hnone : ¬ (0xC0000 ≤ page ∧ page < 0xC0400) := by omega
      rw [if_neg h768, if_neg (by decide), if_neg hnone]

end Init

/-- The arguments of `vmm_map_page` after the directory. -/
structure MapCall where
  phys : ℕ
  virt : ℕ
  attr : ℕ

/-- The paging state with the map that the calls so far have built. -/
structure Paging (σ : Type) where
  state : State σ
  map : PageMap

section Runs

variable {σ : Type} (A : FrameSource σ)

/-- A call on the directory `dir`. It is successful when it has a table for the page. -/
def mapStep (dir : ℕ) (p : Paging σ) (c : MapCall) : Option (Paging σ) :=
  if c.phys < 4294967296 ∧ c.virt < 4294967296 ∧ c.attr < 0x1000 ∧
      c.attr &&& ptePresent = ptePresent then
    some ⟨vmmMapPage A p.state dir c.phys c.virt c.attr,
      if tableAvailable A p.state dir c.virt then
        Function.update p.map (c.virt / 4096) (some (c.phys / 4096))
      else p.map⟩
  else none

variable {A} {dir : ℕ} {p q : Paging σ}

theorem Represents.mapStep {c : MapCall} (h : Represents A p.state dir p.map)
    (hq : mapStep A dir p c = some q) : Represents A q.state dir q.map := by
  rw [Vmm.mapStep] at hq
  by_cases hc : c.phys < 4294967296 ∧ c.virt < 4294967296 ∧ c.attr < 0x1000 ∧
      c.attr &&& ptePresent = ptePresent
  · rw [if_pos hc] at hq
    cases hq
    exact h.vmmMapPage hc.1 hc.2.1 hc.2.2.1 hc.2.2.2
  · rw [if_neg hc] at hq
    cases hq

theorem mapStep_other {c : MapCall} (hq : Vmm.mapStep A dir p c = some q) {page : ℕ}
    (hpage : page ≠ c.virt / 4096 ∨ ¬ tableAvailable A p.state dir c.virt) :
    q.map page = p.map page := by
  rw [Vmm.mapStep] at hq
  split_ifs at hq with hc hav
  · cases hq
    exact Function.update_of_ne (hpage.resolve_right (not_not.mpr hav)) _ _
  · cases hq
    rfl

end Runs

/-- The states of the frame allocator that manage at most 4 GB. -/
abbrev Frames := { s : Pmm.State // s.maxBlocks ≤ 1048576 }

theorem pmmAllocBlock_frame (s : Frames) :
    (∀ f, (Pmm.pmmAllocBlock s.1).2.used f = s.1.used f) ∧ (Pmm.pmmAllocBlock s.1).1 = 0 ∨
    ∃ f, f < 1048576 ∧ s.1.used f = false ∧ (Pmm.pmmAllocBlock s.1).1 = f * 4096 ∧
      ∀ g, (Pmm.pmmAllocBlock s.1).2.used g = (decide (g = f) || s.1.used g) := by
  have hmax := s.2
  obtain ⟨l, -, heq | ⟨f, ⟨-, hf, hclear, -⟩, heq⟩⟩ := Pmm.pmmAllocBlock_cases s.1
  · left
    rw [heq]
    exact ⟨fun f => rfl, rfl⟩
  · right
    refine ⟨f, by omega, hclear, ?_, fun g => ?_⟩
    · rw [heq]
      exact wrap32_of_lt (by omega)
    · rw [heq]
      exact Pmm.mmapSet_used (s.1.touch l) f g

/-- `pmm_alloc_block` hands out frames as the paging code needs them. -/
def pmmFrames : FrameSource Frames where
  allocBlock s := ((Pmm.pmmAllocBlock s.1).1,
    ⟨(Pmm.pmmAllocBlock s.1).2, by rw [Pmm.pmmAllocBlock_maxBlocks]; exact s.2⟩)
  inUse s a := s.1.used (a / 4096) = true
  aligned s := by
    obtain ⟨-, h⟩ | ⟨f, -, -, h, -⟩ := pmmAllocBlock_frame s
    · rw [h]
    · rw [h, Nat.mul_mod_left]
  bounded s := by
    obtain ⟨-, h⟩ | ⟨f, hf, -, h, -⟩ := pmmAllocBlock_frame s
    · rw [h]
      decide
    · rw [h]
      omega
  fresh s h0 := by
    obtain ⟨-, h⟩ | ⟨f, -, hclear, h, -⟩ := pmmAllocBlock_frame s
    · exact absurd h h0
    · rw [h, Nat.mul_div_cancel f (by decide), hclear]
      exact Bool.false_ne_true
  marks s h0 := by
    obtain ⟨-, h⟩ | ⟨f, -, -, h, hused⟩ := pmmAllocBlock_frame s
    · exact absurd h h0
    · rw [h, Nat.mul_div_cancel f (by decide), hused, decide_eq_true rfl, Bool.true_or]
  keeps s a ha := by
    obtain ⟨hused, -⟩ | ⟨f, -, -, -, hused⟩ := pmmAllocBlock_frame s
    · rw [hused]
      exact ha
    · rw [hused, ha, Bool.or_true]

/-- In every run of `vmm_map_page` on the directory of `init_paging`, `virt2phys` computes
the last successful mapping of each page, and a call changes no other translation. -/
theorem virt2phys_eq_translate {σ : Type} (A : FrameSource σ) {s : State σ}
    (hboot : s.kpageDir = 0) (hdone : (initPaging A s).kpageDir ≠ 0) {calls : List MapCall}
    {p : Paging σ}
    (hrun : run (mapStep A (initPaging A s).kpageDir) ⟨initPaging A s, kernelMap⟩ calls = some p) :
    (∀ v, v < 4294967296 →
      virt2phys p.state.mem (initPaging A s).kpageDir v = p.map.translate v) ∧
    ∀ c q, mapStep A (initPaging A s).kpageDir p c = some q → ∀ v, v < 4294967296 →
      v / 4096 ≠ c.virt / 4096 ∨ ¬ tableAvailable A p.state (initPaging A s).kpageDir c.virt →
      virt2phys q.state.mem (initPaging A s).kpageDir v =
        virt2phys p.state.mem (initPaging A s).kpageDir v := by
  have hinit := (initPaging_represents (A := A) hboot hdone).1
  have hp : Represents A p.state (initPaging A s).kpageDir p.map :=
    run_invariant (I := fun p => Represents A p.state (initPaging A s).kpageDir p.map)
      (fun _ _ _ h hq => h.mapStep hq) hinit hrun
  refine ⟨fun v hv => hp.virt2phys hv, fun c q hq v hv hpage => ?_⟩
  rw [(hp.mapStep hq).virt2phys hv, hp.virt2phys hv, PageMap.translate, mapStep_other hq hpage,
    PageMap.translate]

theorem bootState_fits :
    (Pmm.pmmInitRegion (Pmm.initPmm 262144 (Pmm.bootState fun _ => 0)) 4096 258048).maxBlocks ≤
      1048576 := by decide +kernel

/-- 64 frames: page 5 of the identity map is moved to frame 9, its image is not. -/
theorem virt2phys_remapped :
    let frames : Frames := ⟨Pmm.pmmInitRegion (Pmm.initPmm 262144 (Pmm.bootState fun _ => 0))
      4096 258048, by decide +kernel⟩
    let s : State Frames := ⟨fun _ => 0, frames, 0, 0⟩
    let start : Paging Frames := ⟨initPaging pmmFrames s, kernelMap⟩
    let dir := (initPaging pmmFrames s).kpageDir
    let p := (run (mapStep pmmFrames dir) start [⟨0x9000, 0x5000, 3⟩]).getD start
    virt2phys p.state.mem dir 0x5123 = 0x9123 ∧ virt2phys p.state.mem dir 0xC0005123 = 0x5123 := by
  intro frames s start dir p
  have hdone : dir ≠ 0 := by decide +kernel
  have hrun : run (mapStep pmmFrames dir) start [⟨0x9000, 0x5000, 3⟩] = some p :=
    run_eq_getD start (by decide +kernel)
  have htranslate := (virt2phys_eq_translate pmmFrames rfl hdone hrun).1
  rw [htranslate _ (by decide), htranslate _ (by decide)]
  decide +kernel

end Unos.Vmm
