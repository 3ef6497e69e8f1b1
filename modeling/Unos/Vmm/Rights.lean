import Unos.Vmm.Giveback

namespace Unos.Vmm

open Unos.Words Unos.ByteMemory Unos.Runs

def rights (x : ℕ) : ℕ := x &&& (pteWritable ||| pteUser)

def granted (m : Mem) (dir page : ℕ) : ℕ := rights (pdeOf m dir page) &&& rights (pteOf m dir page)

/-- The paging state, and the attributes of the last call for each page. -/
structure Requested (σ : Type) where
  state : State σ
  attr : ℕ → Option ℕ

section Rights

variable {σ : Type} (A : FrameSource σ) (dir : ℕ)

def requestStep (p : Requested σ) (c : MapCall) : Option (Requested σ) :=
  if c.phys < 4294967296 ∧ c.virt < 4294967296 ∧ c.attr < 0x1000 ∧
      c.attr &&& ptePresent = ptePresent ∧ Maps A p.state dir (c.virt / 4096) c.attr then
    some ⟨vmmMapPage A p.state dir c.phys c.virt c.attr,
      Function.update p.attr (c.virt / 4096) (some c.attr)⟩
  else none

def AsRequested (p : Requested σ) : Prop :=
  ∀ page < 1048576, ∀ attr, p.attr page = some attr →
    granted p.state.mem dir page = rights attr

def Covered (p : Requested σ) (c : MapCall) : Prop :=
  HasTable p.state.mem dir (c.virt / 4096) →
    rights (pdeOf p.state.mem dir (c.virt / 4096)) &&& rights c.attr = rights c.attr

structure RequestInv (p : Requested σ) : Prop where
  tables : Tables p.state.mem dir
  owned : Owned A p.state dir
  mapped : ∀ page < 1048576, ∀ attr, p.attr page = some attr →
    HasTable p.state.mem dir page ∧ rights (pteOf p.state.mem dir page) = rights attr

variable {A dir} {p q : Requested σ} {c : MapCall}

theorem rights_mod (x : ℕ) : rights x = rights (x % 8) := by
  have hlow : x &&& 7 = x % 8 := and_low_mask x 3
  rw [rights, rights, ← hlow, Nat.land_assoc]
  rfl

theorem rights_add {f attr : ℕ} (hf : f % 4096 = 0) : rights (f + attr) = rights attr := by
  have hmod : (f + attr) % 8 = attr % 8 := by omega
  rw [rights_mod, hmod, ← rights_mod]

theorem requestStep_eq (hstep : requestStep A dir p c = some q) :
    c.phys < 4294967296 ∧ c.virt < 4294967296 ∧ c.attr < 0x1000 ∧ c.attr % 2 = 1 ∧
      Maps A p.state dir (c.virt / 4096) c.attr ∧
      q = ⟨vmmMapPage A p.state dir c.phys c.virt c.attr,
        Function.update p.attr (c.virt / 4096) (some c.attr)⟩ := by
  rw [requestStep, Option.ite_none_right_eq_some, and_present] at hstep
  obtain ⟨⟨hphys, hvirt, hattr, hodd, hmaps⟩, hq⟩ := hstep
  exact ⟨hphys, hvirt, hattr, hodd, hmaps, (Option.some.inj hq).symm⟩

theorem RequestInv.pdeOf_step (h : RequestInv A dir p) (hstep : requestStep A dir p c = some q)
    {page : ℕ} (hpage : page < 1048576) :
    pdeOf q.state.mem dir page =
      if page / 1024 = c.virt / 4194304 ∧ ¬ HasTable p.state.mem dir (c.virt / 4096) then
        (A.allocBlock p.state.pmm).1 + c.attr
      else pdeOf p.state.mem dir page := by
  obtain ⟨hphys, hvirt, hattr, -, hmaps, rfl⟩ := requestStep_eq hstep
  have hentry := h.tables.entry_vmmMapPage (h.owned.newTable _) hphys hvirt hattr
    (k := page / 1024) (by omega)
  rw [pdeOf, hentry, pdeOf]
  by_cases hhas : HasTable p.state.mem dir (c.virt / 4096)
  · rw [if_neg fun hc => hc.2.1 hhas, if_neg fun hc => hc.2 hhas]
  · have ht0 := (hmaps.resolve_left hhas).1
    by_cases hk : page / 1024 = c.virt / 4194304
    · rw [if_pos ⟨hk, hhas, ht0⟩, if_pos ⟨hk, hhas⟩]
    · rw [if_neg fun hc => hk hc.1, if_neg fun hc => hk hc.1]

theorem RequestInv.pdeOf_kept (h : RequestInv A dir p) (hstep : requestStep A dir p c = some q)
    {page : ℕ} (hpage : page < 1048576) (hhas : HasTable p.state.mem dir page) :
    pdeOf q.state.mem dir page = pdeOf p.state.mem dir page := by
  rw [h.pdeOf_step hstep hpage, if_neg]
  intro ⟨hregion, hnone⟩
  rw [HasTable, pdeOf_virt, ← hregion] at hnone
  exact hnone hhas

theorem RequestInv.pteOf_step (h : RequestInv A dir p) (hstep : requestStep A dir p c = some q)
    {page : ℕ} (hpage : page < 1048576) :
    pteOf q.state.mem dir page =
      if page = c.virt / 4096 then 4096 * (c.phys / 4096) + c.attr
      else pteOf p.state.mem dir page := by
  obtain ⟨hphys, hvirt, hattr, -, hmaps, rfl⟩ := requestStep_eq hstep
  have hpte := (h.tables.vmmMapPage (h.owned.newTable _) hphys hvirt hattr).2 page hpage
  dsimp only
  rw [hpte]
  exact if_congr (and_iff_left hmaps) rfl rfl

theorem RequestInv.granted_self (h : RequestInv A dir p) (hstep : requestStep A dir p c = some q) :
    granted q.state.mem dir (c.virt / 4096) =
      if HasTable p.state.mem dir (c.virt / 4096) then
        rights (pdeOf p.state.mem dir (c.virt / 4096)) &&& rights c.attr
      else rights c.attr := by
  obtain ⟨-, hvirt, -⟩ := requestStep_eq hstep
  have hpage : c.virt / 4096 < 1048576 := by omega
  rw [granted, h.pteOf_step hstep hpage, if_pos rfl, rights_add (Nat.mul_mod_right 4096 _)]
  by_cases hhas : HasTable p.state.mem dir (c.virt / 4096)
  · rw [if_pos hhas, h.pdeOf_kept hstep hpage hhas]
  · have hregion : c.virt / 4096 / 1024 = c.virt / 4194304 := by omega
    rw [if_neg hhas, h.pdeOf_step hstep hpage, if_pos ⟨hregion, hhas⟩,
      rights_add (A.aligned p.state.pmm)]
    exact Nat.and_self _

theorem RequestInv.granted_other (h : RequestInv A dir p) (hstep : requestStep A dir p c = some q)
    {page : ℕ} (hpage : page < 1048576) (hne : page ≠ c.virt / 4096)
    (hhas : HasTable p.state.mem dir page) :
    granted q.state.mem dir page = granted p.state.mem dir page := by
  rw [granted, h.pdeOf_kept hstep hpage hhas, h.pteOf_step hstep hpage, if_neg hne, granted]

theorem RequestInv.step (h : RequestInv A dir p) (hstep : requestStep A dir p c = some q) :
    RequestInv A dir q := by
  obtain ⟨hphys, hvirt, hattr, hodd, hmaps, hq⟩ := requestStep_eq hstep
  have htables := (h.tables.vmmMapPage (h.owned.newTable (c.virt / 4096)) hphys hvirt hattr).1
  have howned := h.owned.vmmMapPage h.tables hphys hvirt hattr
  refine ⟨by rw [hq]; exact htables, by rw [hq]; exact howned, fun page hpage attr hlast => ?_⟩
  by_cases hself : page = c.virt / 4096
  · subst hself
    have hattr' : c.attr = attr := by
      rw [hq] at hlast
      dsimp only at hlast
      rw [Function.update_self] at hlast
      exact Option.some.inj hlast
    refine ⟨?_, ?_⟩
    · by_cases hhas : HasTable p.state.mem dir (c.virt / 4096)
      · rw [HasTable, h.pdeOf_kept hstep hpage hhas]
        exact hhas
      · have hregion : c.virt / 4096 / 1024 = c.virt / 4194304 := by omega
        have haligned := A.aligned p.state.pmm
        rw [HasTable, h.pdeOf_step hstep hpage, if_pos ⟨hregion, hhas⟩]
        omega
    · rw [h.pteOf_step hstep hpage, if_pos rfl, rights_add (Nat.mul_mod_right 4096 _), hattr']
  · have hlast' : p.attr page = some attr := by
      rw [hq] at hlast
      exact (Function.update_of_ne hself _ _).symm.trans hlast
    obtain ⟨hhas, hpte⟩ := h.mapped page hpage attr hlast'
    refine ⟨?_, ?_⟩
    · rw [HasTable, h.pdeOf_kept hstep hpage hhas]
      exact hhas
    · rw [h.pteOf_step hstep hpage, if_neg hself]
      exact hpte

theorem RequestInv.asRequested_iff (h : RequestInv A dir p) (hall : AsRequested dir p)
    (hstep : requestStep A dir p c = some q) : AsRequested dir q ↔ Covered dir p c := by
  obtain ⟨-, hvirt, -, -, -, hq⟩ := requestStep_eq hstep
  have hpage : c.virt / 4096 < 1048576 := by omega
  have hself := h.granted_self hstep
  have hlast : q.attr (c.virt / 4096) = some c.attr := by
    rw [hq]
    exact Function.update_self _ _ _
  constructor
  · intro hreq hhas
    rw [if_pos hhas, hreq _ hpage _ hlast] at hself
    exact hself.symm
  · intro hcovered page hpl attr hattr
    by_cases heq : page = c.virt / 4096
    · subst heq
      rw [hlast] at hattr
      cases hattr
      rw [hself]
      by_cases hhas : HasTable p.state.mem dir (c.virt / 4096)
      · rw [if_pos hhas]
        exact hcovered hhas
      · rw [if_neg hhas]
    · have hattr' : p.attr page = some attr := by
        rw [hq] at hattr
        exact (Function.update_of_ne heq _ _).symm.trans hattr
      rw [h.granted_other hstep hpl heq (h.mapped page hpl attr hattr').1]
      exact hall page hpl attr hattr'

theorem requestInv_empty {s : State σ} (haligned : dir % 4096 = 0) (hdir : A.inUse s.pmm dir)
    (hempty : ∀ i < 1024, entry s.mem dir i % 2 = 0) : RequestInv A dir ⟨s, fun _ => none⟩ := by
  have hnone : ∀ i < 1024, ¬ entry s.mem dir i % 2 = 1 := by
    intro i hi hodd
    have heven := hempty i hi
    omega
  refine ⟨⟨haligned, ?_, ?_⟩, ⟨hdir, ?_⟩, ?_⟩
  · exact fun i hi hodd => absurd hodd (hnone i hi)
  · exact fun i hi _ _ _ hodd => absurd hodd (hnone i hi)
  · exact fun i hi hodd => absurd hodd (hnone i hi)
  · exact fun _ _ _ hlast => nomatch hlast

theorem RequestInv.always_iff {p : Requested σ} (h : RequestInv A dir p) (hall : AsRequested dir p)
    (calls : List MapCall) :
    Always (requestStep A dir) (AsRequested dir) p calls ↔
      Steps (requestStep A dir) (Covered dir) p calls := by
  apply always_iff_steps (I := RequestInv A dir)
  · exact fun _ _ _ h _ hstep _ => h.step hstep
  · exact fun _ _ _ h hall hstep => h.asRequested_iff hall hstep
  · exact h
  · exact hall

/-- On a directory that starts empty each page has the rights of the last call for it, in every
state of a run, exactly when each call asks for no right that a present directory entry is
without. -/
theorem rights_as_requested_iff (A : FrameSource σ) {dir : ℕ} {s : State σ}
    (haligned : dir % 4096 = 0) (hdir : A.inUse s.pmm dir)
    (hempty : ∀ i < 1024, entry s.mem dir i % 2 = 0) (calls : List MapCall) :
    Always (requestStep A dir) (AsRequested dir) ⟨s, fun _ => none⟩ calls ↔
      Steps (requestStep A dir) (Covered dir) ⟨s, fun _ => none⟩ calls :=
  (requestInv_empty haligned hdir hempty).always_iff (fun _ _ _ hlast => nomatch hlast) calls

end Rights

def emptyDirectory : Requested Frames := ⟨lentSmall.state, fun _ => none⟩

theorem emptyDirectory_inUse : pmmFrames.inUse emptyDirectory.state.pmm 0x1000 :=
  lentSmall_inv.owned.dir_inUse

theorem emptyDirectory_entry {i : ℕ} (hi : i < 1024) :
    entry emptyDirectory.state.mem 0x1000 i % 2 = 0 := by
  have hzero := freshDirectory_entry ⟨fun _ => 0, smallFrames, 0, 0⟩ hi
  rw [smallFrames_dir] at hzero
  exact congrArg (· % 2) hzero

theorem emptyDirectory_covered_iff {attr attr' : ℕ} (hattr : attr < 0x1000) (hodd : attr % 2 = 1)
    (hattr' : attr' < 0x1000) (hodd' : attr' % 2 = 1) :
    Steps (requestStep pmmFrames 0x1000) (Covered 0x1000) emptyDirectory
        [⟨0x2000, 0x5000, attr⟩, ⟨0x3000, 0x6000, attr'⟩] ↔
      rights attr &&& rights attr' = rights attr' := by
  have hinv : RequestInv pmmFrames 0x1000 emptyDirectory :=
    requestInv_empty (by decide) emptyDirectory_inUse fun i hi => emptyDirectory_entry hi
  have hnone : ∀ page < 1048576, ¬ HasTable emptyDirectory.state.mem 0x1000 page := by
    intro page hpage hhas
    have heven := emptyDirectory_entry (i := page / 1024) (by omega)
    rw [HasTable, pdeOf, heven] at hhas
    exact absurd hhas (by decide)
  have htable : (pmmFrames.allocBlock emptyDirectory.state.pmm).1 = 0x2000 := by decide +kernel
  have h2 : 0x2000 < 4294967296 := by decide
  have h3 : 0x3000 < 4294967296 := by decide
  have h5 : 0x5000 < 4294967296 := by decide
  have h6 : 0x6000 < 4294967296 := by decide
  have hpage : 0x5000 / 4096 = 5 := by decide
  have hpage' : 0x6000 / 4096 = 6 := by decide
  obtain ⟨u, hu⟩ : ∃ u,
      requestStep pmmFrames 0x1000 emptyDirectory ⟨0x2000, 0x5000, attr⟩ = some u := by
    refine ⟨_, if_pos ⟨h2, h5, hattr, ?_, Or.inr ⟨?_, hodd⟩⟩⟩
    · rw [and_present]
      exact hodd
    · rw [htable]
      decide
  have hpde : pdeOf u.state.mem 0x1000 6 = 0x2000 + attr := by
    have hnone5 := hnone 5 (by decide)
    rw [hinv.pdeOf_step hu (by decide)]
    dsimp only
    rw [hpage, if_pos ⟨by decide, hnone5⟩, htable]
  have hhas : HasTable u.state.mem 0x1000 6 := by
    rw [HasTable, hpde]
    omega
  obtain ⟨v, hv⟩ : ∃ v, requestStep pmmFrames 0x1000 u ⟨0x3000, 0x6000, attr'⟩ = some v := by
    refine ⟨_, if_pos ⟨h3, h6, hattr', ?_, Or.inl ?_⟩⟩
    · rw [and_present]
      exact hodd'
    · dsimp only
      rwa [hpage']
  have hfirst : Covered 0x1000 emptyDirectory ⟨0x2000, 0x5000, attr⟩ := by
    intro hhas
    dsimp only at hhas
    rw [hpage] at hhas
    exact absurd hhas (hnone 5 (by decide))
  have hcovered : Covered 0x1000 u ⟨0x3000, 0x6000, attr'⟩ ↔
      rights attr &&& rights attr' = rights attr' := by
    unfold Covered
    dsimp only
    rw [hpage', imp_iff_right hhas, hpde, rights_add (by decide)]
  rw [← hcovered]
  constructor
  · intro hsteps
    exact ((hsteps u hu).2 v hv).1
  · intro hsecond u' hu'
    refine ⟨hfirst, fun v' _ => ⟨?_, trivial⟩⟩
    rwa [← Option.some.inj (hu.symm.trans hu')]

/-- A page of the kernel may follow one of the user. -/
theorem rights_as_requested_user_first :
    Always (requestStep pmmFrames 0x1000) (AsRequested 0x1000) emptyDirectory
      [⟨0x2000, 0x5000, 7⟩, ⟨0x3000, 0x6000, 3⟩] :=
  (rights_as_requested_iff pmmFrames (by decide) emptyDirectory_inUse
    (fun _ hi => emptyDirectory_entry hi) _).mpr
    ((emptyDirectory_covered_iff (by decide) (by decide) (by decide) (by decide)).mpr (by decide))

/-- After a page of the kernel a page of the user cannot be accessed by the user. -/
theorem rights_not_as_requested :
    ¬ Always (requestStep pmmFrames 0x1000) (AsRequested 0x1000) emptyDirectory
      [⟨0x2000, 0x5000, 3⟩, ⟨0x3000, 0x6000, 7⟩] := by
  intro halways
  have hinv : RequestInv pmmFrames 0x1000 emptyDirectory :=
    requestInv_empty (by decide) emptyDirectory_inUse fun i hi => emptyDirectory_entry hi
  have hsteps := (hinv.always_iff (fun _ _ _ hlast => nomatch hlast) _).mp halways
  have hcovered := (emptyDirectory_covered_iff (by decide) (by decide) (by decide) (by decide)).mp
    hsteps
  exact absurd hcovered (by decide)

end Unos.Vmm
