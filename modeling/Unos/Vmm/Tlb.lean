import Unos.Vmm.Rights

namespace Unos.Vmm

open Unos.Words Unos.ByteMemory Unos.Runs

structure TlbEntry where
  frame : ℕ
  rights : ℕ
  deriving DecidableEq

structure Cached (σ : Type) where
  state : State σ
  tlb : ℕ → Option TlbEntry

/-- The translation of a page by the tables. -/
def translation (m : Mem) (dir page : ℕ) : Option TlbEntry :=
  (walk m dir page).map fun frame => ⟨frame, granted m dir page⟩

inductive TlbEvent
  | load (page : ℕ)
  | map (c : MapCall)
  | free (page : ℕ)
  | flushTlbEntry (virt : ℕ)
  | switchPageDirectory

section Tlb

variable {σ : Type} (A : FrameSource σ) (freeBlock : σ → ℕ → σ) (dir : ℕ)

def tlbStep (s : Cached σ) : TlbEvent → Option (Cached σ)
  | .load page =>
    if page < 1048576 ∧ s.tlb page = none then
      (translation s.state.mem dir page).map fun entry =>
        { s with tlb := Function.update s.tlb page (some entry) }
    else none
  | .map c =>
    if c.phys < 4294967296 ∧ c.virt < 4294967296 ∧ c.attr < 0x1000 then
      some { s with state := vmmMapPage A s.state dir c.phys c.virt c.attr }
    else none
  | .free page =>
    if page < 1048576 ∧ HasTable s.state.mem dir page then
      some { s with state := vmmFreePage freeBlock s.state (pteAddress s.state.mem dir page) }
    else none
  | .flushTlbEntry virt => some { s with tlb := Function.update s.tlb (virt / 4096) none }
  | .switchPageDirectory => some { s with tlb := fun _ => none }

def Coherent (s : Cached σ) : Prop :=
  ∀ page < 1048576, ∀ entry, s.tlb page = some entry →
    translation s.state.mem dir page = some entry

def KeepsCached (s : Cached σ) : TlbEvent → Prop
  | .map c => ∀ entry, s.tlb (c.virt / 4096) = some entry →
      entry.frame = c.phys / 4096 ∧ c.attr % 2 = 1 ∧
        entry.rights = rights (pdeOf s.state.mem dir (c.virt / 4096)) &&& rights c.attr
  | .free page => s.tlb page = none
  | _ => True

def TakesNewTable (s : Cached σ) : TlbEvent → Prop
  | .map c => NewTable A s.state dir (c.virt / 4096)
  | _ => True

variable {A freeBlock dir} {s t : Cached σ}

theorem translation_congr {m m' : Mem} {page : ℕ} (hpde : pdeOf m' dir page = pdeOf m dir page)
    (hpte : pteOf m' dir page = pteOf m dir page) :
    translation m' dir page = translation m dir page := by
  rw [translation, translation, walk_congr hpte, granted, granted, hpde, hpte]

theorem translation_of_even {m : Mem} {page : ℕ} (h : ¬ pteOf m dir page % 2 = 1) :
    translation m dir page = none := by
  rw [translation, walk, if_neg h, Option.map_none]

theorem hasTable_of_translation {m : Mem} {page : ℕ} {entry : TlbEntry}
    (h : translation m dir page = some entry) : HasTable m dir page := by
  by_contra hmissing
  have heven : ¬ pteOf m dir page % 2 = 1 := by
    rw [pteOf_of_missing hmissing]
    decide
  rw [translation_of_even heven] at h
  cases h

section Map

variable {p : State σ} {phys virt attr : ℕ} (ht : Tables p.mem dir)
  (hnew : NewTable A p dir (virt / 4096)) (hphys : phys < 4294967296) (hvirt : virt < 4294967296)
  (hattr : attr < 0x1000)

include ht hnew hphys hvirt hattr

theorem pdeOf_vmmMapPage {page : ℕ} (hpage : page < 1048576) (hhas : HasTable p.mem dir page) :
    pdeOf (vmmMapPage A p dir phys virt attr).mem dir page = pdeOf p.mem dir page := by
  rw [pdeOf, ht.entry_vmmMapPage hnew hphys hvirt hattr (by omega), if_neg, pdeOf]
  rintro ⟨hregion, hnone, -⟩
  rw [HasTable, pdeOf_virt, ← hregion] at hnone
  exact hnone hhas

theorem translation_vmmMapPage (hhas : HasTable p.mem dir (virt / 4096)) :
    translation (vmmMapPage A p dir phys virt attr).mem dir (virt / 4096) =
      if attr % 2 = 1 then
        some ⟨phys / 4096, rights (pdeOf p.mem dir (virt / 4096)) &&& rights attr⟩
      else none := by
  have hpage : virt / 4096 < 1048576 := by omega
  have hframe : (4096 * (phys / 4096) + attr) / 4096 = phys / 4096 := by omega
  have hodd : (4096 * (phys / 4096) + attr) % 2 = attr % 2 := by omega
  have hpte := (ht.vmmMapPage hnew hphys hvirt hattr).2 _ hpage
  rw [if_pos ⟨rfl, Or.inl hhas⟩] at hpte
  rw [translation, walk, granted, pdeOf_vmmMapPage ht hnew hphys hvirt hattr hpage hhas, hpte,
    hframe, hodd, rights_add (Nat.mul_mod_right 4096 _)]
  split_ifs <;> rfl

theorem translation_vmmMapPage_of_ne {page : ℕ} (hpage : page < 1048576)
    (hhas : HasTable p.mem dir page) (hne : page ≠ virt / 4096) :
    translation (vmmMapPage A p dir phys virt attr).mem dir page = translation p.mem dir page := by
  refine translation_congr (pdeOf_vmmMapPage ht hnew hphys hvirt hattr hpage hhas) ?_
  rw [(ht.vmmMapPage hnew hphys hvirt hattr).2 page hpage, if_neg fun hc => hne hc.1]

end Map

theorem tlbStep_tables (h : Tables s.state.mem dir) {e : TlbEvent} (hnew : TakesNewTable A dir s e)
    (hstep : tlbStep A freeBlock dir s e = some t) : Tables t.state.mem dir := by
  cases e with
  | load page =>
    rw [tlbStep, Option.ite_none_right_eq_some, Option.map_eq_some_iff] at hstep
    obtain ⟨-, frame, -, rfl⟩ := hstep
    exact h
  | map c =>
    rw [tlbStep, Option.ite_none_right_eq_some] at hstep
    obtain ⟨⟨hphys, hvirt, hattr⟩, ht⟩ := hstep
    rw [← Option.some.inj ht]
    exact (h.vmmMapPage hnew hphys hvirt hattr).1
  | free page =>
    rw [tlbStep, Option.ite_none_right_eq_some] at hstep
    obtain ⟨⟨hpage, hhas⟩, ht⟩ := hstep
    rw [← Option.some.inj ht]
    exact (h.vmmFreePage freeBlock hpage hhas).1
  | flushTlbEntry virt =>
    rw [← Option.some.inj hstep]
    exact h
  | switchPageDirectory =>
    rw [← Option.some.inj hstep]
    exact h

theorem Coherent.hasTable (h : Coherent dir s) {page : ℕ} {entry : TlbEntry}
    (hpage : page < 1048576) (hcached : s.tlb page = some entry) :
    HasTable s.state.mem dir page :=
  hasTable_of_translation (h page hpage entry hcached)

theorem Coherent.map_iff (h : Coherent dir s) (ht : Tables s.state.mem dir) {c : MapCall}
    (hnew : NewTable A s.state dir (c.virt / 4096)) (hphys : c.phys < 4294967296)
    (hvirt : c.virt < 4294967296) (hattr : c.attr < 0x1000) :
    Coherent dir { s with state := vmmMapPage A s.state dir c.phys c.virt c.attr } ↔
      KeepsCached dir s (.map c) := by
  have hpage : c.virt / 4096 < 1048576 := by omega
  constructor
  · intro hafter entry hcached
    have hself := hafter _ hpage entry hcached
    rw [translation_vmmMapPage ht hnew hphys hvirt hattr (h.hasTable hpage hcached),
      Option.ite_none_right_eq_some] at hself
    obtain ⟨hodd, hentry⟩ := hself
    rw [← Option.some.inj hentry]
    exact ⟨rfl, hodd, rfl⟩
  · intro hkeeps page hp entry hcached
    have hhas := h.hasTable hp hcached
    by_cases heq : page = c.virt / 4096
    · subst heq
      obtain ⟨hframe, hodd, hrights⟩ := hkeeps entry hcached
      rw [translation_vmmMapPage ht hnew hphys hvirt hattr hhas, if_pos hodd, ← hframe, ← hrights]
    · rw [translation_vmmMapPage_of_ne ht hnew hphys hvirt hattr hp hhas heq]
      exact h page hp entry hcached

theorem Coherent.free_iff (h : Coherent dir s) (ht : Tables s.state.mem dir) {page : ℕ}
    (hpage : page < 1048576) (hhas : HasTable s.state.mem dir page) :
    Coherent dir { s with
      state := vmmFreePage freeBlock s.state (pteAddress s.state.mem dir page) } ↔
      s.tlb page = none := by
  obtain ⟨-, hdir, hpte⟩ := ht.vmmFreePage freeBlock hpage hhas
  constructor
  · intro hafter
    by_contra hcached
    obtain ⟨entry, hcached⟩ := Option.ne_none_iff_exists'.mp hcached
    have heven : ¬ pteOf (vmmFreePage freeBlock s.state (pteAddress s.state.mem dir page)).mem
        dir page % 2 = 1 := by
      rw [hpte page hpage, if_pos rfl]
      omega
    have hself := hafter page hpage entry hcached
    rw [translation_of_even heven] at hself
    cases hself
  · intro hnone p hp entry hcached
    have hne : p ≠ page := by
      rintro rfl
      exact Option.some_ne_none entry (hcached.symm.trans hnone)
    have hpde : pdeOf (vmmFreePage freeBlock s.state (pteAddress s.state.mem dir page)).mem dir p =
        pdeOf s.state.mem dir p := hdir _ (by omega)
    have hsame : pteOf (vmmFreePage freeBlock s.state (pteAddress s.state.mem dir page)).mem dir p =
        pteOf s.state.mem dir p := by rw [hpte p hp, if_neg hne]
    rw [translation_congr hpde hsame]
    exact h p hp entry hcached

theorem tlbStep_coherent_iff (h : Coherent dir s) (ht : Tables s.state.mem dir) {e : TlbEvent}
    (hnew : TakesNewTable A dir s e) (hstep : tlbStep A freeBlock dir s e = some t) :
    Coherent dir t ↔ KeepsCached dir s e := by
  cases e with
  | load page =>
    rw [tlbStep, Option.ite_none_right_eq_some, Option.map_eq_some_iff] at hstep
    obtain ⟨-, entry, hwalk, rfl⟩ := hstep
    refine iff_of_true (fun p hp f hcached => ?_) trivial
    by_cases heq : p = page
    · subst heq
      have hf : f = entry := by simpa using hcached.symm
      rw [hf]
      exact hwalk
    · exact h p hp f (by simpa [heq] using hcached)
  | map c =>
    rw [tlbStep, Option.ite_none_right_eq_some] at hstep
    obtain ⟨⟨hphys, hvirt, hattr⟩, ht'⟩ := hstep
    rw [← Option.some.inj ht']
    exact h.map_iff ht hnew hphys hvirt hattr
  | free page =>
    rw [tlbStep, Option.ite_none_right_eq_some] at hstep
    obtain ⟨⟨hpage, hhas⟩, ht'⟩ := hstep
    rw [← Option.some.inj ht']
    exact h.free_iff ht hpage hhas
  | flushTlbEntry virt =>
    rw [← Option.some.inj hstep]
    refine iff_of_true (fun p hp f hcached => ?_) trivial
    by_cases heq : p = virt / 4096
    · simp [heq] at hcached
    · exact h p hp f (by simpa [heq] using hcached)
  | switchPageDirectory =>
    rw [← Option.some.inj hstep]
    exact iff_of_true (fun p _ f hcached => absurd hcached.symm (Option.some_ne_none f)) trivial

end Tlb

theorem smallPaging_load :
    tlbStep pmmFrames freeFrame smallPaging.kpageDir ⟨smallPaging, fun _ => none⟩ (.load 5) =
      some ⟨smallPaging, Function.update (fun _ => none) 5 (some ⟨5, 6⟩)⟩ := by
  have hload : translation smallPaging.mem smallPaging.kpageDir 5 = some ⟨5, 6⟩ := by
    decide +kernel
  rw [tlbStep, if_pos ⟨by decide, rfl⟩, hload, Option.map_some]

end Unos.Vmm
