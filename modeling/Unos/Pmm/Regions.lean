import Unos.Pmm.Effects

namespace Unos.Pmm

/-- All bytes of the frame are in the region. -/
def Within (base size f : ℕ) : Prop := ∀ x, x / 4096 = f → base ≤ x ∧ x < base + size

def Overlaps (base size f : ℕ) : Prop := ∃ x, x / 4096 = f ∧ base ≤ x ∧ x < base + size

/-- `pmm_init_region` frees only frames inside the region and keeps frame 0. -/
structure InitSafe (s : State) (base size : ℕ) : Prop where
  cleared : ∀ f, s.used f = true → (pmmInitRegion s base size).used f = false → Within base size f
  zero : (pmmInitRegion s base size).used 0 = true
  rest : ∀ f, f ≠ 0 → ¬ Overlaps base size f → (pmmInitRegion s base size).used f = s.used f

/-- `pmm_deinit_region` reserves every frame that the region reaches into. -/
structure DeinitSafe (s : State) (base size : ℕ) : Prop where
  reserved : ∀ f, Overlaps base size f → (pmmDeinitRegion s base size).used f = true
  rest : ∀ f, ¬ Overlaps base size f → (pmmDeinitRegion s base size).used f = s.used f

def StartFits (s : State) (base size : ℕ) : Prop :=
  4096 ∣ base ∨ size < 4096 ∨ base < 4096 ∨ s.used (base / 4096) = false

def EndFits (s : State) (base size : ℕ) : Prop :=
  ∀ f, base / 4096 + size / 4096 ≤ f → f ≤ (base + size - 1) / 4096 → 0 < size → s.used f = true

section Rounding

variable {base size f : ℕ}

theorem within_iff : Within base size f ↔ base ≤ f * 4096 ∧ f * 4096 + 4096 ≤ base + size := by
  constructor
  · intro h
    obtain ⟨hfirst, -⟩ := h (f * 4096) (by omega)
    obtain ⟨-, hlast⟩ := h (f * 4096 + 4095) (by omega)
    exact ⟨hfirst, hlast⟩
  · intro h x hx
    omega

theorem overlaps_iff :
    Overlaps base size f ↔ 0 < size ∧ base / 4096 ≤ f ∧ f ≤ (base + size - 1) / 4096 := by
  constructor
  · rintro ⟨x, rfl, h1, h2⟩
    omega
  · rintro ⟨hsize, h1, h2⟩
    -- the first byte of both
    refine ⟨max base (f * 4096), ?_, le_max_left _ _, ?_⟩
    · rcases le_total base (f * 4096) with h | h
      · rw [max_eq_right h]
        omega
      · rw [max_eq_left h]
        omega
    · exact max_lt (by omega) (by omega)

theorem regionFrames.overlaps (h : regionFrames base size f) : Overlaps base size f := by
  obtain ⟨h1, h2⟩ := h
  exact overlaps_iff.mpr ⟨by omega, h1, by omega⟩

theorem regionFrames.within_iff (h : regionFrames base size f) :
    Within base size f ↔ 4096 ∣ base ∨ f ≠ base / 4096 := by
  obtain ⟨h1, h2⟩ := h
  rw [Pmm.within_iff]
  omega

theorem overlaps_of_not_regionFrames (h : ¬ regionFrames base size f) : Overlaps base size f ↔
    base / 4096 + size / 4096 ≤ f ∧ f ≤ (base + size - 1) / 4096 ∧ 0 < size := by
  rw [regionFrames, not_and, not_lt] at h
  rw [overlaps_iff]
  constructor
  · exact fun ⟨h1, h2, h3⟩ => ⟨h h2, h3, h1⟩
  · exact fun ⟨h1, h2, h3⟩ => ⟨h3, by omega, h2⟩

theorem initSafe_iff (s : State) (base size : ℕ) :
    InitSafe s base size ↔ StartFits s base size := by
  have hused := pmmInitRegion_used s base size
  constructor
  · intro h
    rw [StartFits]
    by_contra hno
    push Not at hno
    obtain ⟨hbase, hsize, hzero, hset⟩ := hno
    have hregion : regionFrames base size (base / 4096) := ⟨le_rfl, by omega⟩
    have hwithin := h.cleared (base / 4096) (by simpa using hset) (by
      rw [hused, decide_eq_false (show base / 4096 ≠ 0 by omega), decide_eq_true hregion]
      rfl)
    exact (hregion.within_iff.mp hwithin).elim hbase fun hne => hne rfl
  · intro h
    refine ⟨fun f hset hclear => ?_, ?_, fun f hf hdisjoint => ?_⟩
    · rw [hused, hset, Bool.and_true, Bool.or_eq_false_iff, decide_eq_false_iff_not,
        Bool.not_eq_false', decide_eq_true_eq] at hclear
      obtain ⟨hf0, hregion⟩ := hclear
      refine hregion.within_iff.mpr ?_
      obtain ⟨h1, h2⟩ := hregion
      rcases h with hbase | hsize | hzero | hfree
      · exact Or.inl hbase
      · omega
      · omega
      · refine Or.inr fun hf => ?_
        rw [← hf, hset] at hfree
        exact Bool.noConfusion hfree
    · rw [hused, decide_eq_true rfl, Bool.true_or]
    · have hregion : ¬ regionFrames base size f := fun hr => hdisjoint hr.overlaps
      rw [hused, decide_eq_false hf, decide_eq_false hregion]
      rfl

theorem deinitSafe_iff (s : State) (base size : ℕ) :
    DeinitSafe s base size ↔ EndFits s base size := by
  have hused := pmmDeinitRegion_used s base size
  constructor
  · intro h f h1 h2 hsize
    have hregion : ¬ regionFrames base size f := fun hr => absurd hr.2 h1.not_gt
    have hset := h.reserved f ((overlaps_of_not_regionFrames hregion).mpr ⟨h1, h2, hsize⟩)
    rwa [hused, decide_eq_false hregion, Bool.false_or] at hset
  · intro h
    refine ⟨fun f hover => ?_, fun f hdisjoint => ?_⟩
    · by_cases hregion : regionFrames base size f
      · rw [hused, decide_eq_true hregion, Bool.true_or]
      · obtain ⟨h1, h2, hsize⟩ := (overlaps_of_not_regionFrames hregion).mp hover
        rw [hused, h f h1 h2 hsize, Bool.or_true]
    · have hregion : ¬ regionFrames base size f := fun hr => hdisjoint hr.overlaps
      rw [hused, decide_eq_false hregion, Bool.false_or]

end Rounding

/-- Both calls round in the safe direction exactly when the first frame of the region and the frames
at its end are in the right state before. -/
theorem regions_safe_iff (s : State) (base size : ℕ) :
    InitSafe s base size ∧ DeinitSafe s base size ↔ StartFits s base size ∧ EndFits s base size :=
  and_congr (initSafe_iff s base size) (deinitSafe_iff s base size)

/-- Two frames' worth of bytes from the middle of frame 1 on: with every frame in use frame 1 is
freed, and with every frame but frame 0 free frame 3 is not reserved. -/
theorem regions_not_safe :
    ¬ InitSafe (initPmm 131072 (bootState fun _ => 0)) 6144 8192 ∧
      ¬ DeinitSafe (pmmInitRegion (initPmm 131072 (bootState fun _ => 0)) 0 131072) 6144 8192 := by
  refine ⟨fun h => ?_, fun h => ?_⟩
  · have hwithin := h.cleared 1 (by decide +kernel) (by decide +kernel) 4096 (by decide)
    exact absurd hwithin.1 (by decide)
  · have hset := h.reserved 3 ⟨12288, by decide, by decide, by decide⟩
    revert hset
    decide +kernel

end Unos.Pmm
