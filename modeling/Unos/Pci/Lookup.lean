import Unos.Pci.Model

namespace Unos.Pci

open Unos.Words

variable {cs : ConfigSpace} {vendorId deviceId bus device function fuel : ℕ} {r : PciDev}
  {scanBus : ℕ → Option PciDev}

def word (cs : ConfigSpace) (bus device function reg : ℕ) : ℕ :=
  (cs bus device function reg).toNat + 2 ^ 8 * (cs bus device function (reg + 1)).toNat

def Present (cs : ConfigSpace) (bus device function : ℕ) : Prop :=
  bus < 256 ∧ device < 32 ∧ function < 8 ∧ word cs bus device function 0x00 ≠ 0xFFFF

def HasIds (cs : ConfigSpace) (vendorId deviceId bus device function : ℕ) : Prop :=
  word cs bus device function 0x00 = vendorId ∧ word cs bus device function 0x02 = deviceId

def IsBridge (cs : ConfigSpace) (bus device function : ℕ) : Prop :=
  (cs bus device function 0x0B).toNat = 0x06 ∧ (cs bus device function 0x0A).toNat = 0x04

def secondaryBus (cs : ConfigSpace) (bus device function : ℕ) : ℕ :=
  (cs bus device function 0x19).toNat

inductive BusReachable (cs : ConfigSpace) : ℕ → Prop
  | root : BusReachable cs 0
  | bridge {bus device function : ℕ} : BusReachable cs bus → Present cs bus device function →
      IsBridge cs bus device function → BusReachable cs (secondaryBus cs bus device function)

def Standard (cs : ConfigSpace) : Prop :=
  ∀ bus device function, Present cs bus device function → function ≠ 0 →
    Present cs bus device 0 ∧ 0x80 ≤ (cs bus device 0 0x0E).toNat

/-- No two bridges have the same secondary bus, and no bus is behind itself. -/
structure BridgeTree (cs : ConfigSpace) : Prop where
  distinct : ∀ b d f b' d' f', BusReachable cs b → Present cs b d f → IsBridge cs b d f →
    BusReachable cs b' → Present cs b' d' f' → IsBridge cs b' d' f' →
    secondaryBus cs b d f = secondaryBus cs b' d' f' → b = b' ∧ d = d' ∧ f = f'
  acyclic : ∃ depth : ℕ → ℕ, ∀ b d f, BusReachable cs b → Present cs b d f → IsBridge cs b d f →
    depth b < depth (secondaryBus cs b d f)

/-- The lookup is right: what it returns is a function with the ids, and it returns
`dev_zero` only if there is none on a reachable bus. -/
def Finds (cs : ConfigSpace) (vendorId deviceId : ℕ) (r : PciDev) : Prop :=
  (r.bits ≠ 0 → ∃ bus device function, Present cs bus device function ∧
    HasIds cs vendorId deviceId bus device function ∧ r = pciDev bus device function) ∧
  (r.bits = 0 → ∀ bus device function, BusReachable cs bus → Present cs bus device function →
    ¬ HasIds cs vendorId deviceId bus device function)

/-- Bus 0, and the buses numbered like functions of device 0 up to the first gap. The
function number has three bits, so that after 7 the functions come round again. -/
def HostBus (cs : ConfigSpace) (bus : ℕ) : Prop :=
  bus < functionPerDevice ∧ ∀ f, 0 < f → f ≤ bus → word cs 0 0 (f % 8) 0x00 ≠ 0xFFFF

structure Shown (cs : ConfigSpace) (vendorId deviceId bus device function : ℕ) : Prop where
  device_lt : device < 32
  function_lt : function < 8
  device_present : word cs bus device 0 0x00 ≠ 0xFFFF
  multifunction : function = 0 ∨ (cs bus device 0 0x0E).toNat ≠ 0
  hasIds : HasIds cs vendorId deviceId bus device function
  ne_zero : bus ≠ 0 ∨ device ≠ 0 ∨ function ≠ 0

theorem pciDev_bits (hb : bus < 256) (hd : device < 32) (hf : function < 8) :
    (pciDev bus device function).bits = 2 ^ 8 * function + 2 ^ 11 * device + 2 ^ 16 * bus := by
  simp only [pciDev, PciDev.bits]
  omega

theorem pciDev_bits_eq_zero (hb : bus < 256) (hd : device < 32) (hf : function < 8) :
    (pciDev bus device function).bits = 0 ↔ bus = 0 ∧ device = 0 ∧ function = 0 := by
  rw [pciDev_bits hb hd hf]
  omega

theorem pciDev_mod (bus device function : ℕ) :
    pciDev bus device (function % 8) = pciDev bus device function := by
  simp [pciDev]

theorem configData_eq {n k : ℕ} (hb : bus < 256) (hd : device < 32) (hf : function < 8)
    (hn : n < 64) :
    configData cs { pciDev bus device function with fieldNum := n, enable := 1 }.bits k =
      (cs bus device function (4 * n + k)).toNat := by
  have hbits : PciDev.bits { pciDev bus device function with fieldNum := n, enable := 1 } =
      4 * n + 256 * function + 2048 * device + 65536 * bus + 2147483648 := by
    simp only [pciDev, PciDev.bits]
    omega
  rw [configData, hbits]
  congr
  all_goals omega

theorem pciRead_vendorId (hb : bus < 256) (hd : device < 32) (hf : function < 8) :
    pciRead cs (pciDev bus device function) pciVendorId = word cs bus device function 0x00 := by
  have hsize : pciSizeMap pciVendorId = 2 := by decide
  simp only [pciRead, hsize,
    configData_eq hb hd hf (show (pciVendorId &&& 0xFC) / 2 ^ 2 < 64 by decide)]
  rfl

theorem pciRead_deviceId (hb : bus < 256) (hd : device < 32) (hf : function < 8) :
    pciRead cs (pciDev bus device function) pciDeviceId = word cs bus device function 0x02 := by
  have hsize : pciSizeMap pciDeviceId = 2 := by decide
  simp only [pciRead, hsize,
    configData_eq hb hd hf (show (pciDeviceId &&& 0xFC) / 2 ^ 2 < 64 by decide)]
  rfl

theorem pciReachEnd_iff (hb : bus < 256) (hd : device < 32) (hf : function < 8) :
    pciReachEnd cs (pciDev bus device function) = true ↔
      (cs bus device function 0x0E).toNat = 0 := by
  have hsize : pciSizeMap pciHeaderType = 1 := by decide
  have hread : pciRead cs (pciDev bus device function) pciHeaderType =
      (cs bus device function 0x0E).toNat := by
    simp only [pciRead, hsize,
      configData_eq hb hd hf (show (pciHeaderType &&& 0xFC) / 2 ^ 2 < 64 by decide)]
    rfl
  rw [pciReachEnd, hread, decide_eq_true_iff]

/-- A loop ends with the first result that is not `dev_zero`, or with `dev_zero` after all of
its calls returned it. -/
theorem firstFound_cases {scan : ℕ → Option PciDev} {is : List ℕ}
    (h : firstFound scan is = some r) :
    (r.bits ≠ 0 ∧ ∃ i ∈ is, scan i = some r) ∨
      (r = devZero ∧ ∀ i ∈ is, ∃ t, scan i = some t ∧ t.bits = 0) := by
  induction is with
  | nil => exact Or.inr ⟨(Option.some.inj h).symm, fun i hi => absurd hi List.not_mem_nil⟩
  | cons i is ih =>
    rw [firstFound, Option.bind_eq_some_iff] at h
    obtain ⟨t, ht, h⟩ := h
    split at h
    · next hbits =>
      obtain rfl := Option.some.inj h
      exact Or.inl ⟨hbits, i, List.mem_cons_self, ht⟩
    · next hbits =>
      rcases ih h with ⟨hr, j, hj, hscan⟩ | ⟨hr, hall⟩
      · exact Or.inl ⟨hr, j, List.mem_cons_of_mem i hj, hscan⟩
      · refine Or.inr ⟨hr, fun j hj => ?_⟩
        rcases List.mem_cons.mp hj with rfl | hj
        · exact ⟨t, ht, not_not.mp hbits⟩
        · exact hall j hj

theorem pciScanFunction_eq (hb : bus < 256) (hd : device < 32)
    (h : pciScanFunction cs vendorId deviceId (-1) scanBus bus device function = some r) :
    (HasIds cs vendorId deviceId bus device (function % 8) ∧ r = pciDev bus device (function % 8)) ∨
      (¬ HasIds cs vendorId deviceId bus device (function % 8) ∧ r = devZero) := by
  have hf : function % 8 < 8 := Nat.mod_lt _ (by decide)
  rw [pciScanFunction, Option.map_eq_some_iff] at h
  obtain ⟨-, -, h⟩ := h
  rw [← pciDev_mod, pciRead_vendorId hb hd hf, pciRead_deviceId hb hd hf] at h
  by_cases hids : HasIds cs vendorId deviceId bus device (function % 8)
  · rw [if_pos ⟨Or.inl rfl, hids.2, hids.1.symm⟩] at h
    exact Or.inl ⟨hids, h.symm⟩
  · rw [if_neg fun hc => hids ⟨hc.2.2.symm, hc.2.1⟩] at h
    exact Or.inr ⟨hids, h.symm⟩

theorem Shown.bits_ne_zero (h : Shown cs vendorId deviceId bus device function) (hb : bus < 256) :
    (pciDev bus device function).bits ≠ 0 := by
  rw [ne_eq, pciDev_bits_eq_zero hb h.device_lt h.function_lt]
  have := h.ne_zero
  omega

theorem shown_of_scan (hb : bus < 256) (hd : device < 32)
    (hpresent : word cs bus device 0 0x00 ≠ 0xFFFF)
    (hmulti : function = 0 ∨ (cs bus device 0 0x0E).toNat ≠ 0)
    (h : pciScanFunction cs vendorId deviceId (-1) scanBus bus device function = some r)
    (hr : r.bits ≠ 0) : ∃ f, Shown cs vendorId deviceId bus device f ∧ r = pciDev bus device f := by
  have hf : function % 8 < 8 := Nat.mod_lt _ (by decide)
  rcases pciScanFunction_eq hb hd h with ⟨hids, rfl⟩ | ⟨-, rfl⟩
  · rw [ne_eq, pciDev_bits_eq_zero hb hd hf] at hr
    exact ⟨function % 8, ⟨hd, hf, hpresent, by omega, hids, by omega⟩, rfl⟩
  · exact absurd rfl hr

/-- The scan of a function that is shown returns it. -/
theorem Shown.scan (hs : Shown cs vendorId deviceId bus device function) (hb : bus < 256)
    (h : pciScanFunction cs vendorId deviceId (-1) scanBus bus device function = some r) :
    r.bits ≠ 0 := by
  have hmod : function % 8 = function := Nat.mod_eq_of_lt hs.function_lt
  rcases pciScanFunction_eq hb hs.device_lt h with ⟨-, rfl⟩ | ⟨hids, -⟩
  · rw [hmod]
    exact hs.bits_ne_zero hb
  · rw [hmod] at hids
    exact absurd hs.hasIds hids

theorem pciScanDevice_cases (hb : bus < 256) (hd : device < 32)
    (h : pciScanDevice cs vendorId deviceId (-1) scanBus bus device = some r) :
    (∃ f, Shown cs vendorId deviceId bus device f ∧ r = pciDev bus device f) ∨
      (r = devZero ∧ ∀ f, ¬ Shown cs vendorId deviceId bus device f) := by
  simp only [pciScanDevice, pciRead_vendorId hb hd (show 0 < 8 by decide)] at h
  split at h
  · next hnone => exact Or.inr ⟨(Option.some.inj h).symm, fun f hs => hs.device_present hnone⟩
  · next hpresent =>
    rw [Option.bind_eq_some_iff] at h
    obtain ⟨t, ht, h⟩ := h
    split at h
    · next hbits =>
      obtain rfl := Option.some.inj h
      exact Or.inl (shown_of_scan hb hd hpresent (Or.inl rfl) ht hbits)
    · next hbits =>
      have hzero : ¬ Shown cs vendorId deviceId bus device 0 := fun hs => hbits (hs.scan hb ht)
      split at h
      · next hend =>
        rw [pciReachEnd_iff hb hd (by decide)] at hend
        refine Or.inr ⟨(Option.some.inj h).symm, fun f hs => ?_⟩
        rcases hs.multifunction with rfl | hmulti
        · exact hzero hs
        · exact hmulti hend
      · next hend =>
        rw [pciReachEnd_iff hb hd (by decide)] at hend
        rcases firstFound_cases h with ⟨hr, f, -, hscan⟩ | ⟨hr, hall⟩
        · exact Or.inl (shown_of_scan hb hd hpresent (Or.inr hend) hscan hr)
        · refine Or.inr ⟨hr, fun f hs => ?_⟩
          have hf := hs.function_lt
          by_cases hf0 : f = 0
          · exact hzero (hf0 ▸ hs)
          · obtain ⟨u, hu, hbits⟩ := hall f (by simp [functionPerDevice]; omega)
            exact hs.scan hb hu hbits

theorem pciScanBus_cases (hb : bus < 256)
    (h : pciScanBus cs vendorId deviceId (-1) fuel bus = some r) :
    (∃ d f, Shown cs vendorId deviceId bus d f ∧ r = pciDev bus d f) ∨
      (r = devZero ∧ ∀ d f, ¬ Shown cs vendorId deviceId bus d f) := by
  cases fuel with
  | zero => exact nomatch h
  | succ fuel =>
    rw [pciScanBus] at h
    rcases firstFound_cases h with ⟨hr, d, hd, hscan⟩ | ⟨hr, hall⟩
    · rcases pciScanDevice_cases hb (List.mem_range.mp hd) hscan with ⟨f, hs, hrd⟩ | ⟨rfl, -⟩
      · exact Or.inl ⟨d, f, hs, hrd⟩
      · exact absurd rfl hr
    · refine Or.inr ⟨hr, fun d f hs => ?_⟩
      obtain ⟨t, ht, hbits⟩ := hall d (List.mem_range.mpr hs.device_lt)
      rcases pciScanDevice_cases hb hs.device_lt ht with ⟨f', hs', rfl⟩ | ⟨-, hnone⟩
      · exact hs'.bits_ne_zero hb hbits
      · exact hnone f hs

theorem hostLoop_cases {first n : ℕ} (hn : first + n = functionPerDevice) (hfirst : 0 < first)
    (h : hostLoop cs vendorId deviceId (-1) fuel (List.range' first n) = some r) :
    (∃ b d f, first ≤ b ∧ b < functionPerDevice ∧
        (∀ g, first ≤ g → g ≤ b → word cs 0 0 (g % 8) 0x00 ≠ 0xFFFF) ∧
        Shown cs vendorId deviceId b d f ∧ r = pciDev b d f) ∨
      (r = devZero ∧ ∀ b, first ≤ b → b < functionPerDevice →
        (∀ g, first ≤ g → g ≤ b → word cs 0 0 (g % 8) 0x00 ≠ 0xFFFF) →
        ∀ d f, ¬ Shown cs vendorId deviceId b d f) := by
  induction n generalizing first with
  | zero =>
    refine Or.inr ⟨(Option.some.inj h).symm, fun b hfb hb => ?_⟩
    omega
  | succ n ih =>
    have hlt : first < 256 := by
      unfold functionPerDevice at hn
      omega
    have hvendor : pciRead cs (pciDev 0 0 first) pciVendorId = word cs 0 0 (first % 8) 0x00 := by
      rw [← pciDev_mod]
      exact pciRead_vendorId (by decide) (by decide) (Nat.mod_lt _ (by decide))
    rw [List.range'_succ, hostLoop, hvendor] at h
    split at h
    · next hnone =>
      exact Or.inr ⟨(Option.some.inj h).symm,
        fun b hfb _ hall => absurd hnone (hall first le_rfl hfb)⟩
    · next hpresent =>
      rw [Option.bind_eq_some_iff] at h
      obtain ⟨t, ht, h⟩ := h
      have hone : ∀ g, first ≤ g → g ≤ first → word cs 0 0 (g % 8) 0x00 ≠ 0xFFFF := by
        intro g hg hg'
        rw [le_antisymm hg' hg]
        exact hpresent
      rcases pciScanBus_cases hlt ht with ⟨d, f, hs, rfl⟩ | ⟨rfl, hnone⟩
      · rw [if_pos (hs.bits_ne_zero hlt)] at h
        refine Or.inl ⟨first, d, f, le_rfl, by omega, hone, hs, (Option.some.inj h).symm⟩
      · rw [if_neg (by decide)] at h
        -- the functions after `first`, with `first` itself present
        rcases ih (by omega) (by omega) h with ⟨b, d, f, hfb, hb, hall, hs, hr⟩ | ⟨hr, hrest⟩
        · refine Or.inl ⟨b, d, f, by omega, hb, fun g hg hgb => ?_, hs, hr⟩
          rcases Nat.eq_or_lt_of_le hg with rfl | hg
          · exact hpresent
          · exact hall g hg hgb
        · refine Or.inr ⟨hr, fun b hfb hb hall => ?_⟩
          rcases Nat.eq_or_lt_of_le hfb with rfl | hfb
          · exact hnone
          · exact hrest b hfb hb fun g hg hgb => hall g (by omega) hgb

theorem pciGetDevice_cases (h : pciGetDevice cs vendorId deviceId (-1) fuel = some r) :
    (∃ b d f, HostBus cs b ∧ Shown cs vendorId deviceId b d f ∧ r = pciDev b d f) ∨
      (r = devZero ∧ ∀ b, HostBus cs b → ∀ d f, ¬ Shown cs vendorId deviceId b d f) := by
  rw [pciGetDevice, Option.bind_eq_some_iff] at h
  obtain ⟨t, ht, h⟩ := h
  rcases pciScanBus_cases (by decide) ht with ⟨d, f, hs, rfl⟩ | ⟨rfl, hnone⟩
  · rw [if_pos (hs.bits_ne_zero (by decide))] at h
    have hhost : HostBus cs 0 := ⟨by decide, fun g hg hg0 => by omega⟩
    exact Or.inl ⟨0, d, f, hhost, hs, (Option.some.inj h).symm⟩
  · rw [if_neg (by decide)] at h
    rcases hostLoop_cases (by decide) (by decide) h
      with ⟨b, d, f, -, hb, hall, hs, hr⟩ | ⟨hr, hrest⟩
    · exact Or.inl ⟨b, d, f, ⟨hb, hall⟩, hs, hr⟩
    · refine Or.inr ⟨hr, fun b hb => ?_⟩
      rcases Nat.eq_zero_or_pos b with rfl | hb0
      · exact hnone
      · exact hrest b hb0 hb.1 hb.2

/-- The lookup is right exactly when some function is shown on a host bus in case there is
one to find. No function has vendor 0xFFFF; a lookup for it must not meet the all-ones
registers of a missing function. -/
theorem pciGetDevice_finds_iff (h : pciGetDevice cs vendorId deviceId (-1) fuel = some r) :
    Finds cs vendorId deviceId r ↔
      if vendorId = 0xFFFF then
        ∀ b, HostBus cs b → ∀ d f, ¬ Shown cs vendorId deviceId b d f
      else
        (∃ b d f, BusReachable cs b ∧ Present cs b d f ∧ HasIds cs vendorId deviceId b d f) →
          ∃ b d f, HostBus cs b ∧ Shown cs vendorId deviceId b d f := by
  have hpresent : ∀ {b d f}, vendorId ≠ 0xFFFF → HostBus cs b → Shown cs vendorId deviceId b d f →
      Present cs b d f := by
    intro b d f hv hb hs
    have hlt := hb.1
    unfold functionPerDevice at hlt
    exact ⟨by omega, hs.device_lt, hs.function_lt, fun hc => hv (hs.hasIds.1.symm.trans hc)⟩
  rcases pciGetDevice_cases h with ⟨b, d, f, hb, hs, rfl⟩ | ⟨rfl, hnone⟩
  · have hb256 : b < 256 := lt_trans hb.1 (by decide)
    have hbits := hs.bits_ne_zero hb256
    split
    · next hv =>
      refine iff_of_false (fun hfinds => ?_) fun hall => hall b hb d f hs
      obtain ⟨b', d', f', hp, hids, -⟩ := hfinds.1 hbits
      exact hp.2.2.2 (hids.1.trans hv)
    · next hv =>
      have hp := hpresent hv hb hs
      exact iff_of_true ⟨fun _ => ⟨b, d, f, hp, hs.hasIds, rfl⟩, fun h0 => absurd h0 hbits⟩
        fun _ => ⟨b, d, f, hb, hs⟩
  · have hzero : devZero.bits = 0 := rfl
    split
    · next hv =>
      refine iff_of_true ⟨fun h0 => absurd hzero h0, fun _ b d f _ hp hids => ?_⟩ hnone
      exact hp.2.2.2 (hids.1.trans hv)
    · next hv =>
      constructor
      · rintro hfinds ⟨b, d, f, hreach, hp, hids⟩
        exact absurd hids (hfinds.2 hzero b d f hreach hp)
      · intro hcond
        refine ⟨fun h0 => absurd hzero h0, fun _ b d f hreach hp hids => ?_⟩
        obtain ⟨b', d', f', hb', hs⟩ := hcond ⟨b, d, f, hreach, hp, hids⟩
        exact hnone b' hb' d' f' hs

/-- A host bridge 0:0.0, a bridge 0:1.0 with secondary bus 1 and programming interface 1,
and a network card 1:0.0. -/
def bridgedSpace : ConfigSpace := fun bus device function reg =>
  if function ≠ 0 then 0xFF
  else if bus = 0 ∧ device = 0 then
    (List.lookup reg [(0, 0x86), (1, 0x80), (2, 0x37), (3, 0x12), (0x0B, 0x06)]).getD 0
  else if bus = 0 ∧ device = 1 then
    (List.lookup reg [(0, 0x86), (1, 0x80), (2, 0x4E), (3, 0x24), (0x09, 0x01), (0x0A, 0x04),
      (0x0B, 0x06), (0x0E, 0x01), (0x19, 0x01)]).getD 0
  else if bus = 1 ∧ device = 0 then
    (List.lookup reg [(0, 0xEC), (1, 0x10), (2, 0x39), (3, 0x81), (0x0B, 0x02)]).getD 0
  else 0xFF

theorem bridgedSpace_standard : Standard bridgedSpace := by
  intro b d f hp hf
  have hnone : word bridgedSpace b d f 0x00 = 0xFFFF := by simp [word, bridgedSpace, hf]
  exact absurd hnone hp.2.2.2

theorem bridgedSpace_bridge {b d f : ℕ} (hp : Present bridgedSpace b d f)
    (hbridge : IsBridge bridgedSpace b d f) : b = 0 ∧ d = 1 ∧ f = 0 := by
  have hf : f = 0 := by
    by_contra hf
    exact hp.2.2.2 (by simp [word, bridgedSpace, hf])
  obtain ⟨hclass, hsub⟩ := hbridge
  subst hf
  simp only [bridgedSpace, ne_eq, not_true_eq_false, if_false] at hclass hsub
  split_ifs at hclass hsub
  · exact absurd hsub (by decide)
  · omega
  · exact absurd hclass (by decide)
  · exact absurd hclass (by decide)

theorem bridgedSpace_tree : BridgeTree bridgedSpace where
  distinct b d f b' d' f' _ hp hbridge _ hp' hbridge' _ := by
    obtain ⟨rfl, rfl, rfl⟩ := bridgedSpace_bridge hp hbridge
    obtain ⟨rfl, rfl, rfl⟩ := bridgedSpace_bridge hp' hbridge'
    exact ⟨rfl, rfl, rfl⟩
  acyclic := by
    refine ⟨id, fun b d f _ hp hbridge => ?_⟩
    obtain ⟨rfl, rfl, rfl⟩ := bridgedSpace_bridge hp hbridge
    decide

/-- The bridge itself is found. -/
theorem pciGetDevice_finds_bridge : Finds bridgedSpace 0x8086 0x244E (pciDev 0 1 0) := by
  have hrun : pciGetDevice bridgedSpace 0x8086 0x244E (-1) 2 = some (pciDev 0 1 0) := by
    decide +kernel
  rw [pciGetDevice_finds_iff hrun, if_neg (by decide)]
  have hhost : HostBus bridgedSpace 0 := ⟨by decide, fun g hg hg0 => by omega⟩
  have hpresent : word bridgedSpace 0 1 0 0x00 ≠ 0xFFFF := by decide +kernel
  have hids : HasIds bridgedSpace 0x8086 0x244E 0 1 0 := by unfold HasIds; decide +kernel
  have hshown : Shown bridgedSpace 0x8086 0x244E 0 1 0 :=
    ⟨by decide, by decide, hpresent, Or.inl rfl, hids, Or.inr (Or.inl one_ne_zero)⟩
  exact fun _ => ⟨0, 1, 0, hhost, hshown⟩

/-- The card behind it is not. -/
theorem pciGetDevice_misses_card :
    Standard bridgedSpace ∧ BridgeTree bridgedSpace ∧
      pciGetDevice bridgedSpace 0x10EC 0x8139 (-1) 2 = some devZero ∧
      ¬ Finds bridgedSpace 0x10EC 0x8139 devZero := by
  refine ⟨bridgedSpace_standard, bridgedSpace_tree, by decide +kernel, fun hfinds => ?_⟩
  have hbridge : Present bridgedSpace 0 1 0 := by unfold Present; decide +kernel
  have htype : IsBridge bridgedSpace 0 1 0 := by unfold IsBridge; decide +kernel
  have hreach : BusReachable bridgedSpace 1 := .bridge .root hbridge htype
  have hcard : Present bridgedSpace 1 0 0 := by unfold Present; decide +kernel
  exact hfinds.2 rfl 1 0 0 hreach hcard (by unfold HasIds; decide +kernel)

end Unos.Pci
