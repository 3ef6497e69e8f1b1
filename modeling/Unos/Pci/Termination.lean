import Unos.Library.Nesting
import Unos.Pci.Lookup

namespace Unos.Pci

open Unos.Nesting Relation

section Graph

variable (cs : ConfigSpace) (vendorId deviceId : ℕ) (deviceType : ℤ)

def functionsOf (bus device : ℕ) : List ℕ :=
  let dev := pciDev bus device 0
  if pciRead cs dev pciVendorId = pciNone then []
  else if pciReachEnd cs dev then [0]
  else List.range functionPerDevice

def Hit (bus device function : ℕ) : Prop :=
  let dev := pciDev bus device function
  (deviceType = -1 ∨ deviceType = getDeviceType cs dev) ∧ pciRead cs dev pciDeviceId = deviceId ∧
    vendorId = pciRead cs dev pciVendorId ∧ dev.bits ≠ 0

instance (bus device function : ℕ) :
    Decidable (Hit cs vendorId deviceId deviceType bus device function) :=
  inferInstanceAs (Decidable (_ ∧ _ ∧ _ ∧ _))

def DeviceHit (bus device : ℕ) : Prop :=
  ∃ function ∈ functionsOf cs bus device, Hit cs vendorId deviceId deviceType bus device function

instance (bus device : ℕ) : Decidable (DeviceHit cs vendorId deviceId deviceType bus device) :=
  inferInstanceAs (Decidable (∃ function ∈ functionsOf cs bus device, _))

def BusHit (bus : ℕ) : Prop :=
  ∃ device < devicePerBus, DeviceHit cs vendorId deviceId deviceType bus device

structure Scanned (bus device function : ℕ) : Prop where
  device_lt : device < devicePerBus
  mem : function ∈ functionsOf cs bus device
  devices : ∀ d < device, ¬ DeviceHit cs vendorId deviceId deviceType bus d
  functions : ∀ f ∈ functionsOf cs bus device, f < function →
    ¬ Hit cs vendorId deviceId deviceType bus device f

def Leads (bus next : ℕ) : Prop :=
  ∃ device function, Scanned cs vendorId deviceId deviceType bus device function ∧
    getDeviceType cs (pciDev bus device function) = pciTypeBridge ∧
    getSecondaryBus cs (pciDev bus device function) = next

def Started (bus : ℕ) : Prop :=
  HostBus cs bus ∧ ∀ b < bus, ¬ BusHit cs vendorId deviceId deviceType b

def Ends : Prop := ∃ fuel r, pciGetDevice cs vendorId deviceId deviceType fuel = some r

end Graph

variable {cs : ConfigSpace} {vendorId deviceId bus device function fuel : ℕ} {deviceType : ℤ}
  {scanBus : ℕ → Option PciDev} {r : PciDev}

section Loops

variable {scan : ℕ → Option PciDev} {hit : ℕ → Prop} {is : List ℕ}

theorem firstFound_hit (hscan : ∀ i ∈ is, ∀ t, scan i = some t → (t.bits ≠ 0 ↔ hit i))
    (h : firstFound scan is = some r) : r.bits ≠ 0 ↔ ∃ i ∈ is, hit i := by
  rcases firstFound_cases h with ⟨hr, i, hi, hfound⟩ | ⟨rfl, hall⟩
  · exact iff_of_true hr ⟨i, hi, (hscan i hi r hfound).mp hr⟩
  · refine iff_of_false (fun hne => hne rfl) ?_
    rintro ⟨i, hi, hhit⟩
    obtain ⟨t, ht, hbits⟩ := hall i hi
    exact (hscan i hi t ht).mpr hhit hbits

theorem firstFound_isSome (hsorted : is.Pairwise (· < ·))
    (hscan : ∀ i ∈ is, ∀ t, scan i = some t → (t.bits ≠ 0 ↔ hit i)) :
    (firstFound scan is).isSome ↔
      ∀ i ∈ is, (∀ j ∈ is, j < i → ¬ hit j) → (scan i).isSome := by
  induction is with
  | nil => exact iff_of_true rfl fun i hi => absurd hi List.not_mem_nil
  | cons a is ih =>
    obtain ⟨hbefore, hsorted⟩ := List.pairwise_cons.mp hsorted
    have hrest := ih hsorted fun i hi => hscan i (List.mem_cons_of_mem a hi)
    rw [firstFound]
    cases ha : scan a with
    | none =>
      refine iff_of_false (fun h => absurd h (by simp)) fun hall => ?_
      have hfirst := hall a List.mem_cons_self fun j hj hja => ?_
      · rw [ha] at hfirst
        cases hfirst
      · rcases List.mem_cons.mp hj with rfl | hj
        · exact absurd hja (Nat.lt_irrefl _)
        · exact absurd hja (hbefore j hj).asymm
    | some t =>
      have hhit := hscan a List.mem_cons_self t ha
      rw [Option.bind_some]
      by_cases hbits : t.bits ≠ 0
      · rw [if_pos hbits]
        refine iff_of_true rfl fun i hi hnone => ?_
        rcases List.mem_cons.mp hi with rfl | hi
        · rw [ha]
          rfl
        · exact absurd (hhit.mp hbits) (hnone a List.mem_cons_self (hbefore i hi))
      · rw [if_neg hbits, hrest]
        have hmiss : ¬ hit a := fun h => hbits (hhit.mpr h)
        constructor
        · intro hall i hi hnone
          rcases List.mem_cons.mp hi with rfl | hi
          · rw [ha]
            rfl
          · exact hall i hi fun j hj => hnone j (List.mem_cons_of_mem a hj)
        · intro hall i hi hnone
          refine hall i (List.mem_cons_of_mem a hi) fun j hj hji => ?_
          rcases List.mem_cons.mp hj with rfl | hj
          · exact hmiss
          · exact hnone j hj hji

end Loops

theorem pciScanFunction_hit
    (h : pciScanFunction cs vendorId deviceId deviceType scanBus bus device function = some r) :
    r.bits ≠ 0 ↔ Hit cs vendorId deviceId deviceType bus device function := by
  rw [pciScanFunction, Option.map_eq_some_iff] at h
  obtain ⟨-, -, h⟩ := h
  unfold Hit
  split_ifs at h with hmatch
  · rw [← h]
    exact ⟨fun hbits => ⟨hmatch.1, hmatch.2.1, hmatch.2.2, hbits⟩, fun hhit => hhit.2.2.2⟩
  · rw [← h]
    exact iff_of_false (fun hne => hne rfl) fun hhit => hmatch ⟨hhit.1, hhit.2.1, hhit.2.2.1⟩

theorem pciScanFunction_isSome :
    (pciScanFunction cs vendorId deviceId deviceType scanBus bus device function).isSome ↔
      (getDeviceType cs (pciDev bus device function) = pciTypeBridge →
        (scanBus (getSecondaryBus cs (pciDev bus device function))).isSome) := by
  rw [pciScanFunction, Option.isSome_map]
  by_cases hbridge : getDeviceType cs (pciDev bus device function) = pciTypeBridge
  · rw [if_pos hbridge, imp_iff_right hbridge]
  · rw [if_neg hbridge]
    exact iff_of_true rfl fun h => absurd h hbridge

theorem pciScanDevice_eq : pciScanDevice cs vendorId deviceId deviceType scanBus bus device =
    firstFound (pciScanFunction cs vendorId deviceId deviceType scanBus bus device)
      (functionsOf cs bus device) := by
  rw [pciScanDevice, functionsOf]
  by_cases hnone : pciRead cs (pciDev bus device 0) pciVendorId = pciNone
  · simp only [if_pos hnone, firstFound]
  · simp only [if_neg hnone]
    by_cases hend : pciReachEnd cs (pciDev bus device 0) = true
    · simp only [if_pos hend, firstFound]
    · have hrange : List.range functionPerDevice = 0 :: List.range' 1 (functionPerDevice - 1) := rfl
      simp only [if_neg hend, hrange, firstFound, ne_eq, hnone, not_false_eq_true, if_true]

theorem functionsOf_sorted : (functionsOf cs bus device).Pairwise (· < ·) := by
  rw [functionsOf]
  split_ifs
  · exact List.Pairwise.nil
  · exact List.pairwise_singleton _ _
  · exact List.pairwise_lt_range

theorem pciScanDevice_hit
    (h : pciScanDevice cs vendorId deviceId deviceType scanBus bus device = some r) :
    r.bits ≠ 0 ↔ DeviceHit cs vendorId deviceId deviceType bus device := by
  rw [pciScanDevice_eq] at h
  exact firstFound_hit (fun f _ t ht => pciScanFunction_hit ht) h

theorem pciScanBus_hit (h : pciScanBus cs vendorId deviceId deviceType fuel bus = some r) :
    r.bits ≠ 0 ↔ BusHit cs vendorId deviceId deviceType bus := by
  cases fuel with
  | zero => exact nomatch h
  | succ fuel =>
    rw [pciScanBus] at h
    rw [firstFound_hit (fun d _ t ht => pciScanDevice_hit ht) h]
    exact exists_congr fun d => and_congr_left' List.mem_range

theorem pciScanBus_isSome :
    (pciScanBus cs vendorId deviceId deviceType (fuel + 1) bus).isSome ↔
      ∀ next, Leads cs vendorId deviceId deviceType bus next →
        (pciScanBus cs vendorId deviceId deviceType fuel next).isSome := by
  rw [pciScanBus, firstFound_isSome List.pairwise_lt_range fun d _ t ht => pciScanDevice_hit ht]
  have hdevice : ∀ d, (pciScanDevice cs vendorId deviceId deviceType
      (pciScanBus cs vendorId deviceId deviceType fuel) bus d).isSome ↔
      ∀ f ∈ functionsOf cs bus d, (∀ g ∈ functionsOf cs bus d, g < f →
        ¬ Hit cs vendorId deviceId deviceType bus d g) →
        getDeviceType cs (pciDev bus d f) = pciTypeBridge →
        (pciScanBus cs vendorId deviceId deviceType fuel
          (getSecondaryBus cs (pciDev bus d f))).isSome := by
    intro d
    rw [pciScanDevice_eq,
      firstFound_isSome functionsOf_sorted fun f _ t ht => pciScanFunction_hit ht]
    exact forall₃_congr fun f _ _ => pciScanFunction_isSome
  constructor
  · rintro hall next ⟨d, f, hscanned, hbridge, rfl⟩
    have hreturns := hall d (List.mem_range.mpr hscanned.device_lt) fun j _ hj =>
      hscanned.devices j hj
    exact (hdevice d).mp hreturns f hscanned.mem hscanned.functions hbridge
  · intro hall d hd hbefore
    rw [List.mem_range] at hd
    refine (hdevice d).mpr fun f hf hearlier hbridge => ?_
    refine hall _ ⟨d, f, ⟨hd, hf, fun j hj => ?_, hearlier⟩, hbridge, rfl⟩
    exact hbefore j (List.mem_range.mpr (hj.trans hd)) hj

theorem hostLoop_isSome {first n : ℕ} (hn : first + n = functionPerDevice) :
    (hostLoop cs vendorId deviceId deviceType fuel (List.range' first n)).isSome ↔
      ∀ b, first ≤ b → b < functionPerDevice →
        (∀ g, first ≤ g → g ≤ b → word cs 0 0 (g % 8) 0x00 ≠ 0xFFFF) →
        (∀ b', first ≤ b' → b' < b → ¬ BusHit cs vendorId deviceId deviceType b') →
        (pciScanBus cs vendorId deviceId deviceType fuel b).isSome := by
  induction n generalizing first with
  | zero => exact iff_of_true rfl fun b hfb hb => by omega
  | succ n ih =>
    have hvendor : pciRead cs (pciDev 0 0 first) pciVendorId = word cs 0 0 (first % 8) 0x00 := by
      rw [← pciDev_mod]
      exact pciRead_vendorId (by decide) (by decide) (Nat.mod_lt _ (by decide))
    have hrest := @ih (first + 1) (by omega)
    rw [List.range'_succ, hostLoop, hvendor]
    by_cases hnone : word cs 0 0 (first % 8) 0x00 = pciNone
    · rw [if_pos hnone]
      exact iff_of_true rfl fun b hfb _ hall => absurd hnone (hall first le_rfl hfb)
    · rw [if_neg hnone]
      have hone : ∀ g, first ≤ g → g ≤ first → word cs 0 0 (g % 8) 0x00 ≠ 0xFFFF := by
        intro g hg hg'
        rw [le_antisymm hg' hg]
        exact hnone
      cases hscan : pciScanBus cs vendorId deviceId deviceType fuel first with
      | none =>
        refine iff_of_false (fun h => absurd h (by simp)) fun hall => ?_
        have hreturns := hall first le_rfl (by omega) hone fun b' hb' hlt => by omega
        rw [hscan] at hreturns
        cases hreturns
      | some t =>
        have hhit := pciScanBus_hit hscan
        rw [Option.bind_some]
        by_cases hbits : t.bits ≠ 0
        · rw [if_pos hbits]
          refine iff_of_true rfl fun b hfb hb hall hmiss => ?_
          rcases Nat.eq_or_lt_of_le hfb with rfl | hlt
          · rw [hscan]
            rfl
          · exact absurd (hhit.mp hbits) (hmiss first le_rfl hlt)
        · rw [if_neg hbits, hrest]
          have hfirst : ¬ BusHit cs vendorId deviceId deviceType first := fun h =>
            hbits (hhit.mpr h)
          constructor
          · intro hall b hfb hb hpresent hmiss
            rcases Nat.eq_or_lt_of_le hfb with rfl | hlt
            · rw [hscan]
              rfl
            · exact hall b hlt hb (fun g hg => hpresent g (Nat.le_of_succ_le hg))
                fun b' hb' => hmiss b' (Nat.le_of_succ_le hb')
          · intro hall b hfb hb hpresent hmiss
            refine hall b (Nat.le_of_succ_le hfb) hb (fun g hg hgb => ?_) fun b' hb' hlt => ?_
            · rcases Nat.eq_or_lt_of_le hg with rfl | hg
              · exact hnone
              · exact hpresent g hg hgb
            · rcases Nat.eq_or_lt_of_le hb' with rfl | hb'
              · exact hfirst
              · exact hmiss b' hb' hlt

theorem pciGetDevice_isSome :
    (pciGetDevice cs vendorId deviceId deviceType fuel).isSome ↔
      ∀ bus, Started cs vendorId deviceId deviceType bus →
        (pciScanBus cs vendorId deviceId deviceType fuel bus).isSome := by
  have hhost : Started cs vendorId deviceId deviceType 0 :=
    ⟨⟨by decide, fun g hg hg0 => by omega⟩, fun b hb => absurd hb (Nat.not_lt_zero b)⟩
  rw [pciGetDevice]
  cases hscan : pciScanBus cs vendorId deviceId deviceType fuel 0 with
  | none =>
    refine iff_of_false (fun h => absurd h (by simp)) fun hall => ?_
    have hreturns := hall 0 hhost
    rw [hscan] at hreturns
    cases hreturns
  | some t =>
    have hhit := pciScanBus_hit hscan
    rw [Option.bind_some]
    by_cases hbits : t.bits ≠ 0
    · rw [if_pos hbits]
      refine iff_of_true rfl fun bus hbus => ?_
      rcases Nat.eq_zero_or_pos bus with rfl | hpos
      · rw [hscan]
        rfl
      · exact absurd (hhit.mp hbits) (hbus.2 0 hpos)
    · rw [if_neg hbits, hostLoop_isSome (by decide)]
      have hzero : ¬ BusHit cs vendorId deviceId deviceType 0 := fun h => hbits (hhit.mpr h)
      constructor
      · intro hall bus hbus
        rcases Nat.eq_zero_or_pos bus with rfl | hpos
        · rw [hscan]
          rfl
        · exact hall bus hpos hbus.1.1 hbus.1.2 fun b' _ hlt => hbus.2 b' hlt
      · intro hall bus _ hlt hpresent hmiss
        refine hall bus ⟨⟨hlt, hpresent⟩, fun b' hb' => ?_⟩
        rcases Nat.eq_zero_or_pos b' with rfl | hpos
        · exact hzero
        · exact hmiss b' hpos hb'

theorem getSecondaryBus_lt (cs : ConfigSpace) (dev : PciDev) : getSecondaryBus cs dev < 256 := by
  have hsize : pciSizeMap pciSecondaryBus = 1 := by decide
  simp only [getSecondaryBus, pciRead, hsize, if_true]
  exact BitVec.isLt _

theorem not_pciScanBus_zero (b : ℕ) :
    ¬ (pciScanBus cs vendorId deviceId deviceType 0 b).isSome := fun h => nomatch h

theorem pciScanBus_returns_iff :
    (∃ k, (pciScanBus cs vendorId deviceId deviceType k bus).isSome) ↔
      ∀ b, ReflTransGen (Leads cs vendorId deviceId deviceType) bus b →
        ¬ TransGen (Leads cs vendorId deviceId deviceType) b b := by
  have hbound : ∀ b next, Leads cs vendorId deviceId deviceType b next → next < 256 := by
    rintro b next ⟨d, f, -, -, rfl⟩
    exact getSecondaryBus_lt cs _
  exact returns_iff_acyclic
    (C := fun k b => (pciScanBus cs vendorId deviceId deviceType k b).isSome)
    not_pciScanBus_zero (fun k b => pciScanBus_isSome) hbound

/-- The enumeration reaches a result exactly when the buses that it starts from lead to no cycle of
buses, each numbered by the programming interface of a bridge on the one before. -/
theorem pciGetDevice_ends_iff (cs : ConfigSpace) (vendorId deviceId : ℕ) (deviceType : ℤ) :
    Ends cs vendorId deviceId deviceType ↔
      ∀ bus, Started cs vendorId deviceId deviceType bus →
        ∀ b, ReflTransGen (Leads cs vendorId deviceId deviceType) bus b →
          ¬ TransGen (Leads cs vendorId deviceId deviceType) b b := by
  have hends : Ends cs vendorId deviceId deviceType ↔
      ∃ fuel, (pciGetDevice cs vendorId deviceId deviceType fuel).isSome :=
    exists_congr fun fuel => Option.isSome_iff_exists.symm
  rw [hends]
  constructor
  · rintro ⟨fuel, h⟩ bus hbus
    exact pciScanBus_returns_iff.mp ⟨fuel, pciGetDevice_isSome.mp h bus hbus⟩
  · intro hall
    obtain ⟨k, hk⟩ := ok_common
      (C := fun k b => (pciScanBus cs vendorId deviceId deviceType k b).isSome)
      (P := Started cs vendorId deviceId deviceType) (m := functionPerDevice)
      not_pciScanBus_zero (fun k b => pciScanBus_isSome)
      fun bus _ hbus => pciScanBus_returns_iff.mpr (hall bus hbus)
    exact ⟨k, pciGetDevice_isSome.mpr fun bus hbus => hk bus hbus.1.1 hbus⟩

/-- The same machine with a bridge that decodes by address ranges, as most do: its programming
interface is 0. -/
def plainBridgeSpace : ConfigSpace := fun bus device function reg =>
  if bus = 0 ∧ device = 1 ∧ function = 0 ∧
    reg = 0x09 then 0 else bridgedSpace bus device function reg

theorem plainBridgeSpace_eq {reg : ℕ} (hreg : reg ≠ 0x09) (bus device function : ℕ) :
    plainBridgeSpace bus device function reg = bridgedSpace bus device function reg :=
  if_neg fun h => hreg h.2.2.2

theorem plainBridgeSpace_bridge {b d f : ℕ} (hp : Present plainBridgeSpace b d f)
    (hbridge : IsBridge plainBridgeSpace b d f) : b = 0 ∧ d = 1 ∧ f = 0 := by
  simp only [Present, word, Nat.reduceAdd, plainBridgeSpace_eq (show 0x00 ≠ 0x09 by decide),
    plainBridgeSpace_eq (show 0x01 ≠ 0x09 by decide)] at hp
  rw [IsBridge, plainBridgeSpace_eq (by decide), plainBridgeSpace_eq (by decide)] at hbridge
  exact bridgedSpace_bridge hp hbridge

theorem plainBridgeSpace_tree : BridgeTree plainBridgeSpace where
  distinct b d f b' d' f' _ hp hbridge _ hp' hbridge' _ := by
    obtain ⟨rfl, rfl, rfl⟩ := plainBridgeSpace_bridge hp hbridge
    obtain ⟨rfl, rfl, rfl⟩ := plainBridgeSpace_bridge hp' hbridge'
    exact ⟨rfl, rfl, rfl⟩
  acyclic := by
    refine ⟨id, fun b d f _ hp hbridge => ?_⟩
    obtain ⟨rfl, rfl, rfl⟩ := plainBridgeSpace_bridge hp hbridge
    decide

/-- Bus 0 is scanned again behind the bridge, and so on. -/
theorem pciGetDevice_endless :
    BridgeTree plainBridgeSpace ∧
      ∀ fuel, pciGetDevice plainBridgeSpace 0x10EC 0x8139 (-1) fuel = none := by
  refine ⟨plainBridgeSpace_tree, fun fuel => ?_⟩
  have hscanned : Scanned plainBridgeSpace 0x10EC 0x8139 (-1) 0 1 0 :=
    ⟨by decide, by decide +kernel, by decide +kernel, by decide +kernel⟩
  have hleads : Leads plainBridgeSpace 0x10EC 0x8139 (-1) 0 0 :=
    ⟨1, 0, hscanned, by decide +kernel, by decide +kernel⟩
  have hstarted : Started plainBridgeSpace 0x10EC 0x8139 (-1) 0 :=
    ⟨⟨by decide, fun g hg hg0 => by omega⟩, fun b hb => absurd hb (Nat.not_lt_zero b)⟩
  rw [← Option.not_isSome_iff_eq_none]
  intro h
  have hacyclic := pciScanBus_returns_iff.mp ⟨fuel, pciGetDevice_isSome.mp h 0 hstarted⟩
  exact hacyclic 0 .refl (.single hleads)

end Unos.Pci
