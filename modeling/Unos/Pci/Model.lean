import Unos.Library.Words

namespace Unos.Pci

open Unos.Words

/-- The byte at a register of a function: bus, device, function, register. Every read is answered;
where no function is, with all ones. -/
abbrev ConfigSpace := ℕ → ℕ → ℕ → ℕ → BitVec 8

/-- A `pci_dev_t`; the two fields that are left out are never set. -/
structure PciDev where
  fieldNum : ℕ
  functionNum : ℕ
  deviceNum : ℕ
  busNum : ℕ
  enable : ℕ
  deriving DecidableEq

def PciDev.bits (dev : PciDev) : ℕ :=
  2 ^ 2 * dev.fieldNum + 2 ^ 8 * dev.functionNum + 2 ^ 11 * dev.deviceNum + 2 ^ 16 * dev.busNum +
    2 ^ 31 * dev.enable

def devZero : PciDev := ⟨0, 0, 0, 0, 0⟩

/-- The `pci_dev_t` of a function, each number cut to its bit field. -/
def pciDev (bus device function : ℕ) : PciDev where
  fieldNum := 0
  functionNum := function % 2 ^ 3
  deviceNum := device % 2 ^ 5
  busNum := bus % 2 ^ 8
  enable := 0

def pciVendorId : ℕ := 0x00
def pciDeviceId : ℕ := 0x02
def pciCommand : ℕ := 0x04
def pciStatus : ℕ := 0x06
def pciSubclass : ℕ := 0x0a
def pciClass : ℕ := 0x0b
def pciCacheLineSize : ℕ := 0x0c
def pciLatencyTimer : ℕ := 0x0d
def pciHeaderType : ℕ := 0x0e
def pciBist : ℕ := 0x0f
def pciBar0 : ℕ := 0x10
def pciBar1 : ℕ := 0x14
def pciBar2 : ℕ := 0x18
def pciBar3 : ℕ := 0x1C
def pciBar4 : ℕ := 0x20
def pciBar5 : ℕ := 0x24
def pciInterruptLine : ℕ := 0x3C
def pciInterruptPin : ℕ := 0x3D
def pciSecondaryBus : ℕ := 0x09

def pciTypeBridge : ℕ := 0x0604
def pciNone : ℕ := 0xFFFF

def devicePerBus : ℕ := 32
def functionPerDevice : ℕ := 32

/-- `pci_size_map` after `pci_init`. -/
def pciSizeMap (field : ℕ) : ℕ :=
  (List.lookup field
    [(pciVendorId, 2), (pciDeviceId, 2), (pciCommand, 2), (pciStatus, 2), (pciSubclass, 1),
      (pciClass, 1), (pciCacheLineSize, 1), (pciLatencyTimer, 1), (pciHeaderType, 1), (pciBist, 1),
      (pciBar0, 4), (pciBar1, 4), (pciBar2, 4), (pciBar3, 4), (pciBar4, 4), (pciBar5, 4),
      (pciInterruptLine, 1), (pciInterruptPin, 1), (pciSecondaryBus, 1)]).getD 0

/-- The byte at `PCI_CONFIG_DATA + k` when `PCI_CONFIG_ADDRESS` holds `bits`. -/
def configData (cs : ConfigSpace) (bits k : ℕ) : ℕ :=
  (cs (bits / 2 ^ 16 % 2 ^ 8) (bits / 2 ^ 11 % 2 ^ 5) (bits / 2 ^ 8 % 2 ^ 3)
    (4 * (bits / 2 ^ 2 % 2 ^ 6) + k)).toNat

def pciRead (cs : ConfigSpace) (dev : PciDev) (field : ℕ) : ℕ :=
  let dev := { dev with fieldNum := (field &&& 0xFC) / 2 ^ 2, enable := 1 }
  let data := configData cs dev.bits
  let size := pciSizeMap field
  if size = 1 then data (field &&& 3)
  else if size = 2 then data (field &&& 2) + 2 ^ 8 * data ((field &&& 2) + 1)
  else if size = 4 then data 0 + 2 ^ 8 * data 1 + 2 ^ 16 * data 2 + 2 ^ 24 * data 3
  else 0xffff

def getDeviceType (cs : ConfigSpace) (dev : PciDev) : ℕ :=
  2 ^ 8 * pciRead cs dev pciClass ||| pciRead cs dev pciSubclass

def getSecondaryBus (cs : ConfigSpace) (dev : PciDev) : ℕ := pciRead cs dev pciSecondaryBus

def pciReachEnd (cs : ConfigSpace) (dev : PciDev) : Bool := pciRead cs dev pciHeaderType = 0

section Scan

variable (cs : ConfigSpace) (vendorId deviceId : ℕ) (deviceType : ℤ)

/-- A loop that calls `scan` and returns its first result that is not `dev_zero`. -/
def firstFound (scan : ℕ → Option PciDev) : List ℕ → Option PciDev
  | [] => some devZero
  | i :: is => (scan i).bind fun t => if t.bits ≠ 0 then some t else firstFound scan is

/-- `scanBus` is `pci_scan_bus`, whose result for the bus behind a bridge is not used. -/
def pciScanFunction (scanBus : ℕ → Option PciDev) (bus device function : ℕ) : Option PciDev :=
  let dev := pciDev bus device function
  let behind := if getDeviceType cs dev = pciTypeBridge then scanBus (getSecondaryBus cs dev)
    else some devZero
  behind.map fun _ =>
    if (deviceType = -1 ∨ deviceType = getDeviceType cs dev) ∧
        pciRead cs dev pciDeviceId = deviceId ∧ vendorId = pciRead cs dev pciVendorId then dev
    else devZero

/-- The loop over the functions reads the vendor of function 0 each time. -/
def pciScanDevice (scanBus : ℕ → Option PciDev) (bus device : ℕ) : Option PciDev :=
  let dev := pciDev bus device 0
  if pciRead cs dev pciVendorId = pciNone then some devZero
  else
    (pciScanFunction cs vendorId deviceId deviceType scanBus bus device 0).bind fun t =>
      if t.bits ≠ 0 then some t
      else if pciReachEnd cs dev then some devZero
      else
        firstFound
          (fun function =>
            if pciRead cs dev pciVendorId ≠ pciNone then
              pciScanFunction cs vendorId deviceId deviceType scanBus bus device function
            else some devZero)
          (List.range' 1 (functionPerDevice - 1))

/-- The scans call each other through the buses behind bridges, so that they need not end: `fuel`
bounds the nesting. -/
def pciScanBus : ℕ → ℕ → Option PciDev
  | 0, _ => none
  | fuel + 1, bus =>
    firstFound (fun device =>
      pciScanDevice cs vendorId deviceId deviceType (pciScanBus fuel) bus device)
      (List.range devicePerBus)

/-- The loop of `pci_get_device` over the functions of device 0 on bus 0. -/
def hostLoop (fuel : ℕ) : List ℕ → Option PciDev
  | [] => some devZero
  | function :: rest =>
    if pciRead cs (pciDev 0 0 function) pciVendorId = pciNone then some devZero
    else
      (pciScanBus cs vendorId deviceId deviceType fuel function).bind fun t =>
        if t.bits ≠ 0 then some t else hostLoop fuel rest

/-- `pci_get_device`. It prints a message when device 0 has no more functions, and goes on. -/
def pciGetDevice (fuel : ℕ) : Option PciDev :=
  (pciScanBus cs vendorId deviceId deviceType fuel 0).bind fun t =>
    if t.bits ≠ 0 then some t
    else hostLoop cs vendorId deviceId deviceType fuel (List.range' 1 (functionPerDevice - 1))

end Scan

end Unos.Pci
