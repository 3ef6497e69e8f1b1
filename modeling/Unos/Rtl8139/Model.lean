import Unos.Library.ByteMemory
import Unos.Library.Runs
import Unos.Library.Words

namespace Unos.Rtl8139

open Unos.ByteMemory Unos.Words

/-- `RX_BUF_SIZE`. -/
def rxBufSize : ℕ := 8192

def rok : BitVec 16 := 1

/-- A received frame: the status word that the card puts before it, and its bytes. -/
structure Frame where
  status : BitVec 16
  bytes : List (BitVec 8)
  length_pos : 0 < bytes.length
  length_le : bytes.length ≤ 1518

/-- The two words of the packet header, low bytes first. -/
def Frame.header (f : Frame) : List (BitVec 8) :=
  [BitVec.ofNat 8 f.status.toNat, BitVec.ofNat 8 (f.status.toNat / 256),
    BitVec.ofNat 8 f.bytes.length, BitVec.ofNat 8 (f.bytes.length / 256)]

/-- The next access of `rtl8139_handler` to what it shares with the card. -/
inductive Pc
  | idle
  | readStatus
  | readLength
  | copy (packetLength : ℕ)
  | writeCapr (packetLength : ℕ)
  | acknowledge
  deriving DecidableEq

/-- What the card and the driver share: `isr` and `capr` are registers of the card, `writePtr` is
where it puts the next header. `arrived` and `delivered` list the frames that came in and the
packets that `ethernet_handle_packet` was called with. -/
structure State where
  isr : BitVec 16
  capr : ℕ
  rxBuffer : Mem
  writePtr : ℕ
  currentPacketPtr : ℕ
  pc : Pc
  arrived : List Frame
  delivered : List (List (BitVec 8))

/-- After `rtl8139_init`; `rxBuffer` is what the ring holds. -/
def State.boot (rxBuffer : Mem) : State where
  isr := 0
  capr := 0xFFF0
  rxBuffer := rxBuffer
  writePtr := 0
  currentPacketPtr := 0
  pc := .idle
  arrived := []
  delivered := []

/-- Where a header goes that follows a packet at `ptr`; packets start at multiples of four. -/
def nextWritePtr (ptr length : ℕ) : ℕ := (ptr + length + 4 + 3) / 4 * 4 % rxBufSize

def State.unread (s : State) : ℕ :=
  (s.writePtr + rxBufSize - (s.capr + 16) % rxBufSize) % rxBufSize

/-- The card takes a frame when the ring has room for it. It does not wrap inside of a
packet: the WRAP bit is set. -/
def receiveFrame (s : State) (f : Frame) : Option State :=
  if s.unread + f.bytes.length + 4 + 3 < rxBufSize then
    some { s with
      rxBuffer := storeBytes s.rxBuffer s.writePtr (f.header ++ f.bytes)
      writePtr := nextWritePtr s.writePtr f.bytes.length
      isr := s.isr ||| rok
      arrived := s.arrived ++ [f] }
  else none

def packetLength (m : Mem) (ptr : ℕ) : ℕ := load8 m (ptr + 2) + 256 * load8 m (ptr + 3)

/-- The advance of `current_packet_ptr` in `receive_packet`. -/
def nextPacketPtr (ptr length : ℕ) : ℕ :=
  let ptr := wrap32 (ptr + length + 4 + 3) &&& (2 ^ 32 - 2 ^ 2)
  if ptr > rxBufSize then sub32 ptr rxBufSize else ptr

/-- The next access of `rtl8139_handler`, which can be entered whenever a status bit is set. -/
def handlerStep (s : State) : Option State :=
  match s.pc with
  | .idle => if s.isr ≠ 0 then some { s with pc := .readStatus } else none
  | .readStatus =>
    let status := s.isr
    some { s with pc := if status &&& rok ≠ 0 then .readLength else .acknowledge }
  | .readLength => some { s with pc := .copy (packetLength s.rxBuffer s.currentPacketPtr) }
  | .copy length =>
    let packet := loadBytes s.rxBuffer (s.currentPacketPtr + 4) length
    some { s with delivered := s.delivered ++ [packet], pc := .writeCapr length }
  | .writeCapr length =>
    let ptr := nextPacketPtr s.currentPacketPtr length
    some { s with currentPacketPtr := ptr, capr := sub32 ptr 16 % 65536, pc := .acknowledge }
  | .acknowledge => some { s with isr := s.isr &&& ~~~5, pc := .idle }

/-- The card may act between any two accesses of the driver. `report` is any other event that it
sets bits of the status register for. -/
inductive Event
  | arrive (f : Frame)
  | report (bits : BitVec 16)
  | handler

def cardStep (s : State) : Event → Option State
  | .arrive f => receiveFrame s f
  | .report bits => if bits &&& rok = 0 then some { s with isr := s.isr ||| bits } else none
  | .handler => handlerStep s

end Unos.Rtl8139
