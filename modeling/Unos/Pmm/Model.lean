import Unos.Library.BitWords
import Unos.Library.Search
import Unos.Library.Words

namespace Unos.Pmm

open Unos.Words Unos.BitWords Unos.Search

/-- The file-scope variables of `pmm.c`. `_pmm_memory_map` points at `bitmap_addr`, a bitmap with
one bit a frame; a set bit marks a frame that is in use. The map is a function on all integer
indices: the words `0..32767` are the array, the others are the memory around it, which an index out
of range reads or writes. `touched` records the index of every word that was accessed, the latest
first. -/
structure State where
  memorySize : ℕ
  usedBlocks : ℕ
  maxBlocks : ℕ
  memoryMap : ℤ → BitVec 32
  touched : List ℤ

/-- The number of words of `bitmap_addr`. -/
def bitmapSize : ℕ := 32768

/-- The state the loader leaves: every variable zero, any memory around the bitmap. -/
def bootState (around : ℤ → BitVec 32) : State where
  memorySize := 0
  usedBlocks := 0
  maxBlocks := 0
  memoryMap i := if 0 ≤ i ∧ i < bitmapSize then 0 else around i
  touched := []

/-- Frame `f` is marked as in use. -/
abbrev State.used (s : State) (f : ℕ) : Bool := bitAt s.memoryMap f

def State.touch (s : State) (is : List ℤ) : State := { s with touched := is ++ s.touched }

def mmapSet (s : State) (bit : ℕ) : State :=
  { s with memoryMap := setBit s.memoryMap bit, touched := (bit / 32 : ℕ) :: s.touched }

def mmapUnset (s : State) (bit : ℕ) : State :=
  { s with memoryMap := clearBit s.memoryMap bit, touched := (bit / 32 : ℕ) :: s.touched }

/-- `mmap_test` takes an `int`. Division and remainder truncate towards zero, and the
shift instruction uses the low five bits of its count, also when it is negative. -/
def mmapTest (m : ℤ → BitVec 32) (bit : ℤ) : Bool :=
  m (bit.tdiv 32) &&& 1#32 <<< (bit.tmod 32 % 32).toNat != 0

def pmmGetFreeBlockCount (s : State) : ℕ := sub32 s.maxBlocks s.usedBlocks

def firstClear (word : BitVec 32) : Option ℕ :=
  (List.range 32).find? fun j => word &&& 1#32 <<< j == 0

/-- The words `i`, `i + 1`, ... of `mmap_first_free`, `n` of them. -/
def firstFreeLoop (m : ℤ → BitVec 32) : ℕ → ℕ → Option ℕ × List ℤ
  | 0, _ => (none, [])
  | n + 1, i =>
    match if m i ≠ 0xffffffff#32 then firstClear (m i) else none with
    | some j => (some (i * 4 * 8 + j), [↑i])
    | none =>
      let rest := firstFreeLoop m n (i + 1)
      (rest.1, ↑i :: rest.2)

def mmapFirstFree (s : State) : Option ℕ × List ℤ :=
  firstFreeLoop s.memoryMap (s.maxBlocks / 32) 0

/-- The `int` that `startingBit + count` becomes as the argument of `mmap_test`. -/
def windowBit (start count : ℕ) : ℤ := Int.bmod (start + count : ℕ) 4294967296

/-- The loop that counts clear bits from `startingBit`, with `n` turns left. -/
def windowLoop (m : ℤ → BitVec 32) (size start : ℕ) : ℕ → ℕ → ℕ → Bool × List ℤ
  | 0, _, _ => (false, [])
  | n + 1, count, free =>
    let bit := windowBit start count
    let free := if mmapTest m bit then free else free + 1
    if free = size then (true, [bit.tdiv 32])
    else
      let rest := windowLoop m size start n (count + 1) free
      (rest.1, bit.tdiv 32 :: rest.2)

/-- The bits `j`, `j + 1`, ... of dword `i` in `mmap_first_free_s`, `n` of them. The
window starts at `i*32 + (1 << j)`: the source adds the mask, not the bit number. -/
def windowBitLoop (m : ℤ → BitVec 32) (size i : ℕ) : ℕ → ℕ → Option ℕ × List ℤ
  | 0, _ => (none, [])
  | n + 1, j =>
    if m i &&& 1#32 <<< j == 0 then
      let window := windowLoop m size (i * 32 + 2 ^ j) (size + 1) 0 0
      if window.1 then (some (i * 4 * 8 + j), ↑i :: window.2)
      else
        let rest := windowBitLoop m size i n (j + 1)
        (rest.1, ↑i :: window.2 ++ rest.2)
    else
      let rest := windowBitLoop m size i n (j + 1)
      (rest.1, ↑i :: rest.2)

/-- The dwords `i`, `i + 1`, ... of `mmap_first_free_s`, `n` of them. -/
def windowWordLoop (m : ℤ → BitVec 32) (size : ℕ) : ℕ → ℕ → Option ℕ × List ℤ
  | 0, _ => (none, [])
  | n + 1, i =>
    let bits := if m i ≠ 0xffffffff#32 then windowBitLoop m size i 32 0 else (none, [])
    match bits.1 with
    | some frame => (some frame, ↑i :: bits.2)
    | none =>
      let rest := windowWordLoop m size n (i + 1)
      (rest.1, ↑i :: bits.2 ++ rest.2)

def mmapFirstFreeS (s : State) (size : ℕ) : Option ℕ × List ℤ :=
  if size = 0 then (none, [])
  else if size = 1 then mmapFirstFree s
  else windowWordLoop s.memoryMap size s.maxBlocks 0

/-- Byte `k` of the array, little endian within its word. -/
def storeByte (m : ℤ → BitVec 32) (k : ℕ) (c : BitVec 8) : ℤ → BitVec 32 :=
  Function.update m (k / 4 : ℕ)
    (m (k / 4 : ℕ) &&& ~~~(0xff#32 <<< (8 * (k % 4))) ||| c.setWidth 32 <<< (8 * (k % 4)))

/-- `memset` of the first `n` bytes of the array. -/
def memsetMap (m : ℤ → BitVec 32) (c : BitVec 8) : ℕ → ℤ → BitVec 32
  | 0 => m
  | n + 1 => storeByte (memsetMap m c n) n c

def initPmm (memSize : ℕ) (s : State) : State :=
  let maxBlocks := memSize / 4096
  { memorySize := memSize
    usedBlocks := maxBlocks
    maxBlocks := maxBlocks
    memoryMap := memsetMap s.memoryMap 0xff (maxBlocks / 8)
    touched := (List.range (maxBlocks / 8)).map (fun k => ((k / 4 : ℕ) : ℤ)) ++ s.touched }

def initRegionLoop (s : State) : ℕ → ℕ → State
  | _, 0 => s
  | align, blocks + 1 =>
    initRegionLoop { mmapUnset s align with usedBlocks := sub32 s.usedBlocks 1 } (align + 1) blocks

/-- The first block is always set, so that no allocation is 0. -/
def pmmInitRegion (s : State) (base size : ℕ) : State :=
  mmapSet (initRegionLoop s (base / 4096) (size / 4096)) 0

def deinitRegionLoop (s : State) : ℕ → ℕ → State
  | _, 0 => s
  | align, blocks + 1 =>
    deinitRegionLoop { mmapSet s align with usedBlocks := wrap32 (s.usedBlocks + 1) }
      (align + 1) blocks

def pmmDeinitRegion (s : State) (base size : ℕ) : State :=
  deinitRegionLoop s (base / 4096) (size / 4096)

/-- The address of the block, 0 when there is none. -/
def pmmAllocBlock (s : State) : ℕ × State :=
  if pmmGetFreeBlockCount s = 0 then (0, s)
  else
    let search := mmapFirstFree s
    let s := s.touch search.2
    match search.1 with
    | none => (0, s)
    | some frame =>
      (wrap32 (frame * 4096), { mmapSet s frame with usedBlocks := wrap32 (s.usedBlocks + 1) })

def pmmFreeBlock (s : State) (p : ℕ) : State :=
  { mmapUnset s (p / 4096) with usedBlocks := sub32 s.usedBlocks 1 }

def setLoop (s : State) : ℕ → ℕ → State
  | _, 0 => s
  | bit, n + 1 => setLoop (mmapSet s (wrap32 bit)) (bit + 1) n

def unsetLoop (s : State) : ℕ → ℕ → State
  | _, 0 => s
  | bit, n + 1 => unsetLoop (mmapUnset s (wrap32 bit)) (bit + 1) n

def pmmAllocBlocks (s : State) (size : ℕ) : ℕ × State :=
  if pmmGetFreeBlockCount s ≤ size then (0, s)
  else
    let search := mmapFirstFreeS s size
    let s := s.touch search.2
    match search.1 with
    | none => (0, s)
    | some frame =>
      let t := setLoop s frame size
      (wrap32 (frame * 4096), { t with usedBlocks := wrap32 (t.usedBlocks + size) })

def pmmFreeBlocks (s : State) (p size : ℕ) : State :=
  let t := unsetLoop s (p / 4096) size
  { t with usedBlocks := sub32 t.usedBlocks size }

end Unos.Pmm
