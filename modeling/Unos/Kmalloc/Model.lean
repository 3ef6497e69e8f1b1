import Unos.Library.ByteMemory
import Unos.Library.Words

namespace Unos.Kmalloc

open Unos.Words Unos.ByteMemory

/-- The file-scope variables of `kmalloc.c` and `dmm.c`, and the memory. Pointers and sizes are 32
bits wide. -/
structure State where
  mem : Mem
  heapListp : ℕ
  memHeap : ℕ
  memBrk : ℕ
  memMaxAddr : ℕ

/-- Why a call does not return: `PANIC` halts, and a loop may run on. -/
inductive Stop
  | panic
  | outOfFuel
  deriving DecidableEq

def wsize : ℕ := 4
def dsize : ℕ := 8
def chunksize : ℕ := 4096
def overhead : ℕ := 8

def pack (size alloc : ℕ) : ℕ := size ||| alloc

def get (m : Mem) (p : ℕ) : ℕ := load32 m p

def put (m : Mem) (p val : ℕ) : Mem := store32 m p val

/-- The mask is `~0x07`. -/
def getSize (m : Mem) (p : ℕ) : ℕ := get m p &&& 0xFFFFFFF8

/-- The mask is `~0x1`. -/
def getAlloc (m : Mem) (p : ℕ) : ℕ := get m p &&& 0xFFFFFFFE

def hdrp (bp : ℕ) : ℕ := sub32 bp wsize

def ftrp (m : Mem) (bp : ℕ) : ℕ := sub32 (wrap32 (bp + getSize m (hdrp bp))) dsize

def nextBlkp (m : Mem) (bp : ℕ) : ℕ := wrap32 (bp + getSize m (sub32 bp wsize))

def prevBlkp (m : Mem) (bp : ℕ) : ℕ := sub32 bp (getSize m (sub32 bp dsize))

def dmmInit (s : State) (start size : ℕ) : State :=
  { s with memHeap := start, memBrk := start, memMaxAddr := wrap32 (start + size) }

/-- `incr` is passed as an `int`, which is negative from `2^31` on. -/
def dmmSbrk (s : State) (incr : ℕ) : Except Stop (ℕ × State) :=
  if 0x80000000 ≤ incr ∨ s.memMaxAddr < wrap32 (s.memBrk + incr) then .error .panic
  else .ok (s.memBrk, { s with memBrk := wrap32 (s.memBrk + incr) })

def coalesce (m : Mem) (bp : ℕ) : ℕ × Mem :=
  let prevAlloc := getAlloc m (ftrp m (prevBlkp m bp))
  let nextAlloc := getAlloc m (hdrp (nextBlkp m bp))
  let size := getSize m (hdrp bp)
  if prevAlloc ≠ 0 ∧ nextAlloc ≠ 0 then (bp, m)
  else if prevAlloc ≠ 0 ∧ nextAlloc = 0 then
    let size := wrap32 (size + getSize m (hdrp (nextBlkp m bp)))
    let m := put m (hdrp bp) (pack size 0)
    let m := put m (ftrp m bp) (pack size 0)
    (bp, m)
  else if prevAlloc = 0 ∧ nextAlloc ≠ 0 then
    let size := wrap32 (size + getSize m (hdrp (prevBlkp m bp)))
    let m := put m (ftrp m bp) (pack size 0)
    let m := put m (hdrp (prevBlkp m bp)) (pack size 0)
    (prevBlkp m bp, m)
  else
    let size := wrap32 (size + (getSize m (hdrp (prevBlkp m bp)) +
      getSize m (ftrp m (nextBlkp m bp))))
    let m := put m (hdrp (prevBlkp m bp)) (pack size 0)
    let m := put m (ftrp m (nextBlkp m bp)) (pack size 0)
    (prevBlkp m bp, m)

/-- The new block, or 0 where the source returns `NULL`: a break from `2^31` on is negative
as an `int`. -/
def extendHeap (s : State) (words : ℕ) : Except Stop (ℕ × State) :=
  let size := if words % 2 ≠ 0 then wrap32 ((words + 1) * wsize) else wrap32 (words * wsize)
  match dmmSbrk s size with
  | .error e => .error e
  | .ok (bp, s) =>
    if 0x80000000 ≤ bp then .ok (0, s)
    else
      let m := put s.mem (hdrp bp) (pack size 0)
      let m := put m (ftrp m bp) (pack size 0)
      let m := put m (hdrp (nextBlkp m bp)) (pack 0 1)
      let r := coalesce m bp
      .ok (r.1, { s with mem := r.2 })

def place (m : Mem) (bp asize : ℕ) : Mem :=
  let csize := getSize m (hdrp bp)
  if dsize + overhead ≤ sub32 csize asize then
    let m := put m (hdrp bp) (pack asize 1)
    let m := put m (ftrp m bp) (pack asize 1)
    let bp := nextBlkp m bp
    let m := put m (hdrp bp) (pack (sub32 csize asize) 0)
    put m (ftrp m bp) (pack (sub32 csize asize) 0)
  else
    let m := put m (hdrp bp) (pack csize 1)
    put m (ftrp m bp) (pack csize 1)

/-- The loop of `find_fit` from `bp` on; 0 is `NULL`. -/
def findFit (m : Mem) (asize : ℕ) : ℕ → ℕ → Except Stop ℕ
  | 0, _ => .error .outOfFuel
  | fuel + 1, bp =>
    if 0 < getSize m (hdrp bp) then
      if getAlloc m (hdrp bp) = 0 ∧ asize ≤ getSize m (hdrp bp) then .ok bp
      else findFit m asize fuel (nextBlkp m bp)
    else .ok 0

/-- One turn of the loop for each byte of the heap is enough. -/
def State.fuel (s : State) : ℕ := s.memBrk - s.heapListp + 1

/-- The value that is returned, `-1` for a heap that cannot be set up. -/
def mmInit (s : State) : Except Stop (ℤ × State) :=
  match dmmSbrk s (4 * wsize) with
  | .error e => .error e
  | .ok (heapListp, s) =>
    let s := { s with heapListp := heapListp }
    if heapListp = 0 then .ok (-1, s)
    else
      let m := put s.mem heapListp 0
      let m := put m (wrap32 (heapListp + wsize)) (pack overhead 1)
      let m := put m (wrap32 (heapListp + dsize)) (pack overhead 1)
      let m := put m (wrap32 (heapListp + (wsize + dsize))) (pack 0 1)
      let s := { s with mem := m, heapListp := wrap32 (heapListp + dsize) }
      match extendHeap s (chunksize / wsize) with
      | .error e => .error e
      | .ok (bp, s) => .ok (if bp = 0 then -1 else 0, s)

def adjust (size : ℕ) : ℕ :=
  if size ≤ dsize then dsize + overhead
  else wrap32 (dsize * (wrap32 (size + overhead + (dsize - 1)) / dsize))

/-- The pointer that is returned, 0 for `NULL`. -/
def mmMalloc (s : State) (size : ℕ) : Except Stop (ℕ × State) :=
  if size = 0 then .ok (0, s)
  else
    let asize := adjust size
    match findFit s.mem asize s.fuel s.heapListp with
    | .error e => .error e
    | .ok bp =>
      if bp ≠ 0 then .ok (bp, { s with mem := place s.mem bp asize })
      else
        let extendsize := if chunksize < asize then asize else chunksize
        match extendHeap s (extendsize / wsize) with
        | .error e => .error e
        | .ok (bp, s) =>
          if bp = 0 then .ok (0, s) else .ok (bp, { s with mem := place s.mem bp asize })

def mmFree (s : State) (bp : ℕ) : State :=
  let size := getSize s.mem (hdrp bp)
  let m := put s.mem (hdrp bp) (pack size 0)
  let m := put m (ftrp m bp) (pack size 0)
  { s with mem := (coalesce m bp).2 }

end Unos.Kmalloc
