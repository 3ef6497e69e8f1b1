import Unos.Library.ByteMemory
import Unos.Library.Words

namespace Unos.Malloc

open Unos.Words Unos.ByteMemory

/-- The file-scope variables of `malloc.c`, and the memory they point into. A block is a header
`alloc_t`, a `status` byte and the `size` four bytes later, then the payload, then four bytes that
are never used. -/
structure State where
  mem : Mem
  lastAlloc : ℕ
  heapEnd : ℕ
  heapBegin : ℕ
  pheapBegin : ℕ
  pheapEnd : ℕ
  pheapDesc : ℕ
  memoryUsed : ℕ

/-- Why a call does not return: `PANIC` halts, and a loop may run on. -/
inductive Stop
  | panic
  | outOfFuel
  deriving DecidableEq

def allocStatus (m : Mem) (a : ℕ) : ℕ := load8 m a

def allocSize (m : Mem) (a : ℕ) : ℕ := load32 m (a + 4)

/-- Where the walk continues after the header `mem`. -/
def nextHeader (m : Mem) (mem : ℕ) : ℕ := wrap32 (mem + allocSize m mem + 8 + 4)

/-- How the loop of `malloc` ends. -/
inductive Walk
  | reuse (mem : ℕ)
  | nalloc
  | outOfFuel

/-- The loop of `malloc` from the header `mem` on. -/
def mallocWalk (m : Mem) (lastAlloc size : ℕ) : ℕ → ℕ → Walk
  | 0, _ => .outOfFuel
  | fuel + 1, mem =>
    if mem < lastAlloc then
      if allocSize m mem = 0 then .nalloc
      else if allocStatus m mem ≠ 0 then mallocWalk m lastAlloc size fuel (nextHeader m mem)
      else if size ≤ allocSize m mem then .reuse mem
      else mallocWalk m lastAlloc size fuel (nextHeader m mem)
    else .nalloc

/-- One turn of the loop for each byte of the heap is enough. -/
def State.fuel (s : State) : ℕ := s.lastAlloc - s.heapBegin + 1

/-- The pointer that `malloc` returns, 0 for a request of no bytes. -/
def malloc (s : State) (size : ℕ) : Except Stop (ℕ × State) :=
  if size = 0 then .ok (0, s)
  else match mallocWalk s.mem s.lastAlloc size s.fuel s.heapBegin with
    | .outOfFuel => .error .outOfFuel
    | .reuse mem =>
      .ok (wrap32 (mem + 8),
        { s with
          mem := fill (store8 s.mem mem 1) (wrap32 (mem + 8)) 0 size
          memoryUsed := wrap32 (s.memoryUsed + size + 8) })
    | .nalloc =>
      if s.heapEnd ≤ wrap32 (s.lastAlloc + size + 8) then .error .panic
      else
        let alloc := s.lastAlloc
        .ok (wrap32 (alloc + 8),
          { s with
            mem := fill (store32 (store8 s.mem alloc 1) (alloc + 4) size)
              (wrap32 (alloc + 8)) 0 size
            lastAlloc := wrap32 (alloc + size + 8 + 4)
            memoryUsed := wrap32 (s.memoryUsed + size + 4 + 8) })

/-- The product is one of 32 bits. The payload is cleared once more. -/
def kcalloc (s : State) (num size : ℕ) : Except Stop (ℕ × State) :=
  match malloc s (wrap32 (num * size)) with
  | .ok (p, t) => .ok (p, { t with mem := fill t.mem p 0 (wrap32 (num * size)) })
  | .error e => .error e

def free (s : State) (mem : ℕ) : State :=
  let alloc := sub32 mem 8
  { s with
    mem := store8 s.mem alloc 0
    memoryUsed := sub32 s.memoryUsed (wrap32 (allocSize s.mem alloc + 8)) }

def maxPageAlignedAllocs : ℕ := 32

/-- `init_mm` before its allocation; `stop` is the argument `end`. -/
def initHeap (s : State) (start stop : ℕ) : State :=
  let pheapBegin := sub32 stop (maxPageAlignedAllocs * 4096)
  { s with
    lastAlloc := start
    heapBegin := start
    pheapEnd := stop
    pheapBegin := pheapBegin
    heapEnd := pheapBegin
    mem := fill s.mem start 0 (sub32 pheapBegin start) }

def initMm (s : State) (start stop : ℕ) : Except Stop State :=
  match malloc (initHeap s start stop) maxPageAlignedAllocs with
  | .ok (p, t) => .ok { t with pheapDesc := p }
  | .error e => .error e

end Unos.Malloc
