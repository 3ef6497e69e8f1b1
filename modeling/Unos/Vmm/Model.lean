import Unos.Library.ByteMemory
import Unos.Library.Words

namespace Unos.Vmm

open Unos.Words Unos.ByteMemory

/-- What the paging code relies on of `pmm_alloc_block`: a frame that it hands out was not
in use, and is from then on. The address is 0 when there is no frame. -/
structure FrameSource (σ : Type) where
  allocBlock : σ → ℕ × σ
  inUse : σ → ℕ → Prop
  aligned : ∀ s, (allocBlock s).1 % 4096 = 0
  bounded : ∀ s, (allocBlock s).1 < 4294967296
  fresh : ∀ s, (allocBlock s).1 ≠ 0 → ¬ inUse s (allocBlock s).1
  marks : ∀ s, (allocBlock s).1 ≠ 0 → inUse (allocBlock s).2 (allocBlock s).1
  keeps : ∀ s f, inUse s f → inUse (allocBlock s).2 f

/-- Physical memory, which is written through the identity map, the frame allocator, and the two
globals of `vmm.c`. -/
structure State (σ : Type) where
  mem : Mem
  pmm : σ
  curDir : ℕ
  kpageDir : ℕ

def pageDirectoryIndex (x : ℕ) : ℕ := x >>> 22 &&& 0x3ff

def pageTableIndex (x : ℕ) : ℕ := x >>> 12 &&& 0x3ff

def pageFrameIndex (x : ℕ) : ℕ := (wrap32 (x <<< 20) &&& 0xfff00000) >>> 20

def pageGetPhysicalAddress (x : ℕ) : ℕ := x &&& 0xfffff000

def ptePresent : ℕ := 0x1

def pteWritable : ℕ := 0x2

def pteUser : ℕ := 0x4

/-- The masks with nine digits are 64-bit constants. -/
def virt2phys (m : Mem) (dir virtAddr : ℕ) : ℕ :=
  if dir = 0 then sub32 virtAddr 0xC0000000
  else
    let table := load32 m (dir + 4 * pageDirectoryIndex virtAddr)
    if table ≠ 0 then
      let frame := load32 m (wrap32 (table &&& 0xFFFFFF000) + 4 * pageTableIndex virtAddr)
      if frame ≠ 0 then wrap32 (frame &&& 0xFFFFFF000 ||| pageFrameIndex virtAddr) else 0
    else 0

section Allocating

variable {σ : Type} (A : FrameSource σ)

/-- The first half of `vmm_map_page`: a missing table is allocated, cleared and entered.
The flag is false when there is no frame for it. -/
def ensureTable (s : State σ) (dir virt attr : ℕ) : Bool × State σ :=
  let e := dir + 4 * pageDirectoryIndex virt
  if load32 s.mem e &&& ptePresent ≠ ptePresent then
    let r := A.allocBlock s.pmm
    if r.1 = 0 then (false, { s with pmm := r.2 })
    else
      (true, { s with
        pmm := r.2
        mem := store32 (fill s.mem r.1 0 4096) e (r.1 &&& 0xFFFFF000 ||| attr) })
  else (true, s)

/-- The second half: the entry of the page is written. -/
def setPage (s : State σ) (dir phys virt attr : ℕ) : State σ :=
  let e := load32 s.mem (dir + 4 * pageDirectoryIndex virt)
  { s with
    mem := store32 s.mem (pageGetPhysicalAddress e + 4 * pageTableIndex virt)
      (wrap32 (phys &&& 0xFFFFFF000 ||| attr)) }

def vmmMapPage (s : State σ) (dir phys virt attr : ℕ) : State σ :=
  let r := ensureTable A s dir virt attr
  if r.1 then setPage r.2 dir phys virt attr else r.2

/-- `vmm_free_page` on the entry at `e`; `freeBlock` is `pmm_free_block`. -/
def vmmFreePage {σ : Type} (freeBlock : σ → ℕ → σ) (s : State σ) (e : ℕ) : State σ :=
  let p := load32 s.mem e &&& 0xFFFFF000
  { s with
    pmm := if p ≠ 0 then freeBlock s.pmm p else s.pmm
    mem := store32 s.mem e (load32 s.mem e &&& 0xFFFFFFFE) }

/-- The two loops of `init_paging`, which differ in `virt` only. -/
def tableLoop (m : Mem) (table : ℕ) : ℕ → ℕ → ℕ → Mem
  | 0, _, _ => m
  | n + 1, frame, virt =>
    tableLoop
      (store32 m (table + 4 * pageTableIndex virt)
        (frame &&& 0xFFFFF000 ||| ptePresent ||| pteWritable ||| pteUser))
      table n (frame + 4096) (virt + 4096)

/-- A directory entry as `init_paging` writes it; the `PDE_` flags have the same values. -/
def kernelPde (table : ℕ) : ℕ := table &&& 0xFFFFF000 ||| ptePresent ||| pteWritable ||| pteUser

/-- `init_paging` up to the directory: both tables map the first 4 MB. -/
def kernelTables (m : Mem) (identityTable kernelTable : ℕ) : Mem :=
  let m := fill (fill m identityTable 0 4096) kernelTable 0 4096
  let m := tableLoop m identityTable 1024 0x0 0x0
  tableLoop m kernelTable 1024 0x000000 0xC0000000

/-- The directory of `init_paging` with its two entries. -/
def kernelDirectory (m : Mem) (dir identityTable kernelTable : ℕ) : Mem :=
  let m := fill m dir 0 4096
  let m := store32 m (dir + 4 * pageDirectoryIndex 0x00000000) (kernelPde identityTable)
  store32 m (dir + 4 * pageDirectoryIndex 0xC0000000) (kernelPde kernelTable)

/-- It returns early when a frame is missing. -/
def initPaging (s : State σ) : State σ :=
  let identity := A.allocBlock s.pmm
  if identity.1 = 0 then { s with pmm := identity.2 }
  else
    let kernel := A.allocBlock identity.2
    if kernel.1 = 0 then
      { s with mem := fill s.mem identity.1 0 4096, pmm := kernel.2 }
    else
      let dir := A.allocBlock kernel.2
      let m := kernelTables s.mem identity.1 kernel.1
      if dir.1 = 0 then { s with mem := m, pmm := dir.2, kpageDir := 0 }
      else
        { mem := kernelDirectory m dir.1 identity.1 kernel.1
          pmm := dir.2
          kpageDir := dir.1
          curDir := dir.1 }

end Allocating

end Unos.Vmm
