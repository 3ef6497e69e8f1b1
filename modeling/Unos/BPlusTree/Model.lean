import Mathlib.Data.Finset.Card
import Unos.Library.Arrays

namespace Unos.BPlusTree

open Unos.Arrays

/-- The fields of `node` in `bplus_tree.c`; `next` is for printing. An index beyond the two arrays
is never used by the loops that have a bound, and ends the others. -/
structure Node where
  pointers : ℕ → ℕ
  keys : ℕ → ℤ
  parent : ℕ
  isLeaf : Bool
  numKeys : ℕ

/-- The nodes, the values of the records, and the addresses in use, 0 standing for `NULL`.
Recursions over it take fuel; `none` means that it ran out, that a loop left its array, or that the
program exited. -/
structure Heap where
  nodes : ℕ → Node
  records : ℕ → ℤ
  live : Finset ℕ
  calls : ℕ

/-- What the code relies on of `malloc`, which may depend on all that happened before. -/
structure Malloc where
  next : Heap → ℕ
  fresh : ∀ h, next h ∉ h.live
  ne_zero : ∀ h, next h ≠ 0

namespace Heap

def modify (h : Heap) (a : ℕ) (f : Node → Node) : Heap :=
  { h with nodes := Function.update h.nodes a (f (h.nodes a)) }

def alloc (h : Heap) (a : ℕ) : Heap := { h with live := insert a h.live, calls := h.calls + 1 }

def free (h : Heap) (a : ℕ) : Heap := { h with live := h.live.erase a }

end Heap

def cut (length : ℕ) : ℕ := if length % 2 = 0 then length / 2 else length / 2 + 1

section Allocating

variable (M : Malloc)

def makeRecord (h : Heap) (value : ℤ) : ℕ × Heap :=
  let a := M.next h
  (a, { h.alloc a with records := Function.update h.records a value })

/-- The arrays hold what the memory held before. -/
def makeNode (h : Heap) : ℕ × Heap :=
  let a := M.next h
  (a, (h.alloc a).modify a fun nd => { nd with isLeaf := false, numKeys := 0, parent := 0 })

def makeLeaf (h : Heap) : ℕ × Heap :=
  let r := makeNode M h
  (r.1, r.2.modify r.1 fun nd => { nd with isLeaf := true })

end Allocating

/-- The child of `c` that `find_leaf` goes on to. -/
def childIndex (nd : Node) (key : ℤ) : ℕ := scan (fun i => decide (nd.keys i ≤ key)) nd.numKeys 0

def findLeafLoop (h : Heap) (key : ℤ) : ℕ → ℕ → Option ℕ
  | 0, _ => none
  | fuel + 1, c =>
    if (h.nodes c).isLeaf then some c
    else findLeafLoop h key fuel ((h.nodes c).pointers (childIndex (h.nodes c) key))

def findLeaf (h : Heap) (root : ℕ) (key : ℤ) : Option ℕ :=
  if root = 0 then some 0 else findLeafLoop h key (h.live.card + 1) root

/-- The record and the leaf it was searched in. -/
def find (h : Heap) (root : ℕ) (key : ℤ) : Option (ℕ × ℕ) :=
  if root = 0 then some (0, 0)
  else do
    let leaf ← findLeaf h root key
    let nd := h.nodes leaf
    let i := scan (fun i => nd.keys i != key) nd.numKeys 0
    some (if i = nd.numKeys then 0 else nd.pointers i, leaf)

/-- The first `n` children of `a` get it as their parent. -/
def setParents (h : Heap) (a : ℕ) : ℕ → Heap
  | 0 => h
  | i + 1 => (setParents h a i).modify ((h.nodes a).pointers i) fun nd => { nd with parent := a }

def getLeftIndex (parent : Node) (left : ℕ) : ℕ :=
  scan (fun i => parent.pointers i != left) (parent.numKeys + 1) 0

/-- A key and a pointer at `i`, the ones behind moved up. -/
def insertEntry (nd : Node) (i : ℕ) (key : ℤ) (pointer : ℕ) : Node :=
  { nd with
    keys := Function.update (shiftUp nd.keys i nd.numKeys) i key
    pointers := Function.update (shiftUp nd.pointers i nd.numKeys) i pointer
    numKeys := nd.numKeys + 1 }

def insertIntoLeaf (h : Heap) (leaf : ℕ) (key : ℤ) (pointer : ℕ) : Heap :=
  h.modify leaf fun nd =>
    insertEntry nd (scan (fun i => decide (nd.keys i < key)) nd.numKeys 0) key pointer

/-- `insert_into_node`: the pointer goes behind the one at `leftIndex`. -/
def insertIntoNode (nd : Node) (leftIndex : ℕ) (key : ℤ) (right : ℕ) : Node :=
  { nd with
    keys := Function.update (shiftUp nd.keys leftIndex nd.numKeys) leftIndex key
    pointers :=
      Function.update (shiftUp nd.pointers (leftIndex + 1) (nd.numKeys + 1)) (leftIndex + 1) right
    numKeys := nd.numKeys + 1 }

section Order

variable (M : Malloc) (order : ℕ)

/-- `insert_into_leaf_after_splitting` up to the call of `insert_into_parent`, with the new
leaf made. Every cell of the temporary arrays is written before it is read. -/
def splitLeaf (h : Heap) (leaf newLeaf : ℕ) (key : ℤ) (pointer : ℕ) : Heap :=
  let nd := h.nodes leaf
  let i := scan (fun i => decide (nd.keys i < key)) (order - 1) 0
  let tempKeys := Function.update (copyAround (fun _ => 0) nd.keys i 0 0 nd.numKeys) i key
  let tempPointers :=
    Function.update (copyAround (fun _ => 0) nd.pointers i 0 0 nd.numKeys) i pointer
  let split := cut (order - 1)
  let h := h.modify leaf fun nd => { nd with
    pointers := copyRange nd.pointers tempPointers 0 0 split
    keys := copyRange nd.keys tempKeys 0 0 split
    numKeys := split }
  let h := h.modify newLeaf fun nd => { nd with
    pointers := copyRange nd.pointers tempPointers 0 split (order - split)
    keys := copyRange nd.keys tempKeys 0 split (order - split)
    numKeys := order - split }
  let h := h.modify newLeaf fun nd => { nd with
    pointers := Function.update nd.pointers (order - 1) ((h.nodes leaf).pointers (order - 1)) }
  let h := h.modify leaf fun nd => { nd with
    pointers := Function.update nd.pointers (order - 1) newLeaf }
  let h := h.modify leaf fun nd => { nd with
    pointers := fillRange nd.pointers 0 nd.numKeys (order - 1 - nd.numKeys) }
  let h := h.modify newLeaf fun nd => { nd with
    pointers := fillRange nd.pointers 0 nd.numKeys (order - 1 - nd.numKeys) }
  h.modify newLeaf fun nd => { nd with parent := (h.nodes leaf).parent }

/-- `insert_into_node_after_splitting` up to the call of `insert_into_parent`, with the new
node made. -/
def splitNode (h : Heap) (oldNode newNode leftIndex : ℕ) (key : ℤ) (right : ℕ) : Heap × ℤ :=
  let nd := h.nodes oldNode
  let tempPointers := Function.update
    (copyAround (fun _ => 0) nd.pointers (leftIndex + 1) 0 0 (nd.numKeys + 1)) (leftIndex + 1) right
  let tempKeys := Function.update
    (copyAround (fun _ => 0) nd.keys leftIndex 0 0 nd.numKeys) leftIndex key
  let split := cut order
  let h := h.modify oldNode fun nd => { nd with
    pointers :=
      Function.update (copyRange nd.pointers tempPointers 0 0 (split - 1)) (split - 1)
        (tempPointers (split - 1))
    keys := copyRange nd.keys tempKeys 0 0 (split - 1)
    numKeys := split - 1 }
  let h := h.modify newNode fun nd => { nd with
    pointers :=
      Function.update (copyRange nd.pointers tempPointers 0 split (order - split)) (order - split)
        (tempPointers order)
    keys := copyRange nd.keys tempKeys 0 split (order - split)
    numKeys := order - split }
  let h := h.modify newNode fun nd => { nd with parent := (h.nodes oldNode).parent }
  (setParents h newNode ((h.nodes newNode).numKeys + 1), tempKeys (split - 1))

def insertIntoNewRoot (h : Heap) (left : ℕ) (key : ℤ) (right : ℕ) : Heap × ℕ :=
  let r := makeNode M h
  let h := r.2.modify r.1 fun nd => { nd with
    keys := Function.update nd.keys 0 key
    pointers := Function.update (Function.update nd.pointers 0 left) 1 right
    numKeys := nd.numKeys + 1
    parent := 0 }
  let h := h.modify left fun nd => { nd with parent := r.1 }
  (h.modify right fun nd => { nd with parent := r.1 }, r.1)

def insertIntoParent : ℕ → Heap → ℕ → ℕ → ℤ → ℕ → Option (Heap × ℕ)
  | 0, _, _, _, _, _ => none
  | fuel + 1, h, root, left, key, right =>
    let parent := (h.nodes left).parent
    if parent = 0 then some (insertIntoNewRoot M h left key right)
    else
      let leftIndex := getLeftIndex (h.nodes parent) left
      if (h.nodes parent).numKeys < order - 1 then
        some (h.modify parent fun nd => insertIntoNode nd leftIndex key right, root)
      else
        let r := makeNode M h
        let s := splitNode order r.2 parent r.1 leftIndex key right
        insertIntoParent fuel s.1 root parent s.2 r.1

def insertIntoLeafAfterSplitting (h : Heap) (root leaf : ℕ) (key : ℤ) (pointer : ℕ) :
    Option (Heap × ℕ) :=
  let r := makeLeaf M h
  let h := splitLeaf order r.2 leaf r.1 key pointer
  insertIntoParent M order (h.live.card + 1) h root leaf ((h.nodes r.1).keys 0) r.1

def startNewTree (h : Heap) (key : ℤ) (pointer : ℕ) : Heap × ℕ :=
  let r := makeLeaf M h
  (r.2.modify r.1 fun nd => { nd with
    keys := Function.update nd.keys 0 key
    pointers := Function.update (Function.update nd.pointers 0 pointer) (order - 1) 0
    parent := 0
    numKeys := nd.numKeys + 1 }, r.1)

def insert (h : Heap) (root : ℕ) (key value : ℤ) : Option (Heap × ℕ) := do
  let found ← find h root key
  if found.1 ≠ 0 then some ({ h with records := Function.update h.records found.1 value }, root)
  else
    let r := makeRecord M h value
    if root = 0 then some (startNewTree M order r.2 key r.1)
    else
      let leaf ← findLeaf r.2 root key
      if (r.2.nodes leaf).numKeys < order - 1 then some (insertIntoLeaf r.2 leaf key r.1, root)
      else insertIntoLeafAfterSplitting M order r.2 root leaf key r.1

def getNeighborIndex (h : Heap) (n : ℕ) : Option ℤ :=
  let parent := h.nodes (h.nodes n).parent
  let i := scan (fun i => parent.pointers i != n) (parent.numKeys + 1) 0
  if i = parent.numKeys + 1 then none else some (i - 1)

/-- The two searches have no bound in the source; they end with the arrays here. -/
def removeEntryFromNode (nd : Node) (key : ℤ) (pointer : ℕ) : Option Node :=
  let i := scan (fun i => nd.keys i != key) (order - 1) 0
  let j := scan (fun i => nd.pointers i != pointer) order 0
  if i = order - 1 ∨ j = order then none
  else
    let numPointers := if nd.isLeaf then nd.numKeys else nd.numKeys + 1
    let keys := shiftDown nd.keys (i + 1) (nd.numKeys - (i + 1))
    let pointers := shiftDown nd.pointers (j + 1) (numPointers - (j + 1))
    let numKeys := nd.numKeys - 1
    some { nd with
      keys := keys
      pointers :=
        if nd.isLeaf then fillRange pointers 0 numKeys (order - 1 - numKeys)
        else fillRange pointers 0 (numKeys + 1) (order - (numKeys + 1))
      numKeys := numKeys }

def adjustRoot (h : Heap) (root : ℕ) : Heap × ℕ :=
  if 0 < (h.nodes root).numKeys then (h, root)
  else if (h.nodes root).isLeaf then (h.free root, 0)
  else
    let newRoot := (h.nodes root).pointers 0
    ((h.modify newRoot fun nd => { nd with parent := 0 }).free root, newRoot)

/-- `coalesce_nodes` between the exchange and the call of `delete_entry`: `neighbor` is the
left one of the two. -/
def mergeNodes (h : Heap) (n neighbor : ℕ) (kPrime : ℤ) : Heap :=
  let nd := h.nodes n
  let i := (h.nodes neighbor).numKeys
  if nd.isLeaf then
    h.modify neighbor fun nb => { nb with
      keys := copyRange nb.keys nd.keys i 0 nd.numKeys
      pointers :=
        Function.update (copyRange nb.pointers nd.pointers i 0 nd.numKeys) (order - 1)
          (nd.pointers (order - 1))
      numKeys := nb.numKeys + nd.numKeys }
  else
    let h := h.modify neighbor fun nb => { nb with
      keys := copyRange (Function.update nb.keys i kPrime) nd.keys (i + 1) 0 nd.numKeys
      pointers :=
        Function.update (copyRange nb.pointers nd.pointers (i + 1) 0 nd.numKeys)
          (i + 1 + nd.numKeys) (nd.pointers nd.numKeys)
      numKeys := nb.numKeys + 1 + nd.numKeys }
    let h := h.modify n fun nd => { nd with numKeys := 0 }
    setParents h neighbor ((h.nodes neighbor).numKeys + 1)

/-- The last entry of the left neighbor is moved to the front of `n`. -/
def borrowLeft (h : Heap) (n neighbor kPrimeIndex : ℕ) (kPrime : ℤ) : Heap :=
  let nd := h.nodes n
  let nb := h.nodes neighbor
  if nd.isLeaf then
    let h := h.modify n fun nd => { nd with
      keys := Function.update (shiftUp nd.keys 0 nd.numKeys) 0 (nb.keys (nb.numKeys - 1))
      pointers := Function.update (shiftUp nd.pointers 0 nd.numKeys) 0
        (nb.pointers (nb.numKeys - 1))
      numKeys := nd.numKeys + 1 }
    let h := h.modify neighbor fun nb => { nb with
      pointers := Function.update nb.pointers (nb.numKeys - 1) 0
      numKeys := nb.numKeys - 1 }
    h.modify nd.parent fun p => { p with
      keys := Function.update p.keys kPrimeIndex ((h.nodes n).keys 0) }
  else
    let h := h.modify n fun nd => { nd with
      keys := Function.update (shiftUp nd.keys 0 nd.numKeys) 0 kPrime
      pointers := Function.update
        (shiftUp (Function.update nd.pointers (nd.numKeys + 1)
          (nd.pointers nd.numKeys)) 0 nd.numKeys)
        0 (nb.pointers nb.numKeys)
      numKeys := nd.numKeys + 1 }
    let h := h.modify (nb.pointers nb.numKeys) fun tmp => { tmp with parent := n }
    let h := h.modify neighbor fun nb => { nb with
      pointers := Function.update nb.pointers nb.numKeys 0
      numKeys := nb.numKeys - 1 }
    h.modify nd.parent fun p => { p with
      keys := Function.update p.keys kPrimeIndex (nb.keys (nb.numKeys - 1)) }

/-- The first entry of the right neighbor is moved to the end of `n`. -/
def borrowRight (h : Heap) (n neighbor kPrimeIndex : ℕ) (kPrime : ℤ) : Heap :=
  let nd := h.nodes n
  let nb := h.nodes neighbor
  let h :=
    if nd.isLeaf then
      let h := h.modify n fun nd => { nd with
        keys := Function.update nd.keys nd.numKeys (nb.keys 0)
        pointers := Function.update nd.pointers nd.numKeys (nb.pointers 0)
        numKeys := nd.numKeys + 1 }
      h.modify nd.parent fun p => { p with keys := Function.update p.keys kPrimeIndex (nb.keys 1) }
    else
      let h := h.modify n fun nd => { nd with
        keys := Function.update nd.keys nd.numKeys kPrime
        pointers := Function.update nd.pointers (nd.numKeys + 1) (nb.pointers 0)
        numKeys := nd.numKeys + 1 }
      let h := h.modify (nb.pointers 0) fun tmp => { tmp with parent := n }
      h.modify nd.parent fun p => { p with keys := Function.update p.keys kPrimeIndex (nb.keys 0) }
  h.modify neighbor fun nb => { nb with
    keys := shiftDown nb.keys 1 (nb.numKeys - 1)
    pointers :=
      let pointers := shiftDown nb.pointers 1 (nb.numKeys - 1)
      if nd.isLeaf then pointers
      else Function.update pointers (nb.numKeys - 1) (pointers nb.numKeys)
    numKeys := nb.numKeys - 1 }

def redistributeNodes (h : Heap) (n neighbor : ℕ) (neighborIndex : ℤ) (kPrimeIndex : ℕ)
    (kPrime : ℤ) : Heap :=
  if neighborIndex ≠ -1 then borrowLeft h n neighbor kPrimeIndex kPrime
  else borrowRight h n neighbor kPrimeIndex kPrime

def deleteEntry : ℕ → Heap → ℕ → ℕ → ℤ → ℕ → Option (Heap × ℕ)
  | 0, _, _, _, _, _ => none
  | fuel + 1, h, root, n, key, pointer => do
    let nd ← removeEntryFromNode order (h.nodes n) key pointer
    let h := h.modify n fun _ => nd
    if n = root then some (adjustRoot h root)
    else
      let minKeys := if nd.isLeaf then cut (order - 1) else cut order - 1
      if minKeys ≤ nd.numKeys then some (h, root)
      else
        let neighborIndex ← getNeighborIndex h n
        let kPrimeIndex := if neighborIndex = -1 then 0 else neighborIndex.toNat
        let parent := h.nodes nd.parent
        let kPrime := parent.keys kPrimeIndex
        let neighbor :=
          if neighborIndex = -1 then parent.pointers 1 else parent.pointers neighborIndex.toNat
        let capacity := if nd.isLeaf then order else order - 1
        if (h.nodes neighbor).numKeys + nd.numKeys < capacity then
          -- `coalesce_nodes` exchanges the two when the neighbor is the right one
          let pair := if neighborIndex = -1 then (neighbor, n) else (n, neighbor)
          let h := mergeNodes order h pair.1 pair.2 kPrime
          let r ← deleteEntry fuel h root (h.nodes pair.1).parent kPrime pair.1
          some (r.1.free pair.1, r.2)
        else some (redistributeNodes h n neighbor neighborIndex kPrimeIndex kPrime, root)

def delete (h : Heap) (root : ℕ) (key : ℤ) : Option (Heap × ℕ) := do
  let found ← find h root key
  if found.1 ≠ 0 ∧ found.2 ≠ 0 then
    let r ← deleteEntry order (h.live.card + 1) h root found.2 key found.1
    some (r.1.free found.1, r.2)
  else some (h, root)

end Order

end Unos.BPlusTree
