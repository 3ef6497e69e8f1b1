import Unos.Library.Links
import Unos.Library.Words

namespace Unos.DList

open Unos.Words Unos.Links

/-- A `list_t` of `lib/list.c`, and the fields of `listnode_t` at each address; 0 is `NULL`. Writing
through it is not stopped, so it has fields like any other address. `faults` records every access to
it and to a node that is gone, that is, freed or handed back by an earlier operation. -/
structure State where
  head : ℕ
  tail : ℕ
  size : ℕ
  prev : ℕ → ℕ
  next : ℕ → ℕ
  val : ℕ → ℕ
  gone : List ℕ
  faults : List ℕ

/-- Record an access to the node `a`. -/
def State.deref (s : State) (a : ℕ) : State :=
  { s with faults := if a = 0 ∨ a ∈ s.gone then a :: s.faults else s.faults }

def State.setPrev (s : State) (a v : ℕ) : State :=
  { s.deref a with prev := Function.update s.prev a v }

def State.setNext (s : State) (a v : ℕ) : State :=
  { s.deref a with next := Function.update s.next a v }

def State.setVal (s : State) (a v : ℕ) : State :=
  { s.deref a with val := Function.update s.val a v }

/-- The allocation of a node: `kcalloc` returns `t`, zeroed. -/
def State.kcalloc (s : State) (t : ℕ) : State :=
  { s with
    prev := Function.update s.prev t 0
    next := Function.update s.next t 0
    val := Function.update s.val t 0
    gone := s.gone.filter fun a => a ≠ t }

def State.kfree (s : State) (t : ℕ) : State := { s with gone := t :: s.gone }

/-- The zeroed `list_t` of `list_create`; `fields` is the memory around it. -/
def listCreate (prev next val : ℕ → ℕ) : State where
  head := 0
  tail := 0
  size := 0
  prev := prev
  next := next
  val := val
  gone := []
  faults := []

def listInsertFront (s : State) (t v : ℕ) : ℕ × State :=
  let s := s.kcalloc t
  let s := s.setPrev s.head t
  let s := s.setNext t s.head
  let s := s.setVal t v
  let s := if s.head = 0 then { s with tail := t } else s
  (t, { s with head := t, size := wrap32 (s.size + 1) })

def listInsertBack (s : State) (t v : ℕ) : State :=
  let s := s.kcalloc t
  let s := s.setPrev t s.tail
  let s := if s.tail ≠ 0 then s.setNext s.tail t else s
  let s := s.setVal t v
  let s := if s.head = 0 then { s with head := t } else s
  { s with tail := t, size := wrap32 (s.size + 1) }

def listPush (s : State) (t v : ℕ) : State := listInsertBack s t v

def listEnqueue (s : State) (t v : ℕ) : State := (listInsertFront s t v).2

def listRemoveFront (s : State) : ℕ × State :=
  if s.head = 0 then (0, s)
  else
    let t := s.head
    let s := s.deref t
    let v := s.val t
    let s := { s with head := s.next t }
    let s := if s.head ≠ 0 then s.setPrev s.head 0 else s
    let s := s.kfree t
    (v, { s with size := sub32 s.size 1 })

def listRemoveBack (s : State) : ℕ × State :=
  if s.head = 0 then (0, s)
  else
    let t := s.tail
    let s := s.deref t
    let v := s.val t
    let s := { s with tail := s.prev t }
    let s := if s.tail ≠ 0 then s.setNext s.tail 0 else s
    let s := s.kfree t
    (v, { s with size := sub32 s.size 1 })

def listRemoveNode (s : State) (node : ℕ) : ℕ × State :=
  let s := s.deref node
  let v := s.val node
  if s.head = node then listRemoveFront s
  else if s.tail = node then listRemoveBack s
  else
    let s := s.setPrev (s.next node) (s.prev node)
    let s := s.setNext (s.prev node) (s.next node)
    let s := { s with size := sub32 s.size 1 }
    (v, s.kfree node)

/-- The node is handed to the caller and is not part of the list any more. -/
def listPop (s : State) : ℕ × State :=
  if s.head = 0 then (0, s)
  else
    let t := s.tail
    let s := s.deref t
    let s := { s with tail := s.prev t }
    let s := if s.tail ≠ 0 then s.setNext s.tail 0 else s
    (t, { s with size := sub32 s.size 1, gone := t :: s.gone })

def listDequeue (s : State) : ℕ × State := listPop s

def listSize (s : State) : ℕ := s.size

def listPeekFront (s : State) : ℕ := if s.head = 0 then 0 else s.val s.head

def listPeekBack (s : State) : ℕ := if s.tail = 0 then 0 else s.val s.tail

end Unos.DList
