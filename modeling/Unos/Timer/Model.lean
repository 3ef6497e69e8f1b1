import Unos.Library.Runs
import Unos.Library.Words

namespace Unos.Timer

open Unos.Runs Unos.Words

/-- A `time_list_node_t` without `sec`, which nothing reads: `offset` is the argument `sec` in
ticks, since the conversion `sec * frequency_g` is floating point. A callback is known by its node,
as one function can be registered more than once. -/
structure TimeListNode (κ : Type*) where
  callback : κ
  offset : ℕ
  t : ℕ
  next : ℕ

/-- The globals of `timer.c`, and the nodes at each address. `live` lists the nodes that
`malloc` has returned, the last one first. -/
structure State (κ : Type*) where
  jiffies : ℕ
  head : ℕ
  nodes : ℕ → TimeListNode κ
  live : List ℕ

variable {κ : Type*}

/-- Before the first registration; `nodes` is what the memory holds. -/
def State.boot (nodes : ℕ → TimeListNode κ) : State κ where
  jiffies := 0
  head := 0
  nodes := nodes
  live := []

/-- `malloc` returns `node`. -/
def registerTimerCallback (s : State κ) (callback : κ) (offset node : ℕ) : State κ where
  jiffies := s.jiffies
  head := node
  nodes := Function.update s.nodes node
    { callback := callback, offset := offset, t := wrap32 (s.jiffies + offset), next := s.head }
  live := node :: s.live

/-- The `do`-`while` loop of `timer_handler`: the nodes whose callbacks it invokes, in that
order. The callbacks return and do not touch the list. -/
def dispatchLoop (s : State κ) : ℕ → ℕ → Option (List ℕ)
  | 0, _ => none
  | fuel + 1, current =>
    let called := if s.jiffies % (s.nodes current).offset = 0 then [current] else []
    let current := (s.nodes current).next
    if current ≠ 0 ∧ (s.nodes current).next ≠ 0 then
      (dispatchLoop s fuel current).map fun rest => called ++ rest
    else some called

/-- `timer_handler` and the callbacks that it invokes. The loop makes at most one round
for each node. -/
def timerHandler (s : State κ) : Option (List ℕ × State κ) :=
  let s := { s with jiffies := wrap32 (s.jiffies + 1) }
  if s.head ≠ 0 then (dispatchLoop s s.live.length s.head).map fun called => (called, s)
  else some ([], s)

inductive Event (κ : Type*)
  | register (callback : κ) (offset node : ℕ)
  | tick

/-- A registration takes fresh memory and a period of one tick or more. -/
def timerStep (s : State κ) : Event κ → Option (State κ)
  | .register callback offset node =>
    if node ≠ 0 ∧ node ∉ s.live ∧ 0 < offset ∧ offset < 2 ^ 32 then
      some (registerTimerCallback s callback offset node)
    else none
  | .tick => (timerHandler s).map Prod.snd

end Unos.Timer
