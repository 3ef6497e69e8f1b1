import Unos.DList.Frames
import Unos.Library.Splits
import Unos.Process.Fairness
import Unos.Process.Statements

namespace Unos.Process

open Unos.Words Unos.Links Unos.Runs Unos.DList Unos.Splits

def Stmt.halfLinked : Stmt → Bool
  | .linkNext | .setVal | .setTail | .setHead => true
  | _ => false

def Stmt.unnamed : Stmt → Bool
  | .incSize | .setSelf => true
  | _ => false

/-- No call of a listed process is half linked. -/
def System.Linked (s : System) : Prop := ∀ c ∈ s.calls, c.stmt.halfLinked = false

/-- No tick comes while the running process has listed a process that does not know its
node, and the front of the list is not changed while another call is half linked to it. -/
def Calm (s : System) : Move → Prop
  | .call _ _ => True
  | .stmt _ => s.running.map Pending.stmt = some .linkPrev → s.Linked
  | .tick _ => (s.running.map fun c => c.stmt.unnamed) ≠ some true
  | .exit => listPeekFront s.kernel.processList = s.kernel.currentProcess → s.Linked

/-- The process `p` knows its own node of the list. -/
structure Registered (k : Kernel) (p : ℕ) : Prop where
  node : (k.pcb p).self ≠ 0
  listed : ∃ xs, Path k.processList.next k.processList.head xs 0 ∧ (k.pcb p).self ∈ xs
  val : k.processList.val (k.pcb p).self = p
  alive : (k.pcb p).self ∉ k.processList.gone

/-- The process that `schedule` selected knows its node, no walk or update of the list went
through `NULL` or a node that is gone, and when no call is in progress the list is well
formed. -/
structure Safe (faults : List ℕ) (s : System) : Prop where
  selected : Registered s.kernel s.kernel.currentProcess
  faults : s.kernel.processList.faults = faults
  list : (∀ p, s.creation p = none) → ∃ xs, Listed s.kernel xs

def Stmt.hasPcb : Stmt → Bool
  | .allocPcb | .incSize | .setSelf | .print => false
  | _ => true

def Stmt.hasNode : Stmt → Bool
  | .linkPrev | .linkNext | .setVal | .setTail | .setHead => true
  | _ => false

def Stmt.hasNext : Stmt → Bool
  | .setVal | .setTail | .setHead => true
  | _ => false

def Stmt.hasVal : Stmt → Bool
  | .setTail | .setHead => true
  | _ => false

/-- What the local variables of the call `c` stand for while the list has the nodes `xs`. -/
structure Sound (k : Kernel) (xs : List ℕ) (c : Pending) : Prop where
  pcb : c.stmt.hasPcb → c.p1 ≠ 0 ∧ (∀ x ∈ xs, k.processList.val x ≠ c.p1) ∧
    (k.pcb c.p1).state ≠ .zombie
  node : c.stmt.hasNode → c.t ≠ 0 ∧ c.t < 4294967296 ∧ c.t ∉ xs ∧ c.t ∉ k.processList.gone ∧
    k.processList.prev c.t = 0
  linked : c.stmt.halfLinked → k.processList.prev k.processList.head = c.t
  next : c.stmt.hasNext → k.processList.next c.t = k.processList.head
  val : c.stmt.hasVal → k.processList.val c.t = c.p1
  shown : c.stmt.unnamed → ∃ ys, xs = c.t :: ys ∧ k.processList.val c.t = c.p1 ∧ c.p1 ≠ 0 ∧
    (k.pcb c.p1).state ≠ .zombie ∧ ∀ y ∈ ys, k.processList.val y ≠ c.p1

/-- Two calls do not use the same memory, and do not both link a node. -/
structure Apart (c d : Pending) : Prop where
  pcb : c.stmt.hasPcb → d.stmt.hasPcb → c.p1 ≠ d.p1
  node : c.stmt.hasNode → d.stmt.hasNode → c.t ≠ d.t
  linked : c.stmt.halfLinked → d.stmt.halfLinked = false

def owed (o : Option Pending) : ℕ := if o.map Pending.stmt = some .incSize then 1 else 0

def settled (l : DList.State) (n : ℕ) : DList.State :=
  { l.withPrev 0 with size := l.size + n }

/-- `xs` are the nodes of the process list, the half link and the size apart. -/
structure PreemptInv (faults : List ℕ) (s : System) (xs : List ℕ) : Prop where
  list : ListInv (settled s.kernel.processList (owed s.running)) xs
  current : ∃ x ∈ xs, s.kernel.processList.val x = s.kernel.currentProcess ∧ Runnable s.kernel x
  named : ∀ x ∈ xs, Runnable s.kernel x ∨ ∃ c, s.running = some c ∧ c.stmt.unnamed ∧ c.t = x
  owner : ∀ p c, s.creation p = some c → ∃ x ∈ xs, s.kernel.processList.val x = p
  sound : ∀ p c, s.creation p = some c → Sound s.kernel xs c
  alone : ∀ p c, s.creation p = some c → c.stmt.unnamed → p = s.kernel.currentProcess
  apart : ∀ p q c d, s.creation p = some c → s.creation q = some d → p ≠ q → Apart c d
  front : (∀ p c, s.creation p = some c → c.stmt.halfLinked = false) →
    s.kernel.processList.prev s.kernel.processList.head = 0
  faults : s.kernel.processList.faults = faults

section Phases

variable {st : Stmt}

theorem hasNode_of_halfLinked (h : st.halfLinked) : st.hasNode := by
  cases st <;> first | rfl | exact nomatch h

theorem halfLinked_of_hasNext (h : st.hasNext) : st.halfLinked := by
  cases st <;> first | rfl | exact nomatch h

theorem hasNext_of_hasVal (h : st.hasVal) : st.hasNext := by
  cases st <;> first | rfl | exact nomatch h

end Phases

variable {f : List ℕ} {k k' : Kernel} {s : System} {xs ys : List ℕ} {c b d : Pending} {a p x : ℕ}

theorem settled_of_front {l : DList.State} (h : l.prev l.head = 0) : settled l 0 = l := by
  have hsame := l.withPrev_self
  rw [h] at hsame
  rw [settled, hsame]
  rfl

theorem owed_eq_zero {o : Option Pending} (h : (o.map fun c => c.stmt.unnamed) ≠ some true) :
    owed o = 0 := by
  refine if_neg fun hsize => h ?_
  obtain ⟨c, rfl, hc⟩ := Option.map_eq_some_iff.mp hsize
  rw [Option.map_some, hc]
  rfl

theorem PreemptInv.start (h : Steady k) :
    ∃ xs, PreemptInv k.processList.faults (System.start k) xs := by
  obtain ⟨xs, hl, x, hx, hc⟩ := h
  have hfront : k.processList.prev k.processList.head = 0 := by
    cases xs with
    | nil => exact absurd hx List.not_mem_nil
    | cons y ys =>
      rw [hl.list.forward.1]
      exact hl.list.prev_head
  refine ⟨xs, ⟨?_, ⟨x, hx, hc.symm, hl.runnable x hx⟩, fun y hy => .inl (hl.runnable y hy),
    fun _ _ h0 => (nomatch h0), fun _ _ h0 => (nomatch h0), fun _ _ h0 => (nomatch h0),
    fun _ _ _ _ h0 => (nomatch h0), fun _ => hfront, rfl⟩⟩
  show ListInv (settled k.processList 0) xs
  rw [settled_of_front hfront]
  exact hl.list

theorem PreemptInv.safe (h : PreemptInv f s xs) : Safe f s where
  selected := by
    obtain ⟨x, hx, hval, hrun⟩ := h.current
    have hself : (s.kernel.pcb s.kernel.currentProcess).self = x := hval ▸ hrun.self
    refine ⟨?_, ⟨xs, h.list.forward, ?_⟩, ?_, ?_⟩
    all_goals rw [hself]
    · exact (h.list.addr x hx).1
    · exact hx
    · exact hval
    · exact h.list.alive x hx
  faults := h.faults
  list hnone := by
    have hfront := h.front fun p c hc => nomatch (hnone p).symm.trans hc
    have hrunning : s.running = none := hnone _
    have hlist := h.list
    rw [hrunning] at hlist
    refine ⟨xs, (settled_of_front hfront) ▸ hlist, fun x hx => (h.named x hx).resolve_right ?_⟩
    rintro ⟨c, hc, -⟩
    exact nomatch hrunning.symm.trans hc

theorem Apart.symm (h : Apart c d) : Apart d c where
  pcb hd hc := (h.pcb hc hd).symm
  node hd hc := (h.node hc hd).symm
  linked hd := by
    cases hc : c.stmt.halfLinked
    · rfl
    · exact absurd hd (by simp [h.linked hc])

/-- The call of another process stays sound when nothing that it uses changes. -/
theorem Sound.frame (h : Sound k xs d) (hd : d.stmt.unnamed = false)
    (hpcb : d.stmt.hasPcb → (∀ x ∈ ys, k'.processList.val x ≠ d.p1) ∧ (k'.pcb d.p1).state ≠ .zombie)
    (hnode : d.stmt.hasNode → d.t ∉ ys ∧ d.t ∉ k'.processList.gone ∧
      k'.processList.prev d.t = k.processList.prev d.t ∧
      k'.processList.next d.t = k.processList.next d.t ∧
      k'.processList.val d.t = k.processList.val d.t)
    (hhead : d.stmt.halfLinked → k'.processList.head = k.processList.head ∧
      k'.processList.prev k.processList.head = k.processList.prev k.processList.head) :
    Sound k' ys d where
  pcb hp := ⟨(h.pcb hp).1, (hpcb hp).1, (hpcb hp).2⟩
  node hn := by
    obtain ⟨h0, hlt, -, -, hprev⟩ := h.node hn
    obtain ⟨hys, hgone, hprev', -, -⟩ := hnode hn
    exact ⟨h0, hlt, hys, hgone, hprev'.trans hprev⟩
  linked hl := by
    obtain ⟨hh, hprev⟩ := hhead hl
    rw [hh, hprev]
    exact h.linked hl
  next hn := by
    have hl := halfLinked_of_hasNext hn
    obtain ⟨-, -, -, hnext, -⟩ := hnode (hasNode_of_halfLinked hl)
    rw [hnext, (hhead hl).1]
    exact h.next hn
  val hv := by
    have hl := halfLinked_of_hasNext (hasNext_of_hasVal hv)
    obtain ⟨-, -, -, -, hval⟩ := hnode (hasNode_of_halfLinked hl)
    rw [hval]
    exact h.val hv
  shown hu := absurd hu (by simp [hd])

theorem PreemptInv.advance (h : PreemptInv f s xs) {o : Option Pending}
    (hcurrent : k'.currentProcess = s.kernel.currentProcess)
    (hlist : ListInv (settled k'.processList (owed o)) ys) (hsub : xs ⊆ ys)
    (hval : ∀ x ∈ xs, k'.processList.val x = s.kernel.processList.val x)
    (hrun : ∀ x ∈ xs, Runnable s.kernel x → Runnable k' x)
    (hnamed : ∀ x ∈ ys, Runnable k' x ∨ ∃ c, o = some c ∧ c.stmt.unnamed ∧ c.t = x)
    (hmine : ∀ c, o = some c → Sound k' ys c)
    (hothers : ∀ p d, p ≠ s.kernel.currentProcess → s.creation p = some d → Sound k' ys d)
    (hapart : ∀ c p d, o = some c → p ≠ s.kernel.currentProcess → s.creation p = some d → Apart c d)
    (hfront : (∀ c, o = some c → c.stmt.halfLinked = false) →
      (∀ p d, p ≠ s.kernel.currentProcess → s.creation p = some d → d.stmt.halfLinked = false) →
      k'.processList.prev k'.processList.head = 0)
    (hfaults : k'.processList.faults = s.kernel.processList.faults) :
    PreemptInv f ⟨k', Function.update s.creation s.kernel.currentProcess o⟩ ys := by
  have hmy : ∀ {o'}, Function.update s.creation s.kernel.currentProcess o s.kernel.currentProcess =
      o' → o = o' := fun h0 =>
        (Function.update_self s.kernel.currentProcess o s.creation).symm.trans h0
  have hold : ∀ {p o'}, p ≠ s.kernel.currentProcess →
      Function.update s.creation s.kernel.currentProcess o p = o' → s.creation p = o' :=
    fun hp h0 => (Function.update_of_ne hp o s.creation).symm.trans h0
  have hrunning : (System.mk k' (Function.update s.creation s.kernel.currentProcess o)).running =
      o := by
    show Function.update s.creation s.kernel.currentProcess o k'.currentProcess = o
    rw [hcurrent, Function.update_self]
  obtain ⟨x, hx, hxc, hxrun⟩ := h.current
  refine ⟨?_, ⟨x, hsub hx, ?_, hrun x hx hxrun⟩, ?_, ?_, ?_, ?_, ?_, ?_, hfaults.trans h.faults⟩
  · rwa [hrunning]
  · exact (hval x hx).trans (hxc.trans hcurrent.symm)
  · rwa [hrunning]
  · intro p d hd
    by_cases hp : p = s.kernel.currentProcess
    · exact ⟨x, hsub hx, (hval x hx).trans (hxc.trans hp.symm)⟩
    · obtain ⟨y, hy, hyp⟩ := h.owner p d (hold hp hd)
      exact ⟨y, hsub hy, (hval y hy).trans hyp⟩
  · intro p d hd
    by_cases hp : p = s.kernel.currentProcess
    · exact hmine d (hmy (hp ▸ hd))
    · exact hothers p d hp (hold hp hd)
  · intro p d hd hu
    by_contra hp
    rw [hcurrent] at hp
    exact hp (h.alone p d (hold hp hd) hu)
  · intro p q d e hd he hpq
    by_cases hp : p = s.kernel.currentProcess
    · have hq : q ≠ s.kernel.currentProcess := fun hq => hpq (hp.trans hq.symm)
      exact hapart d q e (hmy (hp ▸ hd)) hq (hold hq he)
    · by_cases hq : q = s.kernel.currentProcess
      · exact (hapart e p d (hmy (hq ▸ he)) hp (hold hp hd)).symm
      · exact h.apart p q d e (hold hp hd) (hold hq he) hpq
  · intro hhalf
    refine hfront (fun c hc => hhalf s.kernel.currentProcess c ?_) fun p d hp hd => hhalf p d ?_
    · exact (Function.update_self s.kernel.currentProcess o s.creation).trans hc
    · exact (Function.update_of_ne hp o s.creation).trans hd

theorem PreemptInv.other_named (h : PreemptInv f s xs) (hp : p ≠ s.kernel.currentProcess)
    (hd : s.creation p = some d) : d.stmt.unnamed = false := by
  cases hu : d.stmt.unnamed
  · rfl
  · exact absurd (h.alone p d hd hu) hp

theorem PreemptInv.runnable (h : PreemptInv f s xs) (hr : s.running = some c)
    (hu : c.stmt.unnamed = false) (hx : x ∈ xs) : Runnable s.kernel x := by
  refine (h.named x hx).resolve_right ?_
  rintro ⟨d, hd, hdu, -⟩
  rw [Option.some.inj (hd.symm.trans hr), hu] at hdu
  exact nomatch hdu

theorem PreemptInv.runnable_of_named (h : PreemptInv f s xs)
    (hnamed : ∀ p d, s.creation p = some d → d.stmt.unnamed = false) (hx : x ∈ xs) :
    Runnable s.kernel x := by
  refine (h.named x hx).resolve_right ?_
  rintro ⟨d, hd, hu, -⟩
  rw [hnamed _ d hd] at hu
  exact nomatch hu

theorem System.owed_of_named {s : System}
    (hnamed : ∀ p d, s.creation p = some d → d.stmt.unnamed = false) : owed s.running = 0 := by
  refine owed_eq_zero fun hu => ?_
  obtain ⟨c, hc, hu⟩ := Option.map_eq_some_iff.mp hu
  rw [hnamed _ c hc] at hu
  exact nomatch hu

theorem listSize_ne_zero {l : DList.State} {as bs : List ℕ}
    (hlist : ListInv (settled l 0) (as ++ x :: bs)) : listSize l ≠ 0 := by
  have hlen : l.size = (as ++ x :: bs).length := hlist.size
  rw [listSize, hlen]
  simp

theorem System.not_halfLinked (hr : s.running = some c)
    (hl : c.stmt.halfLinked = false)
    (hothers : ∀ p d, p ≠ s.kernel.currentProcess → s.creation p = some d →
      d.stmt.halfLinked = false) : ∀ p d, s.creation p = some d → d.stmt.halfLinked = false := by
  intro p d hd
  by_cases hp : p = s.kernel.currentProcess
  · rw [hp] at hd
    rw [← Option.some.inj (hr.symm.trans hd)]
    exact hl
  · exact hothers p d hp hd

theorem owed_some (hu : c.stmt.unnamed = false) : owed (some c) = 0 :=
  owed_eq_zero (by simp [hu])

theorem PreemptInv.fill_step (h : PreemptInv f s xs) (hr : s.running = some c)
    (hu : c.stmt.unnamed = false) (hl : c.stmt.halfLinked = false) {v : Pcb} {n : ℕ}
    (hb0 : b.p1 ≠ 0) (hbx : ∀ x ∈ xs, s.kernel.processList.val x ≠ b.p1)
    (hother : ∀ p d, p ≠ s.kernel.currentProcess → s.creation p = some d → d.stmt.hasPcb →
      d.p1 ≠ b.p1)
    (hv : v.state ≠ .zombie) (hnode : b.stmt.hasNode = false) (hu' : b.stmt.unnamed = false) :
    PreemptInv f ⟨{ s.kernel with pcb := Function.update s.kernel.pcb b.p1 v, currPid := n },
      Function.update s.creation s.kernel.currentProcess (some b)⟩ xs := by
  have hl' : b.stmt.halfLinked = false := by
    cases hh : b.stmt.halfLinked
    · rfl
    · exact absurd (hasNode_of_halfLinked hh) (by simp [hnode])
  have hrun : ∀ x ∈ xs, Runnable s.kernel x → Runnable
      { s.kernel with pcb := Function.update s.kernel.pcb b.p1 v, currPid := n } x := by
    intro x hx hx'
    obtain ⟨haddress, hself, halive⟩ := hx'
    refine ⟨haddress, ?_, ?_⟩
    · simpa only [Function.update_of_ne (hbx x hx)] using hself
    · simpa only [Function.update_of_ne (hbx x hx)] using halive
  have hlist := h.list
  rw [hr, owed_some hu] at hlist
  refine h.advance rfl ?_ (fun _ hx => hx) (fun _ _ => rfl) hrun
    (fun x hx => .inl (hrun x hx (h.runnable hr hu hx))) ?_ ?_ ?_ ?_ rfl
  · rwa [owed_some hu']
  · intro e he
    cases he
    refine ⟨fun _ => ⟨hb0, hbx, ?_⟩, fun hn => absurd hn (by simp [hnode]),
      fun hh => absurd hh (by simp [hl']), fun hn => ?_, fun hn => ?_,
      fun hh => absurd hh (by simp [hu'])⟩
    · simpa only [Function.update_self] using hv
    · exact absurd (halfLinked_of_hasNext hn) (by simp [hl'])
    · exact absurd (halfLinked_of_hasNext (hasNext_of_hasVal hn)) (by simp [hl'])
  · intro p d hp hd
    have hsound := h.sound p d hd
    refine hsound.frame (h.other_named hp hd) (fun hpcb => ⟨(hsound.pcb hpcb).2.1, ?_⟩)
      (fun hn => ⟨(hsound.node hn).2.2.1, (hsound.node hn).2.2.2.1, rfl, rfl, rfl⟩)
      fun _ => ⟨rfl, rfl⟩
    simpa only [Function.update_of_ne (hother p d hp hd hpcb)] using (hsound.pcb hpcb).2.2
  · intro e p d he hp hd
    cases he
    exact ⟨fun _ hpcb => (hother p d hp hd hpcb).symm, fun hn => absurd hn (by simp [hnode]),
      fun hh => absurd hh (by simp [hl'])⟩
  · exact fun _ hothers => h.front (System.not_halfLinked hr hl hothers)

/-- Nothing differs but the fields of the node `t` and the back link of the first node. -/
structure LinkStep (l l' : DList.State) (t : ℕ) : Prop where
  head : l'.head = l.head
  tail : l'.tail = l.tail
  size : l'.size = l.size
  faults : l'.faults = l.faults
  next : ∀ z, z ≠ t → l'.next z = l.next z
  prev : ∀ z, z ≠ t → z ≠ l.head → l'.prev z = l.prev z
  val : ∀ z, z ≠ t → l'.val z = l.val z
  gone : ∀ z, z ≠ t → z ∈ l'.gone → z ∈ l.gone

theorem LinkStep.settled {l l' : DList.State} {t n : ℕ} (h : LinkStep l l' t)
    (hl : ListInv (settled l n) xs) (ht : t ∉ xs) : ListInv (Process.settled l' n) xs := by
  have hne : ∀ x ∈ xs, x ≠ t := fun x hx hxt => ht (hxt ▸ hx)
  refine hl.congr h.head h.tail (congrArg (· + n) h.size) (fun x hx => h.next x (hne x hx))
    (fun x hx => ?_) fun x hx => h.gone x (hne x hx)
  show Function.update l'.prev l'.head 0 x = Function.update l.prev l.head 0 x
  rw [h.head]
  by_cases hx0 : x = l.head
  · rw [hx0, Function.update_self, Function.update_self]
  · rw [Function.update_of_ne hx0, Function.update_of_ne hx0, h.prev x (hne x hx) hx0]

theorem PreemptInv.link_step (h : PreemptInv f s xs) (hr : s.running = some c)
    (hu : c.stmt.unnamed = false) (hpcb : c.stmt.hasPcb) {l' : DList.State}
    (hlink : LinkStep s.kernel.processList l' b.t) (ht : b.t ∉ xs) (hp1 : b.p1 = c.p1)
    (hu' : b.stmt.unnamed = false)
    (hother : ∀ p d, p ≠ s.kernel.currentProcess → s.creation p = some d → d.stmt.hasNode →
      d.t ≠ b.t)
    (hlone : b.stmt.halfLinked → ∀ p d, p ≠ s.kernel.currentProcess → s.creation p = some d →
      d.stmt.halfLinked = false)
    (hprev : ∀ p d, p ≠ s.kernel.currentProcess → s.creation p = some d → d.stmt.halfLinked →
      l'.prev s.kernel.processList.head = s.kernel.processList.prev s.kernel.processList.head)
    (hfront : b.stmt.halfLinked = false → (∀ p d, p ≠ s.kernel.currentProcess →
      s.creation p = some d → d.stmt.halfLinked = false) → l'.prev l'.head = 0)
    (hmine : Sound { s.kernel with processList := l' } xs b) :
    PreemptInv f ⟨{ s.kernel with processList := l' },
      Function.update s.creation s.kernel.currentProcess (some b)⟩ xs := by
  have hne : ∀ x ∈ xs, x ≠ b.t := fun x hx hxt => ht (hxt ▸ hx)
  have hval : ∀ x ∈ xs, l'.val x = s.kernel.processList.val x := fun x hx =>
    hlink.val x (hne x hx)
  have hrun : ∀ x ∈ xs, Runnable s.kernel x → Runnable { s.kernel with processList := l' } x := by
    intro x hx hx'
    obtain ⟨haddress, hself, halive⟩ := hx'
    rw [← hval x hx] at haddress hself halive
    exact ⟨haddress, hself, halive⟩
  have hlist := h.list
  rw [hr, owed_some hu] at hlist
  refine h.advance rfl ?_ (fun _ hx => hx) hval hrun
    (fun x hx => .inl (hrun x hx (h.runnable hr hu hx))) ?_ ?_ ?_ ?_ hlink.faults
  · rw [owed_some hu']
    exact hlink.settled hlist ht
  · intro e he
    cases he
    exact hmine
  · intro p d hp hd
    have hsound := h.sound p d hd
    refine hsound.frame (h.other_named hp hd) (fun hpcb => ⟨fun x hx => ?_, (hsound.pcb hpcb).2.2⟩)
      (fun hn => ?_) fun hh => ⟨hlink.head, hprev p d hp hd hh⟩
    · rw [hval x hx]
      exact (hsound.pcb hpcb).2.1 x hx
    · obtain ⟨-, -, hdx, hgone, -⟩ := hsound.node hn
      have hdt := hother p d hp hd hn
      have hdhead : d.t ≠ s.kernel.processList.head := by
        intro h0
        obtain ⟨x, hx, -⟩ := h.current
        cases xs with
        | nil => exact absurd hx List.not_mem_nil
        | cons y ys =>
          have hy : s.kernel.processList.head = y := hlist.forward.1
          exact hdx (by simp [h0, hy])
      exact ⟨hdx, fun hg => hgone (hlink.gone _ hdt hg), hlink.prev _ hdt hdhead,
        hlink.next _ hdt, hlink.val _ hdt⟩
  · intro e p d he hp hd
    cases he
    have hapart := h.apart s.kernel.currentProcess p c d hr hd (Ne.symm hp)
    refine ⟨fun _ hdp => ?_, fun _ hn => (hother p d hp hd hn).symm, fun hh => hlone hh p d hp hd⟩
    rw [hp1]
    exact hapart.pcb hpcb hdp
  · intro hh hothers
    exact hfront (hh b rfl) hothers

theorem PreemptInv.current_ne_zero (h : PreemptInv f s xs) : s.kernel.currentProcess ≠ 0 := by
  obtain ⟨x, -, hval, hrun⟩ := h.current
  rw [← hval]
  exact hrun.address

theorem PreemptInv.head_mem (h : PreemptInv f s xs) : s.kernel.processList.head ∈ xs := by
  obtain ⟨x, hx, -⟩ := h.current
  cases xs with
  | nil => exact absurd hx List.not_mem_nil
  | cons y ys =>
    have hy : s.kernel.processList.head = y := h.list.forward.1
    exact hy ▸ List.mem_cons_self

theorem PreemptInv.nodes_eq (h : PreemptInv f s xs) (h0 : owed s.running = 0) :
    nodes s.kernel.processList = xs := by
  have hlist := h.list
  rw [h0] at hlist
  exact hlist.nodes_eq

theorem PreemptInv.mem_calls (h : PreemptInv f s xs) (h0 : owed s.running = 0)
    (hd : s.creation p = some d) : d ∈ s.calls := by
  obtain ⟨x, hx, hval⟩ := h.owner p d hd
  refine List.mem_filterMap.mpr ⟨p, ?_, hd⟩
  rw [processes, h.nodes_eq h0, ← hval]
  exact List.mem_map_of_mem hx

/-- The statements before the allocation of the node. -/
def Stmt.early : Stmt → Bool
  | .allocPcb | .setPid | .setEip | .setEflags | .setFilename | .setEsp | .setPageDir | .setCr3
  | .setState | .setCurrent => true
  | _ => false

theorem exec_early {st : Stmt} (hk : k.currentProcess ≠ 0) (hst : st.early)
    (hstate : st ≠ .allocPcb → (k.pcb c.p1).state ≠ .zombie) :
    ∃ v n, exec c k st = { k with pcb := Function.update k.pcb c.p1 v, currPid := n } ∧
      v.state ≠ .zombie := by
  cases st
  case allocPcb => exact ⟨_, _, rfl, TaskState.noConfusion⟩
  case setState => exact ⟨_, _, rfl, TaskState.noConfusion⟩
  case setCurrent =>
    refine ⟨k.pcb c.p1, k.currPid, ?_, hstate Stmt.noConfusion⟩
    rw [exec_setCurrent hk, Function.update_eq_self]
  case setPid => exact ⟨_, _, rfl, hstate Stmt.noConfusion⟩
  case setEip => exact ⟨_, _, rfl, hstate Stmt.noConfusion⟩
  case setEflags => exact ⟨_, _, rfl, hstate Stmt.noConfusion⟩
  case setFilename => exact ⟨_, _, rfl, hstate Stmt.noConfusion⟩
  case setEsp => exact ⟨_, _, rfl, hstate Stmt.noConfusion⟩
  case setPageDir => exact ⟨_, _, rfl, hstate Stmt.noConfusion⟩
  case setCr3 => exact ⟨_, _, rfl, hstate Stmt.noConfusion⟩
  all_goals exact nomatch hst

theorem early_phases {st : Stmt} (hst : st.early) :
    st.unnamed = false ∧ st.halfLinked = false ∧ (st ≠ .allocPcb → st.hasPcb ∧ st.quiet) ∧
      ∃ st', st.succ = some st' ∧ st'.hasNode = false ∧ st'.unnamed = false := by
  cases st
  case allocPcb => exact ⟨rfl, rfl, fun h0 => absurd rfl h0, _, rfl, rfl, rfl⟩
  all_goals first
    | exact ⟨rfl, rfl, fun _ => ⟨rfl, rfl⟩, _, rfl, rfl, rfl⟩
    | exact nomatch hst

theorem advance_eq {u : Stmt} (hsucc : c.stmt.succ = some u) (a : ℕ) :
    s.advance (c.take a) = ⟨exec (c.take a) s.kernel c.stmt,
      Function.update s.creation s.kernel.currentProcess (some { c.take a with stmt := u })⟩ := by
  rw [System.advance, take_stmt, hsucc]
  rfl

theorem PreemptInv.fresh_pcb (h : PreemptInv f s xs) (h0 : owed s.running = 0)
    (ha : s.Available a .allocPcb) : a ≠ 0 ∧ (∀ x ∈ xs, s.kernel.processList.val x ≠ a) ∧
      ∀ p d, s.creation p = some d → d.p1 ≠ a := by
  obtain ⟨ha0, halisted, hacalls⟩ := ha
  refine ⟨ha0, fun x hx hxa => halisted ?_, fun p d hd => hacalls d (h.mem_calls h0 hd)⟩
  rw [processes, h.nodes_eq h0, ← hxa]
  exact List.mem_map_of_mem hx

theorem PreemptInv.early_step (h : PreemptInv f s xs) (hr : s.running = some c)
    (hst : c.stmt.early) (ha : s.Available a c.stmt) : PreemptInv f (s.advance (c.take a)) xs := by
  obtain ⟨hu, hl, hpcb, st', hsucc, hnode, hu'⟩ := early_phases hst
  -- the memory that the call writes to is its own
  have hmine : (c.take a).p1 ≠ 0 ∧ (∀ x ∈ xs, s.kernel.processList.val x ≠ (c.take a).p1) ∧
      (∀ p d, p ≠ s.kernel.currentProcess → s.creation p = some d → d.stmt.hasPcb →
        d.p1 ≠ (c.take a).p1) ∧
      (c.stmt ≠ .allocPcb → (s.kernel.pcb (c.take a).p1).state ≠ .zombie) := by
    by_cases hfirst : c.stmt = .allocPcb
    · have htake : (c.take a).p1 = a := by
        rw [Pending.take, hfirst]
      rw [hfirst] at ha
      obtain ⟨ha0, hax, hacalls⟩ := h.fresh_pcb (hr ▸ owed_some hu) ha
      rw [htake]
      exact ⟨ha0, hax, fun p d _ hd _ => hacalls p d hd, fun h0 => absurd hfirst h0⟩
    · obtain ⟨hp, hq⟩ := hpcb hfirst
      have hsound := (h.sound _ c hr).pcb hp
      rw [take_quiet hq]
      exact ⟨hsound.1, hsound.2.1, fun p d hne hd hdp =>
        ((h.apart _ p c d hr hd (Ne.symm hne)).pcb hp hdp).symm, fun _ => hsound.2.2⟩
  obtain ⟨hp0, hpx, hother, hstate⟩ := hmine
  obtain ⟨v, n, hexec, hv⟩ := exec_early (c := c.take a) h.current_ne_zero hst hstate
  rw [advance_eq hsucc, hexec]
  exact h.fill_step (b := { c.take a with stmt := st' }) hr hu hl hp0 hpx hother hv hnode hu'

theorem PreemptInv.allocNode_step (h : PreemptInv f s xs) (hr : s.running = some c)
    (hst : c.stmt = .allocNode) (ha : s.Available a .allocNode) :
    PreemptInv f (s.advance (c.take a)) xs := by
  obtain ⟨hfresh, hacalls⟩ := ha
  have hu : c.stmt.unnamed = false := by rw [hst]; rfl
  have hpcb : c.stmt.hasPcb := by rw [hst]; rfl
  have h0 : owed s.running = 0 := hr ▸ owed_some hu
  have hlist := h.list
  rw [h0] at hlist
  have hfresh' := hlist.fresh_iff.mp hfresh
  obtain ⟨ha0, halt, hax⟩ := hfresh'
  have htake : c.take a = { c with t := a } := by rw [Pending.take, hst]
  have hheada : s.kernel.processList.head ≠ a := fun hha => hax (hha ▸ h.head_mem)
  have hlink : LinkStep s.kernel.processList (s.kernel.processList.kcalloc a) a :=
    ⟨rfl, rfl, rfl, rfl, fun z hz => Function.update_of_ne hz 0 _,
      fun z hz _ => Function.update_of_ne hz 0 _, fun z hz => Function.update_of_ne hz 0 _,
      fun z _ hz => (List.mem_filter.mp hz).1⟩
  have hprev : (s.kernel.processList.kcalloc a).prev s.kernel.processList.head =
      s.kernel.processList.prev s.kernel.processList.head := Function.update_of_ne hheada 0 _
  obtain ⟨hp0, hpx, halive⟩ := (h.sound _ c hr).pcb hpcb
  rw [advance_eq (u := .linkPrev) (by rw [hst]; rfl), htake, hst]
  show PreemptInv f ⟨{ s.kernel with processList := s.kernel.processList.kcalloc a }, _⟩ xs
  refine h.link_step (b := { c with t := a, stmt := .linkPrev }) hr hu hpcb hlink hax rfl rfl
    (fun p d _ hd _ => hacalls d (h.mem_calls h0 hd)) (fun hh => nomatch hh)
    (fun _ _ _ _ _ => hprev) (fun _ hothers => hprev.trans
      (h.front (System.not_halfLinked hr (by rw [hst]; rfl) hothers))) ?_
  · refine ⟨fun _ => ⟨hp0, fun x hx => ?_, halive⟩, fun _ => ⟨ha0, halt, hax, ?_, ?_⟩,
      fun hh => (nomatch hh), fun hh => (nomatch hh), fun hh =>
        (nomatch hh), fun hh => (nomatch hh)⟩
    · have hval := hlink.val x fun hxa => hax (hxa ▸ hx)
      exact fun hxp => hpx x hx (hval.symm.trans hxp)
    · exact notMem_filter_ne s.kernel.processList.gone a
    · exact Function.update_self a 0 s.kernel.processList.prev

theorem PreemptInv.linkPrev_step (h : PreemptInv f s xs) (hr : s.running = some c)
    (hst : c.stmt = .linkPrev) (hcalm : s.Linked) : PreemptInv f (s.advance (c.take a)) xs := by
  have hu : c.stmt.unnamed = false := by rw [hst]; rfl
  have hpcb : c.stmt.hasPcb := by rw [hst]; rfl
  have hnode : c.stmt.hasNode := by rw [hst]; rfl
  have h0 : owed s.running = 0 := hr ▸ owed_some hu
  have hlist := h.list
  rw [h0] at hlist
  have hhead := h.head_mem
  have hok : ¬ (s.kernel.processList.head = 0 ∨
      s.kernel.processList.head ∈ s.kernel.processList.gone) :=
    fun hor => hor.elim (hlist.addr _ hhead).1 (hlist.alive _ hhead)
  have hsound := h.sound _ c hr
  obtain ⟨ht0, htlt, htx, htgone, htprev⟩ := hsound.node hnode
  have hthead : c.t ≠ s.kernel.processList.head := fun hth => htx (hth ▸ hhead)
  have hlone : ∀ p d, p ≠ s.kernel.currentProcess → s.creation p = some d →
      d.stmt.halfLinked = false := fun p d _ hd => hcalm d (h.mem_calls h0 hd)
  have hlink : LinkStep s.kernel.processList
      (s.kernel.processList.setPrev s.kernel.processList.head c.t) c.t :=
    ⟨rfl, rfl, rfl, if_neg hok, fun _ _ => rfl, fun z _ hz => Function.update_of_ne hz _ _,
      fun _ _ => rfl, fun _ _ hz => hz⟩
  rw [advance_eq (u := .linkNext) (by rw [hst]; rfl), take_quiet (by rw [hst]; rfl), hst]
  refine h.link_step (b := { c with stmt := .linkNext }) hr hu hpcb hlink htx rfl rfl
    (fun p d hp hd hn => ((h.apart _ p c d hr hd (Ne.symm hp)).node hnode hn).symm)
    (fun _ => hlone) (fun p d hp hd hh => absurd hh (by simp [hlone p d hp hd]))
    (fun hh => nomatch hh) ?_
  exact ⟨fun _ => hsound.pcb hpcb,
    fun _ => ⟨ht0, htlt, htx, htgone, (Function.update_of_ne hthead _ _).trans htprev⟩,
    fun _ => Function.update_self _ _ _, fun hh => (nomatch hh), fun hh => (nomatch hh),
    fun hh => (nomatch hh)⟩

theorem PreemptInv.node_step (h : PreemptInv f s xs) (hr : s.running = some c)
    (hl : c.stmt.halfLinked) {st : Stmt} (hl' : st.halfLinked) {l' : DList.State}
    (hlink : LinkStep s.kernel.processList l' c.t) (hprev : l'.prev = s.kernel.processList.prev)
    (hgone : l'.gone = s.kernel.processList.gone)
    (hnext : st.hasNext → l'.next c.t = s.kernel.processList.head)
    (hval : st.hasVal → l'.val c.t = c.p1) :
    PreemptInv f ⟨{ s.kernel with processList := l' }, Function.update s.creation
      s.kernel.currentProcess (some { c with stmt := st })⟩ xs := by
  have hphases : ∀ st : Stmt, st.halfLinked → st.unnamed = false ∧ st.hasPcb ∧ st.hasNode := by
    intro st hst
    cases st <;> first | exact ⟨rfl, rfl, rfl⟩ | exact nomatch hst
  obtain ⟨hu, hpcb, hnode⟩ := hphases c.stmt hl
  have hsound := h.sound _ c hr
  obtain ⟨ht0, htlt, htx, htgone, htprev⟩ := hsound.node hnode
  have hlone : ∀ p d, p ≠ s.kernel.currentProcess → s.creation p = some d →
      d.stmt.halfLinked = false := fun p d hp hd => (h.apart _ p c d hr hd (Ne.symm hp)).linked hl
  refine h.link_step (b := { c with stmt := st }) hr hu hpcb hlink htx rfl (hphases st hl').1
    (fun p d hp hd hn => ((h.apart _ p c d hr hd (Ne.symm hp)).node hnode hn).symm)
    (fun _ => hlone) (fun p d hp hd hh => absurd hh (by simp [hlone p d hp hd]))
    (fun hh => absurd hl' (by simp [show st.halfLinked = false from hh])) ?_
  obtain ⟨hp0, hpx, halive⟩ := hsound.pcb hpcb
  refine ⟨fun _ => ⟨hp0, fun x hx hxp => ?_, halive⟩,
    fun _ => ⟨ht0, htlt, htx, ?_, ?_⟩, fun _ => ?_, fun hn => ?_, hval, fun hh =>
      absurd hh (by simp [(hphases st hl').1])⟩
  · have hxt : x ≠ c.t := fun hxt => htx (hxt ▸ hx)
    exact hpx x hx ((hlink.val x hxt).symm.trans hxp)
  · rwa [hgone]
  · rwa [hprev]
  · rw [hlink.head, hprev]
    exact hsound.linked hl
  · rw [hlink.head]
    exact hnext hn

theorem PreemptInv.half_step (h : PreemptInv f s xs) (hr : s.running = some c)
    (hst : c.stmt = .linkNext ∨ c.stmt = .setVal ∨ c.stmt = .setTail) :
    PreemptInv f (s.advance (c.take a)) xs := by
  have hl : c.stmt.halfLinked := by rcases hst with hst | hst | hst <;> rw [hst] <;> rfl
  have hq : c.stmt.quiet := by rcases hst with hst | hst | hst <;> rw [hst] <;> rfl
  have hsound := h.sound _ c hr
  obtain ⟨ht0, -, -, htgone, -⟩ := hsound.node (hasNode_of_halfLinked hl)
  have hok : ¬ (c.t = 0 ∨ c.t ∈ s.kernel.processList.gone) := fun hor => hor.elim ht0 htgone
  rcases hst with hst | hst | hst
  · have hlink : LinkStep s.kernel.processList
        (s.kernel.processList.setNext c.t s.kernel.processList.head) c.t :=
      ⟨rfl, rfl, rfl, if_neg hok, fun z hz => Function.update_of_ne hz _ _, fun _ _ _ => rfl,
        fun _ _ => rfl, fun _ _ hz => hz⟩
    rw [advance_eq (u := .setVal) (by rw [hst]; rfl), take_quiet hq, hst]
    exact h.node_step hr hl rfl hlink rfl rfl (fun _ => Function.update_self _ _ _)
      fun hv => (nomatch hv)
  · have hlink : LinkStep s.kernel.processList (s.kernel.processList.setVal c.t c.p1) c.t :=
      ⟨rfl, rfl, rfl, if_neg hok, fun _ _ => rfl, fun _ _ _ => rfl,
        fun z hz => Function.update_of_ne hz _ _, fun _ _ hz => hz⟩
    rw [advance_eq (u := .setTail) (by rw [hst]; rfl), take_quiet hq, hst]
    exact h.node_step hr hl rfl hlink rfl rfl (fun _ => hsound.next (by rw [hst]; rfl))
      fun _ => Function.update_self _ _ _
  · -- the list has a first node, so its tail stays
    have hhead : s.kernel.processList.head ≠ 0 := (h.list.addr _ h.head_mem).1
    have hsame : link c s.kernel.processList .setTail = s.kernel.processList := if_neg hhead
    have hlink : LinkStep s.kernel.processList (link c s.kernel.processList .setTail) c.t := by
      rw [hsame]
      exact ⟨rfl, rfl, rfl, rfl, fun _ _ => rfl, fun _ _ _ => rfl, fun _ _ => rfl, fun _ _ hz => hz⟩
    rw [advance_eq (u := .setHead) (by rw [hst]; rfl), take_quiet hq, hst]
    refine h.node_step hr hl rfl hlink (by rw [hsame]) (by rw [hsame]) (fun _ => ?_) fun _ => ?_
    · rw [hsame]
      exact hsound.next (by rw [hst]; rfl)
    · rw [hsame]
      exact hsound.val (by rw [hst]; rfl)

theorem PreemptInv.setHead_step (h : PreemptInv f s xs) (hr : s.running = some c)
    (hst : c.stmt = .setHead) : PreemptInv f (s.advance (c.take a)) (c.t :: xs) := by
  have hl : c.stmt.halfLinked := by rw [hst]; rfl
  have hpcb : c.stmt.hasPcb := by rw [hst]; rfl
  have hnode : c.stmt.hasNode := by rw [hst]; rfl
  have hu : c.stmt.unnamed = false := by rw [hst]; rfl
  have hsound := h.sound _ c hr
  obtain ⟨ht0, htlt, htx, htgone, htprev⟩ := hsound.node hnode
  obtain ⟨hp0, hpx, halive⟩ := hsound.pcb hpcb
  have hnext := hsound.next (by rw [hst]; rfl)
  have hval := hsound.val (by rw [hst]; rfl)
  obtain ⟨x, hx, -⟩ := h.current
  have hlist := h.list
  rw [hr, owed_some hu] at hlist
  have hpush := ListInv.push (s := s.kernel.processList) hlist hx
    (hsound.linked hl) hnext ht0 htlt htx htgone
  rw [advance_eq (u := .incSize) (by rw [hst]; rfl), take_quiet (by rw [hst]; rfl), hst]
  show PreemptInv f ⟨{ s.kernel with processList := { s.kernel.processList with head := c.t } }, _⟩
    (c.t :: xs)
  have hrun : ∀ x ∈ xs, Runnable s.kernel x →
      Runnable { s.kernel with processList := { s.kernel.processList with head := c.t } } x :=
    fun x _ hx => ⟨hx.address, hx.self, hx.alive⟩
  refine h.advance rfl hpush (fun x hx => List.mem_cons_of_mem c.t hx)
    (fun _ _ => rfl) hrun ?_ ?_ ?_
    ?_ (fun _ _ => htprev) rfl
  · intro y hy
    rcases List.mem_cons.mp hy with rfl | hy
    · exact .inr ⟨_, rfl, rfl, rfl⟩
    · exact .inl (hrun y hy (h.runnable hr hu hy))
  · intro e he
    cases he
    exact ⟨fun hh => (nomatch hh), fun hh => (nomatch hh), fun hh => (nomatch hh),
      fun hh => (nomatch hh), fun hh => (nomatch hh), fun _ => ⟨xs, rfl, hval, hp0, halive, hpx⟩⟩
  · intro p d hp hd
    have hapart := h.apart _ p c d hr hd (Ne.symm hp)
    have hd' := h.sound p d hd
    refine hd'.frame (h.other_named hp hd) (fun hdp => ⟨fun y hy => ?_, (hd'.pcb hdp).2.2⟩)
      (fun hn => ⟨fun hy => ?_, (hd'.node hn).2.2.2.1, rfl, rfl, rfl⟩)
      fun hh => absurd hh (by simp [hapart.linked hl])
    · rcases List.mem_cons.mp hy with rfl | hy
      · exact fun hpd => hapart.pcb hpcb hdp (hval.symm.trans hpd)
      · exact (hd'.pcb hdp).2.1 y hy
    · rcases List.mem_cons.mp hy with hdt | hy
      · exact hapart.node hnode hn hdt.symm
      · exact (hd'.node hn).2.2.1 hy
  · intro e p d he _ _
    cases he
    exact ⟨fun hh => (nomatch hh), fun hh => (nomatch hh), fun hh => (nomatch hh)⟩

theorem PreemptInv.incSize_step (h : PreemptInv f s xs) (hr : s.running = some c)
    (hst : c.stmt = .incSize) : PreemptInv f (s.advance (c.take a)) xs := by
  have hsound := h.sound _ c hr
  have hshown := hsound.shown (by rw [hst]; rfl)
  have howed : owed (some c) = 1 := by
    rw [owed, Option.map_some, hst]
    rfl
  have hlist := h.list
  rw [hr, howed] at hlist
  have hsize : wrap32 (s.kernel.processList.size + 1) = s.kernel.processList.size + 1 := by
    have hlen := hlist.size
    have hlt := hlist.length_lt
    rw [← hlen] at hlt
    exact wrap32_of_lt hlt
  rw [advance_eq (u := .setSelf) (by rw [hst]; rfl), take_quiet (by rw [hst]; rfl), hst]
  show PreemptInv f ⟨{ s.kernel with processList :=
    { s.kernel.processList with size := wrap32 (s.kernel.processList.size + 1) } }, _⟩ xs
  rw [hsize]
  have hrun : ∀ x ∈ xs, Runnable s.kernel x → Runnable { s.kernel with processList :=
      { s.kernel.processList with size := s.kernel.processList.size + 1 } } x :=
    fun x _ hx => ⟨hx.address, hx.self, hx.alive⟩
  refine h.advance rfl hlist (fun _ hx => hx) (fun _ _ => rfl) hrun ?_ ?_ ?_ ?_ ?_ rfl
  · intro y hy
    refine (h.named y hy).imp (hrun y hy) ?_
    rintro ⟨d, hd, -, hdt⟩
    exact ⟨_, rfl, rfl, Option.some.inj (hr.symm.trans hd) ▸ hdt⟩
  · intro e he
    cases he
    exact ⟨fun hh => (nomatch hh), fun hh => (nomatch hh), fun hh => (nomatch hh),
      fun hh => (nomatch hh), fun hh => (nomatch hh), fun _ => hshown⟩
  · intro p d hp hd
    have hd' := h.sound p d hd
    exact hd'.frame (h.other_named hp hd) (fun hdp => (hd'.pcb hdp).2)
      (fun hn => ⟨(hd'.node hn).2.2.1, (hd'.node hn).2.2.2.1, rfl, rfl, rfl⟩) fun _ => ⟨rfl, rfl⟩
  · intro e p d he _ _
    cases he
    exact ⟨fun hh => (nomatch hh), fun hh => (nomatch hh), fun hh => (nomatch hh)⟩
  · exact fun _ hothers => h.front (System.not_halfLinked hr (by rw [hst]; rfl) hothers)

theorem PreemptInv.setSelf_step (h : PreemptInv f s xs) (hr : s.running = some c)
    (hst : c.stmt = .setSelf) : PreemptInv f (s.advance (c.take a)) xs := by
  have hsound := h.sound _ c hr
  obtain ⟨ys, hxs, hval, hp0, halive, hpy⟩ := hsound.shown (by rw [hst]; rfl)
  have howed : owed (some c) = 0 := by
    rw [owed, Option.map_some, hst]
    rfl
  have hlist := h.list
  rw [hr, howed] at hlist
  rw [advance_eq (u := .print) (by rw [hst]; rfl), take_quiet (by rw [hst]; rfl), hst]
  show PreemptInv f ⟨s.kernel.setPcb c.p1 { s.kernel.pcb c.p1 with self := c.t }, _⟩ xs
  -- the processes behind the new one are others
  have hrun : ∀ x ∈ xs, x ≠ c.t → Runnable s.kernel x →
      Runnable (s.kernel.setPcb c.p1 { s.kernel.pcb c.p1 with self := c.t }) x := by
    intro x hx hxt hold
    rw [hxs] at hx
    have hne := hpy x ((List.mem_cons.mp hx).resolve_left hxt)
    refine ⟨hold.address, ?_, ?_⟩
    · exact (congrArg Pcb.self (Function.update_of_ne hne _ _)).trans hold.self
    · exact fun hz => hold.alive
        ((congrArg Pcb.state (Function.update_of_ne hne _ _)).symm.trans hz)
  have hnew : Runnable (s.kernel.setPcb c.p1 { s.kernel.pcb c.p1 with self := c.t }) c.t := by
    refine ⟨hval ▸ hp0, ?_, ?_⟩
    all_goals simp only [Kernel.setPcb, hval, Function.update_self]
    exact halive
  have hall : ∀ x ∈ xs,
      Runnable (s.kernel.setPcb c.p1 { s.kernel.pcb c.p1 with self := c.t }) x := by
    intro x hx
    by_cases hxt : x = c.t
    · exact hxt ▸ hnew
    · refine hrun x hx hxt ((h.named x hx).resolve_right ?_)
      rintro ⟨d, hd, -, hdt⟩
      exact hxt (Option.some.inj (hr.symm.trans hd) ▸ hdt.symm)
  refine h.advance rfl hlist (fun _ hx => hx) (fun _ _ => rfl) (fun x hx _ => hall x hx)
    (fun x hx => .inl (hall x hx)) ?_ ?_ ?_ ?_ rfl
  · intro e he
    cases he
    exact ⟨by rintro ⟨⟩, by rintro ⟨⟩, by rintro ⟨⟩, by rintro ⟨⟩, by rintro ⟨⟩, by rintro ⟨⟩⟩
  · intro p d hp hd
    have hd' := h.sound p d hd
    refine hd'.frame (h.other_named hp hd) (fun hdp => ⟨(hd'.pcb hdp).2.1, ?_⟩)
      (fun hn => ⟨(hd'.node hn).2.2.1, (hd'.node hn).2.2.2.1, rfl, rfl, rfl⟩) fun _ => ⟨rfl, rfl⟩
    have hne : d.p1 ≠ c.p1 := fun hdc =>
      (hd'.pcb hdp).2.1 c.t (hxs ▸ List.mem_cons_self) (hval.trans hdc.symm)
    exact fun hz => (hd'.pcb hdp).2.2
      ((congrArg Pcb.state (Function.update_of_ne hne _ _)).symm.trans hz)
  · intro e p d he _ _
    cases he
    exact ⟨by rintro ⟨⟩, by rintro ⟨⟩, by rintro ⟨⟩⟩
  · exact fun _ hothers => h.front (System.not_halfLinked hr (by rw [hst]; rfl) hothers)

theorem PreemptInv.print_step (h : PreemptInv f s xs) (hr : s.running = some c)
    (hst : c.stmt = .print) : PreemptInv f (s.advance (c.take a)) xs := by
  have hu : c.stmt.unnamed = false := by rw [hst]; rfl
  have hlist := h.list
  rw [hr, owed_some hu] at hlist
  have hreturn : s.advance (c.take a) =
      ⟨s.kernel, Function.update s.creation s.kernel.currentProcess none⟩ := by
    rw [System.advance, take_stmt, take_quiet (by rw [hst]; rfl), hst]
    rfl
  rw [hreturn]
  refine h.advance rfl hlist (fun _ hx => hx) (fun _ _ => rfl) (fun _ _ hx => hx)
    (fun x hx => .inl (h.runnable hr hu hx)) (fun _ he => absurd he (Option.some_ne_none _).symm)
    (fun p d _ hd => h.sound p d hd) (fun _ _ _ he => absurd he (Option.some_ne_none _).symm) ?_ rfl
  exact fun _ hothers => h.front (System.not_halfLinked hr (by rw [hst]; rfl) hothers)

theorem PreemptInv.stmt_step {t : System} (h : PreemptInv f s xs) (hcalm : Calm s (.stmt a))
    (hstep : preemptStep s (.stmt a) = some t) : ∃ ys, PreemptInv f t ys := by
  cases hr : s.running with
  | none =>
    rw [preemptStep, hr] at hstep
    cases hstep
  | some c =>
    simp only [preemptStep, hr] at hstep
    rw [Option.ite_none_right_eq_some] at hstep
    obtain ⟨ha, hstep⟩ := hstep
    cases hstep
    by_cases hearly : c.stmt.early
    · exact ⟨xs, h.early_step hr hearly ha⟩
    · cases hst : c.stmt
      case allocNode => exact ⟨xs, h.allocNode_step hr hst (hst ▸ ha)⟩
      case linkPrev =>
        refine ⟨xs, h.linkPrev_step hr hst (hcalm ?_)⟩
        rw [hr, Option.map_some, hst]
      case linkNext => exact ⟨xs, h.half_step hr (.inl hst)⟩
      case setVal => exact ⟨xs, h.half_step hr (.inr (.inl hst))⟩
      case setTail => exact ⟨xs, h.half_step hr (.inr (.inr hst))⟩
      case setHead => exact ⟨c.t :: xs, h.setHead_step hr hst⟩
      case incSize => exact ⟨xs, h.incSize_step hr hst⟩
      case setSelf => exact ⟨xs, h.setSelf_step hr hst⟩
      case print => exact ⟨xs, h.print_step hr hst⟩
      all_goals exact absurd (by rw [hst]; rfl) hearly

theorem PreemptInv.call_step (h : PreemptInv f s xs) (hr : s.running = none) (routine : ℕ)
    (name : Name) : PreemptInv f (s.setRunning (some ⟨routine, name, 0, 0, .allocPcb⟩)) xs := by
  have hlist := h.list
  rw [hr] at hlist
  refine h.advance rfl hlist (fun _ hx => hx) (fun _ _ => rfl) (fun _ _ hx => hx) ?_ ?_
    (fun p d _ hd => h.sound p d hd) ?_ ?_ rfl
  · refine fun x hx => .inl ((h.named x hx).resolve_right ?_)
    rintro ⟨c, hc, -⟩
    exact nomatch hr.symm.trans hc
  · intro c hc
    cases hc
    exact ⟨fun hh => (nomatch hh), fun hh => (nomatch hh), fun hh => (nomatch hh),
      fun hh => (nomatch hh), fun hh => (nomatch hh), fun hh => (nomatch hh)⟩
  · intro c p d hc _ _
    cases hc
    exact ⟨fun hh => (nomatch hh), fun hh => (nomatch hh), fun hh => (nomatch hh)⟩
  · refine fun _ hothers => h.front fun p d hd => hothers p d ?_ hd
    rintro rfl
    exact nomatch hr.symm.trans hd

theorem PreemptInv.all_named (h : PreemptInv f s xs)
    (hcalm : (s.running.map fun c => c.stmt.unnamed) ≠ some true) (hd : s.creation p = some d) :
    d.stmt.unnamed = false := by
  cases hu : d.stmt.unnamed
  · rfl
  · have hp := h.alone p d hd hu
    rw [hp] at hd
    have hr : s.running = some d := hd
    rw [hr, Option.map_some, hu] at hcalm
    exact absurd rfl hcalm

theorem PreemptInv.of_same (h : PreemptInv f s xs)
    (hcalm : ∀ p d, s.creation p = some d → d.stmt.unnamed = false) (hsame : SameTasks s.kernel k')
    (hx : x ∈ xs) (hcurrent : s.kernel.processList.val x = k'.currentProcess) :
    PreemptInv f { s with kernel := k' } xs := by
  obtain ⟨hl, hself, hstate⟩ := hsame
  have howed : ∀ k'' : Kernel, owed (System.running { s with kernel := k'' }) = 0 := fun k'' =>
    System.owed_of_named hcalm
  have hlist := h.list
  rw [show owed s.running = 0 from howed s.kernel] at hlist
  have hrun : ∀ y ∈ xs, Runnable k' y := by
    intro y hy
    obtain ⟨haddress, hyself, halive⟩ := h.runnable_of_named hcalm hy
    refine ⟨by rwa [hl], ?_, ?_⟩
    · rwa [hl, hself]
    · rwa [hl, hstate]
  refine ⟨?_, ⟨x, hx, hl ▸ hcurrent, hrun x hx⟩, fun y hy => .inl (hrun y hy), ?_, ?_,
    ?_, h.apart, ?_, (congrArg DList.State.faults hl).trans h.faults⟩
  · rw [howed]
    show ListInv (settled k'.processList 0) xs
    rwa [hl]
  · intro p d hd
    obtain ⟨y, hy, hyp⟩ := h.owner p d hd
    exact ⟨y, hy, by rwa [hl]⟩
  · intro p d hd
    have hd' := h.sound p d hd
    refine hd'.frame (hcalm p d hd) (fun hpcb => ?_) (fun hn => ?_) fun _ => ?_
    all_goals rw [hl]
    · rw [hstate]
      exact (hd'.pcb hpcb).2
    · exact ⟨(hd'.node hn).2.2.1, (hd'.node hn).2.2.2.1, rfl, rfl, rfl⟩
    · exact ⟨rfl, rfl⟩
  · intro p d hd hu
    rw [hcalm p d hd] at hu
    exact nomatch hu
  · intro hhalf
    show k'.processList.prev k'.processList.head = 0
    rw [hl]
    exact h.front hhalf

theorem PreemptInv.tick_step {t : System} {regs : Registers} (h : PreemptInv f s xs)
    (hcalm : Calm s (.tick regs)) (hstep : preemptStep s (.tick regs) = some t) :
    PreemptInv f t xs := by
  have hnamed : ∀ p d, s.creation p = some d → d.stmt.unnamed = false :=
    fun p d hd => h.all_named hcalm hd
  have hlist := h.list
  rw [owed_eq_zero hcalm] at hlist
  obtain ⟨x, hx, hval, hrun⟩ := h.current
  obtain ⟨as, bs, rfl⟩ := List.append_of_mem hx
  obtain ⟨y, ys, hy⟩ := List.exists_cons_of_ne_nil (l := bs ++ (as ++ [x])) (by simp)
  have hyl : y ∈ as ++ x :: bs := by
    have hmem : y ∈ bs ++ as ++ [x] := List.append_assoc bs as [x] ▸ hy ▸ List.mem_cons_self
    exact (queue_perm as bs x).mem_iff.mp hmem
  have hynamed : Runnable s.kernel y := h.runnable_of_named hnamed hyl
  have hwalk := next_eq hlist (by simpa using hlist) rfl hy
  -- the walk does not use the half link
  have hnext : (if s.kernel.processList.next x = 0 then listPeekFront s.kernel.processList
      else s.kernel.processList.val (s.kernel.processList.next x)) = s.kernel.processList.val y :=
    hwalk
  have hself : (s.kernel.pcb s.kernel.currentProcess).self = x := hval ▸ hrun.self
  have halive : (s.kernel.pcb s.kernel.currentProcess).state ≠ .zombie := hval ▸ hrun.alive
  have hsize := listSize_ne_zero hlist
  have hsched := schedule_eq (k := saveContext s.kernel regs)
    (a := s.kernel.processList.val y) hsize
    h.current_ne_zero halive (hself.symm ▸ hnext) hynamed.address
  rw [preemptStep, hsched, contextSwitch_eq] at hstep
  cases hstep
  have hsame := saveLast_same
    { saveContext s.kernel regs with currentProcess := s.kernel.processList.val y } regs
  exact h.of_same hnamed ⟨hsame.list, hsame.self, hsame.state⟩ hyl
    (switched_currentProcess { saveContext s.kernel regs with
      currentProcess := s.kernel.processList.val y } regs).symm

/-- The kernel after the running process, at the node `x`, has left. -/
theorem PreemptInv.left {as bs : List ℕ} {y : ℕ} (h : PreemptInv f s (as ++ x :: bs))
    (hr : s.running = none) (hval : s.kernel.processList.val x = s.kernel.currentProcess)
    (hself : (s.kernel.pcb s.kernel.currentProcess).self = x)
    (hhead : s.kernel.processList.head = x →
      ∀ p d, s.creation p = some d → d.stmt.halfLinked = false)
    (hy : y ∈ as ++ bs) :
    PreemptInv f { s with kernel := exited s.kernel (s.kernel.processList.val y) } (as ++ bs) := by
  have hnamed : ∀ p d, s.creation p = some d → d.stmt.unnamed = false :=
    fun p d hd => h.all_named (by simp [hr]) hd
  have hother : ∀ p d, s.creation p = some d → p ≠ s.kernel.currentProcess := by
    rintro p d hd rfl
    cases hr.symm.trans hd
  have hlist := h.list
  rw [show owed s.running = 0 by rw [hr]; rfl] at hlist
  obtain ⟨hrest, hframe, hprev, hfront⟩ := ListInv.removeNode_half (s := s.kernel.processList)
    hlist (List.ne_nil_of_mem hy) fun hhx => h.front (hhead hhx)
  have hkept := listRemoveNode_val s.kernel.processList x
  have hsub : ∀ z ∈ as ++ bs, z ∈ as ++ x :: bs := fun z hz => mem_middle_of_mem hz
  have hne : ∀ z ∈ as ++ bs, z ≠ x := by
    have hdup := List.nodup_middle.mp hlist.nodup
    exact fun z hz hzx => (List.nodup_cons.mp hdup).1 (hzx ▸ hz)
  have hrunnable : ∀ z ∈ as ++ x :: bs, Runnable s.kernel z := fun z hz =>
    h.runnable_of_named hnamed hz
  -- the processes that stay are others than the one that exits
  have hstay : ∀ z ∈ as ++ bs, s.kernel.processList.val z ≠ s.kernel.currentProcess := by
    intro z hz hzc
    refine hne z hz ?_
    rw [← (hrunnable z (hsub z hz)).self, hzc, hself]
  have hrun : ∀ z ∈ as ++ bs, Runnable (exited s.kernel (s.kernel.processList.val y)) z := by
    intro z hz
    obtain ⟨haddress, hzself, halive⟩ := hrunnable z (hsub z hz)
    refine ⟨?_, ?_, ?_⟩
    all_goals simp only [exited, hself, hkept]
    · exact haddress
    · exact (congrArg Pcb.self (Function.update_of_ne (hstay z hz) _ _)).trans hzself
    · exact fun hzs => halive
        ((congrArg Pcb.state (Function.update_of_ne (hstay z hz) _ _)).symm.trans hzs)
  have howed : owed (System.running { s with
      kernel := exited s.kernel (s.kernel.processList.val y) }) = 0 := System.owed_of_named hnamed
  have hl : (exited s.kernel (s.kernel.processList.val y)).processList =
      (listRemoveNode s.kernel.processList x).2 := by
    rw [exited, hself]
  refine ⟨?_, ⟨y, hy, ?_, hrun y hy⟩, fun z hz => .inl (hrun z hz), ?_, ?_, ?_, h.apart, ?_, ?_⟩
  · rw [howed]
    show ListInv (settled (exited s.kernel _).processList 0) (as ++ bs)
    rw [hl]
    exact hrest
  · show (exited s.kernel _).processList.val y = _
    rw [hl, hkept]
    rfl
  · intro p d hd
    obtain ⟨z, hz, hzp⟩ := h.owner p d hd
    have hzx : z ≠ x := by
      rintro rfl
      exact hother p d hd (hzp.symm.trans hval)
    refine ⟨z, mem_of_mem_middle hz hzx, ?_⟩
    · show (exited s.kernel _).processList.val z = p
      rw [hl, hkept]
      exact hzp
  · intro p d hd
    have hd' := h.sound p d hd
    refine hd'.frame (hnamed p d hd) (fun hpcb => ?_) (fun hn => ?_) fun hh => ?_
    all_goals rw [hl]
    · obtain ⟨-, hpx, halive⟩ := hd'.pcb hpcb
      have hpc : d.p1 ≠ s.kernel.currentProcess := fun hpc =>
        hpx x (by simp) (hval.trans hpc.symm)
      refine ⟨fun z hz => ?_, fun hz => halive
        ((congrArg Pcb.state (Function.update_of_ne hpc _ _)).symm.trans hz)⟩
      rw [hkept]
      exact hpx z (hsub z hz)
    · obtain ⟨-, -, htx, htgone, -⟩ := hd'.node hn
      refine ⟨fun ht => htx (hsub _ ht), ?_, hframe.prev _ htx, hframe.next _ htx, by rw [hkept]⟩
      rw [hframe.gone, List.mem_cons, not_or]
      exact ⟨fun htx' => htx (by simp [htx']), htgone⟩
    · -- a half linked call keeps the first node in the list
      have hhx : s.kernel.processList.head ≠ x := fun hhx => by
        rw [hhead hhx p d hd] at hh
        exact Bool.noConfusion hh
      exact ⟨hframe.head hhx, hprev hhx⟩
  · intro p d hd hu
    rw [hnamed p d hd] at hu
    exact Bool.noConfusion hu
  · intro hhalf
    show (exited s.kernel _).processList.prev (exited s.kernel _).processList.head = 0
    rw [hl]
    exact hfront (h.front hhalf)
  · show (exited s.kernel _).processList.faults = f
    rw [hl]
    exact hframe.faults.trans h.faults

/-- The running process exits: it is not in a call, and it is not the first one of the list
while a node is half linked to that one. -/
theorem PreemptInv.exit_step {t : System} (h : PreemptInv f s xs) (hcalm : Calm s .exit)
    (hstep : preemptStep s .exit = some t) : ∃ ys, PreemptInv f t ys := by
  rw [preemptStep, Option.ite_none_right_eq_some] at hstep
  obtain ⟨hnone, hstep⟩ := hstep
  have hr : s.running = none := Option.isNone_iff_eq_none.mp hnone
  have h0 : owed s.running = 0 := by rw [hr]; rfl
  have hnamed : ∀ p d, s.creation p = some d → d.stmt.unnamed = false :=
    fun p d hd => h.all_named (by simp [hr]) hd
  have hrunnable : ∀ z ∈ xs, Runnable s.kernel z := fun z hz => h.runnable_of_named hnamed hz
  have hlist := h.list
  rw [h0] at hlist
  obtain ⟨x, hx, hval, hrun⟩ := h.current
  obtain ⟨as, bs, rfl⟩ := List.append_of_mem hx
  have hself : (s.kernel.pcb s.kernel.currentProcess).self = x := hval ▸ hrun.self
  have hx0 := (hlist.addr x hx).1
  have hsize := listSize_ne_zero hlist
  have hlinked : s.kernel.processList.head = x →
      ∀ p d, s.creation p = some d → d.stmt.halfLinked = false := by
    intro hhx p d hd
    have hpeek : listPeekFront s.kernel.processList = s.kernel.currentProcess := by
      rw [listPeekFront, hhx, if_neg hx0, hval]
    exact hcalm hpeek d (h.mem_calls h0 hd)
  have hhead : s.kernel.processList.head = x →
      s.kernel.processList.prev s.kernel.processList.head = 0 := fun hhx => h.front (hlinked hhx)
  by_cases hne : as ++ bs = []
  · -- the last process: the machine halts
    obtain ⟨rfl, rfl⟩ := List.append_eq_nil_iff.mp hne
    have hlast : ListInv s.kernel.processList [x] := by
      have hfront := hhead hlist.forward.1
      rwa [settled_of_front hfront] at hlist
    have hnext : (if s.kernel.processList.next (s.kernel.pcb s.kernel.currentProcess).self = 0 then
        listPeekFront (listRemoveNode s.kernel.processList
          (s.kernel.pcb s.kernel.currentProcess).self).2
        else (listRemoveNode s.kernel.processList (s.kernel.pcb s.kernel.currentProcess).self).2.val
          (s.kernel.processList.next (s.kernel.pcb s.kernel.currentProcess).self)) = 0 := by
      have hend : s.kernel.processList.next x = 0 := hlast.forward.2
      rw [hself, if_pos hend, listPeekFront, if_pos hlast.removeNode_single]
    rw [exitProcess_eq hsize h.current_ne_zero hnext, if_pos rfl] at hstep
    cases hstep
  · obtain ⟨y, ys, hy⟩ := List.exists_cons_of_ne_nil (l := bs ++ as)
      fun hnil => hne (by simpa [and_comm] using hnil)
    have hyl : y ∈ as ++ bs := by
      have hmem : y ∈ bs ++ as := hy ▸ List.mem_cons_self
      rw [List.mem_append] at hmem ⊢
      exact hmem.symm
    obtain ⟨hrest, -⟩ := ListInv.removeNode_half (s := s.kernel.processList) hlist hne hhead
    have hy0 : s.kernel.processList.val y ≠ 0 := (hrunnable y (mem_middle_of_mem hyl)).address
    have hrest' : ListInv (settled (listRemoveNode s.kernel.processList x).2 0)
        (as ++ [] ++ bs) := by
      rw [List.append_nil]
      exact hrest
    have hwalk := next_eq hlist hrest' (listRemoveNode_val s.kernel.processList x)
      (by rwa [List.append_nil])
    have hnext : (if s.kernel.processList.next (s.kernel.pcb s.kernel.currentProcess).self = 0 then
        listPeekFront (listRemoveNode s.kernel.processList
          (s.kernel.pcb s.kernel.currentProcess).self).2
        else (listRemoveNode s.kernel.processList (s.kernel.pcb s.kernel.currentProcess).self).2.val
          (s.kernel.processList.next (s.kernel.pcb s.kernel.currentProcess).self)) =
        s.kernel.processList.val y := by
      rw [hself]
      exact hwalk
    rw [exitProcess_eq hsize h.current_ne_zero hnext, if_neg hy0, contextSwitch_eq] at hstep
    cases hstep
    have hleft := h.left hr hval hself hlinked hyl
    have hsame := saveLast_same (exited s.kernel (s.kernel.processList.val y)) s.kernel.savedContext
    refine ⟨as ++ bs, hleft.of_same hnamed ⟨hsame.list, hsame.self, hsame.state⟩ hyl ?_⟩
    rw [switched_currentProcess]
    exact congrFun (listRemoveNode_val _ _) y

theorem preemptStep_inv {e : Move} {t : System} (h : ∃ xs, PreemptInv f s xs) (hcalm : Calm s e)
    (hstep : preemptStep s e = some t) : ∃ xs, PreemptInv f t xs := by
  obtain ⟨xs, hi⟩ := h
  cases e with
  | call routine name =>
    rw [preemptStep, Option.ite_none_right_eq_some] at hstep
    obtain ⟨hnone, hstep⟩ := hstep
    cases hstep
    exact ⟨xs, hi.call_step (Option.isNone_iff_eq_none.mp hnone) routine name⟩
  | stmt a => exact hi.stmt_step hcalm hstep
  | tick regs => exact ⟨xs, hi.tick_step hcalm hstep⟩
  | exit => exact hi.exit_step hcalm hstep

/-- From a list of processes that know their nodes, and with the running process among them,
every interleaving of calls, ticks and exits that stays calm is safe. -/
theorem preemption_safe (hk : Steady k) {es : List Move}
    (hcalm : Steps preemptStep Calm (System.start k) es) :
    Always preemptStep (Safe k.processList.faults) (System.start k) es :=
  always_of_steps (fun _ _ _ hi hc hstep => preemptStep_inv hi hc hstep)
    (fun _ hi => hi.choose_spec.safe) (PreemptInv.start hk) hcalm

instance Calm.decidable (s : System) : (e : Move) → Decidable (Calm s e)
  | .call _ _ => isTrue trivial
  | .stmt _ => inferInstanceAs (Decidable (_ → ∀ c ∈ s.calls, _))
  | .tick _ => inferInstanceAs (Decidable (_ ≠ _))
  | .exit => inferInstanceAs (Decidable (_ → ∀ c ∈ s.calls, _))

def tickRegs : Registers := ⟨0, 0, 0, 0, 0, 0, 0, 0, 0, 32, 0, 0, 0x1b, 0x206, 0, 0x23⟩

def calmMoves : List Move :=
  wholeCall 1048576 ⟨[], Name.nil_fits⟩ 8192 128 ++ .tick tickRegs ::
    .call 1048576 ⟨[], Name.nil_fits⟩ :: .stmt 12288 :: List.replicate 9 (.stmt 0) ++
    [.stmt 192, .stmt 0, .tick tickRegs, .tick tickRegs] ++ List.replicate 7 (.stmt 0) ++
    [.tick tickRegs, .exit]

theorem preemption_safe_three : (run preemptStep (System.start oneProcess) calmMoves).isSome ∧
    Always preemptStep (Safe oneProcess.processList.faults) (System.start oneProcess) calmMoves :=
  ⟨by decide +kernel, preemption_safe oneProcess_steady (by decide +kernel)⟩

/-- The only process creates another one; a tick comes after `list->head = t`. -/
def windowMoves : List Move :=
  .call 1048576 ⟨[], Name.nil_fits⟩ :: .stmt 8192 :: List.replicate 9 (.stmt 0) ++ .stmt 128 ::
    List.replicate 5 (.stmt 0) ++ [.tick tickRegs]

/-- `schedule` selects the new process, which does not know its node. -/
theorem tick_selects_unnamed : Steady oneProcess ∧
    ¬ Always preemptStep (Safe oneProcess.processList.faults) (System.start oneProcess)
      windowMoves := by
  refine ⟨oneProcess_steady, fun h => ?_⟩
  have hrun : run preemptStep (System.start oneProcess) windowMoves = some _ :=
    run_eq_getD (System.start .bss) (by decide +kernel)
  exact (h.last hrun).selected.node (by decide +kernel)

end Unos.Process
