import Unos.DList.Operations
import Unos.Library.Splits
import Unos.Process.Model

namespace Unos.Process

open Unos.Words Unos.Links Unos.DList Unos.Splits

/-- The process at `x` in the list: it knows its node and has not exited. -/
structure Runnable (k : Kernel) (x : ℕ) : Prop where
  address : k.processList.val x ≠ 0
  self : (k.pcb (k.processList.val x)).self = x
  alive : (k.pcb (k.processList.val x)).state ≠ .zombie

/-- The nodes `xs` make up the process list. -/
structure Listed (k : Kernel) (xs : List ℕ) : Prop where
  list : ListInv k.processList xs
  runnable : ∀ x ∈ xs, Runnable k x

/-- The processes in the order in which they get their turns, the current one last. -/
inductive Queue (k : Kernel) : List ℕ → Prop
  | idle : Listed k [] → k.currentProcess = 0 → Queue k []
  | cursor {as bs : List ℕ} {x : ℕ} {q : List ℕ} : Listed k (as ++ x :: bs) →
    k.currentProcess = k.processList.val x → (bs ++ as ++ [x]).map k.processList.val = q → Queue k q

def processes (k : Kernel) : List ℕ := (nodes k.processList).map k.processList.val

/-- Nothing but saved registers and what `schedule` keeps for itself differs. -/
structure SameTasks (k k' : Kernel) : Prop where
  list : k'.processList = k.processList
  self : ∀ p, (k'.pcb p).self = (k.pcb p).self
  state : ∀ p, (k'.pcb p).state = (k.pcb p).state

variable {k k' : Kernel} {xs as bs q : List ℕ} {a c p t x : ℕ}

theorem Listed.of_same (h : Listed k xs) (hsame : SameTasks k k') : Listed k' xs := by
  have hlist := hsame.list
  refine ⟨hlist ▸ h.list, fun x hx => ?_⟩
  obtain ⟨haddress, hself, halive⟩ := h.runnable x hx
  rw [← hlist] at haddress hself halive
  refine ⟨haddress, ?_, ?_⟩
  · rw [hsame.self]
    exact hself
  · rw [hsame.state]
    exact halive

theorem Queue.of_same (h : Queue k q) (hsame : SameTasks k k')
    (hcurrent : k'.currentProcess = k.currentProcess) : Queue k' q := by
  cases h with
  | idle hl hc => exact .idle (hl.of_same hsame) (hcurrent.trans hc)
  | cursor hl hc hq =>
    have hlist := hsame.list
    refine .cursor (hl.of_same hsame) ?_ (hlist ▸ hq)
    rw [hcurrent, hlist]
    exact hc

/-- A list that was just created is empty. -/
theorem listed_nil {prev next val : ℕ → ℕ} (h : k.processList = listCreate prev next val) :
    Listed k [] := by
  obtain ⟨-, ys, hys⟩ := wellFormed_listCreate prev next val
  obtain rfl : ys = [] := hys.head_eq_zero.mp rfl
  refine ⟨?_, fun x hx => absurd hx List.not_mem_nil⟩
  rwa [h]

theorem Listed.val_inj (h : Listed k xs) {y : ℕ} (hx : x ∈ xs) (hy : y ∈ xs)
    (hxy : k.processList.val x = k.processList.val y) : x = y := by
  rw [← (h.runnable x hx).self, ← (h.runnable y hy).self, hxy]

theorem queue_perm (as bs : List ℕ) (x : ℕ) : (bs ++ as ++ [x]).Perm (as ++ x :: bs) := by
  have hperm : (bs ++ (as ++ [x])).Perm ((as ++ [x]) ++ bs) := List.perm_append_comm
  simpa using hperm

theorem Queue.mem_processes (h : Queue k q) : a ∈ processes k ↔ a ∈ q := by
  cases h with
  | idle hl _ => rw [processes, hl.list.nodes_eq, List.map_nil]
  | cursor hl _ hq =>
    rw [processes, hl.list.nodes_eq, ← hq]
    exact ((queue_perm _ _ _).map _).mem_iff.symm

theorem Queue.nodup (h : Queue k q) : q.Nodup := by
  cases h with
  | idle => exact List.nodup_nil
  | cursor hl _ hq =>
    rw [← hq, ((queue_perm _ _ _).map _).nodup_iff]
    exact List.Nodup.map_on (fun x hx y hy => hl.val_inj hx hy) hl.list.nodup

theorem Queue.ne_zero (h : Queue k q) (ha : a ∈ q) : a ≠ 0 := by
  cases h with
  | idle => exact absurd ha List.not_mem_nil
  | cursor hl _ hq =>
    rw [← hq, ((queue_perm _ _ _).map _).mem_iff] at ha
    obtain ⟨x, hx, rfl⟩ := List.mem_map.mp ha
    exact (hl.runnable x hx).address

theorem Queue.size_eq (h : Queue k q) : listSize k.processList = q.length := by
  cases h with
  | idle hl _ => exact hl.list.size
  | cursor hl _ hq =>
    rw [← hq, List.length_map, (queue_perm _ _ _).length_eq]
    exact hl.list.size

theorem Queue.current_eq (h : Queue k (q ++ [c])) : k.currentProcess = c := by
  generalize hall : q ++ [c] = all at h
  cases h with
  | idle => simp at hall
  | cursor _ hc hq =>
    rw [← hall, List.map_append] at hq
    have hlast := (List.append_inj' hq rfl).2
    rw [hc]
    simpa using hlast

theorem listPeekFront_eq {s : DList.State} {ys : List ℕ} (h : ListInv s (x :: ys)) :
    listPeekFront s = s.val x := by
  have hhead : s.head = x := h.forward.1
  have hx0 := (h.addr x List.mem_cons_self).1
  rw [listPeekFront, hhead, if_neg hx0]

/-- The node behind the current one, or the first node of what the list is afterwards:
`rest` is the current node, when it stays. -/
theorem next_eq {s s' : DList.State} {rest zs : List ℕ} {y : ℕ} (h : ListInv s (as ++ x :: bs))
    (h' : ListInv s' (as ++ rest ++ bs)) (hval : s'.val = s.val)
    (hy : bs ++ (as ++ rest) = y :: zs) :
    (if s.next x = 0 then listPeekFront s' else s'.val (s.next x)) = s.val y := by
  have hpath := h.forward
  rw [path_append_cons] at hpath
  cases bs with
  | nil =>
    have hlast : s.next x = 0 := hpath.2
    rw [List.nil_append] at hy
    rw [List.append_nil, hy] at h'
    rw [if_pos hlast, listPeekFront_eq h', hval]
  | cons b bs =>
    obtain ⟨rfl, -⟩ := List.cons.inj hy
    have hnext : s.next x = b := hpath.2.1
    have hb0 := (h.addr b (by simp)).1
    rw [hnext, if_neg hb0, hval]

theorem exists_split {ys zs : List ℕ} {y : ℕ} (h : bs ++ ys = y :: zs) :
    ∃ as' bs', ys ++ bs = as' ++ y :: bs' ∧ bs' ++ as' = zs := by
  cases bs with
  | nil => exact ⟨[], zs, by simpa using h, by simp⟩
  | cons b bs =>
    obtain ⟨rfl, rfl⟩ := List.cons.inj h
    exact ⟨ys, bs, rfl, rfl⟩

theorem saveLast_same (k : Kernel) (r : Registers) : SameTasks k (saveLast k r) := by
  rw [saveLast]
  split_ifs with hlast
  · refine ⟨rfl, fun p => ?_, fun p => ?_⟩
    all_goals
      by_cases hp : p = k.lastProcess
      · simp only [Kernel.setPcb, hp, Function.update_self]
      · simp only [Kernel.setPcb, Function.update_of_ne hp]
  · exact ⟨rfl, fun _ => rfl, fun _ => rfl⟩

theorem saveLast_currentProcess (k : Kernel) (r : Registers) :
    (saveLast k r).currentProcess = k.currentProcess := by
  rw [saveLast]
  split_ifs <;> rfl

def switched (k : Kernel) (r : Registers) : Kernel :=
  { saveLast k r with lastProcess := (saveLast k r).currentProcess }

theorem contextSwitch_eq (k : Kernel) (r : Registers) (n : ℕ) :
    contextSwitch k r n =
      .dispatch (switched k r) n (userRegsSwitch ((switched k r).pcb n).regs) := rfl

theorem switched_currentProcess (k : Kernel) (r : Registers) :
    (switched k r).currentProcess = k.currentProcess := saveLast_currentProcess k r

theorem switched_lastProcess (k : Kernel) (r : Registers) :
    (switched k r).lastProcess = k.currentProcess := saveLast_currentProcess k r

theorem switched_pcb_of_eq {k : Kernel} (r : Registers) (h : k.lastProcess = 0) :
    (switched k r).pcb = k.pcb := by
  have hsave : saveLast k r = k := if_neg fun h0 => h0 h
  rw [switched, hsave]

theorem switched_pcb {k : Kernel} (r : Registers) (h : k.lastProcess ≠ 0) :
    (switched k r).pcb = Function.update k.pcb k.lastProcess
      { k.pcb k.lastProcess with regs := saveRegs r k.cr3 } := by
  have hsave : saveLast k r = k.setPcb k.lastProcess _ := if_pos h
  rw [switched, hsave]
  rfl

theorem Queue.switched (h : Queue k q) (r : Registers) : Queue (switched k r) q := by
  obtain ⟨hlist, hself, hstate⟩ := saveLast_same k r
  exact h.of_same ⟨hlist, hself, hstate⟩ (saveLast_currentProcess k r)

/-- With a current process that has not exited, `schedule` switches to the process `a` that it finds
behind it. -/
theorem schedule_eq (hsize : listSize k.processList ≠ 0) (hcurrent : k.currentProcess ≠ 0)
    (halive : (k.pcb k.currentProcess).state ≠ .zombie)
    (hnext : (if k.processList.next (k.pcb k.currentProcess).self = 0 then
      listPeekFront k.processList
      else k.processList.val (k.processList.next (k.pcb k.currentProcess).self)) = a)
    (ha : a ≠ 0) :
    schedule k = contextSwitch { k with currentProcess := a } k.savedContext a := by
  rw [schedule, if_neg hsize, if_neg hcurrent, scheduleNext]
  simp only [if_neg halive, hnext, if_neg ha]

theorem Queue.schedule_eq (h : Queue k (a :: q)) :
    schedule k = contextSwitch { k with currentProcess := a } k.savedContext a := by
  have hsize : listSize k.processList ≠ 0 := by
    rw [h.size_eq]
    exact Nat.succ_ne_zero q.length
  cases h with
  | @cursor as bs x _ hl hc hq =>
    obtain ⟨y, zs, hy, rfl, -⟩ := List.map_eq_cons_iff.mp hq
    obtain ⟨haddress, hself, halive⟩ := hl.runnable x (by simp)
    have hyl : y ∈ as ++ x :: bs := (queue_perm as bs x).mem_iff.mp (hy ▸ List.mem_cons_self)
    have hy0 := (hl.runnable y hyl).address
    have hl' : ListInv k.processList (as ++ [x] ++ bs) := by simpa using hl.list
    have hnext := next_eq hl.list hl' rfl (List.append_assoc bs as [x] ▸ hy)
    rw [← hc] at haddress hself halive
    exact schedule_eq hsize haddress halive (by rwa [hself]) hy0

/-- `schedule` switches to the front of the queue, and the process goes to the end. -/
theorem Queue.rotate (h : Queue k (a :: q)) : Queue { k with currentProcess := a } (q ++ [a]) := by
  cases h with
  | @cursor as bs x _ hl hc hq =>
    obtain ⟨y, zs, hy, rfl, rfl⟩ := List.map_eq_cons_iff.mp hq
    obtain ⟨as', bs', hsplit, rfl⟩ := exists_split (List.append_assoc bs as [x] ▸ hy)
    have hnodes : as ++ x :: bs = as' ++ y :: bs' := by simpa using hsplit
    have hl' : Listed { k with currentProcess := k.processList.val y } (as' ++ y :: bs') := by
      rw [← hnodes]
      refine ⟨hl.list, fun z hz => ?_⟩
      obtain ⟨haddress, hself, halive⟩ := hl.runnable z hz
      exact ⟨haddress, hself, halive⟩
    exact .cursor hl' rfl (by simp)

theorem Queue.dispatch (h : Queue k (a :: q)) :
    ∃ k' regs, schedule k = .dispatch k' a regs ∧ Queue k' (q ++ [a]) :=
  ⟨_, _, h.schedule_eq, h.rotate.switched k.savedContext⟩

/-- The kernel when the running process has exited and `a` is next. -/
def exited (k : Kernel) (a : ℕ) : Kernel :=
  let current := k.pcb k.currentProcess
  { k.setPcb k.currentProcess { current with state := .zombie } with
    processList := (listRemoveNode k.processList current.self).2
    lastProcess := 0
    currentProcess := a }

/-- `_exit` switches to the process that it finds where the running process was. -/
theorem exitProcess_eq (hsize : listSize k.processList ≠ 0) (hcurrent : k.currentProcess ≠ 0)
    (hnext : (if k.processList.next (k.pcb k.currentProcess).self = 0 then
      listPeekFront (listRemoveNode k.processList (k.pcb k.currentProcess).self).2
      else (listRemoveNode k.processList (k.pcb k.currentProcess).self).2.val
        (k.processList.next (k.pcb k.currentProcess).self)) = a) :
    exitProcess k =
      if a = 0 then .panic else contextSwitch (exited k a) k.savedContext a := by
  have hstart : exitProcess k = scheduleNext
      (k.setPcb k.currentProcess { k.pcb k.currentProcess with state := .zombie }) := by
    rw [exitProcess, schedule]
    exact (if_neg hsize).trans (if_neg hcurrent)
  rw [hstart]
  simp only [scheduleNext, exited, Kernel.setPcb, Function.update_self, if_true, hnext]

theorem Queue.exit_split (h : Queue k (a :: (q ++ [c]))) :
    ∃ as bs x y zs, Listed k (as ++ x :: bs) ∧ k.currentProcess = k.processList.val x ∧
      bs ++ as = y :: zs ∧ k.processList.val y = a ∧ zs.map k.processList.val = q := by
  cases h with
  | @cursor as bs x _ hl hc hq =>
    rw [List.map_append, ← List.cons_append] at hq
    obtain ⟨hrest, -⟩ := List.append_inj' hq rfl
    obtain ⟨y, zs, hy, hya, hzs⟩ := List.map_eq_cons_iff.mp hrest
    exact ⟨as, bs, x, y, zs, hl, hc, hy, hya, hzs⟩

theorem Queue.exit_eq (h : Queue k (a :: (q ++ [c]))) :
    exitProcess k = contextSwitch (exited k a) k.savedContext a := by
  have hsize : listSize k.processList ≠ 0 := by
    rw [h.size_eq]
    exact Nat.succ_ne_zero _
  obtain ⟨as, bs, x, y, zs, hl, hc, hy, rfl, -⟩ := h.exit_split
  obtain ⟨haddress, hself, -⟩ := hl.runnable x (by simp)
  have hyl : y ∈ as ++ x :: bs := by
    have hmem : y ∈ bs ++ as := hy ▸ List.mem_cons_self
    exact mem_middle_of_mem (List.perm_append_comm.mem_iff.mp hmem)
  have hy0 := (hl.runnable y hyl).address
  have hne : as ++ bs ≠ [] := by
    intro hnil
    rw [List.append_eq_nil_iff] at hnil
    rw [hnil.1, hnil.2] at hy
    exact absurd hy.symm (List.cons_ne_nil y zs)
  have hremoved := hl.list.removeNode hne
  have hnext := next_eq hl.list (by rwa [List.append_nil as]) (listRemoveNode_val k.processList x)
    (by rwa [List.append_nil as])
  rw [← hc] at haddress hself
  rw [exitProcess_eq hsize haddress (a := k.processList.val y) (by rwa [hself]), if_neg hy0]

/-- `_exit` switches to the front of the queue, and the running process leaves. -/
theorem Queue.exit (h : Queue k (a :: (q ++ [c]))) : Queue (exited k a) (q ++ [a]) := by
  obtain ⟨as, bs, x, y, zs, hl, hc, hy, rfl, rfl⟩ := h.exit_split
  obtain ⟨-, hself, -⟩ := hl.runnable x (by simp)
  obtain ⟨as', bs', hsplit, rfl⟩ := exists_split hy
  have hne : as ++ bs ≠ [] := by
    rw [hsplit]
    simp
  have hremoved := hl.list.removeNode hne
  have hval := listRemoveNode_val k.processList x
  rw [hsplit] at hremoved
  have hl' : Listed (exited k (k.processList.val y)) (as' ++ y :: bs') := by
    simp only [exited, hc, hself]
    refine ⟨hremoved, fun z hz => ?_⟩
    rw [← hsplit] at hz
    have hzl : z ∈ as ++ x :: bs := mem_middle_of_mem hz
    have hzx : z ≠ x := by
      have hdup := List.nodup_middle.mp hl.list.nodup
      exact fun hzx => (List.nodup_cons.mp hdup).1 (hzx ▸ hz)
    -- another process than the one that exits
    have hother : k.processList.val z ≠ k.processList.val x := fun hval =>
      hzx (hl.val_inj hzl (by simp) hval)
    obtain ⟨haddress, hself', halive⟩ := hl.runnable z hzl
    refine ⟨?_, ?_, ?_⟩
    · rwa [hval]
    · simp only [Kernel.setPcb, hval, Function.update_of_ne hother, hself']
    · simpa only [Kernel.setPcb, hval, Function.update_of_ne hother] using halive
  refine .cursor hl' ?_ ?_
  · simp only [exited, hc, hself, hval]
  · simp only [exited, hc, hself, hval]
    simp

theorem Queue.exit_dispatch (h : Queue k (a :: (q ++ [c]))) :
    ∃ k' regs, exitProcess k = .dispatch k' a regs ∧ Queue k' (q ++ [a]) :=
  ⟨_, _, h.exit_eq, h.exit.switched k.savedContext⟩

theorem createProcessFromRoutine_val (k : Kernel) (routine : ℕ) (name : Name) (hx : x ≠ t) :
    (createProcessFromRoutine k routine name p t).processList.val x = k.processList.val x := by
  simp only [createProcessFromRoutine, listInsertFront_val, Function.update_of_ne hx]

theorem createProcessFromRoutine_val_self (k : Kernel) (routine : ℕ) (name : Name) :
    (createProcessFromRoutine k routine name p t).processList.val t = p := by
  simp only [createProcessFromRoutine, listInsertFront_val, Function.update_self]

theorem createProcessFromRoutine_pcb (k : Kernel) (routine : ℕ) (name : Name) :
    (createProcessFromRoutine k routine name p t).pcb =
      Function.update k.pcb p { newPcb k routine name with self := t } := rfl

theorem Listed.create (h : Listed k xs) (routine : ℕ) (name : Name) (hp : p ∉ processes k)
    (hp0 : p ≠ 0) (ht : Fresh k.processList t) :
    Listed (createProcessFromRoutine k routine name p t) (t :: xs) := by
  obtain ⟨ht0, htlt, htx⟩ := h.list.fresh_iff.mp ht
  rw [processes, h.list.nodes_eq] at hp
  refine ⟨h.list.insertFront p ht0 htlt htx, fun x hx => ?_⟩
  rcases List.mem_cons.mp hx with rfl | hx
  · refine ⟨?_, ?_, ?_⟩
    · rwa [createProcessFromRoutine_val_self]
    · rw [createProcessFromRoutine_val_self, createProcessFromRoutine_pcb, Function.update_self]
    · rw [createProcessFromRoutine_val_self, createProcessFromRoutine_pcb, Function.update_self]
      exact TaskState.noConfusion
  · obtain ⟨haddress, hself, halive⟩ := h.runnable x hx
    have hxt : x ≠ t := fun hxt => htx (hxt ▸ hx)
    have hother : k.processList.val x ≠ p := fun hval => hp (hval ▸ List.mem_map_of_mem hx)
    have hval := createProcessFromRoutine_val (p := p) k routine name hxt
    refine ⟨?_, ?_, ?_⟩
    · rwa [hval]
    · rw [hval, createProcessFromRoutine_pcb, Function.update_of_ne hother, hself]
    · rwa [hval, createProcessFromRoutine_pcb, Function.update_of_ne hother]

/-- A new process is put in front of the list, which is between the processes behind the
current one and those before it; it is the current one when there is none yet. -/
theorem Queue.create (h : Queue k q) (routine : ℕ) (name : Name) (hp : p ∉ q) (hp0 : p ≠ 0)
    (ht : Fresh k.processList t) :
    ∃ u v, q = u ++ v ∧ Queue (createProcessFromRoutine k routine name p t) (u ++ p :: v) := by
  have hnew := createProcessFromRoutine_val_self (p := p) (t := t) k routine name
  rw [← h.mem_processes] at hp
  cases h with
  | idle hl hc =>
    have hl' : Listed (createProcessFromRoutine k routine name p t) ([] ++ t :: []) :=
      hl.create routine name hp hp0 ht
    refine ⟨[], [], rfl, .cursor hl' ?_ (by simpa using hnew)⟩
    rw [hnew]
    exact if_pos hc
  | @cursor as bs x _ hl hc hq =>
    obtain ⟨-, -, htx⟩ := hl.list.fresh_iff.mp ht
    have hold : ∀ z ∈ as ++ x :: bs,
        (createProcessFromRoutine k routine name p t).processList.val z = k.processList.val z :=
      fun z hz => createProcessFromRoutine_val k routine name fun hzt => htx (hzt ▸ hz)
    have hbs : bs.map (createProcessFromRoutine k routine name p t).processList.val =
        bs.map k.processList.val := List.map_congr_left fun z hz => hold z (by simp [hz])
    have has : (as ++ [x]).map (createProcessFromRoutine k routine name p t).processList.val =
        (as ++ [x]).map k.processList.val := List.map_congr_left fun z hz => hold z (by
      simp only [List.mem_append, List.mem_cons, List.not_mem_nil, or_false] at hz ⊢
      tauto)
    refine ⟨bs.map k.processList.val, (as ++ [x]).map k.processList.val, ?_, ?_⟩
    · rw [← hq, List.append_assoc, List.map_append]
    · have hl' : Listed (createProcessFromRoutine k routine name p t) ((t :: as) ++ x :: bs) :=
        hl.create routine name hp hp0 ht
      refine .cursor hl' ?_ ?_
      · rw [hold x (by simp), ← hc]
        have haddress := (hl.runnable x (by simp)).address
        exact if_neg (hc ▸ haddress)
      · rw [List.append_assoc, List.map_append, hbs, List.cons_append, List.map_cons, has, hnew]

end Unos.Process
