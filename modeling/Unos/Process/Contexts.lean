import Unos.Library.Runs
import Unos.Library.Splits
import Unos.Process.Queue

namespace Unos.Process

open Unos.Words Unos.Runs Unos.DList Unos.Splits

/-- The registers that `create_process_from_routine` is meant to start a process with. -/
def initialRegs (routine : ℕ) : UserRegs where
  eax := 0
  ebx := 0
  ecx := 0
  edx := 0
  esi := 0
  edi := 0
  ebp := 0
  esp := 0xC0400000
  eflags := 0x206
  eip := routine

/-- The kernel and the process that runs, if any, with a record for each process that was
created of the registers it has to go on with, and of what the last step loaded. -/
structure Machine where
  kernel : Kernel
  running : Option ℕ
  expected : ℕ → UserRegs
  created : List ℕ
  entered : Option (ℕ × UserRegs)

/-- A system call is made with the number in `eax`. Where a process is created, `name` is its
name, and the allocations return `p` and `t`. The kernel creates processes before the first
dispatch, and a process in ring 3 creates one by a system call or calls the function itself. -/
inductive Event
  | tick (regs : Registers)
  | syscall (regs : Registers) (name : List (BitVec 8)) (p t : ℕ)
  | create (routine : ℕ) (name : List (BitVec 8)) (p t : ℕ)

/-- A process that is created has a name that fits into `filename`. -/
def Event.NameFits : Event → Prop
  | .tick _ => True
  | .syscall regs name _ _ => regs.eax = 3 → name.length ≤ 512
  | .create _ name _ _ => name.length ≤ 512

instance Event.decidableNameFits : (e : Event) → Decidable e.NameFits
  | .tick _ => inferInstanceAs (Decidable True)
  | .syscall regs name _ _ => inferInstanceAs (Decidable (regs.eax = 3 → name.length ≤ 512))
  | .create _ name _ _ => inferInstanceAs (Decidable (name.length ≤ 512))

/-- The registers that were interrupted, when the process goes on some time. -/
def Event.interrupts : Event → Option Registers
  | .tick regs => some regs
  | .syscall regs _ _ _ => if regs.eax = 4 then none else some regs
  | .create _ _ _ _ => none

def Machine.interrupted (m : Machine) (regs : Registers) : Machine :=
  match m.running with
  | some c => { m with expected := Function.update m.expected c regs.user }
  | none => m

def Machine.born (m : Machine) (routine p : ℕ) : Machine :=
  { m with
    expected := Function.update m.expected p (initialRegs routine)
    created := p :: m.created }

def Machine.resume (m : Machine) : Outcome → Option Machine
  | .returns k => some { m with kernel := k, entered := none }
  | .dispatch k a regs => some { m with kernel := k, running := some a, entered := some (a, regs) }
  | .panic => none

/-- A `pcb_t` is never freed, so a new one is none of those before. A name that is longer than
the whole `pcb_t` is written into what lies behind it, and is left out here. -/
def Machine.Available (m : Machine) (name : List (BitVec 8)) (p t : ℕ) : Prop :=
  p ≠ 0 ∧ p ∉ m.created ∧ Fresh m.kernel.processList t ∧ name.length < 580

instance Machine.decidableAvailable (m : Machine) (name : List (BitVec 8)) (p t : ℕ) :
    Decidable (m.Available name p t) :=
  inferInstanceAs (Decidable (_ ∧ _))

def machineStep (m : Machine) : Event → Option Machine
  | .tick regs => (m.interrupted regs).resume (timerHandler m.kernel regs)
  | .syscall regs name p t =>
    let o := syscallDispatcher m.kernel regs name p t
    if m.running = none then none
    else if regs.eax = 3 then
      if m.Available name p t then ((m.interrupted regs).born regs.ebx p).resume o else none
    else if regs.eax = 4 ∧ listSize m.kernel.processList < 2 then none
    else (m.interrupted regs).resume o
  | .create routine name p t =>
    if m.Available name p t then
      (m.born routine p).resume (.returns (createWithName m.kernel routine name p t))
    else none

/-- After `process_init` nothing runs yet; the zeroed memory has no process. -/
def boot (k : Kernel) (prev next val : ℕ → ℕ) (t : TimeNode) : Machine where
  kernel := processInit { k with currentProcess := 0, lastProcess := 0 } prev next val t
  running := none
  expected _ := initialRegs 0
  created := []
  entered := none

/-- The process that runs is the current and the last one, and every other process has the
registers saved that it has to go on with. -/
structure Inv (m : Machine) (q : List ℕ) : Prop where
  queue : Queue m.kernel q
  created : ∀ a ∈ q, a ∈ m.created
  last : m.kernel.lastProcess = m.running.getD 0
  current : ∀ c, m.running = some c → c ≠ 0 ∧ m.kernel.currentProcess = c
  saved : ∀ a ∈ q, m.running ≠ some a → (m.kernel.pcb a).regs.user = m.expected a

def Loads (m : Machine) : Prop :=
  ∀ a regs, m.entered = some (a, regs) → a ∈ m.created ∧ regs = m.expected a

/-- A handler that was entered with the registers `r` has ended well. -/
structure After (m : Machine) (r : Registers) (m' : Machine) : Prop where
  inv : ∃ q, Inv m' q
  loads : Loads m'
  saves : ∀ b, (m'.kernel.pcb b).regs ≠ (m.kernel.pcb b).regs →
    m.running = some b ∧ (m'.kernel.pcb b).regs = saveRegs r m.kernel.cr3

/-- Between `m` and `m'` no registers were saved but those of the running process. -/
def Saves (m : Machine) (e : Event) (m' : Machine) : Prop :=
  ∀ a ∈ m.created, (m'.kernel.pcb a).regs ≠ (m.kernel.pcb a).regs →
    m.running = some a ∧
      ∃ r, e.interrupts = some r ∧ (m'.kernel.pcb a).regs = saveRegs r m.kernel.cr3

variable {m m' : Machine} {k : Kernel} {q : List ℕ} {a p t routine : ℕ} {r : Registers}
  {name : List (BitVec 8)}

theorem interrupted_kernel (m : Machine) (r : Registers) : (m.interrupted r).kernel = m.kernel := by
  rw [Machine.interrupted]
  split <;> rfl

theorem interrupted_running (m : Machine) (r : Registers) :
    (m.interrupted r).running = m.running := by
  rw [Machine.interrupted]
  split <;> rfl

theorem interrupted_created (m : Machine) (r : Registers) :
    (m.interrupted r).created = m.created := by
  rw [Machine.interrupted]
  split <;> rfl

theorem interrupted_expected_self (h : m.running = some a) (r : Registers) :
    (m.interrupted r).expected a = r.user := by
  simp only [Machine.interrupted, h, Function.update_self]

theorem interrupted_expected (h : m.running ≠ some a) (r : Registers) :
    (m.interrupted r).expected a = m.expected a := by
  rw [Machine.interrupted]
  split
  next c hc =>
    have hac : a ≠ c := fun hac => h (hac ▸ hc)
    exact Function.update_of_ne hac _ _
  next => rfl

theorem Inv.interrupted (h : Inv m q) (r : Registers) : Inv (m.interrupted r) q := by
  refine ⟨?_, ?_, ?_, ?_, fun a ha hrun => ?_⟩
  · rw [interrupted_kernel]
    exact h.queue
  · rw [interrupted_created]
    exact h.created
  · rw [interrupted_kernel, interrupted_running]
    exact h.last
  · rw [interrupted_kernel, interrupted_running]
    exact h.current
  · rw [interrupted_running] at hrun
    rw [interrupted_kernel, interrupted_expected hrun]
    exact h.saved a ha hrun

/-- The kernel when a handler has stored the registers. -/
def entered (k : Kernel) (jiffies : ℕ) (r : Registers) : Kernel :=
  saveContext { k with jiffies := jiffies } r

theorem Inv.entered (h : Inv m q) (j : ℕ) (r : Registers) :
    Inv { m with kernel := entered m.kernel j r } q :=
  ⟨h.queue.of_same ⟨rfl, fun _ => rfl, fun _ => rfl⟩ rfl, h.created, h.last, h.current, h.saved⟩

theorem Inv.with_kernel (h : Inv m q) (hk : k = m.kernel) (o : Option (ℕ × UserRegs)) :
    Inv { m with kernel := k, entered := o } q := by
  subst hk
  exact ⟨h.queue, h.created, h.last, h.current, h.saved⟩

theorem resume_interrupted (m : Machine) (k : Kernel) (r : Registers) (o : Outcome) :
    ({ m with kernel := k }.interrupted r).resume o = (m.interrupted r).resume o := by
  simp only [Machine.interrupted]
  cases o <;> split <;> rfl

theorem saveRegs_user (r : Registers) (cr3 : ℕ) : (saveRegs r cr3).user = r.user := rfl

theorem resume_contextSwitch (h : m.resume (contextSwitch k r a) = some m') :
    m' = { m with
      kernel := switched k r
      running := some a
      entered := some (a, ((switched k r).pcb a).regs.user) } :=
  (Option.some.inj h).symm

theorem dispatch_inv (hq : Queue k q) (ha : a ∈ q) (hcurrent : k.currentProcess = a)
    (hcreated : ∀ b ∈ q, b ∈ m.created)
    (hsaved : ∀ b ∈ q, ((switched k r).pcb b).regs.user = (m.interrupted r).expected b)
    (hstep : (m.interrupted r).resume (contextSwitch k r a) = some m') : Inv m' q ∧ Loads m' := by
  obtain rfl := resume_contextSwitch hstep
  rw [← interrupted_created m r] at hcreated
  refine ⟨⟨hq.switched r, hcreated, ?_, fun c hc => ?_, fun b hb _ => hsaved b hb⟩,
    fun b regs hb => ?_⟩
  · rw [switched_lastProcess, hcurrent]
    rfl
  · obtain rfl : a = c := Option.some.inj hc
    exact ⟨hq.ne_zero ha, (switched_currentProcess k r).trans hcurrent⟩
  · cases hb
    exact ⟨hcreated a ha, hsaved a ha⟩

theorem Inv.switched_regs (h : Inv m q) (hpcb : k.pcb = m.kernel.pcb)
    (hlast : k.lastProcess = m.kernel.lastProcess) (r : Registers) (b : ℕ) :
    ((switched k r).pcb b).regs =
      if m.running = some b then saveRegs r k.cr3 else (m.kernel.pcb b).regs := by
  have hl := hlast.trans h.last
  cases hrun : m.running with
  | none =>
    rw [hrun] at hl
    rw [switched_pcb_of_eq r hl, hpcb, if_neg (Option.some_ne_none b).symm]
  | some c =>
    rw [hrun, Option.getD_some] at hl
    have hc0 : k.lastProcess ≠ 0 := hl ▸ (h.current c hrun).1
    rw [switched_pcb r hc0, hl, hpcb]
    by_cases hbc : b = c
    · rw [hbc, Function.update_self, if_pos rfl]
    · have hcb : some c ≠ some b := fun hcb => hbc (Option.some.inj hcb).symm
      rw [Function.update_of_ne hbc, if_neg hcb]

theorem Inv.returns (h : Inv m q) (hstep : (m.interrupted r).resume (.returns m.kernel) = some m') :
    After m r m' := by
  cases hstep
  have hi := (h.interrupted r).with_kernel (interrupted_kernel m r).symm none
  exact ⟨⟨q, hi⟩, nofun, fun b hb => absurd rfl hb⟩

/-- `schedule` saves the registers of the process that ran and goes on with the next one. -/
theorem Inv.schedule (h : Inv m q) (hr : m.kernel.savedContext = r)
    (hstep : (m.interrupted r).resume (schedule m.kernel) = some m') : After m r m' := by
  subst hr
  match q, h with
  | [], h =>
    have hsize : listSize m.kernel.processList = 0 := h.queue.size_eq
    have hnone : Process.schedule m.kernel = .returns m.kernel := if_pos hsize
    rw [hnone] at hstep
    exact h.returns hstep
  | a :: q, h =>
    rw [h.queue.schedule_eq] at hstep
    have hregs : ∀ b, ((switched { m.kernel with currentProcess := a }
        m.kernel.savedContext).pcb b).regs = if m.running = some b then
        saveRegs m.kernel.savedContext m.kernel.cr3 else (m.kernel.pcb b).regs :=
      h.switched_regs (k := { m.kernel with currentProcess := a }) rfl rfl _
    have hperm : ∀ b, b ∈ q ++ [a] → b ∈ a :: q := by simp [or_comm]
    have hsaved : ∀ b ∈ q ++ [a], ((switched { m.kernel with currentProcess := a }
        m.kernel.savedContext).pcb b).regs.user =
        (m.interrupted m.kernel.savedContext).expected b := by
      intro b hb
      by_cases hrun : m.running = some b
      · rw [hregs, if_pos hrun, saveRegs_user, interrupted_expected_self hrun]
      · rw [hregs, if_neg hrun, interrupted_expected hrun, h.saved b (hperm b hb) hrun]
    obtain ⟨hi, hloads⟩ := dispatch_inv (a := a) h.queue.rotate (by simp) rfl
      (fun b hb => h.created b (hperm b hb)) hsaved hstep
    refine ⟨⟨_, hi⟩, hloads, fun b hb => ?_⟩
    obtain rfl := resume_contextSwitch hstep
    rw [hregs] at hb ⊢
    split_ifs at hb ⊢ with hrun
    · exact ⟨hrun, rfl⟩
    · exact absurd rfl hb

/-- `_exit` saves nothing. -/
theorem Inv.exit (h : Inv m q) (hrun : m.running ≠ none) (hsize : 2 ≤ listSize m.kernel.processList)
    (hr : m.kernel.savedContext = r)
    (hstep : (m.interrupted r).resume (exitProcess m.kernel) = some m') :
    (∃ q', Inv m' q') ∧ Loads m' ∧ ∀ b, (m'.kernel.pcb b).regs = (m.kernel.pcb b).regs := by
  rw [h.queue.size_eq] at hsize
  match q, h with
  | a :: rest, h =>
    obtain ⟨q, c, rfl⟩ := (List.eq_nil_or_concat' rest).resolve_left fun hnil => by
      rw [hnil] at hsize
      simp at hsize
    have hcurrent : m.kernel.currentProcess = c := by
      have hqueue := h.queue
      rw [← List.cons_append] at hqueue
      exact hqueue.current_eq
    obtain ⟨c', hc'⟩ := Option.ne_none_iff_exists'.mp hrun
    obtain rfl : c' = c := (h.current c' hc').2.symm.trans hcurrent
    -- the process that leaves is not among those that stay
    have hother : ∀ b ∈ q ++ [a], b ≠ c' := by
      have hnodup := h.queue.nodup
      rw [← List.cons_append, ← List.concat_eq_append, List.nodup_concat] at hnodup
      rintro b hb rfl
      exact hnodup.1 (by simpa [or_comm] using hb)
    have hmem : ∀ b ∈ q ++ [a], b ∈ a :: (q ++ [c']) := by
      intro b hb
      simp only [List.mem_append, List.mem_cons, List.not_mem_nil, or_false] at hb ⊢
      tauto
    rw [h.queue.exit_eq, hr] at hstep
    have hregs : ∀ b, ((switched (exited m.kernel a) r).pcb b).regs = (m.kernel.pcb b).regs := by
      intro b
      rw [switched_pcb_of_eq r rfl]
      by_cases hb : b = m.kernel.currentProcess
      · simp only [exited, Kernel.setPcb, hb, Function.update_self]
      · simp only [exited, Kernel.setPcb, Function.update_of_ne hb]
    have hsaved : ∀ b ∈ q ++ [a], ((switched (exited m.kernel a) r).pcb b).regs.user =
        (m.interrupted r).expected b := by
      intro b hb
      have hnot : m.running ≠ some b := by
        rw [hc']
        exact fun hcb => hother b hb (Option.some.inj hcb).symm
      rw [hregs, interrupted_expected hnot, h.saved b (hmem b hb) hnot]
    obtain ⟨hi, hloads⟩ := dispatch_inv (a := a) h.queue.exit (by simp) rfl
      (fun b hb => h.created b (hmem b hb)) hsaved hstep
    refine ⟨⟨_, hi⟩, hloads, fun b => ?_⟩
    obtain rfl := resume_contextSwitch hstep
    exact hregs b

theorem schedule_returns {k' : Kernel} (h : schedule k = .returns k') : k' = k := by
  rw [Process.schedule] at h
  split_ifs at h with hsize hcurrent
  · exact (Outcome.returns.inj h).symm
  · exact Outcome.noConfusion h
  · simp only [scheduleNext] at h
    split_ifs at h <;> exact Outcome.noConfusion h

theorem callbacks_cases (k : Kernel) (cs : List TimeNode) :
    callbacks k cs = .returns k ∨ callbacks k cs = schedule k := by
  induction cs with
  | nil => exact .inl rfl
  | cons c cs ih =>
    have hrest : (if 2 ≤ cs.length then callbacks k cs else .returns k) = .returns k ∨
        (if 2 ≤ cs.length then callbacks k cs else .returns k) = schedule k := by
      split_ifs
      · exact ih
      · exact .inl rfl
    have hnone : (if k.jiffies % c.offset = 0 then callback k c.callback else .returns k) =
          .returns k ∨
        (if k.jiffies % c.offset = 0 then callback k c.callback else .returns k) = schedule k := by
      split_ifs
      · cases c.callback with
        | schedule => exact .inr rfl
        | printJiffies => exact .inl rfl
      · exact .inl rfl
    rcases hnone with hnone | hsched
    · simp only [callbacks, hnone]
      exact hrest
    · simp only [callbacks, hsched]
      -- `schedule` comes back only from an empty list, and then it has done nothing
      cases hk : schedule k with
      | returns k' =>
        rw [schedule_returns hk]
        simpa only [hk, schedule_returns hk] using hrest
      | dispatch => exact .inr rfl
      | panic => exact .inr rfl

theorem createWithName_eq (hfits : name.length ≤ 512) (k : Kernel) (routine p t : ℕ) :
    createWithName k routine name p t =
      createProcessFromRoutine k routine (.ofBytes name) p t := by
  have hlen : ((name ++ [0]).drop 512).length ≤ 1 := by
    rw [List.length_drop, List.length_append, List.length_singleton]
    omega
  have hrest : ∀ offset w, 1 ≤ offset →
      overwritten ((name ++ [0]).drop 512) offset w = w :=
    fun offset w hoffset => if_pos (hlen.trans hoffset)
  have heax : overwritten ((name ++ [0]).drop 512) 0 0 = 0 := by
    rcases hfits.lt_or_eq with hlt | heq
    · rw [List.drop_eq_nil_of_le (by rw [List.length_append, List.length_singleton]; omega)]
      rfl
    · rw [List.drop_append_of_le_length heq.ge, List.drop_eq_nil_of_le heq.le]
      rfl
  have hpcb : ((createProcessFromRoutine k routine (.ofBytes name) p t).pcb p).overwrite
      ((name ++ [0]).drop 512) =
          (createProcessFromRoutine k routine (.ofBytes name) p t).pcb p := by
    rw [createProcessFromRoutine_pcb, Function.update_self]
    simp (disch := decide) only [Pcb.overwrite, newPcb, heax, hrest]
  rw [createWithName, hpcb, Kernel.setPcb, Function.update_eq_self]

/-- A new process is ready to start with its initial registers. -/
theorem Inv.create (h : Inv m q) (havail : m.Available name p t) (hfits : name.length ≤ 512)
    (hstep : (m.born routine p).resume (.returns (createWithName m.kernel routine name p t)) =
      some m') :
    (∃ q', Inv m' q') ∧ Loads m' ∧
      ∀ b ∈ m.created, (m'.kernel.pcb b).regs = (m.kernel.pcb b).regs := by
  obtain ⟨hp0, hp, ht, -⟩ := havail
  rw [createWithName_eq hfits] at hstep
  cases hstep
  obtain ⟨u, v, rfl, hnew⟩ :=
    h.queue.create routine (.ofBytes name) (fun hmem => hp (h.created p hmem)) hp0 ht
  have hold : ∀ b, b ≠ p → (createProcessFromRoutine m.kernel routine (.ofBytes name) p t).pcb b =
      m.kernel.pcb b := by
    intro b hb
    rw [createProcessFromRoutine_pcb, Function.update_of_ne hb]
  refine ⟨⟨_, hnew, fun b hb => ?_, h.last, fun c hc => ?_, fun b hb hrun => ?_⟩, nofun,
    fun b hb => ?_⟩
  · exact List.mem_cons.mpr ((mem_middle.mp hb).imp_right (h.created b))
  · obtain ⟨hc0, hcurrent⟩ := h.current c hc
    refine ⟨hc0, ?_⟩
    rw [← hcurrent] at hc0 ⊢
    exact if_neg hc0
  · show _ = Function.update m.expected p (initialRegs routine) b
    by_cases hbp : b = p
    · rw [hbp, Function.update_self, createProcessFromRoutine_pcb, Function.update_self]
      rfl
    · rw [Function.update_of_ne hbp]
      rw [hold b hbp]
      exact h.saved b (mem_of_mem_middle hb hbp) hrun
  · exact congrArg Pcb.regs (hold b fun hbp => hp (hbp ▸ hb))

theorem After.of_entered {j : ℕ}
    (h : After { m with kernel := Process.entered m.kernel j r } r m') : After m r m' :=
  ⟨h.inv, h.loads, h.saves⟩

theorem timerHandler_cases (k : Kernel) (r : Registers) :
    timerHandler k r = .returns (entered k (wrap32 (k.jiffies + 1)) r) ∨
      timerHandler k r = schedule (entered k (wrap32 (k.jiffies + 1)) r) :=
  callbacks_cases _ _

theorem Inv.tick (h : Inv m q) (hstep : machineStep m (.tick r) = some m') : After m r m' := by
  have hi := h.entered (wrap32 (m.kernel.jiffies + 1)) r
  rw [machineStep] at hstep
  rcases timerHandler_cases m.kernel r with hret | hsched
  · rw [hret, ← resume_interrupted] at hstep
    exact (hi.returns hstep).of_entered
  · rw [hsched, ← resume_interrupted] at hstep
    exact (hi.schedule rfl hstep).of_entered

theorem Inv.syscall (h : Inv m q) (hrun : m.running ≠ none) (hne : r.eax ≠ 3)
    (hexit : r.eax = 4 → 2 ≤ listSize m.kernel.processList)
    (hstep : (m.interrupted r).resume (syscallDispatcher m.kernel r name p t) = some m') :
    (∃ q', Inv m' q') ∧ Loads m' ∧ Saves m (.syscall r name p t) m' := by
  have hi := h.entered m.kernel.jiffies r
  have hafter : ∀ (ha : After m r m'), r.eax ≠ 4 → Saves m (.syscall r name p t) m' := by
    intro ha hne b _ hb
    obtain ⟨hb, hsave⟩ := ha.saves b hb
    exact ⟨hb, r, if_neg hne, hsave⟩
  rw [syscallDispatcher] at hstep
  split_ifs at hstep with hbig
  · have ha := h.returns hstep
    exact ⟨ha.inv, ha.loads, hafter ha (by omega)⟩
  · rw [← resume_interrupted m (Process.entered m.kernel m.kernel.jiffies r)] at hstep
    split at hstep
    next => exact absurd hstep nofun
    next heax =>
      have ha := (hi.schedule rfl hstep).of_entered
      exact ⟨ha.inv, ha.loads, hafter ha (by omega)⟩
    next heax =>
      have ha := (hi.returns hstep).of_entered
      exact ⟨ha.inv, ha.loads, hafter ha (by omega)⟩
    next heax => exact absurd heax hne
    next h0 h1 h2 h3 =>
      have heax : r.eax = 4 := by
        have h0' : r.eax ≠ 0 := h0
        have h1' : r.eax ≠ 1 := h1
        have h2' : r.eax ≠ 2 := h2
        omega
      obtain ⟨hq, hloads, hkeep⟩ := hi.exit hrun (hexit heax) rfl hstep
      exact ⟨hq, hloads, fun b _ hb => absurd (hkeep b) hb⟩

theorem machineStep_inv (h : Inv m q) {e : Event} (hfits : e.NameFits)
    (hstep : machineStep m e = some m') :
    (∃ q', Inv m' q') ∧ Loads m' ∧ Saves m e m' := by
  cases e with
  | tick r =>
    have ha := h.tick hstep
    refine ⟨ha.inv, ha.loads, fun b _ hb => ?_⟩
    obtain ⟨hb, hsave⟩ := ha.saves b hb
    exact ⟨hb, r, rfl, hsave⟩
  | syscall r name p t =>
    simp only [machineStep] at hstep
    split_ifs at hstep with hrun heax havail hexit
    · -- the new process is listed in the kernel that has stored the registers
      have ho : syscallDispatcher m.kernel r name p t =
          .returns (createWithName (saveContext m.kernel r) r.ebx name p t) := by
        simp only [syscallDispatcher, heax]
        rfl
      have hi := (h.interrupted r).entered m.kernel.jiffies r
      rw [interrupted_kernel] at hi
      rw [ho] at hstep
      have hcreated := interrupted_created m r
      obtain ⟨hq, hloads, hkeep⟩ :=
        hi.create ⟨havail.1, hcreated ▸ havail.2.1, havail.2.2⟩ (hfits heax) hstep
      exact ⟨hq, hloads, fun b hb hne => absurd (hkeep b (hcreated ▸ hb)) hne⟩
    · exact h.syscall hrun heax (fun h4 => by_contra fun hsize => hexit ⟨h4, by omega⟩) hstep
  | create routine name p t =>
    rw [machineStep] at hstep
    split_ifs at hstep with havail
    obtain ⟨hq, hloads, hkeep⟩ := h.create havail hfits hstep
    exact ⟨hq, hloads, fun b hb hne => absurd (hkeep b hb) hne⟩

theorem boot_inv (k : Kernel) (prev next val : ℕ → ℕ) (t : TimeNode) :
    Inv (boot k prev next val t) [] where
  queue := .idle (listed_nil rfl) rfl
  created _ ha := absurd ha List.not_mem_nil
  last := rfl
  current _ hc := nomatch hc
  saved _ ha := absurd ha List.not_mem_nil

/-- The registers of a process in ring 3, told apart by `n`. -/
def ringThree (n : ℕ) : Registers :=
  ⟨0x23, n, n, n, 0, n, n, n, 0, 32, 0, n, 0x1b, 0x206, n, 0x23⟩

def smallBoot : Machine :=
  boot .bss (fun _ => 0) (fun _ => 0) (fun _ => 0) ⟨.schedule, 1, by decide⟩

/-- The first process creates a second one by a system call and a third one by itself, and the
timer switches between them. -/
def threeEvents : List Event :=
  [.create 1048576 [97] 4096 64, .tick (ringThree 0),
    .syscall { ringThree 1 with eax := 3 } [98] 8192 128, .create 1049600 [99] 12288 192,
    .tick (ringThree 2), .tick (ringThree 4)]

def thirdRuns : Machine := (run machineStep smallBoot threeEvents).getD smallBoot

def firstAgain : Machine := (machineStep thirdRuns (.tick (ringThree 3))).getD smallBoot

def longNamed : Machine :=
  (run machineStep smallBoot [.create 1048576 (List.replicate 513 65) 4096 64]).getD smallBoot

def longStarted : Machine := (machineStep longNamed (.tick (ringThree 0))).getD smallBoot

end Unos.Process
