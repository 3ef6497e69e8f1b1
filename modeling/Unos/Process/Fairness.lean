import Unos.Library.Runs
import Unos.Library.RoundRobin
import Unos.Process.Queue

namespace Unos.Process

open Unos.Runs Unos.RoundRobin Unos.DList

structure Sys where
  kernel : Kernel
  known : List ℕ
  trace : List (Mark ℕ)

def Sys.start (k : Kernel) : Sys := ⟨k, processes k, []⟩

/-- A new process is allocated at `p` and its node at `t`; `_exit` is called by the running
process. -/
inductive Call
  | schedule
  | create (routine : ℕ) (name : Name) (p t : ℕ)
  | exit

/-- A `pcb_t` is never freed, so a new one is none of those before. -/
def Sys.Available (s : Sys) (p t : ℕ) : Prop :=
  p ≠ 0 ∧ p ∉ s.known ∧ Fresh s.kernel.processList t

instance Sys.decidableAvailable (s : Sys) (p t : ℕ) : Decidable (s.Available p t) :=
  inferInstanceAs (Decidable (_ ∧ _))

/-- Record `ms` and the dispatch that an operation ends with. -/
def observe (s : Sys) (ms : List (Mark ℕ)) : Outcome → Option Sys
  | .returns k => some { s with kernel := k, trace := s.trace ++ ms }
  | .dispatch k a _ => some { s with kernel := k, trace := s.trace ++ (ms ++ [.dispatched a]) }
  | .panic => none

def sysStep (s : Sys) : Call → Option Sys
  | .schedule => observe s [] (schedule s.kernel)
  | .create routine name p t =>
    if listSize s.kernel.processList ≠ 0 ∧ s.Available p t then
      some ⟨createProcessFromRoutine s.kernel routine name p t, p :: s.known,
        s.trace ++ [.created p]⟩
    else none
  | .exit =>
    if 2 ≤ listSize s.kernel.processList then
      observe s [.removed s.kernel.currentProcess] (exitProcess s.kernel)
    else none

/-- There are processes, each knows its node and none is a zombie, and the current one is
listed. -/
def Steady (k : Kernel) : Prop :=
  ∃ xs, Listed k xs ∧ ∃ x ∈ xs, k.currentProcess = k.processList.val x

structure Sim (R : Wheel ℕ) (s : Sys) : Prop where
  queue : Queue s.kernel R.queue
  valid : R.Valid
  known : R.known = s.known

theorem Steady.exists_queue {k : Kernel} (h : Steady k) : ∃ q, Queue k q := by
  obtain ⟨xs, hl, x, hx, hc⟩ := h
  obtain ⟨as, bs, rfl⟩ := List.append_of_mem hx
  exact ⟨_, .cursor hl hc rfl⟩

theorem Sim.start {k : Kernel} {q : List ℕ} (h : Queue k q) :
    Sim ⟨q, processes k⟩ (Sys.start k) where
  queue := h
  valid := ⟨h.nodup, fun _ ha => h.mem_processes.mpr ha⟩
  known := rfl

variable {R : Wheel ℕ} {s t : Sys}

theorem sysStep_turn (h : Sim R s) {c : Call} (hq : R.queue ≠ []) (hstep : sysStep s c = some t) :
    ∃ S m, Turn R m S ∧ Sim S t ∧ S.queue ≠ [] ∧ t.trace = s.trace ++ m := by
  obtain ⟨hqueue, hvalid, hknown⟩ := h
  obtain ⟨q, known⟩ := R
  subst hknown
  cases c with
  | schedule =>
    match q, hqueue, hq with
    | a :: q, hqueue, _ =>
      obtain ⟨k', regs, heq, hnew⟩ := hqueue.dispatch
      rw [sysStep, heq] at hstep
      cases hstep
      have hturn := Turn.rotate a q s.known
      exact ⟨_, _, hturn, ⟨hnew, hturn.valid hvalid, rfl⟩, by simp, rfl⟩
  | create routine name p n =>
    rw [sysStep] at hstep
    split_ifs at hstep with hcond
    obtain ⟨-, hp0, hp, hn⟩ := hcond
    cases hstep
    have hpq : p ∉ q := fun hmem => hp (hvalid.known p hmem)
    obtain ⟨u, v, rfl, hnew⟩ := hqueue.create routine name hpq hp0 hn
    have hturn := Turn.join p u v s.known hp
    exact ⟨_, _, hturn, ⟨hnew, hturn.valid hvalid, rfl⟩, by simp, rfl⟩
  | exit =>
    rw [sysStep] at hstep
    split_ifs at hstep with hsize
    rw [hqueue.size_eq] at hsize
    match q, hqueue, hsize with
    | a :: rest, hqueue, hsize =>
      -- another process than the running one is there to go on with
      obtain ⟨q, c, rfl⟩ := (List.eq_nil_or_concat' rest).resolve_left fun hnil => by
        rw [hnil] at hsize
        simp at hsize
      obtain ⟨k', regs, heq, hnew⟩ := hqueue.exit_dispatch
      have hcurrent : s.kernel.currentProcess = c := by
        rw [← List.cons_append] at hqueue
        exact hqueue.current_eq
      rw [heq, hcurrent] at hstep
      cases hstep
      have hturn := Turn.leave a c q s.known
      exact ⟨_, _, hturn, ⟨hnew, hturn.valid hvalid, rfl⟩, by simp, rfl⟩

theorem run_turns (h : Sim R s) {cs : List Call} (hq : R.queue ≠ [])
    (hrun : run sysStep s cs = some t) :
    ∃ S ms, Turns R ms S ∧ Sim S t ∧ S.queue ≠ [] ∧ t.trace = s.trace ++ ms := by
  induction cs generalizing R s with
  | nil =>
    cases hrun
    exact ⟨R, [], .refl R, h, hq, (List.append_nil _).symm⟩
  | cons c cs ih =>
    rw [run_cons, Option.bind_eq_some_iff] at hrun
    obtain ⟨u, hu, hrun⟩ := hrun
    obtain ⟨S, m, hturn, hS, hSq, hm⟩ := sysStep_turn h hq hu
    obtain ⟨T, ms, hturns, hT, hTq, hms⟩ := ih hS hSq hrun
    refine ⟨T, m ++ ms, ((Turns.refl R).tail hturn).trans hturns, hT, hTq, ?_⟩
    rw [hms, hm, List.append_assoc]

/-- Between two consecutive dispatches of `p` every other process that stays in the list is
dispatched once, a process that is created at most once, and what was removed is never
dispatched again. -/
theorem schedule_fair {k : Kernel} (hk : Steady k) {cs ds : List Call} {s t : Sys}
    (hs : run sysStep (Sys.start k) cs = some s) (ht : run sysStep s ds = some t) {p : ℕ}
    {ms between : List (Mark ℕ)} (hfirst : s.trace = ms ++ [.dispatched p])
    (hsecond : t.trace = s.trace ++ (between ++ [.dispatched p]))
    (hbetween : .dispatched p ∉ between) :
    (∀ a, a ≠ p → Always sysStep (fun u => a ∈ processes u.kernel) s ds →
      between.count (.dispatched a) = 1) ∧
    (∀ a, .created a ∈ between → between.count (.dispatched a) ≤ 1) ∧
    (∀ a ls rs, t.trace = ls ++ .removed a :: rs → .dispatched a ∉ rs) := by
  obtain ⟨q, hq⟩ := hk.exists_queue
  have hq0 : q ≠ [] := by
    obtain ⟨xs, hl, x, hx, -⟩ := hk
    have hmem : k.processList.val x ∈ processes k := by
      rw [processes, hl.list.nodes_eq]
      exact List.mem_map_of_mem hx
    exact List.ne_nil_of_mem (hq.mem_processes.mp hmem)
  have hstart := Sim.start hq
  obtain ⟨R, ls₁, hturns₁, hR, hR0, htrace₁⟩ := run_turns hstart hq0 hs
  obtain ⟨S, ls₂, hturns₂, hS, -, htrace₂⟩ := run_turns hR hR0 ht
  have hall := hturns₁.trans hturns₂
  rw [Sys.start, List.nil_append] at htrace₁
  rw [hsecond, List.append_cancel_left_eq] at htrace₂
  subst htrace₂
  rw [← htrace₁, hfirst] at hturns₁
  obtain ⟨r, hr⟩ := hturns₁.queue_concat
  obtain ⟨honce, hle⟩ := hturns₂.fair hR.valid hr hbetween
  refine ⟨fun a hap halways => ?_, fun a _ => hle a, fun a ls rs htr hmem => ?_⟩
  · have hlisted : a ∈ R.queue := hR.queue.mem_processes.mp halways.head
    have hlast : a ∈ S.queue := hS.queue.mem_processes.mp (halways.last ht)
    have har : a ∈ r := by
      rw [hr, List.mem_append, List.mem_singleton] at hlisted
      exact hlisted.resolve_right hap
    -- an entry that is removed does not come back
    have hstays : .removed a ∉ between := fun hmem =>
      (hturns₂.removed_gone hR.valid (List.mem_append_left _ hmem)).2 hlast
    exact honce a har hstays
  · have hpair := hall.pairwise hstart.valid
    rw [← htrace₁, ← hsecond, htr] at hpair
    have hrest := (List.pairwise_cons.mp (List.pairwise_append.mp hpair).2.1).1
    exact hrest _ hmem a rfl rfl

def oneProcess : Kernel := createProcessFromRoutine .bss 1048576 ⟨[], Name.nil_fits⟩ 4096 64

theorem oneProcess_steady : Steady oneProcess := by
  have hl : Listed Kernel.bss [] := listed_nil rfl
  have hnew : Listed oneProcess [64] := hl.create _ _ (by decide) (by decide) (by decide)
  exact ⟨[64], hnew, 64, List.mem_cons_self, rfl⟩

def secondTurn : Sys :=
  (run sysStep (Sys.start oneProcess) [.create 1048576 ⟨[], Name.nil_fits⟩ 8192 128,
    .schedule]).getD
    (Sys.start .bss)

def thirdTurn : Sys := (run sysStep secondTurn [.schedule, .schedule]).getD (Sys.start .bss)

/-- The first process has its turn before the second one has its next. -/
theorem schedule_fair_pair : thirdTurn.trace.count (.dispatched 4096) = 1 := by
  have hs : run sysStep (Sys.start oneProcess) _ = some secondTurn :=
    run_eq_getD (Sys.start .bss) (by decide +kernel)
  have ht : run sysStep secondTurn [.schedule, .schedule] = some thirdTurn :=
    run_eq_getD (Sys.start .bss) (by decide +kernel)
  have hfirst : secondTurn.trace = [.created 8192] ++ [.dispatched 8192] := by decide +kernel
  have htrace : thirdTurn.trace = secondTurn.trace ++ ([.dispatched 4096] ++ [.dispatched 8192]) :=
    by decide +kernel
  have honce := (schedule_fair oneProcess_steady hs ht hfirst htrace (by decide)).1 4096 (by decide)
    (by decide +kernel)
  rw [htrace, hfirst]
  exact honce

end Unos.Process
