import Unos.Interrupts.Service
import Unos.Library.Tallies

namespace Unos.Interrupts

open Unos.Runs Unos.Pic8259

section Counting

variable (onSlave : Bool) (k : Line)

def waiting (m : Machine) : ℕ := ((chip m.pic onSlave).irr k).toNat

/-- The processor is in front of the handler of the line. -/
def entering (m : Machine) : ℕ := if m.running = .stub (irqVector onSlave k) then 1 else 0

def latches (m : Machine) (e : Event) : ℕ :=
  match e with
  | .raise b j => if onSlave = b ∧ k = j then (!(chip m.pic onSlave).irr k).toNat else 0
  | _ => 0

def strays (m : Machine) (e : Event) : ℕ :=
  match e with
  | .int _ | .noise _ => ((step m e).map (entering onSlave k)).getD 0
  | _ => 0

/-- `irq_handler` calls the handler of the line. -/
def calls (m : Machine) (e : Event) : ℕ :=
  match e with
  | .write => if m.writes.length = 1 then entering onSlave k m else 0
  | _ => 0

end Counting

variable {m m' : Machine} {p : Pair} {onSlave : Bool} {k : Line} {v : BitVec 8}

def Wired (onSlave : Bool) (k : Line) : Prop := ¬ (onSlave = false ∧ k = 2)

theorem irqVector_inj {b b' : Bool} {j j' : Line} :
    irqVector b j = irqVector b' j' ↔ b = b' ∧ j = j' := by
  decide +revert

theorem irr_raise (p : Pair) (b : Bool) (j : Line) : (chip (p.raise b j) onSlave).irr k =
    if onSlave = b ∧ k = j then true else (chip p onSlave).irr k := by
  cases onSlave <;> cases b <;> simp [chip, Pair.raise, Chip.raise, Function.update_apply]

theorem irr_taken (hk : Wired onSlave k) (p : Pair) (b : Bool) (j : Line) :
    (chip (taken p b j) onSlave).irr k =
      if onSlave = b ∧ k = j then false else (chip p onSlave).irr k := by
  rw [Wired] at hk
  cases onSlave <;> cases b <;> simp_all [chip, taken, Chip.take, Function.update_apply]

theorem irr_eoi (p : Pair) (onSlave : Bool) :
    (chip { p with master := p.master.eoi } onSlave).irr = (chip p onSlave).irr ∧
      (chip { p with slave := p.slave.eoi } onSlave).irr = (chip p onSlave).irr := by
  cases onSlave
  · exact ⟨eoi_irr p.master, rfl⟩
  · exact ⟨rfl, eoi_irr p.slave⟩

theorem waiting_eq (h : (chip m'.pic onSlave).irr k = (chip m.pic onSlave).irr k) :
    waiting onSlave k m' = waiting onSlave k m := by
  rw [waiting, waiting, h]

theorem entering_of_ne (h : ∀ v, m.running ≠ .stub v) : entering onSlave k m = 0 := if_neg (h _)

theorem entering_body (h : m.running = .body) : entering onSlave k m = 0 :=
  entering_of_ne fun v hv => by rw [h] at hv; cases hv

theorem entering_stub {b : Bool} {j : Line} (h : m.running = .stub (irqVector b j)) :
    entering onSlave k m = if onSlave = b ∧ k = j then 1 else 0 := by
  refine if_congr ?_ rfl rfl
  rw [h, Running.stub.injEq, irqVector_inj, eq_comm, @eq_comm _ j]

theorem written_running (m : Machine) : m.written.running = .body := by
  rw [Machine.written]
  split <;> rfl

theorem written_pic (m : Machine) : m.written.pic = m.pic := by
  rw [Machine.written]
  split <;> rfl

theorem enter_pic (h : m.enter v = some m') : m'.pic = m.pic := by
  rw [Machine.enter] at h
  cases hgate : gate v with
  | none => rw [hgate] at h; cases h
  | some s =>
    rw [hgate] at h
    cases s <;> cases h <;> rfl

theorem balance_raise (b : Bool) (j : Line) (h : step m (.raise b j) = some m') :
    waiting onSlave k m + entering onSlave k m + latches onSlave k m (.raise b j) =
      waiting onSlave k m' + entering onSlave k m' := by
  cases h
  rw [waiting, waiting, irr_raise, latches, entering, entering]
  dsimp only
  by_cases hsame : onSlave = b ∧ k = j
  · rw [if_pos hsame, if_pos hsame]
    cases (chip m.pic onSlave).irr k <;> simp [Nat.add_comm]
  · rw [if_neg hsame, if_neg hsame, Nat.add_zero]

theorem balance_interrupt (hm : Served m) (hk : Wired onSlave k) (h : step m .interrupt = some m') :
    waiting onSlave k m + entering onSlave k m = waiting onSlave k m' + entering onSlave k m' := by
  obtain ⟨b, j, hreq, -, rfl⟩ := step_interrupt hm h
  have hflag : m.flag = true := by
    rw [step, Option.ite_none_right_eq_some] at h
    exact h.1
  rw [entering_body (hm.body_of_flag hflag).1, entering_stub rfl, waiting, waiting, irr_taken hk]
  by_cases hsame : onSlave = b ∧ k = j
  · obtain ⟨rfl, rfl⟩ := hsame
    rw [if_pos ⟨rfl, rfl⟩, if_pos ⟨rfl, rfl⟩, (wants_eq_true.mp hreq.1).1]
    rfl
  · rw [if_neg hsame, if_neg hsame]

theorem balance_noise (hm : Served m) (hk : Wired onSlave k) {j : Line}
    (h : step m (.noise j) = some m') :
    waiting onSlave k m + entering onSlave k m + strays onSlave k m (.noise j) =
      waiting onSlave k m' + entering onSlave k m' := by
  rw [strays, h, Option.map_some, Option.getD_some]
  rw [step, Option.ite_none_right_eq_some, Option.bind_eq_some_iff] at h
  obtain ⟨hflag, ⟨v, p'⟩, hnoise, henter⟩ := h
  obtain ⟨hrun, -, hready, -⟩ := hm.body_of_flag hflag
  obtain ⟨b, -, rfl⟩ := noise_eq_some hready hnoise
  rw [entering_body hrun, Nat.add_zero, waiting, waiting, enter_pic henter]
  cases b with
  | false => rfl
  | true =>
    have hirr := irr_taken hk m.pic false 2
    rw [if_neg hk] at hirr
    exact congrArg (fun b => b.toNat + _) hirr.symm

theorem write_eoi (hm : Served m) (hboot : m.running ≠ .boot) (h : step m .write = some m') :
    (∀ b, (chip m'.pic b).irr = (chip m.pic b).irr) ∧
      m'.running = if m.writes.length = 1 then .body else m.running := by
  have hlast : m.writes = [eoi1] → (∀ b, (chip m'.pic b).irr = (chip m.pic b).irr) ∧
      m'.running = if m.writes.length = 1 then .body else m.running := fun hws => by
    rw [step_write_last hws, outb_eoi1, Option.map_some] at h
    cases h
    rw [written_pic, written_running, hws, if_pos (by rfl)]
    exact ⟨fun b => (irr_eoi m.pic b).1, rfl⟩
  cases hm with
  | boot hrun => exact absurd hrun hboot
  | body hrun hwrites =>
    rw [step, hwrites] at h
    cases h
  | switching b hrun _ hwrites => exact hlast hwrites
  | stub v hrun _ _ hends =>
    rcases hends with ⟨hws, -⟩ | ⟨hws, -⟩
    · exact hlast hws
    · rw [step_write_cons hws, outb_eoi2, Option.map_some] at h
      cases h
      rw [hws, if_neg (by decide)]
      exact ⟨fun b => (irr_eoi m.pic b).2, rfl⟩

theorem balance_write (hm : Served m) (hboot : m.running ≠ .boot) (h : step m .write = some m') :
    waiting onSlave k m + entering onSlave k m =
      calls onSlave k m .write + (waiting onSlave k m' + entering onSlave k m') := by
  obtain ⟨hirr, hrun⟩ := write_eoi hm hboot h
  rw [calls, waiting_eq (congrFun (hirr onSlave) k)]
  by_cases hlast : m.writes.length = 1
  · rw [if_pos hlast] at hrun ⊢
    rw [entering_body hrun]
    exact Nat.add_comm _ _
  · rw [if_neg hlast] at hrun ⊢
    rw [Nat.zero_add, entering, entering, hrun]

theorem balance_int (v : BitVec 8) (h : step m (.int v) = some m') :
    waiting onSlave k m + entering onSlave k m + strays onSlave k m (.int v) =
      waiting onSlave k m' + entering onSlave k m' := by
  rw [strays, h, Option.map_some, Option.getD_some]
  rw [step, Option.ite_none_right_eq_some] at h
  rw [entering_body h.1, Nat.add_zero, waiting, waiting, enter_pic h.2]

theorem outb_irqPort_irr (h : Ready p) {irq d : BitVec 8} {p' : Pair}
    (hout : outb p (irqPort irq, d) = some p')
    (b : Bool) : (chip p' b).irr = (chip p b).irr := by
  obtain ⟨i1, i2, hsome⟩ := outb_irqPort h irq d
  rw [hsome] at hout
  cases hout
  cases b <;> rfl

theorem balance_other (hrun : m.running = .body) (hrun' : ∀ v, m'.running ≠ .stub v)
    (hirr : ∀ b, (chip m'.pic b).irr = (chip m.pic b).irr) :
    waiting onSlave k m + entering onSlave k m = waiting onSlave k m' + entering onSlave k m' := by
  rw [entering_body hrun, entering_of_ne hrun', waiting_eq (congrFun (hirr onSlave) k)]

theorem balance_step (hm : Served m) (hboot : m.running ≠ .boot) (hk : Wired onSlave k) {e : Event}
    (h : step m e = some m') :
    waiting onSlave k m + entering onSlave k m + (latches onSlave k m e + strays onSlave k m e) =
      calls onSlave k m e + (waiting onSlave k m' + entering onSlave k m') := by
  cases e with
  | raise b j => exact (balance_raise b j h).trans (Nat.zero_add _).symm
  | interrupt => exact (balance_interrupt hm hk h).trans (Nat.zero_add _).symm
  | noise j =>
    rw [show latches onSlave k m (.noise j) = 0 from rfl, Nat.zero_add, balance_noise hm hk h]
    exact (Nat.zero_add _).symm
  | write => exact balance_write hm hboot h
  | int v =>
    rw [show latches onSlave k m (.int v) = 0 from rfl, Nat.zero_add, balance_int v h]
    exact (Nat.zero_add _).symm
  | iret =>
    obtain ⟨hrun, b, frames, -, rfl⟩ := step_iret h
    exact (balance_other hrun (fun v hv => by rw [hrun] at hv; cases hv) fun _ => rfl).trans
      (Nat.zero_add _).symm
  | setFlag b =>
    rw [step, Option.ite_none_right_eq_some] at h
    obtain ⟨hrun, h⟩ := h
    cases h
    exact (balance_other hrun (fun v hv => by rw [hrun] at hv; cases hv) fun _ => rfl).trans
      (Nat.zero_add _).symm
  | enable irq =>
    rw [step, Option.ite_none_right_eq_some, Option.map_eq_some_iff] at h
    obtain ⟨hrun, p', hp', rfl⟩ := h
    obtain ⟨b, -, hout⟩ := Option.bind_eq_some_iff.mp hp'
    exact (balance_other hrun (fun v hv => by rw [hrun] at hv; cases hv)
      (outb_irqPort_irr (hm.of_body hrun).2.1 hout)).trans (Nat.zero_add _).symm
  | disable irq =>
    rw [step, Option.ite_none_right_eq_some, Option.map_eq_some_iff] at h
    obtain ⟨hrun, p', hp', rfl⟩ := h
    obtain ⟨b, -, hout⟩ := Option.bind_eq_some_iff.mp hp'
    exact (balance_other hrun (fun v hv => by rw [hrun] at hv; cases hv)
      (outb_irqPort_irr (hm.of_body hrun).2.1 hout)).trans (Nat.zero_add _).symm
  | switch b =>
    rw [step, Option.ite_none_right_eq_some] at h
    obtain ⟨⟨hrun, -⟩, h⟩ := h
    cases h
    rw [show calls onSlave k m (.switch b) = 0 from rfl, Nat.zero_add]
    exact balance_other hrun (fun v hv => by cases hv) fun _ => rfl

theorem enter_ne_boot (hboot : m.running ≠ .boot) (h : m.enter v = some m') :
    m'.running ≠ .boot := by
  rw [Machine.enter] at h
  cases hgate : gate v with
  | none => rw [hgate] at h; cases h
  | some s =>
    rw [hgate] at h
    cases s with
    | isr => cases h; exact hboot
    | irq => cases h; exact fun hb => by cases hb

theorem step_ne_boot (hm : Served m) (hboot : m.running ≠ .boot) {e : Event}
    (h : step m e = some m') :
    m'.running ≠ .boot := by
  cases e with
  | raise b j => cases h; exact hboot
  | interrupt =>
    rw [step, Option.ite_none_right_eq_some, Option.bind_eq_some_iff] at h
    obtain ⟨-, a, -, h⟩ := h
    exact enter_ne_boot (m := { m with pic := a.2 }) hboot h
  | noise j =>
    rw [step, Option.ite_none_right_eq_some, Option.bind_eq_some_iff] at h
    obtain ⟨-, a, -, h⟩ := h
    exact enter_ne_boot (m := { m with pic := a.2 }) hboot h
  | write =>
    rw [(write_eoi hm hboot h).2]
    split
    · exact fun hb => by cases hb
    · exact hboot
  | int v =>
    rw [step, Option.ite_none_right_eq_some] at h
    exact enter_ne_boot hboot h.2
  | iret =>
    obtain ⟨hrun, b, frames, -, rfl⟩ := step_iret h
    exact hboot
  | setFlag b =>
    rw [step, Option.ite_none_right_eq_some] at h
    cases h.2
    exact hboot
  | enable irq =>
    rw [step, Option.ite_none_right_eq_some, Option.map_eq_some_iff] at h
    obtain ⟨-, p', -, rfl⟩ := h
    exact hboot
  | disable irq =>
    rw [step, Option.ite_none_right_eq_some, Option.map_eq_some_iff] at h
    obtain ⟨-, p', -, rfl⟩ := h
    exact hboot
  | switch b =>
    rw [step, Option.ite_none_right_eq_some] at h
    cases h.2
    exact fun hb => by cases hb

/-- From any moment after `pic_init`: the requests of a line that were latched, with those that wait
and the calls that were not for a request, are the calls of its handler and what still waits. -/
theorem run_requests {p : Pair} {es es' : List Event} {m m' : Machine}
    (hm : run step (boot p) es = some m)
    (hboot : m.running ≠ .boot) (h : run step m es' = some m') {onSlave : Bool} {k : Line}
    (hk : Wired onSlave k) :
    waiting onSlave k m + entering onSlave k m +
        tally step (fun m e => latches onSlave k m e + strays onSlave k m e) m es' =
      tally step (calls onSlave k) m es' + (waiting onSlave k m' + entering onSlave k m') := by
  have hserved : Served m :=
    run_invariant (fun _ _ _ hs hstep => served_step hs hstep) (served_boot p) hm
  exact tally_balance (I := fun m => Served m ∧ m.running ≠ .boot)
    (fun s o t hs hstep => ⟨served_step hs.1 hstep, step_ne_boot hs.1 hs.2 hstep⟩)
    (fun s o t hs hstep => balance_step hs.1 hs.2 hk hstep) ⟨hserved, hboot⟩ h

def offChip : Chip := ⟨noLine, noLine, 0, .ready, false, false, 0, 0, 0⟩

def bootEvents : List Event := List.replicate 10 .write ++ [.setFlag true]

def tickEvents : List Event := [.raise false 0, .interrupt, .write, .iret]

theorem run_requests_tick : ∃ m m', run step (boot ⟨offChip, offChip⟩) bootEvents = some m ∧
    run step m tickEvents = some m' ∧
    waiting false 0 m + entering false 0 m +
        tally step (fun m e => latches false 0 m e + strays false 0 m e) m tickEvents =
      tally step (calls false 0) m tickEvents + (waiting false 0 m' + entering false 0 m') := by
  have hboot : ∃ m, run step (boot ⟨offChip, offChip⟩) bootEvents = some m ∧ m.running = .body ∧
      ∃ m', run step m tickEvents = some m' := ⟨_, rfl, rfl, _, rfl⟩
  obtain ⟨m, hm, hrun, m', hm'⟩ := hboot
  exact ⟨m, m', hm, hm',
    run_requests hm (by rw [hrun]; decide) hm' (by decide : ¬ (false = false ∧ (0 : Line) = 2))⟩

end Unos.Interrupts
