import Unos.Interrupts.Model

namespace Unos.Interrupts

open Unos.Runs Unos.Pic8259

def chip (p : Pair) (onSlave : Bool) : Chip := if onSlave then p.slave else p.master

def irqVector (onSlave : Bool) (k : Line) : BitVec 8 :=
  (if onSlave then 0x28 else 0x20) + BitVec.ofNat 8 k

/-- A line asks for service, and the controllers let it. -/
def Requested (p : Pair) (onSlave : Bool) (k : Line) : Prop :=
  (chip p onSlave).wants k = true ∧ if onSlave then p.master.imr.getLsbD 2 = false else k ≠ 2

/-- The controllers when a line has been taken. -/
def taken (p : Pair) (onSlave : Bool) (k : Line) : Pair :=
  if onSlave then ⟨p.master.take 2, p.slave.take k⟩ else { p with master := p.master.take k }

def rank (onSlave : Bool) (k : Line) : ℕ := if onSlave then 16 + k else 8 * k

/-- What `pic_init` leaves of a controller, but for its masks. -/
structure Setup (base cascade : BitVec 8) (c : Chip) : Prop where
  stage : c.stage = .ready
  single : c.single = false
  base : c.base = base
  cascade : c.cascade = cascade
  mode : c.mode = 1

structure Ready (p : Pair) : Prop where
  master : Setup 0x20 4 p.master
  slave : Setup 0x28 2 p.slave

def Single (c : Chip) : Prop := ∃ k b, c.isr = Function.update noLine k b

variable {p p' : Pair} {w : Write} {ws : List Write} {c : Chip} {k j : Line} {m m' : Machine}
  {v base cascade : BitVec 8}

theorem single_of_idle (h : c.Idle) : Single c :=
  ⟨0, false, h.trans (Function.update_eq_self_iff.mpr rfl).symm⟩

theorem single_take (h : c.Idle) (k : Line) : Single (c.take k) :=
  ⟨k, !c.mode.getLsbD 1, by rw [Chip.take, h]⟩

theorem Setup.take (h : Setup base cascade c) (k : Line) :
    Setup base cascade (c.take k) := { h with }

theorem Setup.quiet_iff : Setup base cascade c.quiet ↔ Setup base cascade c :=
  ⟨fun h => { h with }, fun h => { h with }⟩

theorem Setup.eoi (h : Setup base cascade c) : Setup base cascade c.eoi := by
  rw [Chip.eoi]
  split
  · exact h
  · exact { h with }

theorem Setup.data (h : Setup base cascade c) (d : BitVec 8) : c.data d = { c with imr := d } := by
  rw [Chip.data, h.stage]

theorem vector_eq (onSlave : Bool)
    (h : Setup (if onSlave then 0x28 else 0x20) cascade c) (k : Line) :
    c.vector k = some (irqVector onSlave k) := by
  have hor : ∀ (b : Bool) (k : Line),
    ((if b then 0x28 else 0x20 : BitVec 8) &&& 0xF8) ||| BitVec.ofNat 8 k =
      irqVector b k := by decide
  rw [Chip.vector, h.mode, h.base, if_pos (by decide), hor]

theorem isCascade_iff (h : Ready p) (k : Line) : p.master.isCascade k = true ↔ k = 2 := by
  rw [Chip.isCascade, h.master.single, h.master.cascade]
  decide +revert

theorem answers_two (h : Ready p) : p.answers 2 = true := by
  rw [Pair.answers, h.slave.single, h.slave.cascade]
  rfl

theorem front_wants_of_ne (h : Ready p) (hk : k ≠ 2) : p.front.wants k = p.master.wants k := by
  rw [Chip.wants, Pair.front]
  dsimp only
  rw [if_neg (mt (isCascade_iff h k).mp hk), Chip.wants]

theorem front_wants_two (h : Ready p) (hidle : p.Idle) :
    p.front.wants 2 = true ↔ (∃ j, p.slave.wants j = true) ∧ p.master.imr.getLsbD 2 = false := by
  rw [wants_eq_true, Pair.front]
  dsimp only
  rw [if_pos ((isCascade_iff h 2).mpr rfl), int_of_idle h.slave.stage hidle.2, Fin.isSome_find?_iff]
  rfl

theorem inta_eq_some_iff (h : Ready p) (hidle : p.Idle) :
    p.inta = some (v, p') ↔ ∃ k, (p.front.wants k = true ∧ ∀ i < k, p.front.wants i = false) ∧
      (k ≠ 2 ∧ irqVector false k = v ∧ { p with master := p.master.take k } = p' ∨
        k = 2 ∧ ∃ j, (p.slave.wants j = true ∧ ∀ i < j, p.slave.wants i = false) ∧
          irqVector true j = v ∧ ⟨p.master.take 2, p.slave.take j⟩ = p') := by
  have hfront : p.front.int = Fin.find? p.front.wants := int_of_idle h.master.stage hidle.1
  rw [Pair.inta, hfront, Option.bind_eq_some_iff]
  refine exists_congr fun k => ?_
  rw [Fin.find?_eq_some_iff]
  refine and_congr_right fun _ => ?_
  rw [Pair.serve]
  by_cases hk : k = 2
  · subst hk
    rw [if_pos ((isCascade_iff h 2).mpr rfl), if_pos (answers_two h),
      int_of_idle h.slave.stage hidle.2, Option.bind_eq_some_iff]
    simp only [vector_eq true h.slave, Fin.find?_eq_some_iff, Option.map_some, Option.some.injEq,
      Prod.mk.injEq, ne_eq, not_true_eq_false, false_and, true_and, false_or]
  · rw [if_neg (mt (isCascade_iff h k).mp hk), vector_eq false h.master]
    simp only [Option.map_some, Option.some.injEq, Prod.mk.injEq, hk, ne_eq,
      not_false_eq_true, true_and, false_and, or_false]

theorem rank_master (k : Line) : rank false k = 8 * k := rfl

theorem rank_slave (k : Line) : rank true k = 16 + k := rfl

theorem requested_iff_master (h : Ready p) (hk : k ≠ 2) :
    Requested p false k ↔ p.front.wants k = true := by
  rw [front_wants_of_ne h hk]
  exact and_iff_left hk

theorem requested_slave (h : Ready p) (hidle : p.Idle) (hj : Requested p true j) :
    p.front.wants 2 = true :=
  (front_wants_two h hidle).mpr ⟨⟨j, hj.1⟩, hj.2⟩

theorem inta_first (h : Ready p) (hidle : p.Idle) (hinta : p.inta = some (v, p')) :
    ∃ onSlave k, v = irqVector onSlave k ∧ p' = taken p onSlave k ∧ Requested p onSlave k ∧
      ∀ b j, Requested p b j → rank onSlave k ≤ rank b j := by
  obtain ⟨k, ⟨hwants, hbefore⟩, hserve⟩ := (inta_eq_some_iff h hidle).mp hinta
  -- no line in front of `k` is requested, so the master's lines are in order
  have hmaster : ∀ j, Requested p false j → k ≤ j := fun j hj => by
    by_contra hlt
    have hnone := hbefore j (not_le.mp hlt)
    rw [(requested_iff_master h hj.2).mp hj] at hnone
    cases hnone
  have hslave : ∀ j, Requested p true j → k ≤ 2 := fun j hj => by
    by_contra hlt
    have hnone := hbefore 2 (not_le.mp hlt)
    rw [requested_slave h hidle hj] at hnone
    cases hnone
  rcases hserve with ⟨hk, rfl, rfl⟩ | ⟨rfl, j, ⟨hj, hfirst⟩, rfl, rfl⟩
  · refine ⟨false, k, rfl, rfl, (requested_iff_master h hk).mpr hwants, fun b i hi => ?_⟩
    cases b with
    | false =>
      have hle : k.val ≤ i.val := hmaster i hi
      rw [rank_master, rank_master]
      omega
    | true =>
      have hle : k.val ≤ 2 := hslave i hi
      rw [rank_master, rank_slave]
      omega
  · refine ⟨true, j, rfl, rfl, ⟨hj, ((front_wants_two h hidle).mp hwants).2⟩, fun b i hi => ?_⟩
    cases b with
    | false =>
      have hle : 2 ≤ i.val := hmaster i hi
      have hne : i.val ≠ 2 := fun heq => hi.2 (Fin.ext heq)
      rw [rank_slave, rank_master]
      omega
    | true =>
      have hle : j.val ≤ i.val := by
        by_contra hlt
        have hnone := hfirst i (not_le.mp hlt)
        rw [show p.slave.wants i = true from hi.1] at hnone
        cases hnone
      rw [rank_slave, rank_slave]
      omega

theorem isSome_inta (h : Ready p) (hidle : p.Idle) :
    p.inta.isSome ↔ ∃ onSlave k, Requested p onSlave k := by
  constructor
  · intro hsome
    obtain ⟨a, ha⟩ := Option.isSome_iff_exists.mp hsome
    obtain ⟨onSlave, k, -, -, hreq, -⟩ := inta_first h hidle ha
    exact ⟨onSlave, k, hreq⟩
  · rintro ⟨onSlave, k, hreq⟩
    have hwants : ∃ k, p.front.wants k = true := by
      cases onSlave with
      | false => exact ⟨k, (requested_iff_master h hreq.2).mp hreq⟩
      | true => exact ⟨2, requested_slave h hidle hreq⟩
    obtain ⟨i, hi⟩ := Option.isSome_iff_exists.mp (Fin.isSome_find?_iff.mpr hwants)
    have hfirst := Fin.find?_eq_some_iff.mp hi
    refine Option.isSome_iff_exists.mpr ?_
    by_cases htwo : i = 2
    · subst htwo
      obtain ⟨j, hj⟩ := Option.isSome_iff_exists.mp
        (Fin.isSome_find?_iff.mpr ((front_wants_two h hidle).mp hfirst.1).1)
      exact ⟨_, (inta_eq_some_iff h hidle).mpr
        ⟨2, hfirst, .inr ⟨rfl, j, Fin.find?_eq_some_iff.mp hj, rfl, rfl⟩⟩⟩
    · exact ⟨_, (inta_eq_some_iff h hidle).mpr ⟨i, hfirst, .inl ⟨htwo, rfl, rfl⟩⟩⟩

def eoi1 : Write := (pic1Command, picEoi)

def eoi2 : Write := (pic2Command, picEoi)

theorem outb_eoi1 (p : Pair) : outb p eoi1 = some { p with master := p.master.eoi } := rfl

theorem outb_eoi2 (p : Pair) : outb p eoi2 = some { p with slave := p.slave.eoi } := rfl

theorem ackIrq_irqVector (onSlave : Bool) (k : Line) :
    ackIrq (irqVector onSlave k) = if onSlave then [eoi2, eoi1] else [eoi1] := by
  decide +revert

theorem ackIrq_cases (v : BitVec 8) : ackIrq v = [eoi1] ∨ ackIrq v = [eoi2, eoi1] := by
  rw [ackIrq]
  split
  · exact .inr rfl
  · exact .inl rfl

theorem gate_irqVector (onSlave : Bool) (k : Line) : gate (irqVector onSlave k) = some .irq := by
  decide +revert

theorem quiet_outb (p : Pair) (w : Write) :
    (outb p w).map Pair.quiet = (outb p.quiet w).map Pair.quiet := by
  have hmaster : ∀ (q : Pair) (o : Option Chip),
    (o.map fun c => { q with master := c }).map Pair.quiet =
      (o.map Chip.quiet).map fun c => ⟨c, q.slave.quiet⟩ := fun _ o => by cases o <;> rfl
  have hslave : ∀ (q : Pair) (o : Option Chip),
    (o.map fun c => { q with slave := c }).map Pair.quiet =
      (o.map Chip.quiet).map fun c => ⟨q.master.quiet, c⟩ := fun _ o => by cases o <;> rfl
  unfold outb
  split_ifs
  · rw [hmaster, hmaster, quiet_command]
    rfl
  · rw [hslave, hslave, quiet_command]
    rfl
  · rw [Option.map_some, Option.map_some, Pair.quiet, quiet_data]
    exact congrArg (fun c => some (Pair.mk c p.slave.quiet)) (quiet_data p.quiet.master w.2).symm
  · rw [Option.map_some, Option.map_some, Pair.quiet, quiet_data]
    exact congrArg (fun c => some (Pair.mk p.master.quiet c)) (quiet_data p.quiet.slave w.2).symm
  · rfl

/-- The masks are what `enable_irq` and `disable_irq` change. -/
theorem outb_irqPort (h : Ready p) (irq d : BitVec 8) : ∃ i1 i2, outb p (irqPort irq, d) =
    some ⟨{ p.master with imr := i1 }, { p.slave with imr := i2 }⟩ := by
  rw [irqPort]
  split
  · exact ⟨d, p.slave.imr, congrArg (fun c => some (Pair.mk c p.slave)) (h.master.data d)⟩
  · exact ⟨p.master.imr, d, congrArg (fun c => some (Pair.mk p.master c)) (h.slave.data d)⟩

/-- Some writes of `pic_init` have been done, and devices may have asked for service. -/
def Booting (p : Pair) (ws : List Write) : Prop :=
  ∃ done p0 p1, done ++ ws = picInit 0x20 0x28 ∧ run outb p0 done = some p1 ∧ p1.quiet = p.quiet

theorem booting_boot (p : Pair) : Booting p (picInit 0x20 0x28) := ⟨[], p, p, rfl, rfl, rfl⟩

theorem run_picInit (p : Pair) : ∃ p', run outb p (picInit 0x20 0x28) = some p' ∧
    Ready p' ∧ p'.Idle ∧
    p'.master.imr = 0 ∧ p'.slave.imr = 0 :=
  ⟨_, rfl, ⟨⟨rfl, rfl, rfl, rfl, rfl⟩, ⟨rfl, rfl, rfl, rfl, rfl⟩⟩, ⟨rfl, rfl⟩, rfl, rfl⟩

theorem booting_raise (h : Booting p ws) (onSlave : Bool) (k : Line) :
    Booting (p.raise onSlave k) ws := by
  obtain ⟨done, p0, p1, hdone, hrun, hquiet⟩ := h
  exact ⟨done, p0, p1, hdone, hrun, hquiet.trans (pair_quiet_raise p onSlave k).symm⟩

theorem booting_write (h : Booting p (w :: ws)) : ∃ p', outb p w = some p' ∧ Booting p' ws := by
  obtain ⟨done, p0, p1, hdone, hrun, hquiet⟩ := h
  obtain ⟨pend, hend, -⟩ := run_picInit p0
  rw [← hdone, run_append, hrun, Option.bind_some, run_cons, Option.bind_eq_some_iff] at hend
  obtain ⟨p1', hp1', -⟩ := hend
  have hsame : (outb p w).map Pair.quiet = some p1'.quiet := by
    rw [quiet_outb, ← hquiet, ← quiet_outb, hp1', Option.map_some]
  obtain ⟨p', hp', hquiet'⟩ := Option.map_eq_some_iff.mp hsame
  refine ⟨p', hp', done ++ [w], p0, p1', ?_, run_concat hrun hp1', hquiet'.symm⟩
  rw [List.append_assoc, List.singleton_append, hdone]

theorem ready_quiet : Ready p.quiet ↔ Ready p :=
  ⟨fun h => ⟨Setup.quiet_iff.mp h.master, Setup.quiet_iff.mp h.slave⟩,
    fun h => ⟨Setup.quiet_iff.mpr h.master, Setup.quiet_iff.mpr h.slave⟩⟩

theorem booting_nil (h : Booting p []) : Ready p ∧ p.Idle := by
  obtain ⟨done, p0, p1, hdone, hrun, hquiet⟩ := h
  obtain ⟨pend, hend, hready, hidle, -⟩ := run_picInit p0
  rw [List.append_nil] at hdone
  rw [hdone, hend] at hrun
  obtain rfl := Option.some.inj hrun
  rw [← ready_quiet, ← idle_quiet, ← hquiet]
  exact ⟨ready_quiet.mpr hready, idle_quiet.mpr hidle⟩

/-- The writes end everything that is in service. -/
def Ends (p : Pair) (ws : List Write) : Prop :=
  ws = [eoi1] ∧ Single p.master ∧ p.slave.Idle ∨ ws = [eoi2, eoi1] ∧ Single p.master ∧
    Single p.slave

inductive Served (m : Machine) : Prop
  | boot (hrun : m.running = .boot) (hflag : m.flag = false) (hne : m.writes ≠ [])
      (hboot : Booting m.pic m.writes)
  | stub (v : BitVec 8) (hrun : m.running = .stub v) (hflag : m.flag = false) (hready : Ready m.pic)
      (hends : Ends m.pic m.writes)
  | body (hrun : m.running = .body) (hwrites : m.writes = []) (hready : Ready m.pic)
    (hidle : m.pic.Idle)
  | switching (b : Bool) (hrun : m.running = .switching b) (hflag : m.flag = false)
      (hwrites : m.writes = [eoi1]) (hready : Ready m.pic) (hidle : m.pic.Idle)

theorem served_boot (p : Pair) : Served (boot p) :=
  .boot rfl rfl (List.cons_ne_nil _ _) (booting_boot p)

theorem ends_taken (h : p.Idle) (onSlave : Bool) (k : Line) :
    Ends (taken p onSlave k) (ackIrq (irqVector onSlave k)) := by
  rw [ackIrq_irqVector]
  cases onSlave with
  | false => exact .inl ⟨rfl, single_take h.1 k, h.2⟩
  | true => exact .inr ⟨rfl, single_take h.1 2, single_take h.2 k⟩

theorem ends_of_idle (h : p.Idle) (v : BitVec 8) : Ends p (ackIrq v) := by
  rcases ackIrq_cases v with hack | hack
  · exact .inl ⟨hack, single_of_idle h.1, h.2⟩
  · exact .inr ⟨hack, single_of_idle h.1, single_of_idle h.2⟩

theorem ready_taken (h : Ready p) (onSlave : Bool) (k : Line) : Ready (taken p onSlave k) := by
  cases onSlave with
  | false => exact ⟨h.master.take k, h.slave⟩
  | true => exact ⟨h.master.take 2, h.slave.take k⟩

theorem ready_raise (h : Ready p) (onSlave : Bool) (k : Line) : Ready (p.raise onSlave k) := by
  rw [← ready_quiet, pair_quiet_raise]
  exact ready_quiet.mpr h

theorem idle_raise (h : p.Idle) (onSlave : Bool) (k : Line) : (p.raise onSlave k).Idle := by
  rw [← idle_quiet, pair_quiet_raise]
  exact idle_quiet.mpr h

theorem ends_raise (h : Ends p ws) (onSlave : Bool) (k : Line) : Ends (p.raise onSlave k) ws := by
  cases onSlave <;> exact h

theorem noise_eq_some (h : Ready p) (hnoise : p.noise k = some (v, p')) :
    ∃ onSlave, v = irqVector onSlave 7 ∧
      p' = if onSlave then { p with master := p.master.take 2 } else p := by
  rw [Pair.noise, Option.ite_none_right_eq_some] at hnoise
  obtain ⟨-, hnoise⟩ := hnoise
  by_cases hk : k = 2
  · subst hk
    rw [if_pos ((isCascade_iff h 2).mpr rfl), if_pos (answers_two h),
      vector_eq true h.slave] at hnoise
    cases hnoise
    exact ⟨true, rfl, rfl⟩
  · rw [if_neg (mt (isCascade_iff h k).mp hk), vector_eq false h.master] at hnoise
    cases hnoise
    exact ⟨false, rfl, rfl⟩

theorem enter_irq (hgate : gate v = some .irq) (m : Machine) : m.enter v =
    some { m with
      flag := false, running := .stub v, writes := ackIrq v, frames := m.flag :: m.frames } := by
  rw [Machine.enter, hgate]

theorem served_enter (hrun : m.running = .body) (hwrites : m.writes = []) (hready : Ready m.pic)
    (hidle : m.pic.Idle) (h : m.enter v = some m') : Served m' := by
  rw [Machine.enter] at h
  cases hgate : gate v with
  | none => rw [hgate] at h; cases h
  | some s =>
    rw [hgate] at h
    cases s with
    | isr => cases h; exact .body hrun hwrites hready hidle
    | irq => cases h; exact .stub v rfl rfl hready (ends_of_idle hidle v)

theorem Served.body_of_flag (h : Served m) (hflag : m.flag = true) :
    m.running = .body ∧ m.writes = [] ∧ Ready m.pic ∧ m.pic.Idle := by
  cases h with
  | body hrun hwrites hready hidle => exact ⟨hrun, hwrites, hready, hidle⟩
  | boot _ hno => rw [hno] at hflag; cases hflag
  | stub _ _ hno => rw [hno] at hflag; cases hflag
  | switching _ _ hno => rw [hno] at hflag; cases hflag

theorem Served.of_body (h : Served m) (hrun : m.running = .body) :
    m.writes = [] ∧ Ready m.pic ∧ m.pic.Idle := by
  cases h with
  | body _ hwrites hready hidle => exact ⟨hwrites, hready, hidle⟩
  | boot hno => rw [hno] at hrun; cases hrun
  | stub _ hno => rw [hno] at hrun; cases hrun
  | switching _ hno => rw [hno] at hrun; cases hrun

theorem served_raise (h : Served m) (onSlave : Bool) (k : Line) :
    Served { m with pic := m.pic.raise onSlave k } := by
  cases h with
  | boot hrun hflag hne hboot => exact .boot hrun hflag hne (booting_raise hboot onSlave k)
  | stub v hrun hflag hready hends =>
    exact .stub v hrun hflag (ready_raise hready onSlave k) (ends_raise hends onSlave k)
  | body hrun hwrites hready hidle =>
    exact .body hrun hwrites (ready_raise hready onSlave k) (idle_raise hidle onSlave k)
  | switching b hrun hflag hwrites hready hidle =>
    exact .switching b hrun hflag hwrites (ready_raise hready onSlave k)
      (idle_raise hidle onSlave k)

theorem step_write_last (h : m.writes = [w]) : step m .write =
    (outb m.pic w).map fun p => { m with pic := p, writes := [] }.written := by
  rw [step, h]

theorem step_write_cons {w' : Write} (h : m.writes = w :: w' :: ws) : step m .write =
    (outb m.pic w).map fun p => { m with pic := p, writes := w' :: ws } := by
  rw [step, h]

theorem idle_eoi (h : Single c) : c.eoi.Idle := by
  obtain ⟨k, b, hisr⟩ := h
  rw [eoi_of_single hisr]
  rfl

theorem served_write (h : Served m) (hne : m.writes ≠ []) :
    ∃ m', step m .write = some m' ∧ Served m' := by
  cases h with
  | boot hrun hflag _ hboot =>
    obtain ⟨w, ws, hws⟩ := List.exists_cons_of_ne_nil hne
    rw [hws] at hboot
    obtain ⟨p', hp', hboot'⟩ := booting_write hboot
    cases ws with
    | nil =>
      obtain ⟨hready, hidle⟩ := booting_nil hboot'
      refine ⟨_, by rw [step_write_last hws, hp', Option.map_some, Machine.written, hrun], ?_⟩
      exact .body rfl rfl hready hidle
    | cons w' ws =>
      refine ⟨_, by rw [step_write_cons hws, hp', Option.map_some], ?_⟩
      exact .boot hrun hflag (List.cons_ne_nil _ _) hboot'
  | stub v hrun hflag hready hends =>
    rcases hends with ⟨hws, hmaster, hslave⟩ | ⟨hws, hmaster, hslave⟩
    · refine ⟨_, by rw [step_write_last hws, outb_eoi1, Option.map_some, Machine.written, hrun], ?_⟩
      exact .body rfl rfl ⟨hready.master.eoi, hready.slave⟩ ⟨idle_eoi hmaster, hslave⟩
    · refine ⟨_, by rw [step_write_cons hws, outb_eoi2, Option.map_some], ?_⟩
      exact .stub v hrun hflag ⟨hready.master, hready.slave.eoi⟩
        (.inl ⟨rfl, hmaster, idle_eoi hslave⟩)
  | body _ hwrites => exact absurd hwrites hne
  | switching b hrun hflag hwrites hready hidle =>
    refine ⟨_, by rw [step_write_last hwrites, outb_eoi1, Option.map_some, Machine.written, hrun],
      ?_⟩
    exact .body rfl rfl ⟨hready.master.eoi,
      hready.slave⟩ ⟨idle_eoi (single_of_idle hidle.1), hidle.2⟩

theorem step_iret (h : step m .iret = some m') :
    m.running = .body ∧ ∃ b frames, m.frames = b :: frames ∧
      m' = { m with flag := b, frames := frames } := by
  rw [step] at h
  cases hrun : m.running with
  | body =>
    cases hframes : m.frames with
    | nil => rw [hrun, hframes] at h; cases h
    | cons b frames =>
      rw [hrun, hframes] at h
      cases h
      exact ⟨rfl, b, frames, rfl, rfl⟩
  | _ => rw [hrun] at h; cases h

theorem served_step (h : Served m) {e : Event} (hstep : step m e = some m') : Served m' := by
  cases e with
  | raise onSlave k =>
    cases hstep
    exact served_raise h onSlave k
  | interrupt =>
    rw [step, Option.ite_none_right_eq_some, Option.bind_eq_some_iff] at hstep
    obtain ⟨hflag, ⟨v, p'⟩, hinta, henter⟩ := hstep
    obtain ⟨hrun, hwrites, hready, hidle⟩ := h.body_of_flag hflag
    obtain ⟨onSlave, k, rfl, rfl, -⟩ := inta_first hready hidle hinta
    rw [enter_irq (gate_irqVector onSlave k)] at henter
    cases henter
    exact .stub _ rfl rfl (ready_taken hready onSlave k) (ends_taken hidle onSlave k)
  | noise k =>
    rw [step, Option.ite_none_right_eq_some, Option.bind_eq_some_iff] at hstep
    obtain ⟨hflag, ⟨v, p'⟩, hnoise, henter⟩ := hstep
    obtain ⟨hrun, hwrites, hready, hidle⟩ := h.body_of_flag hflag
    obtain ⟨onSlave, rfl, rfl⟩ := noise_eq_some hready hnoise
    rw [enter_irq (gate_irqVector onSlave 7)] at henter
    cases henter
    cases onSlave with
    | false => exact .stub _ rfl rfl hready (.inl ⟨rfl, single_of_idle hidle.1, hidle.2⟩)
    | true =>
      exact .stub _ rfl rfl ⟨hready.master.take 2, hready.slave⟩
        (.inr ⟨rfl, single_take hidle.1 2, single_of_idle hidle.2⟩)
  | write =>
    have hne : m.writes ≠ [] := fun hnil => by rw [step, hnil] at hstep; cases hstep
    obtain ⟨m'', hm'', hserved⟩ := served_write h hne
    rw [hstep] at hm''
    cases hm''
    exact hserved
  | int vector =>
    rw [step, Option.ite_none_right_eq_some] at hstep
    obtain ⟨hwrites, hready, hidle⟩ := h.of_body hstep.1
    exact served_enter hstep.1 hwrites hready hidle hstep.2
  | iret =>
    obtain ⟨hrun, b, frames, -, rfl⟩ := step_iret hstep
    obtain ⟨hwrites, hready, hidle⟩ := h.of_body hrun
    exact .body hrun hwrites hready hidle
  | setFlag b =>
    rw [step, Option.ite_none_right_eq_some] at hstep
    obtain ⟨hwrites, hready, hidle⟩ := h.of_body hstep.1
    cases hstep.2
    exact .body hstep.1 hwrites hready hidle
  | enable irq =>
    rw [step, Option.ite_none_right_eq_some, Option.map_eq_some_iff] at hstep
    obtain ⟨hrun, p', hp', rfl⟩ := hstep
    obtain ⟨hwrites, hready, hidle⟩ := h.of_body hrun
    obtain ⟨b, -, hout⟩ := Option.bind_eq_some_iff.mp hp'
    obtain ⟨i1, i2, hsome⟩ := outb_irqPort hready irq (inb m.pic (irqPort irq) &&& ~~~b)
    rw [hsome] at hout
    cases hout
    exact .body hrun hwrites ⟨{ hready.master with }, { hready.slave with }⟩ hidle
  | disable irq =>
    rw [step, Option.ite_none_right_eq_some, Option.map_eq_some_iff] at hstep
    obtain ⟨hrun, p', hp', rfl⟩ := hstep
    obtain ⟨hwrites, hready, hidle⟩ := h.of_body hrun
    obtain ⟨b, -, hout⟩ := Option.bind_eq_some_iff.mp hp'
    obtain ⟨i1, i2, hsome⟩ := outb_irqPort hready irq (inb m.pic (irqPort irq) ||| b)
    rw [hsome] at hout
    cases hout
    exact .body hrun hwrites ⟨{ hready.master with }, { hready.slave with }⟩ hidle
  | switch b =>
    rw [step, Option.ite_none_right_eq_some] at hstep
    obtain ⟨hwrites, hready, hidle⟩ := h.of_body hstep.1.1
    cases hstep.2
    exact .switching b rfl hstep.1.2 rfl hready hidle

/-- No handler runs while something is in service. With interrupts enabled the processor takes an
interrupt whenever one is requested, and takes what goes first. The controllers know all that is
written, and the acknowledgement of `context_switch` ends nothing. -/
structure Delivers (m : Machine) : Prop where
  idle : m.running = .body → m.pic.Idle
  flag : m.flag = true → m.running = .body
  accepts : m.flag = true →
    ((step m .interrupt).isSome ↔ ∃ onSlave k, Requested m.pic onSlave k)
  first : ∀ m', step m .interrupt = some m' →
    ∃ onSlave k, Requested m.pic onSlave k ∧ m'.running = .stub (irqVector onSlave k) ∧
      ∀ b j, Requested m.pic b j → rank onSlave k ≤ rank b j
  writes : m.writes ≠ [] → (step m .write).isSome
  again : ∀ b m', m.running = .switching b → step m .write = some m' → m'.pic = m.pic

theorem step_interrupt (h : Served m) (hstep : step m .interrupt = some m') :
    ∃ onSlave k, Requested m.pic onSlave k ∧
    (∀ b j, Requested m.pic b j → rank onSlave k ≤ rank b j) ∧
      m' = ⟨taken m.pic onSlave k, false, .stub (irqVector onSlave k), ackIrq (irqVector onSlave k),
        m.flag :: m.frames⟩ := by
  rw [step, Option.ite_none_right_eq_some, Option.bind_eq_some_iff] at hstep
  obtain ⟨hflag, ⟨v, p'⟩, hinta, henter⟩ := hstep
  obtain ⟨hrun, hwrites, hready, hidle⟩ := h.body_of_flag hflag
  obtain ⟨onSlave, k, rfl, rfl, hreq, hfirst⟩ := inta_first hready hidle hinta
  rw [enter_irq (gate_irqVector onSlave k)] at henter
  cases henter
  exact ⟨onSlave, k, hreq, hfirst, rfl⟩

theorem delivers_of_served (h : Served m) : Delivers m where
  idle hrun := (h.of_body hrun).2.2
  flag hflag := (h.body_of_flag hflag).1
  accepts hflag := by
    obtain ⟨-, -, hready, hidle⟩ := h.body_of_flag hflag
    rw [← isSome_inta hready hidle, step, if_pos hflag]
    constructor
    · intro hsome
      obtain ⟨m', hm'⟩ := Option.isSome_iff_exists.mp hsome
      obtain ⟨a, ha, -⟩ := Option.bind_eq_some_iff.mp hm'
      rw [ha]
      rfl
    · intro hsome
      obtain ⟨a, ha⟩ := Option.isSome_iff_exists.mp hsome
      obtain ⟨onSlave, k, hv, -⟩ := inta_first hready hidle ha
      rw [ha, Option.bind_some, hv, enter_irq (gate_irqVector onSlave k)]
      rfl
  first m' hstep := by
    obtain ⟨onSlave, k, hreq, hfirst, rfl⟩ := step_interrupt h hstep
    exact ⟨onSlave, k, hreq, rfl, hfirst⟩
  writes hne := by
    obtain ⟨m', hm', -⟩ := served_write h hne
    rw [hm']
    rfl
  again b m' hrun hstep := by
    cases h with
    | switching c hrun' hflag hwrites hready hidle =>
      rw [step_write_last hwrites, outb_eoi1, Option.map_some, Machine.written, hrun',
        eoi_of_idle hidle.1] at hstep
      cases hstep
      rfl
    | boot hno => rw [hno] at hrun; cases hrun
    | stub _ hno => rw [hno] at hrun; cases hrun
    | body hno => rw [hno] at hrun; cases hrun

/-- From whatever state the controllers are in when `pic_init` begins. -/
theorem always_delivers (p : Pair) (es : List Event) : Always step Delivers (boot p) es :=
  always_of_steps (fun _ _ _ h _ => served_step h) (fun _ => delivers_of_served) (served_boot p)
    (steps_true _ es)

end Unos.Interrupts
