import Mathlib.Tactic.Common
import Mathlib.Tactic.IntervalCases
import Unos.Library.Runs

namespace Unos.Rtl8139

open Unos.Runs

def tsadArray : List ℕ := [0x20, 0x24, 0x28, 0x2C]

def tsdArray : List ℕ := [0x10, 0x14, 0x18, 0x1C]

/-- The address register and the length register of the descriptor `d` of the card. -/
def addressRegister (d : ℕ) : ℕ := 0x20 + 4 * d

def lengthRegister (d : ℕ) : ℕ := 0x10 + 4 * d

/-- The registers by their offset from `io_base`, the descriptors that are not completed, the oldest
first, `tx_cur`, the address register and the length of a call that has not written its length yet,
and the two registers of each call before. -/
structure Transmitter where
  regs : ℕ → ℕ
  inFlight : List ℕ
  txCur : ℕ
  call : Option (ℕ × ℕ)
  written : List (ℕ × ℕ)

/-- After `rtl8139_init`. -/
def Transmitter.boot (regs : ℕ → ℕ) : Transmitter := ⟨regs, [], 0, none, []⟩

/-- The two accesses of `rtl8139_send_packet`, and the completion of the oldest frame. -/
inductive TransmitEvent
  | writeAddress (physAddr len : ℕ)
  | writeLength
  | complete

def target (s : Transmitter) : TransmitEvent → Option ℕ
  | .writeAddress _ _ => some (tsadArray.getD s.txCur 0)
  | .writeLength => some (tsdArray.getD s.txCur 0)
  | .complete => none

def transmitStep (s : Transmitter) : TransmitEvent → Option Transmitter
  | .writeAddress physAddr len =>
    let r := tsadArray.getD s.txCur 0
    if s.call = none then
      some { s with regs := Function.update s.regs r physAddr, call := some (r, len) }
    else none
  | .writeLength =>
    s.call.map fun c =>
      let r := tsdArray.getD s.txCur 0
      { regs := Function.update s.regs r c.2
        inFlight := s.inFlight ++ [(r - 0x10) / 4]
        txCur := if 3 < s.txCur + 1 then 0 else s.txCur + 1
        call := none
        written := s.written ++ [(c.1, r)] }
  | .complete =>
    match s.inFlight with
    | [] => none
    | _ :: rest => some { s with inFlight := rest }

structure InTurn (s : Transmitter) : Prop where
  txCur : s.txCur ≤ 3
  written : s.written = (List.range s.written.length).map fun k =>
    (addressRegister (k % 4), lengthRegister (k % 4))

def Untouched (s : Transmitter) (e : TransmitEvent) : Prop :=
  ∀ r, target s e = some r → ∀ d ∈ s.inFlight, r ≠ addressRegister d ∧ r ≠ lengthRegister d

def SlotFree (s : Transmitter) : TransmitEvent → Prop
  | .writeAddress _ _ => s.inFlight.length < 4
  | _ => True

instance (s : Transmitter) : (e : TransmitEvent) → Decidable (SlotFree s e)
  | .writeAddress _ _ => inferInstanceAs (Decidable (_ < _))
  | .writeLength => isTrue trivial
  | .complete => isTrue trivial

/-- The first `c` frames are completed and the others in flight. -/
structure TransmitInv (s : Transmitter) (c : ℕ) : Prop where
  inFlight : s.inFlight = (List.range' c s.inFlight.length).map fun k => k % 4
  txCur : s.txCur = (c + s.inFlight.length) % 4
  call : ∀ r len, s.call = some (r, len) → r = addressRegister s.txCur
  written : s.written = (List.range (c + s.inFlight.length)).map fun k =>
    (addressRegister (k % 4), lengthRegister (k % 4))

variable {s t : Transmitter} {c : ℕ}

theorem tsadArray_getD {d : ℕ} (hd : d < 4) : tsadArray.getD d 0 = addressRegister d := by
  interval_cases d <;> rfl

theorem tsdArray_getD {d : ℕ} (hd : d < 4) : tsdArray.getD d 0 = lengthRegister d := by
  interval_cases d <;> rfl

theorem TransmitInv.lt (h : TransmitInv s c) : s.txCur < 4 := by
  rw [h.txCur]
  exact Nat.mod_lt _ (by decide)

/-- A descriptor is in flight when a frame was posted with it and not completed. -/
theorem TransmitInv.mem_iff (h : TransmitInv s c) {d : ℕ} :
    d ∈ s.inFlight ↔ ∃ i < s.inFlight.length, (c + i) % 4 = d := by
  rw [h.inFlight, List.length_map, List.length_range', List.mem_map]
  constructor
  · rintro ⟨k, hk, rfl⟩
    obtain ⟨i, hi, rfl⟩ := List.mem_range'.mp hk
    exact ⟨i, hi, by rw [Nat.one_mul]⟩
  · rintro ⟨i, hi, rfl⟩
    exact ⟨c + i, List.mem_range'.mpr ⟨i, hi, by rw [Nat.one_mul]⟩, rfl⟩

theorem TransmitInv.txCur_mem_iff (h : TransmitInv s c) :
    s.txCur ∈ s.inFlight ↔ 4 ≤ s.inFlight.length := by
  rw [h.mem_iff, h.txCur]
  constructor
  · rintro ⟨i, hi, hmod⟩
    omega
  · intro hfour
    exact ⟨s.inFlight.length - 4, by omega, by omega⟩

theorem TransmitInv.inTurn (h : TransmitInv s c) : InTurn s := by
  refine ⟨Nat.le_of_lt_succ h.lt, ?_⟩
  have hlen : s.written.length = c + s.inFlight.length := by
    rw [h.written, List.length_map, List.length_range]
  rw [hlen]
  exact h.written

theorem transmitInv_boot (regs : ℕ → ℕ) : TransmitInv (.boot regs) 0 :=
  ⟨rfl, rfl, fun _ _ hcall => (nomatch hcall), rfl⟩

theorem TransmitInv.step (h : TransmitInv s c) {e : TransmitEvent}
    (hstep : transmitStep s e = some t) :
    ∃ c', TransmitInv t c' := by
  have hlt := h.lt
  cases e with
  | writeAddress physAddr len =>
    rw [transmitStep, Option.ite_none_right_eq_some, tsadArray_getD hlt] at hstep
    rw [← Option.some.inj hstep.2]
    refine ⟨c, h.inFlight, h.txCur, fun r len' hcall => ?_, h.written⟩
    cases hcall
    rfl
  | writeLength =>
    rw [transmitStep, Option.map_eq_some_iff, tsdArray_getD hlt] at hstep
    obtain ⟨⟨r, len⟩, hcall, rfl⟩ := hstep
    have hr := h.call r len hcall
    have hd : (lengthRegister s.txCur - 0x10) / 4 = s.txCur := by
      unfold lengthRegister
      omega
    have hlen : (s.inFlight ++ [s.txCur]).length = s.inFlight.length + 1 := List.length_append
    have htx := h.txCur
    dsimp only
    rw [hd, hr]
    refine ⟨c, ?_, ?_, fun _ _ hcall => (nomatch hcall), ?_⟩
    · rw [hlen, List.range'_1_concat, List.map_append, ← h.inFlight]
      rw [List.map_cons, List.map_nil, ← htx]
    · dsimp only
      rw [hlen]
      split_ifs <;> omega
    · dsimp only
      rw [hlen, ← Nat.add_assoc, List.range_succ, List.map_append, ← h.written]
      rw [List.map_cons, List.map_nil, ← htx]
  | complete =>
    rw [transmitStep] at hstep
    cases hflight : s.inFlight with
    | nil =>
      rw [hflight] at hstep
      cases hstep
    | cons d rest =>
      rw [hflight] at hstep
      cases hstep
      have hlen : s.inFlight.length = rest.length + 1 := by
        rw [hflight, List.length_cons]
      have hall := h.inFlight
      rw [hlen, List.range'_succ, List.map_cons, hflight] at hall
      refine ⟨c + 1, (List.cons.inj hall).2, ?_, h.call, ?_⟩
      · dsimp only
        rw [h.txCur, hlen, Nat.add_right_comm, Nat.add_assoc]
      · dsimp only
        rw [h.written, hlen, Nat.add_right_comm, Nat.add_assoc]

/-- The registers of the next descriptor are not those of a frame in flight, unless it is in flight
itself. -/
theorem TransmitInv.apart (h : TransmitInv s c) (hnot : s.txCur ∉ s.inFlight) {r : ℕ}
    (hr : r = addressRegister s.txCur ∨ r = lengthRegister s.txCur) :
    ∀ d ∈ s.inFlight, r ≠ addressRegister d ∧ r ≠ lengthRegister d := by
  intro d hd
  have hlt := h.lt
  have hdlt : d < 4 := by
    obtain ⟨i, -, rfl⟩ := h.mem_iff.mp hd
    exact Nat.mod_lt _ (by decide)
  have hne : d ≠ s.txCur := fun heq => hnot (heq ▸ hd)
  unfold addressRegister lengthRegister at *
  omega

theorem TransmitInv.untouched_iff (h : TransmitInv s c)
    (hroom : s.call ≠ none → s.inFlight.length < 4) {e : TransmitEvent}
    (hstep : transmitStep s e = some t) : Untouched s e ↔ SlotFree s e := by
  have hlt := h.lt
  cases e with
  | writeAddress physAddr len =>
    have hfree : SlotFree s (.writeAddress physAddr len) ↔ s.txCur ∉ s.inFlight := by
      rw [h.txCur_mem_iff, not_le]
      exact Iff.rfl
    rw [hfree]
    constructor
    · intro huntouched hmem
      exact (huntouched _ rfl s.txCur hmem).1 (tsadArray_getD hlt)
    · intro hnot r hr
      obtain rfl := Option.some.inj hr
      exact h.apart hnot (Or.inl (tsadArray_getD hlt))
  | writeLength =>
    refine iff_of_true ?_ trivial
    have hcall : s.call ≠ none := by
      intro hnone
      rw [transmitStep, hnone] at hstep
      cases hstep
    have hnot : s.txCur ∉ s.inFlight := by
      rw [h.txCur_mem_iff, not_le]
      exact hroom hcall
    intro r hr
    obtain rfl := Option.some.inj hr
    exact h.apart hnot (Or.inr (tsdArray_getD hlt))
  | complete => exact iff_of_true (fun r hr => nomatch hr) trivial

theorem transmitStep_room (hroom : s.call ≠ none → s.inFlight.length < 4) {e : TransmitEvent}
    (hfree : SlotFree s e) (hstep : transmitStep s e = some t) :
    t.call ≠ none → t.inFlight.length < 4 := by
  cases e with
  | writeAddress physAddr len =>
    rw [transmitStep, Option.ite_none_right_eq_some] at hstep
    rw [← Option.some.inj hstep.2]
    exact fun _ => hfree
  | writeLength =>
    rw [transmitStep, Option.map_eq_some_iff] at hstep
    obtain ⟨call, -, rfl⟩ := hstep
    exact fun hcall => absurd rfl hcall
  | complete =>
    rw [transmitStep] at hstep
    cases hflight : s.inFlight with
    | nil =>
      rw [hflight] at hstep
      cases hstep
    | cons d rest =>
      rw [hflight] at hstep
      cases hstep
      intro hcall
      have hlen := hroom hcall
      rw [hflight, List.length_cons] at hlen
      exact Nat.lt_of_succ_lt hlen

theorem steps_untouched_iff (regs : ℕ → ℕ) (es : List TransmitEvent) :
    Steps transmitStep Untouched (.boot regs) es ↔ Steps transmitStep SlotFree (.boot regs) es := by
  refine steps_congr (I := fun s => (∃ c, TransmitInv s c) ∧
    (s.call ≠ none → s.inFlight.length < 4))
    ?_ ?_ ⟨⟨0, transmitInv_boot regs⟩, fun hcall => absurd rfl hcall⟩ es
  · exact fun s e t ⟨⟨c, h⟩, hroom⟩ hfree hstep =>
      ⟨h.step hstep, transmitStep_room hroom hfree hstep⟩
  · exact fun s e t ⟨⟨c, h⟩, hroom⟩ hstep => h.untouched_iff hroom hstep

/-- The calls take the four descriptors in turn and write both registers of one, and no descriptor
in flight is touched exactly when each call begins with fewer than four frames in flight. -/
theorem send_inTurn_iff (regs : ℕ → ℕ) (es : List TransmitEvent) :
    Always transmitStep InTurn (.boot regs) es ∧
      (Steps transmitStep Untouched (.boot regs) es ↔
      Steps transmitStep SlotFree (.boot regs) es) := by
  refine ⟨?_, steps_untouched_iff regs es⟩
  refine always_of_steps (I := fun s => ∃ c, TransmitInv s c) (C := fun _ _ => True) ?_ ?_
    ⟨0, transmitInv_boot regs⟩ (steps_true _ es)
  · exact fun s e t ⟨c, h⟩ _ hstep => h.step hstep
  · exact fun s ⟨c, h⟩ => h.inTurn

/-- Five calls and no completion: the last one writes the address register of the first frame. -/
theorem send_not_untouched :
    ¬ Steps transmitStep Untouched (.boot fun _ => 0)
      [.writeAddress 0x1000 60, .writeLength, .writeAddress 0x2000 60, .writeLength,
        .writeAddress 0x3000 60, .writeLength, .writeAddress 0x4000 60, .writeLength,
        .writeAddress 0x5000 60, .writeLength] := by
  rw [steps_untouched_iff]
  decide +kernel

end Unos.Rtl8139
