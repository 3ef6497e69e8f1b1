import Unos.Rtl8139.Model

namespace Unos.Rtl8139

open Unos.ByteMemory Unos.Runs Unos.Words

variable {s t : State} {f : Frame}

/-- The frames that arrived are handed on once each and in their order, and with the handler
at rest and ROK clear all of them have been. -/
def InOrder (s : State) : Prop :=
  s.delivered <+: s.arrived.map Frame.bytes ∧
    (s.pc = .idle → s.isr &&& rok = 0 → s.delivered = s.arrived.map Frame.bytes)

instance InOrder.decidable (s : State) : Decidable (InOrder s) :=
  inferInstanceAs (Decidable (_ ∧ (_ → _)))

/-- A frame comes in while ROK is clear and the handler has not read the status register,
and the read pointer was not left at the end of the ring. -/
def QuietArrival (s : State) : Event → Prop
  | .arrive _ =>
    (s.pc = .idle ∨ s.pc = .readStatus) ∧ s.isr &&& rok = 0 ∧ s.currentPacketPtr ≠ rxBufSize
  | _ => True

instance QuietArrival.decidable (s : State) : (e : Event) → Decidable (QuietArrival s e)
  | .arrive _ => inferInstanceAs (Decidable ((_ ∨ _) ∧ _ ∧ _))
  | .report _ => isTrue trivial
  | .handler => isTrue trivial

theorem or_rok (x : BitVec 16) : (x ||| rok) &&& rok ≠ 0 := by
  have h : (x ||| rok) &&& rok = rok := by
    ext i
    simp only [BitVec.getElem_and, BitVec.getElem_or, Bool.and_eq_right_iff_imp, Bool.or_eq_true]
    exact Or.inr
  rw [h]
  decide

theorem acknowledge_rok (x : BitVec 16) : x &&& ~~~5 &&& rok = 0 := by
  have h : (~~~5 : BitVec 16) &&& rok = 0#16 := by decide
  rw [BitVec.and_assoc, h]
  exact BitVec.and_zero

theorem report_rok (x : BitVec 16) {bits : BitVec 16} (h : bits &&& rok = 0) :
    (x ||| bits) &&& rok = x &&& rok := by
  rw [BitVec.and_or_distrib_right, h]
  exact BitVec.or_zero

theorem nextPacketPtr_eq {ptr n : ℕ} (hp : ptr ≤ rxBufSize) (hn : n ≤ 1518) :
    nextPacketPtr ptr n =
      if 4 * ((ptr + n + 7) / 4) > rxBufSize then 4 * ((ptr + n + 7) / 4) - rxBufSize
      else 4 * ((ptr + n + 7) / 4) := by
  unfold rxBufSize at hp ⊢
  have hwrap : wrap32 (ptr + n + 4 + 3) = ptr + n + 7 := wrap32_of_lt (by omega)
  have hmask : (ptr + n + 7) &&& (2 ^ 32 - 2 ^ 2) = 4 * ((ptr + n + 7) / 4) :=
    and_high_mask (by omega) (by decide)
  unfold nextPacketPtr rxBufSize
  simp only [hwrap, hmask]
  split
  · exact sub32_of_le (by omega) (by omega)
  · rfl

theorem nextPacketPtr_le {ptr n : ℕ} (hp : ptr ≤ rxBufSize) (hn : n ≤ 1518) :
    nextPacketPtr ptr n ≤ rxBufSize := by
  rw [nextPacketPtr_eq hp hn]
  unfold rxBufSize at hp ⊢
  split <;> omega

theorem nextPacketPtr_mod {ptr n : ℕ} (hp : ptr ≤ rxBufSize) (hn : n ≤ 1518) :
    nextPacketPtr ptr n % rxBufSize = nextWritePtr ptr n := by
  rw [nextPacketPtr_eq hp hn]
  unfold nextWritePtr rxBufSize at *
  split <;> omega

structure Rest (s : State) : Prop where
  delivered : s.delivered = s.arrived.map Frame.bytes
  writePtr : s.writePtr = s.currentPacketPtr % rxBufSize
  ptr_le : s.currentPacketPtr ≤ rxBufSize

/-- The frame `f` waits where the driver reads next. -/
structure Pending (s : State) (f : Frame) : Prop where
  delivered : s.delivered ++ [f.bytes] = s.arrived.map Frame.bytes
  length : packetLength s.rxBuffer s.currentPacketPtr = f.bytes.length
  bytes : loadBytes s.rxBuffer (s.currentPacketPtr + 4) f.bytes.length = f.bytes
  writePtr : s.writePtr = nextWritePtr s.currentPacketPtr f.bytes.length
  ptr_le : s.currentPacketPtr ≤ rxBufSize

/-- The frame `f` was handed on, and the read pointer still points to it. -/
structure Taken (s : State) (f : Frame) : Prop where
  delivered : s.delivered = s.arrived.map Frame.bytes
  writePtr : s.writePtr = nextWritePtr s.currentPacketPtr f.bytes.length
  ptr_le : s.currentPacketPtr ≤ rxBufSize

def Inv (s : State) : Prop :=
  match s.pc with
  | .idle | .readStatus => if s.isr &&& rok = 0 then Rest s else ∃ f, Pending s f
  | .readLength => ∃ f, Pending s f
  | .copy n => ∃ f, Pending s f ∧ n = f.bytes.length
  | .writeCapr n => ∃ f, Taken s f ∧ n = f.bytes.length
  | .acknowledge => Rest s

theorem Pending.delivered_initial (h : Pending s f) : s.delivered <+: s.arrived.map Frame.bytes :=
  ⟨[f.bytes], h.delivered⟩

theorem Rest.delivered_initial (h : Rest s) : s.delivered <+: s.arrived.map Frame.bytes :=
  h.delivered ▸ List.prefix_rfl

theorem inv_iff (hpc : s.pc = .idle ∨ s.pc = .readStatus) :
    Inv s ↔ if s.isr &&& rok = 0 then Rest s else ∃ f, Pending s f := by
  rcases hpc with hpc | hpc <;> simp only [Inv, hpc]

theorem Inv.inOrder (h : Inv s) : InOrder s := by
  cases hpc : s.pc with
  | idle =>
    rw [inv_iff (.inl hpc)] at h
    split at h
    · exact ⟨h.delivered_initial, fun _ _ => h.delivered⟩
    · next hrok =>
      obtain ⟨f, hf⟩ := h
      exact ⟨hf.delivered_initial, fun _ h0 => absurd h0 hrok⟩
  | readStatus =>
    rw [inv_iff (.inr hpc)] at h
    refine ⟨?_, fun h0 => nomatch hpc.symm.trans h0⟩
    split at h
    · exact h.delivered_initial
    · exact h.choose_spec.delivered_initial
  | readLength =>
    simp only [Inv, hpc] at h
    exact ⟨h.choose_spec.delivered_initial, fun h0 => nomatch hpc.symm.trans h0⟩
  | copy n =>
    simp only [Inv, hpc] at h
    exact ⟨h.choose_spec.1.delivered_initial, fun h0 => nomatch hpc.symm.trans h0⟩
  | writeCapr n =>
    simp only [Inv, hpc] at h
    obtain ⟨f, hf, -⟩ := h
    exact ⟨hf.delivered ▸ List.prefix_rfl, fun h0 => nomatch hpc.symm.trans h0⟩
  | acknowledge =>
    simp only [Inv, hpc] at h
    exact ⟨h.delivered_initial, fun h0 => nomatch hpc.symm.trans h0⟩

theorem Rest.with_isr (h : Rest s) (isr : BitVec 16) (pc : Pc) :
    Rest { s with isr := isr, pc := pc } :=
  ⟨h.delivered, h.writePtr, h.ptr_le⟩

theorem Pending.with_isr (h : Pending s f) (isr : BitVec 16) (pc : Pc) :
    Pending { s with isr := isr, pc := pc } f :=
  ⟨h.delivered, h.length, h.bytes, h.writePtr, h.ptr_le⟩

theorem Rest.receive (h : Rest s) (hptr : s.currentPacketPtr ≠ rxBufSize)
    (hstep : receiveFrame s f = some t) : Pending t f := by
  rw [receiveFrame, Option.ite_none_right_eq_some] at hstep
  have ht := Option.some.inj hstep.2
  have hlt : s.currentPacketPtr < rxBufSize := lt_of_le_of_ne h.ptr_le hptr
  have hwrite : s.writePtr = s.currentPacketPtr := h.writePtr.trans (Nat.mod_eq_of_lt hlt)
  have hlen : f.bytes.length < 65536 := f.length_le.trans_lt (by decide)
  have hbytes := loadBytes_storeBytes s.rxBuffer s.currentPacketPtr f.header f.bytes
  have hheader : 3 < (f.header ++ f.bytes).length := by simp [Frame.header]
  have hlow := storeBytes_apply s.rxBuffer (a := s.currentPacketPtr)
    ((Nat.lt_succ_self 2).trans hheader)
  have hhigh := storeBytes_apply s.rxBuffer (a := s.currentPacketPtr) hheader
  have hlength : packetLength (storeBytes s.rxBuffer s.currentPacketPtr (f.header ++ f.bytes))
      s.currentPacketPtr = f.bytes.length := by
    rw [packetLength, load8, load8, hlow, hhigh]
    simp only [Frame.header, List.cons_append, List.getD_cons_succ, List.getD_cons_zero,
      BitVec.toNat_ofNat]
    omega
  subst ht
  rw [hwrite]
  exact ⟨by simp [h.delivered], hlength, hbytes, rfl, h.ptr_le⟩

theorem Inv.arrive (h : Inv s) (hq : QuietArrival s (.arrive f))
    (hstep : receiveFrame s f = some t) : Inv t := by
  obtain ⟨hpc, hrok, hptr⟩ := hq
  rw [inv_iff hpc, if_pos hrok] at h
  have hpending := h.receive hptr hstep
  rw [receiveFrame, Option.ite_none_right_eq_some] at hstep
  have ht := Option.some.inj hstep.2
  have hpct : t.pc = s.pc := by rw [← ht]
  have hisr : ¬ t.isr &&& rok = 0 := by
    rw [← ht]
    exact or_rok s.isr
  rw [← hpct] at hpc
  rw [inv_iff hpc, if_neg hisr]
  exact ⟨f, hpending⟩

theorem Inv.report (h : Inv s) {bits : BitVec 16} (hbits : bits &&& rok = 0) :
    Inv { s with isr := s.isr ||| bits } := by
  cases hpc : s.pc with
  | idle | readStatus =>
    rw [inv_iff (by simp [hpc])] at h ⊢
    rw [report_rok s.isr hbits]
    split at h
    · next h0 =>
      rw [if_pos h0]
      exact h.with_isr _ _
    · next h0 =>
      rw [if_neg h0]
      exact h.imp fun f hf => hf.with_isr _ _
  | readLength =>
    simp only [Inv, hpc] at h ⊢
    exact h.imp fun f hf => hf.with_isr _ _
  | copy n =>
    simp only [Inv, hpc] at h ⊢
    exact h.imp fun f hf => ⟨hf.1.with_isr _ _, hf.2⟩
  | writeCapr n =>
    simp only [Inv, hpc] at h ⊢
    obtain ⟨f, hf, hn⟩ := h
    exact ⟨f, ⟨hf.delivered, hf.writePtr, hf.ptr_le⟩, hn⟩
  | acknowledge =>
    simp only [Inv, hpc] at h ⊢
    exact h.with_isr _ _

theorem Inv.handler (h : Inv s) (hstep : handlerStep s = some t) : Inv t := by
  unfold handlerStep at hstep
  cases hpc : s.pc with
  | idle =>
    rw [inv_iff (.inl hpc)] at h
    simp only [hpc] at hstep
    rw [Option.ite_none_right_eq_some] at hstep
    rw [← Option.some.inj hstep.2, inv_iff (.inr rfl)]
    -- the status bits, and with them the case that applies, are as before
    split at h
    · next h0 =>
      rw [if_pos h0]
      exact h.with_isr s.isr .readStatus
    · next h0 =>
      rw [if_neg h0]
      exact h.imp fun f hf => hf.with_isr s.isr .readStatus
  | readStatus =>
    rw [inv_iff (.inr hpc)] at h
    simp only [hpc] at hstep
    rw [← Option.some.inj hstep]
    split at h
    · next h0 =>
      simp only [h0, ne_eq, not_true_eq_false, if_false]
      exact h.with_isr s.isr .acknowledge
    · next h0 =>
      simp only [h0, ne_eq, not_false_eq_true, if_true]
      exact h.imp fun f hf => hf.with_isr s.isr .readLength
  | readLength =>
    simp only [Inv, hpc] at h hstep
    obtain ⟨f, hf⟩ := h
    rw [← Option.some.inj hstep]
    exact ⟨f, hf.with_isr s.isr _, hf.length⟩
  | copy n =>
    simp only [Inv, hpc] at h hstep
    obtain ⟨f, hf, rfl⟩ := h
    rw [← Option.some.inj hstep]
    refine ⟨f, ⟨?_, hf.writePtr, hf.ptr_le⟩, rfl⟩
    rw [hf.bytes]
    exact hf.delivered
  | writeCapr n =>
    simp only [Inv, hpc] at h hstep
    obtain ⟨f, hf, rfl⟩ := h
    rw [← Option.some.inj hstep]
    exact ⟨hf.delivered, hf.writePtr.trans (nextPacketPtr_mod hf.ptr_le f.length_le).symm,
      nextPacketPtr_le hf.ptr_le f.length_le⟩
  | acknowledge =>
    simp only [Inv, hpc] at h hstep
    rw [← Option.some.inj hstep, inv_iff (.inl rfl), if_pos (acknowledge_rok s.isr)]
    exact h.with_isr _ .idle

theorem Inv.step (h : Inv s) {e : Event} (hq : QuietArrival s e) (hstep : cardStep s e = some t) :
    Inv t := by
  cases e with
  | arrive f => exact h.arrive hq hstep
  | report bits =>
    rw [cardStep, Option.ite_none_right_eq_some] at hstep
    rw [← Option.some.inj hstep.2]
    exact h.report hstep.1
  | handler => exact h.handler hstep

theorem inv_boot (rxBuffer : Mem) : Inv (.boot rxBuffer) := by
  have h0 : (State.boot rxBuffer).isr &&& rok = 0 := show (0 : BitVec 16) &&& rok = 0 by decide
  rw [inv_iff (.inl rfl), if_pos h0]
  exact ⟨rfl, rfl, Nat.zero_le _⟩

/-- When every frame comes in quietly, all of them are handed on in order and none is left
behind, whatever the card and the handler do in between. -/
theorem receive_in_order (rxBuffer : Mem) {es : List Event}
    (hquiet : Steps cardStep QuietArrival (.boot rxBuffer) es) :
    Always cardStep InOrder (.boot rxBuffer) es := by
  have hkept : ∀ s e t, Inv s → QuietArrival s e → cardStep s e = some t → Inv t :=
    fun _ _ _ h hq hstep => h.step hq hstep
  exact always_of_steps hkept (fun _ h => h.inOrder) (inv_boot rxBuffer) hquiet

def oneByte (b : BitVec 8) : Frame := ⟨1, [b], Nat.one_pos, Nat.le_add_left 1 1517⟩

/-- A frame for each run of the handler. -/
theorem receive_in_order_two : Always cardStep InOrder (.boot fun _ => 0)
    [.arrive (oneByte 1), .handler, .handler, .handler, .handler, .handler, .handler,
      .arrive (oneByte 2), .handler, .report 4, .handler, .handler, .handler, .handler, .handler] :=
  receive_in_order _ (by decide +kernel)

/-- Two frames for one run of the handler: the second one stays behind. -/
theorem receive_burst_not_in_order : ¬ Always cardStep InOrder (.boot fun _ => 0)
    [.arrive (oneByte 1), .arrive (oneByte 2), .handler, .handler, .handler, .handler, .handler,
      .handler] := by
  decide +kernel

end Unos.Rtl8139
