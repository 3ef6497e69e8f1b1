import Unos.Rtl8139.Receive

namespace Unos.Rtl8139

open Unos.ByteMemory Unos.Runs Unos.Words

def rxBufferSize : ℕ := 8192 + 16 + 1500

/-- The next `current_packet_ptr`, and the offsets that `receive_packet` reads: the length in the
header and then the frame. -/
def receivePacket (m : Mem) (ptr : ℕ) : ℕ × List ℕ :=
  let length := packetLength m ptr
  (nextPacketPtr ptr length, (ptr + 2) :: (ptr + 3) :: (List.range length).map fun i => ptr + 4 + i)

def receiveStep (ptr : ℕ) (m : Mem) : Option ℕ :=
  if 1 ≤ packetLength m ptr ∧ packetLength m ptr ≤ 1518 then some (receivePacket m ptr).1 else none

def InRing (ptr : ℕ) (m : Mem) : Prop :=
  let r := receivePacket m ptr
  4 ∣ r.1 ∧ r.1 < rxBufSize ∧ r.1 = nextWritePtr ptr (packetLength m ptr) ∧ ∀ a ∈ r.2,
    a < rxBufferSize

instance (ptr : ℕ) (m : Mem) : Decidable (InRing ptr m) :=
  inferInstanceAs (Decidable (_ ∧ _ ∧ _ ∧ ∀ a ∈ (receivePacket m ptr).2, a < rxBufferSize))

def FrameFits (ptr : ℕ) (m : Mem) : Prop :=
  (ptr + packetLength m ptr + 4 + 3) / 4 * 4 ≠ rxBufSize ∧
    ptr + 4 + packetLength m ptr ≤ rxBufferSize

instance (ptr : ℕ) (m : Mem) : Decidable (FrameFits ptr m) := inferInstanceAs (Decidable (_ ∧ _))

variable {ptr next : ℕ} {m : Mem}

theorem receivePacket_reads (hlen : 1 ≤ packetLength m ptr) :
    (∀ a ∈ (receivePacket m ptr).2, a < rxBufferSize) ↔
      ptr + 4 + packetLength m ptr ≤ rxBufferSize := by
  constructor
  · intro hall
    have hlast := hall (ptr + 4 + (packetLength m ptr - 1)) (by
      refine List.mem_cons_of_mem _ (List.mem_cons_of_mem _ (List.mem_map.mpr ⟨_, ?_, rfl⟩))
      exact List.mem_range.mpr (by omega))
    omega
  · intro hend a ha
    rcases List.mem_cons.mp ha with rfl | ha
    · omega
    rcases List.mem_cons.mp ha with rfl | ha
    · omega
    obtain ⟨i, hi, rfl⟩ := List.mem_map.mp ha
    have hi := List.mem_range.mp hi
    omega

theorem inRing_iff (h4 : 4 ∣ ptr) (hptr : ptr < rxBufSize) (hstep : receiveStep ptr m = some next) :
    InRing ptr m ↔ FrameFits ptr m := by
  rw [receiveStep, Option.ite_none_right_eq_some] at hstep
  obtain ⟨⟨hpos, hmax⟩, -⟩ := hstep
  have hnext : (receivePacket m ptr).1 = nextPacketPtr ptr (packetLength m ptr) := rfl
  have hdvd : 4 ∣ (receivePacket m ptr).1 := by
    rw [hnext, nextPacketPtr_eq hptr.le hmax]
    unfold rxBufSize
    split_ifs <;> omega
  have hmod := nextPacketPtr_mod hptr.le hmax
  have hend : (receivePacket m ptr).1 < rxBufSize ↔
      (ptr + packetLength m ptr + 4 + 3) / 4 * 4 ≠ rxBufSize := by
    rw [hnext, nextPacketPtr_eq hptr.le hmax]
    unfold rxBufSize at hptr ⊢
    split_ifs <;> omega
  rw [InRing, FrameFits, receivePacket_reads hpos, ← hend]
  constructor
  · rintro ⟨-, hlt, -, hread⟩
    exact ⟨hlt, hread⟩
  · rintro ⟨hlt, hread⟩
    refine ⟨hdvd, hlt, ?_, hread⟩
    rw [← hmod, ← hnext, Nat.mod_eq_of_lt hlt]

/-- From the start of the ring all calls of a run stay in bounds exactly when every frame fits. -/
theorem receive_inRing_iff (ms : List Mem) :
    Steps receiveStep InRing 0 ms ↔ Steps receiveStep FrameFits 0 ms := by
  refine steps_congr (I := fun ptr => 4 ∣ ptr ∧
    ptr < rxBufSize) ?_ ?_ ⟨Nat.dvd_zero 4, by decide⟩ ms
  · rintro ptr m next ⟨h4, hptr⟩ hfits hstep
    obtain ⟨hdvd, hlt, -⟩ := (inRing_iff h4 hptr hstep).mpr hfits
    rw [receiveStep, Option.ite_none_right_eq_some] at hstep
    rw [← Option.some.inj hstep.2]
    exact ⟨hdvd, hlt⟩
  · exact fun ptr m next hI hstep => inRing_iff hI.1 hI.2 hstep

/-- Eight frames of 1020 bytes end at the end of the ring. -/
theorem receive_not_inRing :
    ¬ Steps receiveStep InRing 0 (List.replicate 8 fun a => if a % 2 = 0 then 252 else 3) := by
  decide +kernel

end Unos.Rtl8139
