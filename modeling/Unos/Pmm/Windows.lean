import Unos.Pmm.Contiguous

namespace Unos.Pmm

open Unos.Words Unos.BitWords Unos.Search

/-- The words that the window test for bit `p` reads. -/
def windowReads (m : ℤ → BitVec 32) (size p : ℕ) : List ℤ :=
  (windowLoop m size (windowStart p) (size + 1) 0 0).2

/-- Bit `p` is clear, and no window before fits. -/
def Tried (m : ℤ → BitVec 32) (size lo p : ℕ) : Prop :=
  bitAt m p = false ∧ ∀ q, lo ≤ q → q < p → ¬ WindowFits m size q

section Reads

variable {m : ℤ → BitVec 32} {size : ℕ} {Q : ℤ → Prop}

/-- The bits that the search comes to in two parts: it comes to the second part unless it stops in
the first one. -/
theorem tried_split {P : ℕ → Prop} {lo hi : ℕ} (mid : ℕ) (h1 : lo ≤ mid) (h2 : mid ≤ hi) :
    (∀ p, lo ≤ p → p < hi → Tried m size lo p → P p) ↔
      (∀ p, lo ≤ p → p < mid → Tried m size lo p → P p) ∧
        ((∀ q, lo ≤ q → q < mid → ¬ WindowFits m size q) →
          ∀ p, mid ≤ p → p < hi → Tried m size mid p → P p) := by
  constructor
  · intro h
    refine ⟨fun p hp hpm => h p hp (by omega), fun hno p hp hph ht => ?_⟩
    refine h p (by omega) hph ⟨ht.1, fun q hq hqp => ?_⟩
    rcases Nat.lt_or_ge q mid with hqm | hqm
    · exact hno q hq hqm
    · exact ht.2 q hqm hqp
  · rintro ⟨hfirst, hsecond⟩ p hp hph ht
    rcases Nat.lt_or_ge p mid with hpm | hpm
    · exact hfirst p hp hpm ht
    · exact hsecond (fun q hq hqm => ht.2 q hq (by omega)) p hpm hph
        ⟨ht.1, fun q hq => ht.2 q (by omega)⟩

theorem windowBitLoop_reads (m : ℤ → BitVec 32) {size : ℕ} (hsize : 1 ≤ size) (i n : ℕ) :
    ∀ j, j + n ≤ 32 → ((∀ k ∈ (windowBitLoop m size i n j).2, Q k) ↔
      (0 < n → Q i) ∧ ∀ p, i * 32 + j ≤ p → p < i * 32 + j + n → Tried m size (i * 32 + j) p →
        ∀ k ∈ windowReads m size p, Q k) := by
  induction n with
  | zero =>
    intro j _
    refine iff_of_true (fun k hk => absurd hk List.not_mem_nil)
      ⟨fun h => absurd h (lt_irrefl 0), ?_⟩
    exact fun p h1 h2 => absurd h2 (by omega)
  | succ n ih =>
    intro j hj
    have hrest := ih (j + 1) (by omega)
    have hstart := windowStart_eq (i := i) (j := j) (by omega)
    have hdiv : (i * 32 + j) / 32 = i := by omega
    have hmod : (i * 32 + j) % 32 = j := by omega
    have hclear : bitAt m (i * 32 + j) = false ↔ m i &&& 1#32 <<< j = 0 := by
      rw [bitAt, hdiv, hmod, and_mask_eq_zero _ j (by omega)]
    have hstops : WindowFits m size (i * 32 + j) ↔ bitAt m (i * 32 + j) = false ∧
        (windowLoop m size (i * 32 + 2 ^ j) (size + 1) 0 0).1 = true := by
      rw [windowFits_iff hsize, hstart]
    have hreads : windowReads m size (i * 32 + j) =
        (windowLoop m size (i * 32 + 2 ^ j) (size + 1) 0 0).2 := by rw [windowReads, hstart]
    -- the first bit, and the others behind it
    have hone : (∀ p, i * 32 + j ≤ p → p < i * 32 + j + 1 → Tried m size (i * 32 + j) p →
        ∀ k ∈ windowReads m size p, Q k) ↔ (bitAt m (i * 32 + j) = false →
          ∀ k ∈ windowReads m size (i * 32 + j), Q k) := by
      constructor
      · exact fun h hbit => h _ le_rfl (by omega) ⟨hbit, fun q h1 h2 => absurd h2 (by omega)⟩
      · intro h p h1 h2 ht
        obtain rfl : p = i * 32 + j := by omega
        exact h ht.1
    have hnext : (∀ q, i * 32 + j ≤ q → q < i * 32 + j + 1 → ¬ WindowFits m size q) ↔
        ¬ WindowFits m size (i * 32 + j) := by
      constructor
      · exact fun h => h _ le_rfl (by omega)
      · intro h q h1 h2
        rwa [show q = i * 32 + j by omega]
    rw [tried_split (i * 32 + j + 1) (by omega) (by omega), hone, hnext]
    rw [show i * 32 + (j + 1) = i * 32 + j + 1 by omega,
      show i * 32 + j + 1 + n = i * 32 + j + (n + 1) by omega] at hrest
    simp only [windowBitLoop]
    split_ifs with hbit hwin
    · -- the search stops here
      have hc := hclear.mpr (beq_iff_eq.mp hbit)
      have hs := hstops.mpr ⟨hc, hwin⟩
      rw [List.forall_mem_cons, ← hreads]
      constructor
      · rintro ⟨hi, hw⟩
        exact ⟨fun _ => hi, fun _ => hw, fun hno => absurd hs hno⟩
      · rintro ⟨hi, hw, -⟩
        exact ⟨hi (Nat.succ_pos n), hw hc⟩
    · have hc := hclear.mpr (beq_iff_eq.mp hbit)
      have hs : ¬ WindowFits m size (i * 32 + j) := fun h => hwin (hstops.mp h).2
      rw [List.cons_append, List.forall_mem_cons, List.forall_mem_append, ← hreads, hrest]
      constructor
      · rintro ⟨hi, hw, -, hr⟩
        exact ⟨fun _ => hi, fun _ => hw, fun _ => hr⟩
      · rintro ⟨hi, hw, hr⟩
        exact ⟨hi (Nat.succ_pos n), hw hc, fun _ => hi (Nat.succ_pos n), hr hs⟩
    · have hc : ¬ bitAt m (i * 32 + j) = false := fun h => hbit (beq_iff_eq.mpr (hclear.mp h))
      have hs : ¬ WindowFits m size (i * 32 + j) := fun h => hc h.1
      rw [List.forall_mem_cons, hrest]
      constructor
      · rintro ⟨hi, -, hr⟩
        exact ⟨fun _ => hi, fun h => absurd h hc, fun _ => hr⟩
      · rintro ⟨hi, -, hr⟩
        exact ⟨hi (Nat.succ_pos n), fun _ => hi (Nat.succ_pos n), hr hs⟩

theorem dword_reads (m : ℤ → BitVec 32) {size : ℕ} (hsize : 1 ≤ size) (i : ℕ) :
    let bits := if m i ≠ 0xffffffff#32 then windowBitLoop m size i 32 0 else (none, [])
    FindsFirst (WindowFits m size) (i * 32) (i * 32 + 32) bits.1 ∧
      (Q i → ((∀ k ∈ bits.2, Q k) ↔ ∀ p, i * 32 ≤ p → p < i * 32 + 32 →
        Tried m size (i * 32) p → ∀ k ∈ windowReads m size p, Q k)) := by
  intro bits
  by_cases hfull : m i = 0xffffffff#32
  · have hbits : bits = (none, []) := if_neg (not_not.mpr hfull)
    have hused := used_of_full hfull
    rw [hbits]
    refine ⟨fun q h1 h2 h => hused q h1 h2 h.1, fun _ => iff_of_true ?_ ?_⟩
    · exact fun k hk => absurd hk List.not_mem_nil
    · exact fun p h1 h2 ht => absurd ht.1 (hused p h1 h2)
  · have hbits : bits = windowBitLoop m size i 32 0 := if_pos hfull
    have hfinds := windowBitLoop_finds m hsize i 32 0 (by omega)
    have hreads := windowBitLoop_reads (Q := Q) m hsize i 32 0 (by omega)
    rw [Nat.add_zero] at hfinds hreads
    rw [hbits]
    refine ⟨hfinds, fun hi => hreads.trans (and_iff_right fun _ => hi)⟩

/-- What the search reads: the dwords up to the one where it stops, and the windows of the bits that
it comes to. -/
theorem windowWordLoop_reads (m : ℤ → BitVec 32) {size : ℕ} (hsize : 1 ≤ size) (n i : ℕ) :
    (∀ k ∈ (windowWordLoop m size n i).2, Q k) ↔
      (∀ d : ℕ, i ≤ d → d < i + n → (∀ q, i * 32 ≤ q → q < d * 32 → ¬ WindowFits m size q) → Q d) ∧
        ∀ p, i * 32 ≤ p → p < (i + n) * 32 → Tried m size (i * 32) p →
          ∀ k ∈ windowReads m size p, Q k := by
  induction n generalizing i with
  | zero =>
    refine iff_of_true (fun k hk => absurd hk List.not_mem_nil) ⟨fun d h1 h2 => ?_,
      fun p h1 h2 => ?_⟩
    · exact absurd h2 (by omega)
    · exact absurd h2 (by omega)
  | succ n ih =>
    have hrest := ih (i + 1)
    obtain ⟨hfinds, hbits⟩ := dword_reads (Q := Q) m hsize i
    have hfirst : (∀ d : ℕ, i ≤ d → d < i + (n + 1) →
        (∀ q, i * 32 ≤ q → q < d * 32 → ¬ WindowFits m size q) → Q d) → Q i :=
      fun h => h i le_rfl (by omega) fun q h1 h2 => absurd h2 (by omega)
    rw [tried_split (i * 32 + 32) (by omega) (by omega)]
    rw [show (i + 1) * 32 = i * 32 + 32 by omega, show i + 1 + n = i + (n + 1) by omega] at hrest
    rw [windowWordLoop]
    split
    · rename_i f hf
      rw [hf] at hfinds
      rw [List.forall_mem_cons]
      constructor
      · rintro ⟨hi, hr⟩
        refine ⟨fun d h1 h2 hno => ?_, (hbits hi).mp hr, fun hno => ?_⟩
        · -- no later dword is read
          rcases Nat.eq_or_lt_of_le h1 with rfl | hlt
          · exact hi
          · exact absurd hfinds.2.2.1 (hno f hfinds.1 (by have := hfinds.2.1; omega))
        · exact absurd hfinds.2.2.1 (hno f hfinds.1 hfinds.2.1)
      · rintro ⟨hd, hr, -⟩
        exact ⟨hfirst hd, (hbits (hfirst hd)).mpr hr⟩
    · rename_i hnone
      rw [hnone] at hfinds
      have hno : ∀ q, i * 32 ≤ q → q < i * 32 + 32 → ¬ WindowFits m size q := hfinds
      dsimp only
      rw [List.cons_append, List.forall_mem_cons, List.forall_mem_append, hrest]
      constructor
      · rintro ⟨hi, hr, hd, hw⟩
        refine ⟨fun d h1 h2 hstop => ?_, (hbits hi).mp hr, fun _ => hw⟩
        rcases Nat.eq_or_lt_of_le h1 with rfl | hlt
        · exact hi
        · exact hd d hlt h2 fun q h3 h4 => hstop q (by omega) h4
      · rintro ⟨hd, hr, hw⟩
        refine ⟨hfirst hd, (hbits (hfirst hd)).mpr hr, fun d h1 h2 hstop => ?_, hw hno⟩
        refine hd d (by omega) h2 fun q h3 h4 => ?_
        rcases Nat.lt_or_ge q (i * 32 + 32) with hq | hq
        · exact hno q h3 hq
        · exact hstop q hq h4

theorem windowLoop_reads {start n count free : ℕ} (hn : count + n = size + 1) (hle : free ≤ count)
    (hlt : free < size) : ∃ k, (windowLoop m size start n count free).2 =
      (List.range' count k).map (fun c => (windowBit start c).tdiv 32) ∧
      ((k = n ∧ ¬ (free = count ∧ ∀ c, count ≤ c → c < size →
      mmapTest m (windowBit start c) = false)) ∨
        k + 1 = n ∧ free = count ∧ ∀ c, count ≤ c → c < size →
        mmapTest m (windowBit start c) = false) := by
  induction n generalizing count free with
  | zero => exact ⟨0, rfl, Or.inl ⟨rfl, fun h => by omega⟩⟩
  | succ n ih =>
    have hrange : ∀ k, (List.range' count (k + 1)).map (fun c => (windowBit start c).tdiv 32) =
        (windowBit start count).tdiv 32 ::
          (List.range' (count + 1) k).map fun c => (windowBit start c).tdiv 32 := fun k => rfl
    by_cases ht : mmapTest m (windowBit start count) = true
    · -- a bit in use: all have to be tested
      have hle' : free ≤ count + 1 := by omega
      obtain ⟨k, hk, hlast⟩ := ih (by omega) hle' hlt
      refine ⟨k + 1, ?_, Or.inl ⟨?_, ?_⟩⟩
      · simp only [windowLoop, if_pos ht, if_neg hlt.ne, hrange, hk]
      · omega
      · rintro ⟨rfl, hclear⟩
        rw [hclear free le_rfl hlt] at ht
        exact Bool.noConfusion ht
    · have hclear : mmapTest m (windowBit start count) = false := Bool.eq_false_iff.mpr ht
      have hnext : (free + 1 = count + 1 ∧ ∀ c, count + 1 ≤ c → c < size →
          mmapTest m (windowBit start c) = false) ↔
          free = count ∧ ∀ c, count ≤ c → c < size → mmapTest m (windowBit start c) = false := by
        refine and_congr Nat.succ_inj ⟨fun h c h1 h2 => ?_, fun h c h1 => h c (by omega)⟩
        rcases Nat.eq_or_lt_of_le h1 with rfl | hc
        · exact hclear
        · exact h c hc h2
      by_cases hdone : free + 1 = size
      · refine ⟨1, ?_, ?_⟩
        · simp only [windowLoop, if_neg ht, if_pos hdone, hrange]
          rfl
        · rcases Nat.eq_or_lt_of_le (show count ≤ size by omega) with rfl | hc
          · exact Or.inl ⟨by omega, fun h => by omega⟩
          · refine Or.inr ⟨by omega, by omega, fun c h1 h2 => ?_⟩
            rwa [show c = count by omega]
      · have hle' : free + 1 ≤ count + 1 := by omega
        obtain ⟨k, hk, hlast⟩ := ih (by omega) hle' (by omega)
        rw [hnext] at hlast
        refine ⟨k + 1, ?_, ?_⟩
        · simp only [windowLoop, if_neg ht, if_neg hdone, hrange, hk]
        · exact hlast.imp (fun h => ⟨by omega, h.2⟩) fun h => ⟨by omega, h.2⟩

theorem signedBit_natCast (m : ℤ → BitVec 32) (b : ℕ) : signedBit m b = bitAt m b := by
  have hdiv : (b : ℤ).tdiv 32 = (b / 32 : ℕ) := by
    rw [Int.tdiv_eq_ediv_of_nonneg (Int.natCast_nonneg b)]
    rfl
  have hmod : ((b : ℤ) % 32).toNat = b % 32 := by omega
  rw [signedBit, hdiv, hmod, bitAt]

theorem windowBit_eq {start c : ℕ} (h : start + c < 2147483648) :
    windowBit start c = (start + c : ℕ) :=
  Int.bmod_eq_of_le (by omega) (by omega)

theorem tdiv_inside (b : ℤ) : 0 ≤ b.tdiv 32 ∧ b.tdiv 32 < bitmapSize ↔ -32 < b ∧ b < 1048576 := by
  unfold bitmapSize
  rcases le_or_gt 0 b with h | h
  · rw [Int.tdiv_eq_ediv_of_nonneg h]
    omega
  · obtain ⟨n, hn⟩ := Int.eq_ofNat_of_zero_le (show 0 ≤ -b by omega)
    rw [show b = -(n : ℤ) by omega, Int.neg_tdiv, Int.tdiv_eq_ediv_of_nonneg (Int.natCast_nonneg n)]
    omega

/-- The bits of the window lie in the array, or all but the last one, when it is not needed. -/
def WindowInside (m : ℤ → BitVec 32) (size p : ℕ) : Prop :=
  windowStart p + size < 1048576 ∨
    windowStart p + size = 1048576 ∧ ∀ c < size, bitAt m (windowStart p + c) = false

theorem windowBits_inside {start k : ℕ} (h1 : 1 ≤ start) (h2 : start ≤ 2181038080) (hk : 0 < k) :
    (∀ c < k, -32 < windowBit start c ∧ windowBit start c < 1048576) ↔ start + k ≤ 1048576 := by
  constructor
  · intro h
    by_contra hlt
    -- the first bit that is not in the array
    rcases le_or_gt start 1048576 with hs | hs
    · have hbit := h (1048576 - start) (by omega)
      rw [windowBit_eq (by omega)] at hbit
      omega
    · have hbit := h 0 hk
      have hmod : windowBit start 0 % (4294967296 : ℕ) = (start + 0 : ℕ) % (4294967296 : ℕ) :=
        Int.bmod_emod
      omega
  · intro h c hc
    rw [windowBit_eq (by omega)]
    omega

theorem windowReads_inside {p : ℕ} (hp : p < 33554432) (hsize : 1 ≤ size) :
    (∀ k ∈ windowReads m size p, 0 ≤ k ∧ k < bitmapSize) ↔ WindowInside m size p := by
  have hpow : 2 ^ (p % 32) ≤ 2 ^ 31 := Nat.pow_le_pow_right (by decide) (by omega)
  have hpos : 0 < 2 ^ (p % 32) := Nat.pow_pos (by decide)
  have hstart : 1 ≤ windowStart p ∧ windowStart p ≤ 2181038080 := by
    unfold windowStart
    omega
  have htest : ∀ c < size, windowStart p + size ≤ 1048576 →
      mmapTest m (windowBit (windowStart p) c) = bitAt m (windowStart p + c) := fun c hc hle => by
    rw [windowBit_eq (by omega), mmapTest_signedBit, signedBit_natCast]
  have hcount : 0 + (size + 1) = size + 1 := Nat.zero_add _
  obtain ⟨k, hk, hlast⟩ := @windowLoop_reads m size (windowStart p) _ 0 0 hcount le_rfl (by omega)
  have hinside : (∀ i ∈ windowReads m size p, 0 ≤ i ∧ i < bitmapSize) ↔
      ∀ c < k, -32 < windowBit (windowStart p) c ∧ windowBit (windowStart p) c < 1048576 := by
    rw [windowReads, hk, List.forall_mem_map]
    refine forall_congr' fun c => ?_
    rw [List.mem_range'_1, tdiv_inside, Nat.zero_add]
    exact imp_congr_left (and_iff_right (Nat.zero_le c))
  rw [hinside, windowBits_inside hstart.1 hstart.2 (by omega), WindowInside]
  rcases hlast with ⟨rfl, hnot⟩ | ⟨hk1, -, hclear⟩
  · constructor
    · exact fun h => Or.inl (by omega)
    · rintro (h | ⟨h, hclear⟩)
      · omega
      · -- then the last bit is not tested
        refine absurd ⟨rfl, fun c _ hc => ?_⟩ hnot
        rw [htest c hc h.le]
        exact hclear c hc
  · constructor
    · intro h
      rcases Nat.lt_or_ge (windowStart p + size) 1048576 with hlt | hge
      · exact Or.inl hlt
      · refine Or.inr ⟨by omega, fun c hc => ?_⟩
        rw [← htest c hc (by omega)]
        exact hclear c (Nat.zero_le c) hc
    · rintro (h | ⟨h, -⟩) <;> omega

end Reads

end Unos.Pmm
