import Unos.Library.Loops
import Unos.Timer.Dispatch

namespace Unos.Timer

open Unos.Loops Unos.Runs Unos.Words

/-- The ticks that pass in `sleep` for a duration of `duration` ticks; `jiffies` is read once after
each tick. -/
def sleep (fuel jiffies duration : ℕ) : Option ℕ :=
  let finish := wrap32 (jiffies + duration)
  (loop (fun v : ℕ × ℕ => v.2 < finish) (fun v => (v.1 + 1, wrap32 (v.2 + 1))) fuel
    (0, jiffies)).map Prod.fst

def SleepExact (jiffies duration : ℕ) : Prop := ∃ fuel, sleep fuel jiffies duration = some duration

/-- Of `n` times, two successive ones at which `P` holds are `d` apart. -/
def Spaced (P : ℕ → Prop) (d n : ℕ) : Prop :=
  ∀ i j, i < j → j < n → P i → P j → (∀ k, i < k → k < j → ¬ P k) → j = i + d

/-- In `n` ticks from `jiffies` on the counter does not end between two ticks at which a callback of
offset `d` is due, or its range is a multiple of the offset. -/
def WrapFits (jiffies d n : ℕ) : Prop :=
  4294967296 % d = 0 ∨ jiffies + n < 4294967296 ∨
    4294967296 / d * d ≤ jiffies ∧ jiffies + n < 8589934592

instance (jiffies d n : ℕ) : Decidable (WrapFits jiffies d n) :=
  inferInstanceAs (Decidable (_ ∨ _ ∨ _ ∧ _))

section Callbacks

variable {κ : Type*}

def Invokes (s : State κ) (a : ℕ) : Prop :=
  ∃ called t, timerHandler s = some (called, t) ∧ a ∈ called

def ticks : State κ → List (Event κ) → List (State κ)
  | _, [] => []
  | s, .register callback offset node :: es =>
    match timerStep s (.register callback offset node) with
    | some t => ticks t es
    | none => []
  | s, .tick :: es =>
    match timerStep s .tick with
    | some t => s :: ticks t es
    | none => []

def EveryOffset (s : State κ) (a : ℕ) (es : List (Event κ)) : Prop :=
  ∀ i j u v, i < j → (ticks s es)[i]? = some u → (ticks s es)[j]? = some v →
    Invokes u a → Invokes v a →
    (∀ k w, i < k → k < j → (ticks s es)[k]? = some w → ¬ Invokes w a) → j = i + (s.nodes a).offset

/-- The ticks of the run that look at the node. -/
def looks (s : State κ) (a : ℕ) (es : List (Event κ)) : ℕ :=
  (ticks s es).countP fun u => decide (a ∈ visited u.live)

end Callbacks

variable {jiffies duration d n : ℕ}

theorem sleep_turns (n : ℕ) (hj : jiffies < 4294967296) :
    (fun v : ℕ × ℕ => (v.1 + 1, wrap32 (v.2 + 1)))^[n] (0, jiffies) =
    (n, wrap32 (jiffies + n)) := by
  induction n with
  | zero => rw [Function.iterate_zero_apply, Nat.add_zero, wrap32_of_lt hj]
  | succ n ih =>
    rw [Function.iterate_succ_apply', ih]
    dsimp only
    rw [wrap32_add_left, Nat.add_assoc]

theorem sleepExact_iff (hj : jiffies < 4294967296) (hd : duration < 4294967296) :
    SleepExact jiffies duration ↔ duration = 0 ∨ jiffies + duration < 4294967296 := by
  have hloop : SleepExact jiffies duration ↔
      (∀ k < duration, wrap32 (jiffies + k) < wrap32 (jiffies + duration)) := by
    have hreturns : SleepExact jiffies duration ↔ ∃ t, (∃ fuel,
        loop (fun v : ℕ × ℕ => v.2 < wrap32 (jiffies + duration))
          (fun v => (v.1 + 1, wrap32 (v.2 + 1))) fuel (0, jiffies) = some t) ∧ t.1 = duration := by
      constructor
      · rintro ⟨fuel, hsleep⟩
        obtain ⟨t, ht, hfst⟩ := Option.map_eq_some_iff.mp hsleep
        exact ⟨t, ⟨fuel, ht⟩, hfst⟩
      · rintro ⟨t, ⟨fuel, ht⟩, hfst⟩
        exact ⟨fuel, Option.map_eq_some_iff.mpr ⟨t, ht, hfst⟩⟩
    rw [hreturns]
    constructor
    · rintro ⟨t, hloop, hfst⟩
      obtain ⟨n, hturns, -, rfl⟩ := loop_eq_some_iff.mp hloop
      rw [sleep_turns n hj] at hfst
      obtain rfl : n = duration := hfst
      intro k hk
      have hturn := hturns k hk
      rwa [sleep_turns k hj] at hturn
    · intro hall
      refine ⟨_, loop_eq_some_iff.mpr ⟨duration, fun k hk => ?_, ?_, rfl⟩, ?_⟩
      · rw [sleep_turns k hj]
        exact hall k hk
      · rw [sleep_turns duration hj]
        exact Nat.lt_irrefl _
      · rw [sleep_turns duration hj]
  rw [hloop]
  constructor
  · intro hall
    by_contra hneither
    rw [not_or] at hneither
    have hfirst := hall 0 (Nat.pos_of_ne_zero hneither.1)
    unfold wrap32 at hfirst
    omega
  · rintro hcases k hk
    unfold wrap32
    omega

theorem spaced_multiples (c d n : ℕ) : Spaced (fun k => (c + k) % d = 0) d n := by
  intro i j hij hj hi hjd hnone
  have hdi := Nat.dvd_of_mod_eq_zero hi
  have hdj := Nat.dvd_of_mod_eq_zero hjd
  have hle : d ≤ j - i := by
    have hdiff : d ∣ (c + j) - (c + i) := Nat.dvd_sub hdj hdi
    have heq : (c + j) - (c + i) = j - i := by omega
    rw [heq] at hdiff
    exact Nat.le_of_dvd (by omega) hdiff
  by_contra hne
  have hpos : 0 < d := by
    by_contra hzero
    obtain rfl : d = 0 := by omega
    rw [Nat.mod_zero] at hi hjd
    omega
  refine hnone (i + d) (by omega) (by omega) ?_
  have hmod : (c + (i + d)) % d = (c + i) % d := by
    rw [← Nat.add_assoc, Nat.add_mod_right]
  dsimp only at hi ⊢
  rw [hmod, hi]

theorem Spaced.congr {P Q : ℕ → Prop} (h : Spaced Q d n) (hPQ : ∀ k < n, P k ↔ Q k) :
    Spaced P d n := by
  intro i j hij hj hi hjd hnone
  refine h i j hij hj ((hPQ i (hij.trans hj)).mp hi) ((hPQ j hj).mp hjd) fun k hik hkj hk => ?_
  exact hnone k hik hkj ((hPQ k (hkj.trans hj)).mpr hk)

theorem spaced_from (c d n : ℕ) : Spaced (fun k => c ≤ k ∧ (k - c) % d = 0) d n := by
  rintro i j hij hj ⟨hci, hi⟩ ⟨hcj, hjd⟩ hnone
  have hspaced := spaced_multiples 0 d (n - c) (i - c) (j - c) (by omega) (by omega)
    (by simpa using hi) (by simpa using hjd) ?_
  · omega
  · intro k hik hkj hk
    refine hnone (c + k) (by omega) (by omega) ⟨Nat.le_add_right c k, ?_⟩
    rw [Nat.add_sub_cancel_left]
    simpa using hk

theorem not_spaced_wrap (hd : 0 < d) (hrest : 4294967296 % d ≠ 0) {base : ℕ}
    (hbase : base = 0 ∨ base = 4294967296) (hfirst : jiffies < base + 4294967296 / d * d)
    (hlast : base + 4294967296 ≤ jiffies + n) :
    ¬ Spaced (fun k => wrap32 (jiffies + k + 1) % d = 0) d n := by
  have hsum := Nat.div_add_mod' 4294967296 d
  have hlt := Nat.mod_lt 4294967296 hd
  generalize hmultiple : 4294967296 / d * d = l at hfirst hsum
  generalize hmod : 4294967296 % d = r at hrest hsum hlt
  have hl : l % d = 0 := by
    rw [← hmultiple, Nat.mul_mod_left]
  have hbetween : ∀ x, x < r → wrap32 (base + l + x) = l + x := by
    intro x hx
    unfold wrap32
    omega
  intro hspaced
  have hgap := hspaced (base + l - jiffies - 1) (base + 4294967296 - jiffies - 1)
    (by omega) (by omega)
    ?_ ?_ ?_
  · omega
  · have hat := hbetween 0 (by omega)
    have harg : jiffies + (base + l - jiffies - 1) + 1 = base + l + 0 := by omega
    dsimp only
    rw [harg, hat, Nat.add_zero, hl]
  · have harg : jiffies + (base + 4294967296 - jiffies - 1) + 1 = base + 4294967296 := by omega
    have hzero : wrap32 (base + 4294967296) = 0 := by
      unfold wrap32
      omega
    dsimp only
    rw [harg, hzero, Nat.zero_mod]
  · intro k hik hkj hk
    have hat := hbetween (jiffies + k + 1 - (base + l)) (by omega)
    have harg : base + l + (jiffies + k + 1 - (base + l)) = jiffies + k + 1 := by omega
    rw [harg] at hat
    rw [hat, Nat.add_mod, hl, Nat.zero_add, Nat.mod_mod, Nat.mod_eq_of_lt (by omega)] at hk
    omega

theorem spaced_iff (hj : jiffies < 4294967296) (hd : 0 < d) :
    Spaced (fun k => wrap32 (jiffies + k + 1) % d = 0) d n ↔ WrapFits jiffies d n := by
  constructor
  · intro hspaced
    by_contra hfits
    obtain ⟨hrest, hend⟩ := not_or.mp hfits
    obtain ⟨hend, hagain⟩ := not_or.mp hend
    by_cases hfirst : jiffies < 4294967296 / d * d
    · exact not_spaced_wrap hd hrest (Or.inl rfl) (by omega) (by omega) hspaced
    · exact not_spaced_wrap hd hrest (Or.inr rfl) (by omega) (by omega) hspaced
  · rintro (hdvd | hshort | ⟨hafter, honce⟩)
    · refine (spaced_multiples (jiffies + 1) d n).congr fun k _ => ?_
      have hmod : wrap32 (jiffies + k + 1) % d = (jiffies + 1 + k) % d := by
        unfold wrap32
        rw [Nat.mod_mod_of_dvd _ (Nat.dvd_of_mod_eq_zero hdvd), Nat.add_right_comm]
      rw [hmod]
    · refine (spaced_multiples (jiffies + 1) d n).congr fun k hk => ?_
      rw [wrap32_of_lt (by omega), Nat.add_right_comm]
    · -- no multiple is left before the end
      refine (spaced_from (4294967295 - jiffies) d n).congr fun k hk => ?_
      have hsum := Nat.div_add_mod' 4294967296 d
      by_cases hbefore : jiffies + k + 1 < 4294967296
      · have hmultiple : 4294967296 / d * d % d = 0 := Nat.mul_mod_left _ _
        generalize 4294967296 / d * d = l at hafter hsum hmultiple
        have hlt := Nat.mod_lt 4294967296 hd
        have harg : jiffies + k + 1 = l + (jiffies + k + 1 - l) := by omega
        refine iff_of_false ?_ (by omega)
        rw [wrap32_of_lt hbefore, harg, Nat.add_mod, hmultiple, Nat.zero_add, Nat.mod_mod,
          Nat.mod_eq_of_lt (by omega)]
        omega
      · have hwrap : wrap32 (jiffies + k + 1) = k - (4294967295 - jiffies) := by
          unfold wrap32
          omega
        rw [hwrap]
        exact (and_iff_right (by omega)).symm

section Runs

variable {κ : Type*} {s t u : State κ} {a : ℕ} {es : List (Event κ)}

theorem Inv.invokes_iff (h : Inv s) : Invokes s a ↔ a ∈ visited s.live ∧ Due s a := by
  rw [Invokes, h.timerHandler_eq]
  constructor
  · rintro ⟨called, t, heq, hmem⟩
    cases heq
    have hboth := List.mem_filter.mp hmem
    exact ⟨hboth.1, of_decide_eq_true hboth.2⟩
  · intro hboth
    exact ⟨_, _, rfl, List.mem_filter.mpr ⟨hboth.1, decide_eq_true hboth.2⟩⟩

theorem Inv.visited_step (h : Inv s) {e : Event κ} (hstep : timerStep s e = some t)
    (ha : a ∈ s.live) :
    a ∈ t.live ∧ (t.nodes a).offset = (s.nodes a).offset ∧
    (a ∈ visited t.live → a ∈ visited s.live) := by
  cases e with
  | register callback offset node =>
    rw [timerStep, Option.ite_none_right_eq_some] at hstep
    obtain ⟨⟨-, hfresh, -⟩, ht⟩ := hstep
    rw [← Option.some.inj ht]
    have hne : a ≠ node := fun heq => hfresh (heq ▸ ha)
    refine ⟨List.mem_cons_of_mem node ha, ?_, ?_⟩
    · show (Function.update s.nodes node _ a).offset = _
      rw [Function.update_of_ne hne]
    · intro hvisited
      have hrest : a ∈ s.live.dropLast := (List.mem_cons.mp hvisited).resolve_left hne
      cases hl : s.live with
      | nil =>
        rw [hl] at hrest
        exact absurd hrest List.not_mem_nil
      | cons b rest =>
        rw [hl] at hrest
        cases rest with
        | nil => exact absurd hrest List.not_mem_nil
        | cons c more =>
          rw [List.dropLast_cons_cons] at hrest
          exact hrest
  | tick =>
    rw [timerStep, h.timerHandler_eq] at hstep
    cases hstep
    exact ⟨ha, rfl, id⟩

theorem ticks_register {callback : κ} {offset node : ℕ}
    (hstep : timerStep s (.register callback offset node) = some t) :
    ticks s (.register callback offset node :: es) = ticks t es := by
  rw [ticks, hstep]

theorem ticks_register_none {callback : κ} {offset node : ℕ}
    (hstep : timerStep s (.register callback offset node) = none) :
    ticks s (.register callback offset node :: es) = [] := by
  rw [ticks, hstep]

theorem ticks_tick (hstep : timerStep s .tick = some t) :
    ticks s (.tick :: es) = s :: ticks t es := by
  rw [ticks, hstep]

/-- The list does not depend on the counter. -/
theorem Inv.moved (h : Inv s) (j : ℕ) : Inv { s with jiffies := j } := ⟨h.path, h.nodup, h.ne_zero⟩

theorem Inv.tick_eq (h : Inv s) :
    timerStep s .tick = some { s with jiffies := wrap32 (s.jiffies + 1) } := by
  rw [timerStep, h.timerHandler_eq, Option.map_some]

theorem Inv.looks_eq_zero (h : Inv s) (ha : a ∈ s.live) (hnone : a ∉ visited s.live) :
    looks s a es = 0 := by
  induction es generalizing s with
  | nil => rfl
  | cons e es ih =>
    cases e with
    | register callback offset node =>
      cases hstep : timerStep s (.register callback offset node) with
      | none => rw [looks, ticks_register_none hstep, List.countP_nil]
      | some t =>
        obtain ⟨ha', -, hvisited⟩ := h.visited_step hstep ha
        rw [looks, ticks_register hstep]
        exact ih (h.step hstep) ha' fun hlater => hnone (hvisited hlater)
    | tick =>
      rw [looks, ticks_tick h.tick_eq, List.countP_cons_of_neg (by simpa using hnone)]
      exact ih (h.step h.tick_eq) ha hnone

theorem Inv.ticks_getElem (h : Inv s) (ha : a ∈ s.live) (hj : s.jiffies < 4294967296) {k : ℕ}
    (hk : (ticks s es)[k]? = some u) :
    Inv u ∧ u.jiffies = wrap32 (s.jiffies + k) ∧ (u.nodes a).offset = (s.nodes a).offset ∧
      (a ∈ visited u.live ↔ k < looks s a es) := by
  induction es generalizing s k with
  | nil => exact nomatch hk
  | cons e es ih =>
    cases e with
    | register callback offset node =>
      cases hstep : timerStep s (.register callback offset node) with
      | none =>
        rw [ticks_register_none hstep] at hk
        exact nomatch hk
      | some t =>
        obtain ⟨ha', hoffset, -⟩ := h.visited_step hstep ha
        have hjiffies : t.jiffies = s.jiffies := by
          rw [timerStep, Option.ite_none_right_eq_some] at hstep
          rw [← Option.some.inj hstep.2]
          rfl
        rw [looks]
        rw [ticks_register hstep] at hk ⊢
        have hrest := ih (h.step hstep) ha' (by rw [hjiffies]; exact hj) hk
        rwa [hjiffies, hoffset] at hrest
    | tick =>
      have hlooks : looks s a (.tick :: es) =
          looks { s with jiffies := wrap32 (s.jiffies + 1) } a es +
            if a ∈ visited s.live then 1 else 0 := by
        rw [looks, ticks_tick h.tick_eq, List.countP_cons, looks]
        simp
      rw [ticks_tick h.tick_eq] at hk
      have hzero : a ∉ visited s.live →
          looks { s with jiffies := wrap32 (s.jiffies + 1) } a es = 0 :=
        fun hnone => (h.step h.tick_eq).looks_eq_zero ha hnone
      rw [hlooks]
      cases k with
      | zero =>
        obtain rfl := Option.some.inj hk
        refine ⟨h, (wrap32_of_lt hj).symm, rfl, ?_⟩
        by_cases hvisited : a ∈ visited s.live
        · rw [if_pos hvisited]
          exact iff_of_true hvisited (Nat.zero_lt_succ _)
        · rw [if_neg hvisited, hzero hvisited]
          exact iff_of_false hvisited (Nat.lt_irrefl 0)
      | succ k =>
        obtain ⟨hu, hjiffies, hoffset, hlater⟩ := ih (h.step h.tick_eq) ha (wrap32_lt _) hk
        refine ⟨hu, ?_, hoffset, hlater.trans ?_⟩
        · rw [hjiffies, wrap32_add_left, Nat.add_assoc, Nat.add_comm 1 k]
        · by_cases hvisited : a ∈ visited s.live
          · rw [if_pos hvisited, Nat.succ_lt_succ_iff]
          · rw [if_neg hvisited, hzero hvisited]
            exact iff_of_false (Nat.not_lt_zero _) (Nat.not_lt_zero _)

theorem Inv.ticks_invokes (h : Inv s) (ha : a ∈ s.live) (hj : s.jiffies < 4294967296) {k : ℕ}
    (hk : (ticks s es)[k]? = some u) :
    Invokes u a ↔ k < looks s a es ∧ wrap32 (s.jiffies + k + 1) % (s.nodes a).offset = 0 := by
  obtain ⟨hu, hjiffies, hoffset, hvisited⟩ := h.ticks_getElem ha hj hk
  rw [hu.invokes_iff, hvisited, Due, hjiffies, hoffset, wrap32_add_left]

theorem Inv.everyOffset_iff (h : Inv s) (ha : a ∈ s.live) (hj : s.jiffies < 4294967296)
    (es : List (Event κ)) :
    EveryOffset s a es ↔ Spaced (fun k => wrap32 (s.jiffies + k + 1) % (s.nodes a).offset = 0)
      (s.nodes a).offset (looks s a es) := by
  have hlen : looks s a es ≤ (ticks s es).length := List.countP_le_length
  constructor
  · intro hevery i j hij hjn hi hjd hnone
    obtain ⟨u, hu⟩ : ∃ u, (ticks s es)[i]? = some u := ⟨_, List.getElem?_eq_getElem (by omega)⟩
    obtain ⟨v, hv⟩ : ∃ v, (ticks s es)[j]? = some v := ⟨_, List.getElem?_eq_getElem (by omega)⟩
    refine hevery i j u v hij hu hv ((h.ticks_invokes ha hj hu).mpr ⟨by omega, hi⟩)
      ((h.ticks_invokes ha hj hv).mpr ⟨hjn, hjd⟩) fun k w hik hkj hw hinvokes => ?_
    exact hnone k hik hkj ((h.ticks_invokes ha hj hw).mp hinvokes).2
  · intro hspaced i j u v hij hu hv hiu hjv hnone
    obtain ⟨hjn, hjd⟩ := (h.ticks_invokes ha hj hv).mp hjv
    refine hspaced i j hij hjn ((h.ticks_invokes ha hj hu).mp hiu).2 hjd fun k hik hkj hk => ?_
    obtain ⟨w, hw⟩ : ∃ w, (ticks s es)[k]? = some w := ⟨_, List.getElem?_eq_getElem (by omega)⟩
    exact hnone k w hik hkj hw ((h.ticks_invokes ha hj hw).mpr ⟨by omega, hk⟩)

theorem offset_pos {nodes : ℕ → TimeListNode κ} (hrun : run timerStep (.boot nodes) es = some s)
    (ha : a ∈ s.live) : 0 < (s.nodes a).offset := by
  have hall : ∀ a ∈ s.live, 0 < (s.nodes a).offset := by
    refine run_invariant (I := fun s : State κ => ∀ a ∈ s.live, 0 < (s.nodes a).offset)
      (fun s e t hs hstep => ?_) (fun a ha => absurd ha List.not_mem_nil) hrun
    cases e with
    | register callback offset node =>
      rw [timerStep, Option.ite_none_right_eq_some] at hstep
      obtain ⟨⟨-, -, hpos, -⟩, ht⟩ := hstep
      rw [← Option.some.inj ht]
      intro b hb
      show 0 < (Function.update s.nodes node _ b).offset
      by_cases hnew : b = node
      · rw [hnew, Function.update_self]
        exact hpos
      · rw [Function.update_of_ne hnew]
        exact hs b ((List.mem_cons.mp hb).resolve_left hnew)
    | tick =>
      rw [timerStep, Option.map_eq_some_iff] at hstep
      obtain ⟨r, hr, rfl⟩ := hstep
      rw [timerHandler] at hr
      split_ifs at hr
      · obtain ⟨called, -, rfl⟩ := Option.map_eq_some_iff.mp hr
        exact hs
      · cases hr
        exact hs
  exact hall a ha

end Runs

/-- `sleep` is exact when its end does not wrap, and a callback is invoked at its offset when that
divides the range of the counter, or the counter does not end between two invocations. -/
theorem ticks_wrap_iff {κ : Type*} {nodes : ℕ → TimeListNode κ} {es : List (Event κ)} {s : State κ}
    (hrun : run timerStep (.boot nodes) es = some s) {j : ℕ} (hj : j < 4294967296) :
    (∀ n < 2147483648, SleepExact j n ↔ n = 0 ∨ j + n < 4294967296) ∧
    ∀ a ∈ s.live, ∀ es, EveryOffset { s with jiffies := j } a es ↔
      WrapFits j (s.nodes a).offset (looks { s with jiffies := j } a es) := by
  refine ⟨fun n hn => sleepExact_iff hj (by omega), fun a ha es => ?_⟩
  have hmoved := (Inv.run hrun).moved j
  have hpos : 0 < (s.nodes a).offset := offset_pos hrun ha
  rw [hmoved.everyOffset_iff ha hj]
  exact spaced_iff hj hpos

def periodic (offset : ℕ) : State ℕ :=
  (run timerStep (.boot fun _ => ⟨0, 0, 0, 0⟩) [.register 0 offset 4096]).getD
    (.boot fun _ => ⟨0, 0, 0, 0⟩)

theorem periodic_run (offset : ℕ) (hpos : 0 < offset) (hlt : offset < 2 ^ 32) :
    run timerStep (.boot fun _ => ⟨0, 0, 0, 0⟩) [.register 0 offset 4096] = some
    (periodic offset) := by
  refine run_eq_getD _ ?_
  rw [run_cons, timerStep, if_pos ⟨by decide, List.not_mem_nil, hpos, hlt⟩]
  rfl

/-- Four ticks before the end of the counter, with a callback on every second tick. -/
theorem ticks_wrap_iff_even : SleepExact 4294967292 3 ∧
    EveryOffset { periodic 2 with jiffies := 4294967292 } 4096 (List.replicate 8 .tick) := by
  obtain ⟨hsleep, hevery⟩ := ticks_wrap_iff (periodic_run 2 (by decide) (by decide))
    (j := 4294967292) (by decide)
  exact ⟨(hsleep 3 (by decide)).mpr (Or.inr (by decide)),
    (hevery 4096 (by decide) _).mpr (Or.inl (by decide))⟩

/-- At 4294967294 a sleep of two ticks returns at once, and a callback for every third tick is
invoked on the next tick and on the one after that. -/
theorem ticks_not_exact : ¬ SleepExact 4294967294 2 ∧
    ¬ EveryOffset { periodic 3 with jiffies := 4294967294 } 4096 [.tick, .tick] := by
  constructor
  · rw [sleepExact_iff (by decide) (by decide)]
    decide
  · have hinv := (Inv.run (periodic_run 3 (by decide) (by decide))).moved 4294967294
    rw [hinv.everyOffset_iff (by decide) (by decide), spaced_iff (by decide) (by decide)]
    decide +kernel

end Unos.Timer
