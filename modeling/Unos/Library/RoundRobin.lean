import Mathlib.Data.List.Count
import Mathlib.Data.List.Nodup
import Mathlib.Tactic.Common

namespace Unos.RoundRobin

variable {α : Type*}

/-- What is observed of a queue. -/
inductive Mark (α : Type*)
  | dispatched (a : α)
  | created (a : α)
  | removed (a : α)
  deriving DecidableEq

/-- The entries in the order of service; `known` are all that were ever in the queue. -/
structure Wheel (α : Type*) where
  queue : List α
  known : List α

/-- One change of the queue and what is observed of it. -/
inductive Turn : Wheel α → List (Mark α) → Wheel α → Prop
  | rotate (a : α) (q known : List α) :
    Turn ⟨a :: q, known⟩ [.dispatched a] ⟨q ++ [a], known⟩
  | leave (a c : α) (q known : List α) :
    Turn ⟨a :: (q ++ [c]), known⟩ [.removed c, .dispatched a] ⟨q ++ [a], known⟩
  | join (r : α) (x y known : List α) : r ∉ known →
    Turn ⟨x ++ y, known⟩ [.created r] ⟨x ++ r :: y, r :: known⟩

/-- A sequence of changes with everything that is observed of them. -/
inductive Turns : Wheel α → List (Mark α) → Wheel α → Prop
  | refl (R : Wheel α) : Turns R [] R
  | tail {R S T : Wheel α} {ms m : List (Mark α)} : Turns R ms S → Turn S m T → Turns R (ms ++ m) T

structure Wheel.Valid (R : Wheel α) : Prop where
  nodup : R.queue.Nodup
  known : ∀ a ∈ R.queue, a ∈ R.known

variable {R S T : Wheel α} {m ms : List (Mark α)} {a c p : α}

theorem Turn.valid (h : Turn R m S) (hR : R.Valid) : S.Valid := by
  obtain ⟨hnodup, hknown⟩ := hR
  cases h with
  | rotate a q known =>
    refine ⟨?_, fun b hb => hknown b (by simpa [or_comm] using hb)⟩
    rw [← List.concat_eq_append, List.nodup_concat]
    exact List.nodup_cons.mp hnodup
  | leave a c q known =>
    obtain ⟨ha, hq⟩ := List.nodup_cons.mp hnodup
    rw [List.mem_append, not_or] at ha
    refine ⟨?_, fun b hb => hknown b ?_⟩
    · rw [← List.concat_eq_append, List.nodup_concat]
      exact ⟨ha.1, (List.nodup_append.mp hq).1⟩
    · simp only [List.mem_append, List.mem_cons, List.not_mem_nil, or_false] at hb ⊢
      tauto
  | join r x y known hr =>
    have hrq : r ∉ x ++ y := fun hmem => hr (hknown r hmem)
    refine ⟨List.nodup_middle.mpr (List.nodup_cons.mpr ⟨hrq, hnodup⟩), fun b hb => ?_⟩
    rw [List.mem_append, List.mem_cons] at hb
    rw [List.mem_cons]
    rcases hb with hb | hb | hb
    · exact .inr (hknown b (List.mem_append_left y hb))
    · exact .inl hb
    · exact .inr (hknown b (List.mem_append_right x hb))

theorem Turns.valid (h : Turns R ms S) (hR : R.Valid) : S.Valid := by
  induction h with
  | refl => exact hR
  | tail _ hturn ih => exact hturn.valid ih

theorem Turns.trans {ls : List (Mark α)} (h : Turns R ms S) (h' : Turns S ls T) :
    Turns R (ms ++ ls) T := by
  induction h' with
  | refl => rwa [List.append_nil]
  | tail _ hturn ih =>
    rw [← List.append_assoc]
    exact ih.tail hturn

/-- An entry stays unless it is removed. -/
theorem Turn.stays (h : Turn R m S) (ha : a ∈ R.queue) (hm : .removed a ∉ m) : a ∈ S.queue := by
  cases h with
  | rotate b q known => simpa [or_comm] using ha
  | leave b c q known =>
    have hac : a ≠ c := fun hac => hm (hac ▸ List.mem_cons_self)
    simpa [hac, or_comm] using ha
  | join r x y known hr =>
    rw [List.mem_append] at ha
    rw [List.mem_append, List.mem_cons]
    exact ha.imp_right .inr

theorem Turns.stays (h : Turns R ms S) (ha : a ∈ R.queue) (hm : .removed a ∉ ms) :
    a ∈ S.queue := by
  induction h with
  | refl => exact ha
  | tail _ hturn ih =>
    rw [List.mem_append, not_or] at hm
    exact hturn.stays (ih hm.1) hm.2

theorem Turn.known_mono (h : Turn R m S) (ha : a ∈ R.known) : a ∈ S.known := by
  cases h with
  | rotate => exact ha
  | leave => exact ha
  | join r => exact List.mem_cons_of_mem r ha

theorem Turns.known_mono (h : Turns R ms S) (ha : a ∈ R.known) : a ∈ S.known := by
  induction h with
  | refl => exact ha
  | tail _ hturn ih => exact hturn.known_mono ih

theorem Turn.dispatched_mem (h : Turn R m S) (ha : .dispatched a ∈ m) : a ∈ R.queue := by
  cases h with
  | rotate b q known =>
    obtain rfl : a = b := by simpa using ha
    exact List.mem_cons_self
  | leave b c q known =>
    obtain rfl : a = b := by simpa using ha
    exact List.mem_cons_self
  | join r x y known hr => exact absurd ha (by simp)

theorem Turns.dispatched_known (h : Turns R ms S) (hR : R.Valid) (ha : .dispatched a ∈ ms) :
    a ∈ S.known := by
  induction h with
  | refl => exact absurd ha List.not_mem_nil
  | tail hturns hturn ih =>
    rcases List.mem_append.mp ha with ha | ha
    · exact hturn.known_mono (ih ha)
    · exact hturn.known_mono ((hturns.valid hR).known a (hturn.dispatched_mem ha))

theorem Turns.created_fresh (h : Turns R ms S) (ha : .created a ∈ ms) : a ∉ R.known := by
  induction h with
  | refl => exact absurd ha List.not_mem_nil
  | tail hturns hturn ih =>
    rcases List.mem_append.mp ha with ha | ha
    · exact ih ha
    · cases hturn with
      | rotate => simp at ha
      | leave => simp at ha
      | join r x y known hr =>
        obtain rfl : a = r := by simpa using ha
        exact fun hknown => hr (hturns.known_mono hknown)

/-- What is out of the queue stays out. -/
theorem Turn.gone (h : Turn R m S) (ha : a ∈ R.known) (hq : a ∉ R.queue) : a ∉ S.queue := by
  cases h with
  | rotate b q known => simpa [or_comm] using hq
  | leave b c q known =>
    simp only [List.mem_cons, List.mem_append, List.not_mem_nil, or_false, not_or] at hq ⊢
    exact ⟨hq.2.1, hq.1⟩
  | join r x y known hr =>
    have har : a ≠ r := fun har => hr (har ▸ ha)
    simpa [har] using hq

theorem Turns.mem_of_mem (h : Turns R ms S) (ha : a ∈ R.known) (hq : a ∈ S.queue) :
    a ∈ R.queue := by
  induction h with
  | refl => exact hq
  | tail hturns hturn ih =>
    by_contra hnot
    have hmid := fun hmem => hnot (ih hmem)
    exact hturn.gone (hturns.known_mono ha) hmid hq

theorem Turn.removed_gone (h : Turn R m S) (hR : R.Valid) (hc : .removed c ∈ m) :
    c ∈ S.known ∧ c ∉ S.queue := by
  cases h with
  | rotate => simp at hc
  | leave a b q known =>
    obtain rfl : c = b := by simpa using hc
    obtain ⟨ha, hqc⟩ := List.nodup_cons.mp hR.nodup
    have hcq : c ∉ q := (List.nodup_cons.mp (List.nodup_append_comm.mp hqc)).1
    have hca : c ≠ a := fun hca => ha (by simp [hca])
    refine ⟨hR.known c (by simp), ?_⟩
    rw [List.mem_append, List.mem_singleton, not_or]
    exact ⟨hcq, hca⟩
  | join => simp at hc

theorem Turns.removed_gone (h : Turns R ms S) (hR : R.Valid) (hc : .removed c ∈ ms) :
    c ∈ S.known ∧ c ∉ S.queue := by
  induction h with
  | refl => exact absurd hc List.not_mem_nil
  | tail hturns hturn ih =>
    rcases List.mem_append.mp hc with hc | hc
    · obtain ⟨hknown, hq⟩ := ih hc
      exact ⟨hturn.known_mono hknown, hturn.gone hknown hq⟩
    · exact hturn.removed_gone (hturns.valid hR) hc

theorem Turns.pairwise (h : Turns R ms S) (hR : R.Valid) :
    ms.Pairwise fun m n => ∀ c, m = .removed c → n ≠ .dispatched c := by
  induction h with
  | refl => exact List.Pairwise.nil
  | tail hturns hturn ih =>
    refine List.pairwise_append.mpr ⟨ih, ?_, fun m hm n hn c hmc hnc => ?_⟩
    · cases hturn with
      | rotate => exact List.pairwise_singleton _ _
      | leave a c q known =>
        refine List.pairwise_pair.mpr fun b hb hab => ?_
        have hnodup := (hturns.valid hR).nodup
        cases hb
        cases hab
        simp at hnodup
      | join => exact List.pairwise_singleton _ _
    · subst hmc hnc
      exact (hturns.removed_gone hR hm).2 (hturn.dispatched_mem hn)

theorem Turns.queue_concat (h : Turns R (ms ++ [.dispatched p]) S) : ∃ q, S.queue = q ++ [p] := by
  generalize hall : ms ++ [Mark.dispatched p] = all at h
  cases h with
  | refl => simp at hall
  | @tail _ _ ls _ _ hturn =>
    cases hturn with
    | rotate a q known =>
      obtain ⟨-, hpa⟩ := List.append_inj' hall rfl
      obtain rfl : p = a := by simpa using hpa
      exact ⟨q, rfl⟩
    | leave a c q known =>
      have hlast : ms ++ [Mark.dispatched p] = (ls ++ [.removed c]) ++ [.dispatched a] := by
        rw [hall, List.append_assoc]
        rfl
      obtain ⟨-, hpa⟩ := List.append_inj' hlast rfl
      obtain rfl : p = a := by simpa using hpa
      exact ⟨q, rfl⟩
    | join => simp at hall

section Interval

variable [DecidableEq α]

/-- The marks `ms` since `p` was served: the entries before `p` are waiting, those behind it
were served or came in. -/
def Since (p : α) (ms : List (Mark α)) (queue : List α) : Prop :=
  ∃ waiting done, queue = waiting ++ p :: done ∧
    (∀ a ∈ waiting, .dispatched a ∉ ms) ∧
    (∀ a ∈ done, ms.count (.dispatched a) = 1 ∨ .created a ∈ ms) ∧
    ∀ a, ms.count (.dispatched a) ≤ 1

theorem Since.serve {w d d' : List α} (hm : ∀ b, m.count (.dispatched b) = if b = a then 1 else 0)
    (hnodup : (a :: (w ++ p :: d)).Nodup) (hd : ∀ b ∈ d', b ∈ d)
    (hwait : ∀ b ∈ a :: w, .dispatched b ∉ ms)
    (hdone : ∀ b ∈ d, ms.count (.dispatched b) = 1 ∨ .created b ∈ ms)
    (hle : ∀ b, ms.count (.dispatched b) ≤ 1) : Since p (ms ++ m) (w ++ p :: (d' ++ [a])) := by
  have ha := (List.nodup_cons.mp hnodup).1
  have hzero : ms.count (.dispatched a) = 0 :=
    List.count_eq_zero.mpr (hwait a List.mem_cons_self)
  refine ⟨w, d' ++ [a], rfl, fun b hb hbm => ?_, fun b hb => ?_, fun b => ?_⟩
  · have hba : b ≠ a := fun hba => ha (hba ▸ List.mem_append_left _ hb)
    have hcount := hm b
    rw [if_neg hba, List.count_eq_zero] at hcount
    rcases List.mem_append.mp hbm with hbm | hbm
    · exact hwait b (List.mem_cons_of_mem a hb) hbm
    · exact hcount hbm
  · rw [List.count_append, List.mem_append, hm b]
    rcases List.mem_append.mp hb with hb | hb
    · have hba : b ≠ a := fun hba =>
        ha (hba ▸ List.mem_append_right w (List.mem_cons_of_mem p (hd b hb)))
      rw [if_neg hba]
      exact (hdone b (hd b hb)).imp_right .inl
    · rw [List.mem_singleton.mp hb, hzero, if_pos rfl]
      exact .inl rfl
  · rw [List.count_append, hm b]
    by_cases hba : b = a
    · rw [if_pos hba, hba]
      omega
    · rw [if_neg hba]
      exact hle b

/-- The entry that comes in waits, or is one of those behind `p`. -/
theorem Since.join {x y : List α} (hr : .dispatched r ∉ ms) (hsince : Since p ms (x ++ y)) :
    Since p (ms ++ [.created r]) (x ++ r :: y) := by
  obtain ⟨w, d, hq, hwait, hdone, hle⟩ := hsince
  have hcount : ∀ a, (ms ++ [Mark.created r]).count (.dispatched a) = ms.count (.dispatched a) := by
    intro a
    simp [List.count_append]
  have hold : ∀ a ∈ d, (ms ++ [Mark.created r]).count (.dispatched a) = 1 ∨
      Mark.created a ∈ ms ++ [Mark.created r] := by
    intro a ha
    rw [hcount]
    exact (hdone a ha).imp_right (List.mem_append_left _)
  have hmem : ∀ a, Mark.dispatched a ∉ ms → Mark.dispatched a ∉ ms ++ [Mark.created r] := by
    intro a ha
    simpa using ha
  have hle' : ∀ a, (ms ++ [Mark.created r]).count (.dispatched a) ≤ 1 := fun a =>
    (hcount a).symm ▸ hle a
  rcases List.append_eq_append_iff.mp hq with ⟨w', hw, hy⟩ | ⟨d', hx, hd⟩
  · -- before `p`: the new entry waits, too
    refine ⟨x ++ r :: w', d, ?_, ?_, hold, hle'⟩
    · show x ++ r :: y = _
      rw [hy, List.append_assoc, List.cons_append]
    · intro a ha
      rw [List.mem_append, List.mem_cons] at ha
      apply hmem
      rcases ha with ha | rfl | ha
      · exact hwait a (hw ▸ List.mem_append_left w' ha)
      · exact hr
      · exact hwait a (hw ▸ List.mem_append_right x ha)
  · cases d' with
    | nil =>
      -- right before `p`
      refine ⟨w ++ [r], d, ?_, ?_, hold, hle'⟩
      · show x ++ r :: y = _
        rw [hx, hd]
        simp
      · intro a ha
        apply hmem
        rcases List.mem_append.mp ha with ha | ha
        · exact hwait a ha
        · rw [List.mem_singleton.mp ha]
          exact hr
    | cons e d' =>
      obtain ⟨rfl, rfl⟩ := List.cons.inj hd
      refine ⟨w, d' ++ r :: y, ?_, fun a ha => hmem a (hwait a ha), ?_, hle'⟩
      · show x ++ r :: y = _
        rw [hx, List.append_assoc, List.cons_append]
      · intro a ha
        rw [List.mem_append, List.mem_cons] at ha
        rcases ha with ha | rfl | ha
        · exact hold a (List.mem_append_left y ha)
        · exact .inr (List.mem_append_right ms List.mem_cons_self)
        · exact hold a (List.mem_append_right d' ha)

theorem count_dispatched (a b : α) :
    [Mark.dispatched a].count (.dispatched b) = if b = a then 1 else 0 := by
  by_cases hba : b = a
  · rw [hba, if_pos rfl, List.count_singleton_self]
  · rw [if_neg hba, List.count_eq_zero]
    simpa using hba

theorem Turn.since (h : Turn R m S) (hR : R.Valid) (hms : ∀ a, .dispatched a ∈ ms → a ∈ R.known)
    (hp : .dispatched p ∉ m) (hpS : p ∈ S.queue) (hsince : Since p ms R.queue) :
    Since p (ms ++ m) S.queue := by
  have hnodup := hR.nodup
  cases h with
  | rotate a q known =>
    obtain ⟨w, d, hq, hwait, hdone, hle⟩ := hsince
    cases w with
    | nil =>
      obtain ⟨rfl, rfl⟩ := List.cons.inj hq
      exact absurd List.mem_cons_self hp
    | cons b w =>
      obtain ⟨rfl, rfl⟩ := List.cons.inj hq
      have hserve := Since.serve (count_dispatched a) hnodup (fun _ hb => hb) hwait hdone hle
      simpa using hserve
  | leave a c q known =>
    obtain ⟨w, d, hq, hwait, hdone, hle⟩ := hsince
    cases w with
    | nil =>
      obtain ⟨rfl, -⟩ := List.cons.inj hq
      exact absurd (List.mem_cons_of_mem _ List.mem_cons_self) hp
    | cons b w =>
      obtain ⟨rfl, hrest⟩ := List.cons.inj hq
      rcases List.eq_nil_or_concat' d with rfl | ⟨d', e, rfl⟩
      · -- `p` itself would leave
        obtain ⟨-, hcp⟩ : q = w ∧ [c] = [p] := List.append_inj' hrest rfl
        obtain rfl : c = p := by simpa using hcp
        have hgone := (Turn.leave a c q known).removed_gone hR List.mem_cons_self
        exact absurd hpS hgone.2
      · have hqe : q ++ [c] = (w ++ p :: d') ++ [e] := by simpa using hrest
        obtain ⟨rfl, hce⟩ := List.append_inj' hqe rfl
        obtain rfl : c = e := by simpa using hce
        have hm : ∀ b, [Mark.removed c, .dispatched a].count (.dispatched b) =
            if b = a then 1 else 0 := by
          intro b
          rw [List.count_cons_of_ne (by simp)]
          exact count_dispatched a b
        rw [hqe, List.append_assoc, List.cons_append] at hnodup
        have hserve := Since.serve hm hnodup (fun _ hb => List.mem_append_left _ hb) hwait hdone hle
        simpa using hserve
  | join r x y known hr => exact hsince.join fun hdisp => hr (hms r hdisp)

/-- As long as `p` stays and is not served. -/
theorem Turns.since {r : List α} (h : Turns R ms S) (hR : R.Valid) (hq : R.queue = r ++ [p])
    (hp : .dispatched p ∉ ms) (hpS : p ∈ S.queue) : Since p ms S.queue := by
  induction h with
  | refl => exact ⟨r, [], hq, by simp, by simp, by simp⟩
  | tail hturns hturn ih =>
    rw [List.mem_append, not_or] at hp
    have hpR : p ∈ R.known := hR.known p (by simp [hq])
    have hmid := (Turns.refl _).tail hturn |>.mem_of_mem (hturns.known_mono hpR) hpS
    exact hturn.since (hturns.valid hR) (fun a ha => hturns.dispatched_known hR ha) hp.2 hpS
      (ih hp.1 hmid)

theorem Turns.served_once {r q : List α} (h : Turns R ms S) (hR : R.Valid)
    (hq : R.queue = r ++ [p]) (hp : .dispatched p ∉ ms) (hS : S.queue = p :: q) :
    (∀ a ∈ r, .removed a ∉ ms → ms.count (.dispatched a) = 1) ∧
      ∀ a, ms.count (.dispatched a) ≤ 1 := by
  have hpS : p ∈ S.queue := hS ▸ List.mem_cons_self
  obtain ⟨w, d, hwd, hwait, hdone, hle⟩ := h.since hR hq hp hpS
  refine ⟨fun a ha hstay => ?_, hle⟩
  have hnodup := (h.valid hR).nodup
  have hw : w = [] := by
    cases w with
    | nil => rfl
    | cons b w =>
      rw [hwd] at hS hnodup
      obtain ⟨rfl, -⟩ := List.cons.inj hS
      exact absurd (List.mem_append_right w List.mem_cons_self) (List.nodup_cons.mp hnodup).1
  have haR : a ∈ R.queue := hq ▸ List.mem_append_left [p] ha
  have hap : a ≠ p := by
    have hdup := hR.nodup
    rw [hq, ← List.concat_eq_append, List.nodup_concat] at hdup
    exact fun hap => hdup.1 (hap ▸ ha)
  have had : a ∈ d := by
    have haS := h.stays haR hstay
    rw [hwd, hw, List.nil_append] at haS
    exact (List.mem_cons.mp haS).resolve_left hap
  -- an entry from the start was not created on the way
  exact (hdone a had).resolve_right fun hcreated => h.created_fresh hcreated (hR.known a haR)

/-- Between two consecutive services of `p` every other entry that stays is served once, and
one that comes in at most once. -/
theorem Turns.fair {r : List α} (h : Turns R (ms ++ [.dispatched p]) S) (hR : R.Valid)
    (hq : R.queue = r ++ [p]) (hp : .dispatched p ∉ ms) :
    (∀ a ∈ r, .removed a ∉ ms → ms.count (.dispatched a) = 1) ∧
      ∀ a, ms.count (.dispatched a) ≤ 1 := by
  generalize hall : ms ++ [Mark.dispatched p] = all at h
  cases h with
  | refl => simp at hall
  | @tail _ _ ls _ hturns hturn =>
    cases hturn with
    | rotate a q known =>
      obtain ⟨rfl, hpa⟩ := List.append_inj' hall rfl
      obtain rfl : p = a := by simpa using hpa
      exact hturns.served_once hR hq hp rfl
    | leave a c q known =>
      have hlast : ms ++ [Mark.dispatched p] = (ls ++ [.removed c]) ++ [.dispatched a] := by
        rw [hall, List.append_assoc]
        rfl
      obtain ⟨rfl, hpa⟩ := List.append_inj' hlast rfl
      obtain rfl : p = a := by simpa using hpa
      rw [List.mem_append, not_or] at hp
      obtain ⟨honce, hle⟩ := hturns.served_once hR hq hp.1 rfl
      -- the removal right before the service counts for nothing
      have hcount : ∀ b, (ls ++ [Mark.removed c]).count (.dispatched b) =
          ls.count (.dispatched b) := fun b => by
        rw [List.count_append, List.count_eq_zero.mpr (by simp : .dispatched b ∉ [Mark.removed c]),
          Nat.add_zero]
      refine ⟨fun b hb hstay => ?_, fun b => (hcount b).symm ▸ hle b⟩
      rw [List.mem_append, not_or] at hstay
      rw [hcount]
      exact honce b hb hstay.1
    | join => simp at hall

end Interval

end Unos.RoundRobin
