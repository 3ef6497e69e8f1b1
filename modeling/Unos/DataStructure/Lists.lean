import Mathlib.Data.BitVec
import Unos.Library.CommonTails
import Unos.Library.Cycles
import Unos.Library.Links
import Unos.Library.Turns

namespace Unos.DataStructure

open Function Unos.CommonTails Unos.Cycles Unos.Links Unos.Turns

/-- A pointer, 0 being `NULL`. -/
abbrev Ptr := BitVec 64

instance : Finite Ptr := .of_injective BitVec.toFin fun _ _ => BitVec.eq_of_toFin_eq

/-- `detect_cycle`: the first loop, what follows it, and the second loop. An access through `NULL`
is a fault. -/
inductive Detect
  | search (fast slow : Ptr)
  | after (fast : Ptr)
  | walk (fast slow : Ptr)
  deriving DecidableEq, Repr

def detectTurn (next : Ptr → Ptr) (head : Ptr) : Detect → Turn Ptr Detect
  | .search fast slow =>
    if fast ≠ 0 ∧ next fast ≠ 0 then
      if slow = 0 then .fault
      else
        let fast := next (next fast)
        let slow := next slow
        if fast = slow then .goOn (.after fast) else .goOn (.search fast slow)
    else .goOn (.after fast)
  | .after fast => if fast = 0 ∨ next fast = 0 then .stop 0 (.after fast) else .goOn
    (.walk fast head)
  | .walk fast slow =>
    if slow ≠ fast then
      if fast = 0 ∨ slow = 0 then .fault else .goOn (.walk (next fast) (next slow))
    else .stop slow (.walk fast slow)

def DetectCycle (next : Ptr → Ptr) (head p : Ptr) : Prop :=
  Ends (detectTurn next head) (.search head head) p

/-- The links, with `NULL` leading nowhere. -/
def follow (next : Ptr → Ptr) (p : Ptr) : Ptr := if p = 0 then 0 else next p

section Detect

variable {next : Ptr → Ptr} {head p : Ptr} {k n tail : ℕ}

theorem follow_of_ne (h : p ≠ 0) : follow next p = next p := if_neg h

theorem iterate_follow_null (next : Ptr → Ptr) (n : ℕ) : (follow next)^[n] 0 = 0 := by
  have hnull : follow next 0 = 0 := if_pos rfl
  exact iterate_fixed hnull n

theorem null_mem_periodicPts (next : Ptr → Ptr) : 0 ∈ periodicPts (follow next) :=
  mk_mem_periodicPts Nat.zero_lt_one (iterate_follow_null next 1)

theorem iterate_tail_eq_null_iff (h : IsTail (follow next) head tail) :
    (follow next)^[tail] head = 0 ↔ ∃ n, (follow next)^[n] head = 0 := by
  constructor
  · exact fun h0 => ⟨tail, h0⟩
  · rintro ⟨n, h0⟩
    have hle : tail ≤ n := by
      rw [← h n, h0]
      exact null_mem_periodicPts next
    obtain ⟨j, rfl⟩ := Nat.exists_eq_add_of_le hle
    have hperiod := h.period_pos
    -- after enough whole turns the point is `NULL` and has come back to itself
    have hback : (follow next)^[tail] head =
        (follow next)^[tail + period (follow next) head tail * (j + 1)] head :=
      (h.iterate_eq_iff (Nat.mul_pos hperiod (Nat.succ_pos j))).mpr ⟨Nat.le_refl tail,
        Nat.dvd_mul_right _ _⟩
    have hlong : j + 1 ≤ period (follow next) head tail * (j + 1) :=
      Nat.le_mul_of_pos_left _ hperiod
    obtain ⟨i, hi⟩ := Nat.exists_eq_add_of_le
      (show tail + j ≤ tail + period (follow next) head tail * (j + 1) by omega)
    rw [hback, hi, Nat.add_comm, iterate_add_apply, h0, iterate_follow_null]

theorem iterate_ne_null (hn : (follow next)^[n] head ≠ 0) (hk : k ≤ n) :
    (follow next)^[k] head ≠ 0 := by
  intro h0
  obtain ⟨j, rfl⟩ := Nat.exists_eq_add_of_le hk
  rw [Nat.add_comm, iterate_add_apply, h0, iterate_follow_null] at hn
  exact hn rfl

theorem next_iterate (h : (follow next)^[n] head ≠ 0) :
    next ((follow next)^[n] head) = (follow next)^[n + 1] head := by
  rw [iterate_succ_apply', follow_of_ne h]

def searching (next : Ptr → Ptr) (head : Ptr) (k : ℕ) : Detect :=
  .search ((follow next)^[2 * k] head) ((follow next)^[k] head)

theorem detectTurn_searching (hne : (follow next)^[2 * k + 1] head ≠ 0) :
    detectTurn next head (searching next head k) =
    if (follow next)^[2 * (k + 1)] head = (follow next)^[k + 1] head then .goOn
    (.after ((follow next)^[2 * (k + 1)] head))
    else .goOn (searching next head (k + 1)) := by
  have hfast := iterate_ne_null hne (show 2 * k ≤ 2 * k + 1 by omega)
  have hslow := iterate_ne_null hne (show k ≤ 2 * k + 1 by omega)
  have hnext : next ((follow next)^[2 * k] head) = (follow next)^[2 * k + 1] head :=
    next_iterate hfast
  rw [searching, detectTurn, hnext, if_pos ⟨hfast, hne⟩, if_neg hslow, next_iterate hne,
    next_iterate hslow]
  rfl

theorem detectCycle_of_null (h : IsTail (follow next) head tail)
    (h0 : (follow next)^[tail] head = 0) :
    DetectCycle next head 0 := by
  have hbefore : ∀ k < tail, (follow next)^[k] head ≠ 0 := fun k hk hnull => by
    have hle : tail ≤ k := by
      rw [← h k, hnull]
      exact null_mem_periodicPts next
    omega
  have hpath : ∀ k < tail / 2, detectTurn next head (searching next head k) = .goOn
      (searching next head (k + 1)) := by
    intro k hk
    have hapart : ¬ (follow next)^[2 * (k + 1)] head = (follow next)^[k + 1] head := by
      rw [h.meets_iff (Nat.succ_pos k)]
      omega
    rw [detectTurn_searching (hbefore _ (by omega)), if_neg hapart]
  have hstops : ∀ fast, fast = 0 ∨ next fast = 0 → Ends (detectTurn next head) (.after fast) 0 :=
      fun fast hfast =>
    .of_stop (if_pos hfast)
  apply Ends.of_path (searching next head) hpath
  have hend : (follow next)^[2 * (tail / 2)] head = 0 ∨
      next ((follow next)^[2 * (tail / 2)] head) = 0 := by
    rcases Nat.mod_two_eq_zero_or_one tail with heven | hodd
    · left
      rw [show 2 * (tail / 2) = tail by omega]
      exact h0
    · right
      rw [next_iterate (hbefore _ (by omega)), show 2 * (tail / 2) + 1 = tail by omega]
      exact h0
  have hexit : ¬ ((follow next)^[2 * (tail / 2)] head ≠ 0 ∧
      next ((follow next)^[2 * (tail / 2)] head) ≠ 0) := by
    rintro ⟨hfast, hnext⟩
    exact hend.elim hfast hnext
  exact (hstops _ hend).of_goOn (if_neg hexit)

theorem detectCycle_of_ne_null (h : IsTail (follow next) head tail)
    (hne : (follow next)^[tail] head ≠ 0) :
    DetectCycle next head ((follow next)^[tail] head) := by
  have hall : ∀ n, (follow next)^[n] head ≠ 0 := fun n hn =>
    hne ((iterate_tail_eq_null_iff h).mpr ⟨n, hn⟩)
  obtain ⟨meet, hmeet⟩ := h.exists_isMeeting
  have hpos := hmeet.pos
  have hsearch : ∀ k < meet - 1, detectTurn next head (searching next head k) = .goOn
      (searching next head (k + 1)) := by
    intro k hk
    rw [detectTurn_searching (hall _), if_neg (hmeet.first (k + 1) (by omega) (by omega))]
  let walking : ℕ → Detect := fun j =>
    .walk ((follow next)^[meet + j] head) ((follow next)^[j] head)
  have hwalk : ∀ j < tail, detectTurn next head (walking j) = .goOn (walking (j + 1)) := by
    intro j hj
    have hapart : (follow next)^[j] head ≠ (follow next)^[meet + j] head := by
      rw [Ne, hmeet.again_iff h]
      omega
    have hnull : ¬ ((follow next)^[meet + j] head = 0 ∨ (follow next)^[j] head = 0) := by
      rintro (h0 | h0)
      · exact hall _ h0
      · exact hall _ h0
    show (if _ then _ else _) = _
    rw [if_pos hapart, if_neg hnull, next_iterate (hall _), next_iterate (hall _)]
    rfl
  have hlast : Ends (detectTurn next head) (walking tail) ((follow next)^[tail] head) := by
    have hsame : (follow next)^[tail] head = (follow next)^[meet + tail] head :=
      (hmeet.again_iff h).mpr (Nat.le_refl tail)
    exact .of_stop (if_neg (not_not.mpr hsame))
  have hafter : detectTurn next head (.after ((follow next)^[2 * meet] head)) = .goOn
      (walking 0) := by
    have hgo : ¬ ((follow next)^[2 * meet] head = 0 ∨
        next ((follow next)^[2 * meet] head) = 0) := by
      rw [next_iterate (hall _)]
      rintro (h0 | h0)
      · exact hall _ h0
      · exact hall _ h0
    show (if _ then _ else _) = _
    rw [if_neg hgo, hmeet.meets]
    rfl
  have hfound : detectTurn next head (searching next head (meet - 1)) =
      .goOn (.after ((follow next)^[2 * meet] head)) := by
    rw [detectTurn_searching (hall _), show meet - 1 + 1 = meet by omega, if_pos hmeet.meets]
  have hwalked := (Ends.of_path walking hwalk hlast).of_goOn hafter
  exact .of_path (searching next head) hsearch (hwalked.of_goOn hfound)

/-- Whatever the links are. The points of the walk from `head` that come again are those from `tail`
on, where `NULL` comes again. -/
theorem detectCycle_eq (next : Ptr → Ptr) (head : Ptr) : ∃ tail, IsTail (follow next) head tail ∧
    DetectCycle next head ((follow next)^[tail] head) ∧
    ((follow next)^[tail] head = 0 ↔ ∃ n, (follow next)^[n] head = 0) := by
  obtain ⟨tail, h⟩ := exists_isTail (follow next) head
  refine ⟨tail, h, ?_, iterate_tail_eq_null_iff h⟩
  by_cases h0 : (follow next)^[tail] head = 0
  · rw [h0]
    exact detectCycle_of_null h h0
  · exact detectCycle_of_ne_null h h0

end Detect

def intersectTurn (next : Ptr → Ptr) (list1 list2 : Ptr) : Ptr × Ptr → Turn (Option Ptr) (Ptr × Ptr)
  | (cur1, cur2) =>
    if cur1 ≠ 0 ∨ cur2 ≠ 0 then
      let cur1 := if cur1 = 0 then list2 else cur1
      let cur2 := if cur2 = 0 then list1 else cur2
      if cur1 = cur2 then .stop (some cur1) (cur1, cur2)
      else if cur1 = 0 ∨ cur2 = 0 then .fault
      else .goOn (next cur1, next cur2)
    else .stop none (cur1, cur2)

/-- The call returns `r`, or no value when that is `none`. -/
def GetIntersectionNode (next : Ptr → Ptr) (list1 list2 : Ptr) (r : Option Ptr) : Prop :=
  Ends (intersectTurn next list1 list2) (list1, list2) r

def IsList (next : Ptr → Ptr) (p : Ptr) (xs : List Ptr) : Prop := Path next p xs 0 ∧ 0 ∉ xs

section Intersection

variable {next : Ptr → Ptr} {list1 list2 p q x y : Ptr} {xs ys u v r r' : List Ptr}

theorem isList_nil : IsList next p [] ↔ p = 0 := and_iff_left List.not_mem_nil

theorem isList_cons : IsList next p (x :: xs) ↔ p = x ∧ x ≠ 0 ∧ IsList next (next x) xs := by
  simp only [IsList, Links.Path, List.mem_cons, not_or]
  constructor
  · rintro ⟨⟨hp, hrest⟩, hx, hxs⟩
    exact ⟨hp, fun h => hx h.symm, hrest, hxs⟩
  · rintro ⟨hp, hx, hrest, hxs⟩
    exact ⟨⟨hp, hrest⟩, fun h => hx h.symm, hxs⟩

theorem exists_share (hx : IsList next p xs) (hy : IsList next q ys) :
    ∃ as bs cs, Share xs ys as bs cs := by
  have hxs := hx.1.nodup hx.2
  have hys := hy.1.nodup hy.2
  by_cases hcommon : ∃ c ∈ xs, c ∈ ys
  · have hfind : (xs.find? fun x => x ∈ ys).isSome := by
      rw [List.find?_isSome]
      obtain ⟨c, hc, hcy⟩ := hcommon
      exact ⟨c, hc, decide_eq_true hcy⟩
    obtain ⟨c, hc⟩ := Option.isSome_iff_exists.mp hfind
    obtain ⟨hcy, as, cs, rfl, has⟩ := List.find?_eq_some_iff_append.mp hc
    obtain ⟨bs, cs', rfl⟩ := List.append_of_mem (of_decide_eq_true hcy)
    have htail : Path next c (c :: cs) 0 := ⟨rfl, (path_append_cons.mp hx.1).2⟩
    have htail' : Path next c (c :: cs') 0 := ⟨rfl, (path_append_cons.mp hy.1).2⟩
    have hsame := htail.unique htail' (fun h => hx.2 (List.mem_append_right _ h)) fun h =>
      hy.2 (List.mem_append_right _ h)
    obtain rfl : cs = cs' := (List.cons.inj hsame).2
    refine ⟨as, bs, c :: cs, rfl, rfl, ?_⟩
    obtain ⟨hbs, hcs, hdisjoint⟩ := List.nodup_append'.mp hys
    have houtside : ∀ z ∈ as, z ∉ bs ++ c :: cs := fun z hz hmem => by
      have hfalse := has z hz
      rw [decide_eq_true hmem] at hfalse
      cases hfalse
    refine List.nodup_append'.mpr ⟨(List.nodup_append'.mp hxs).1, ?_, fun z hz hmem => ?_⟩
    · exact List.nodup_append'.mpr ⟨hcs, hbs, hdisjoint.symm⟩
    · exact houtside z hz (List.mem_append.mpr (List.mem_append.mp hmem).symm)
  · refine ⟨xs, ys, [], (List.append_nil xs).symm, (List.append_nil ys).symm, ?_⟩
    exact List.nodup_append'.mpr ⟨hxs, hys, fun z hz hz' => hcommon ⟨z, hz, hz'⟩⟩

theorem ends_intersect (hpq : p ≠ 0 ∨ q ≠ 0) (hxp : (if p = 0 then list2 else p) = x)
    (hyq : (if q = 0 then list1 else q) = y) (hx : x ≠ 0) (hy : y ≠ 0)
    (hrest : Ends (intersectTurn next list1 list2) (next x, next y) (firstMeet u v)) :
    Ends (intersectTurn next list1 list2) (p, q) (firstMeet (x :: u) (y :: v)) := by
  have hturn : intersectTurn next list1 list2 (p, q) =
      if x = y then .stop (some x) (x, y) else if x = 0 ∨
          y = 0 then .fault else .goOn (next x, next y) := by
    rw [intersectTurn, if_pos hpq, hxp, hyq]
  rw [firstMeet]
  by_cases hxy : x = y
  · rw [if_pos hxy] at hturn ⊢
    exact .of_stop hturn
  · have hnull : ¬ (x = 0 ∨ y = 0) := by
      rintro (h0 | h0)
      · exact hx h0
      · exact hy h0
    rw [if_neg hxy, if_neg hnull] at hturn
    rw [if_neg hxy]
    exact hrest.of_goOn hturn

/-- What comes after the round that a pointer is in: nothing, or the other list. -/
def Later (next : Ptr → Ptr) (list : Ptr) (r : List Ptr) : Prop :=
  r = [] ∨ r ≠ [] ∧ IsList next list r

theorem Later.isList (h : Later next p (x :: r)) : IsList next p (x :: r) :=
  (h.resolve_left (List.cons_ne_nil x r)).2

theorem length_ne_or (r : List Ptr) :
    ([] : List Ptr).length ≠ r.length ∨ ([] : List Ptr) = [] ∧ r = [] := by
  cases r with
  | nil => exact .inr ⟨rfl, rfl⟩
  | cons x r => exact .inl (by simp)

theorem ends_walk (hu : IsList next p u) (hv : IsList next q v)
    (hlen : u.length + r.length = v.length + r'.length) (hr : Later next list2 r)
    (hr' : Later next list1 r') (hround : r.length ≠ r'.length ∨ r = [] ∧ r' = []) :
    Ends (intersectTurn next list1 list2) (p, q) (firstMeet (u ++ r) (v ++ r')) := by
  induction hn : u.length + r.length generalizing p q u v r r' with
  | zero =>
    have hlen' : v.length + r'.length = 0 := hlen.symm.trans hn
    obtain rfl : u = [] := List.length_eq_zero_iff.mp (Nat.eq_zero_of_add_eq_zero_right hn)
    obtain rfl : r = [] := List.length_eq_zero_iff.mp (Nat.eq_zero_of_add_eq_zero_left hn)
    obtain rfl : v = [] := List.length_eq_zero_iff.mp (Nat.eq_zero_of_add_eq_zero_right hlen')
    obtain rfl := isList_nil.mp hu
    obtain rfl := isList_nil.mp hv
    exact .of_stop rfl
  | succ n ih =>
    cases u with
    | cons x u =>
      obtain ⟨rfl, hp, hu⟩ := isList_cons.mp hu
      cases v with
      | cons y v =>
        obtain ⟨rfl, hq, hv⟩ := isList_cons.mp hv
        simp only [List.length_cons] at hlen hn
        exact ends_intersect (.inl hp) (if_neg hp) (if_neg hq) hp hq
          (ih hu hv (by omega) hr hr' hround (by omega))
      | nil =>
        -- the second pointer is set to the first list
        obtain rfl := isList_nil.mp hv
        cases r' with
        | nil =>
          simp only [List.length_cons, List.length_nil] at hlen
          omega
        | cons y r' =>
          obtain ⟨hlist, hy, hrest⟩ := isList_cons.mp hr'.isList
          simp only [List.length_cons, List.length_nil] at hlen hn
          have hnone : Later next list1 [] := .inl rfl
          have hend : firstMeet (u ++ r) r' = firstMeet (u ++ r)
            (r' ++ []) := by rw [List.append_nil]
          rw [List.cons_append, List.nil_append]
          refine ends_intersect (.inl hp) (if_neg hp) ((if_pos rfl).trans hlist) hp hy ?_
          rw [hend]
          refine ih hu hrest (by simp only [List.length_nil]; omega) hr hnone ?_ (by omega)
          exact (length_ne_or r).imp Ne.symm And.symm
    | nil =>
      obtain rfl := isList_nil.mp hu
      cases r with
      | nil => simp only [List.length_nil] at hn; omega
      | cons x r =>
        obtain ⟨hlist, hx, hrest⟩ := isList_cons.mp hr.isList
        cases v with
        | cons y v =>
          -- the first pointer is set to the second list
          obtain ⟨rfl, hq, hv⟩ := isList_cons.mp hv
          simp only [List.length_cons, List.length_nil] at hlen hn
          have hnone : Later next list2 [] := .inl rfl
          have hend : firstMeet r (v ++ r') = firstMeet (r ++ [])
            (v ++ r') := by rw [List.append_nil]
          rw [List.cons_append, List.nil_append]
          refine ends_intersect (.inr hq) ((if_pos rfl).trans hlist) (if_neg hq) hx hq ?_
          rw [hend]
          exact ih hrest hv (by simp only [List.length_nil]; omega) hnone hr' (length_ne_or r')
            (by simp only [List.length_nil]; omega)
        | nil =>
          simp only [List.length_cons, List.length_nil] at hlen hround
          rcases hround with hne | ⟨hnil, -⟩
          · omega
          · cases hnil

/-- Two lists that end. The first node of the first list that is in the second one is returned, and
nothing when there is none; but when a list is empty the other one is taken for it. -/
theorem getIntersectionNode_eq (hx : IsList next list1 xs) (hy : IsList next list2 ys) :
    GetIntersectionNode next list1 list2
      (if xs = [] ∨ ys = [] then (xs ++ ys).head? else xs.find? fun x => x ∈ ys) := by
  obtain ⟨as, bs, cs, hshare⟩ := exists_share hx hy
  cases xs with
  | nil =>
    obtain rfl := isList_nil.mp hx
    rw [if_pos (.inl rfl), List.nil_append]
    cases ys with
    | nil =>
      obtain rfl := isList_nil.mp hy
      exact .of_stop rfl
    | cons y ys =>
      obtain ⟨rfl, hq, -⟩ := isList_cons.mp hy
      apply Ends.of_stop
      rw [intersectTurn, if_pos (.inr hq), if_pos rfl, if_neg hq, if_pos rfl]
      rfl
  | cons x xs =>
    cases ys with
    | nil =>
      obtain rfl := isList_nil.mp hy
      obtain ⟨rfl, hp, -⟩ := isList_cons.mp hx
      rw [if_pos (.inr rfl)]
      apply Ends.of_stop
      rw [intersectTurn, if_pos (.inl hp), if_pos rfl, if_neg hp, if_pos rfl]
      rfl
    | cons y ys =>
      have hnonempty : ¬ (x :: xs = [] ∨ y :: ys = []) := by simp
      rw [if_neg hnonempty]
      by_cases hlen : (x :: xs).length = (y :: ys).length
      · have hnone : ∀ p, Later next p [] := fun _ => .inl rfl
        have hwalk := ends_walk hx hy (congrArg (· + 0) hlen) (hnone list2) (hnone list1)
          (.inr ⟨rfl, rfl⟩)
        rw [List.append_nil, List.append_nil, hshare.firstMeet_same hlen] at hwalk
        exact hwalk
      · have hwalk := ends_walk hx hy (Nat.add_comm _ _) (.inr ⟨List.cons_ne_nil y ys, hy⟩)
          (.inr ⟨List.cons_ne_nil x xs, hx⟩) (.inl (Ne.symm hlen))
        rw [hshare.firstMeet_swapped hlen (List.cons_ne_nil x xs) (List.cons_ne_nil y ys)] at hwalk
        exact hwalk

end Intersection

def crossingLinks : Ptr → Ptr := fun p => if p = 3 then 0 else 3

theorem getIntersectionNode_eq_crossing : GetIntersectionNode crossingLinks 1 2 (some 3) := by
  have hx : IsList crossingLinks 1 [1, 3] :=
    isList_cons.mpr ⟨rfl, by decide, isList_cons.mpr ⟨rfl, by decide, isList_nil.mpr rfl⟩⟩
  have hy : IsList crossingLinks 2 [2, 3] :=
    isList_cons.mpr ⟨rfl, by decide, isList_cons.mpr ⟨rfl, by decide, isList_nil.mpr rfl⟩⟩
  exact getIntersectionNode_eq hx hy

end Unos.DataStructure
