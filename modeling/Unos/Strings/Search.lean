import Unos.Library.Occurrences
import Unos.Strings.Model

namespace Unos.Strings

open Unos.Words Unos.Framebuffer Unos.Occurrences

variable {c : BitVec 8} {xs ys : List (BitVec 8)}

theorem strlen_eq (hys : 0 ∉ ys) (hfits : ys.length < 4294967296) (rest : List (BitVec 8)) :
    strlen (ys ++ 0 :: rest) = some ys.length := by
  induction ys with
  | nil => rfl
  | cons y ys ih =>
    rw [List.mem_cons, not_or] at hys
    rw [List.cons_append, strlen, if_pos (Ne.symm hys.1), ih hys.2 (Nat.lt_of_succ_lt hfits),
      Option.map_some, wrap32_of_lt (by exact hfits), List.length_cons]

theorem strncmp_succ (a b : BitVec 8) (s1 s2 : List (BitVec 8)) (n : ℕ) :
    strncmp (a :: s1) (b :: s2) (n + 1) =
      if a.toInt - b.toInt ≠ 0 ∨ a = 0 then some (a.toInt - b.toInt)
      else strncmp s1 s2 (sub32 (n + 1) 1) := by
  rw [strncmp]
  exact Nat.succ_ne_zero n

theorem strncmp_prefix (hxs : 0 ∉ xs) (hys : 0 ∉ ys) (hfits : ys.length < 4294967296)
    (rest : List (BitVec 8)) :
    ∃ result, strncmp (xs ++ [0]) (ys ++ rest) ys.length = some result ∧
      (result = 0 ↔ ys <+: xs) := by
  induction ys generalizing xs with
  | nil => exact ⟨0, by simp only [List.length_nil, strncmp], iff_of_true rfl List.nil_prefix⟩
  | cons y ys ih =>
    rw [List.mem_cons, not_or] at hys
    cases xs with
    | nil =>
      have hne : (0 : BitVec 8).toInt - y.toInt ≠ 0 := by
        rw [sub_ne_zero, Ne, BitVec.toInt_inj]
        exact hys.1
      refine ⟨_, ?_, iff_of_false hne fun h => List.cons_ne_nil y ys (List.prefix_nil.mp h)⟩
      rw [List.nil_append, List.cons_append, List.length_cons, strncmp_succ,
        if_pos (Or.inl hne)]
    | cons x xs =>
      rw [List.mem_cons, not_or] at hxs
      rw [List.cons_append, List.cons_append, List.length_cons, strncmp_succ]
      rcases eq_or_ne x y with rfl | hxy
      · have hgo : ¬ (x.toInt - x.toInt ≠ 0 ∨ x = 0) := by
          rw [sub_self]
          exact fun h => h.elim (fun h => h rfl) fun h => hxs.1 h.symm
        rw [if_neg hgo, sub32_of_le (Nat.le_add_left 1 _) hfits, List.prefix_cons_inj]
        exact ih hxs.2 hys.2 (Nat.lt_of_succ_lt hfits)
      · have hne : x.toInt - y.toInt ≠ 0 := by
          rw [sub_ne_zero, Ne, BitVec.toInt_inj]
          exact hxy
        rw [if_pos (Or.inl hne)]
        exact ⟨_, rfl, iff_of_false hne fun h => hxy (List.cons_prefix_cons.mp h).1.symm⟩

/-- The pointer `r` is what the search for `p` in `t` should return. -/
def IsFirst (p t : List (BitVec 8)) : Option (List (BitVec 8)) → Prop
  | none => ¬ p <:+: t
  | some q => ∃ i, q = (t ++ [0]).drop i ∧ IsLeast (occurrences p t) i

theorem isFirst_zero {p t : List (BitVec 8)} (h : p <+: t) : IsFirst p t (some (t ++ [0])) :=
  ⟨0, rfl, isLeast_zero h⟩

/-- A first byte at which `p` does not begin is passed over. -/
theorem IsFirst.cons {p t : List (BitVec 8)} {r : Option (List (BitVec 8))} {x : BitVec 8}
    (h : IsFirst p t r) (hx : ¬ p <+: x :: t) : IsFirst p (x :: t) r := by
  cases r with
  | none => exact fun hinfix => (List.infix_cons_iff.mp hinfix).elim hx h
  | some q =>
    obtain ⟨i, rfl, hi⟩ := h
    exact ⟨i + 1, rfl, isLeast_succ hx hi⟩

theorem searchLoop_isFirst (hxs : 0 ∉ xs) (hys : 0 ∉ ys) (hfits : ys.length < 4294967296) :
    ∃ r, searchLoop c (ys ++ [0]) ys.length (xs ++ [0]) = some r ∧ IsFirst (c :: ys) xs r := by
  induction xs with
  | nil =>
    refine ⟨none, ?_, fun h => List.cons_ne_nil c ys (List.infix_nil.mp h)⟩
    rw [List.nil_append, searchLoop, if_pos rfl]
  | cons x xs ih =>
    rw [List.mem_cons, not_or] at hxs
    obtain ⟨r, hr, hfirst⟩ := ih hxs.2
    obtain ⟨result, hresult, hcompare⟩ := strncmp_prefix hxs.2 hys hfits [0]
    rw [List.cons_append, searchLoop, if_neg (Ne.symm hxs.1)]
    rcases eq_or_ne x c with rfl | hxc
    · rw [if_neg (not_not.mpr rfl), hresult, Option.bind_some]
      by_cases hzero : result = 0
      · rw [if_neg (not_not.mpr hzero)]
        exact ⟨_, rfl, isFirst_zero (List.cons_prefix_cons.mpr ⟨rfl, hcompare.mp hzero⟩)⟩
      · rw [if_pos hzero]
        refine ⟨r, hr, hfirst.cons fun h => hzero (hcompare.mpr ?_)⟩
        exact (List.cons_prefix_cons.mp h).2
    · rw [if_pos hxc]
      exact ⟨r, hr, hfirst.cons fun h => hxc (List.cons_prefix_cons.mp h).1.symm⟩

theorem strstr_isFirst (s str : CString) :
    ∃ r, strstr s.object str.object = some r ∧ IsFirst str.bytes s.bytes r := by
  obtain ⟨bytes, hnonzero, hfits⟩ := str
  cases bytes with
  | nil => exact ⟨some s.object, rfl, isFirst_zero List.nil_prefix⟩
  | cons c ys =>
    rw [List.mem_cons, not_or] at hnonzero
    have hlt : ys.length < 4294967296 := Nat.lt_of_succ_lt hfits
    obtain ⟨r, hr, hfirst⟩ := searchLoop_isFirst s.nonzero hnonzero.2 hlt
    refine ⟨r, ?_, hfirst⟩
    rw [CString.object, CString.object, List.cons_append, strstr, if_neg (Ne.symm hnonzero.1),
      strlen_eq hnonzero.2 hlt, Option.bind_some]
    exact hr

/-- The search reads no byte behind a terminator, finds the first position, and returns `NULL` when
there is none. -/
theorem strstr_spec (s str : CString) : ∃ r, strstr s.object str.object = some r ∧
    (∀ p, r = some p ↔ ∃ i, p = s.object.drop i ∧ IsLeast (occurrences str.bytes s.bytes) i) ∧
    (str.bytes = [] → r = some s.object) ∧ (r = none ↔ ¬ str.bytes <:+: s.bytes) := by
  obtain ⟨r, hr, hfirst⟩ := strstr_isFirst s str
  have hsome : ∀ p, r = some p ↔
      ∃ i, p = s.object.drop i ∧ IsLeast (occurrences str.bytes s.bytes) i := by
    intro p
    constructor
    · rintro rfl
      exact hfirst
    · rintro ⟨i, rfl, hi⟩
      cases r with
      | none => exact absurd (infix_iff.mpr ⟨i, hi.1⟩) hfirst
      | some q =>
        obtain ⟨j, rfl, hj⟩ := hfirst
        rw [hj.unique hi]
        rfl
  refine ⟨r, hr, hsome, fun hempty => ?_, fun hnone => ?_, fun habsent => ?_⟩
  · rw [hsome, hempty]
    exact ⟨0, rfl, isLeast_zero List.nil_prefix⟩
  · rw [hnone] at hfirst
    exact hfirst
  · cases r with
    | none => rfl
    | some q =>
      obtain ⟨i, -, hi⟩ := hfirst
      exact absurd (infix_iff.mpr ⟨i, hi.1⟩) habsent

end Unos.Strings
