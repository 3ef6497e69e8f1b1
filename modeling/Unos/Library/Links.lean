import Mathlib.Data.List.Basic
import Mathlib.Data.List.Nodup
import Mathlib.Logic.Function.Basic
import Mathlib.Tactic.Common

namespace Unos.Links

variable {α : Type*}

/-- Following `next` from `a` visits `xs` and arrives at `b`. -/
def Path (next : α → α) : α → List α → α → Prop
  | a, [], b => a = b
  | a, x :: xs, b => a = x ∧ Path next (next x) xs b

variable {next next' : α → α} {a b c p v : α} {xs ys : List α}

theorem path_append : Path next a (xs ++ ys) c ↔ ∃ b, Path next a xs b ∧ Path next b ys c := by
  induction xs generalizing a with
  | nil =>
    constructor
    · exact fun h => ⟨a, rfl, h⟩
    · rintro ⟨b, rfl, h⟩
      exact h
  | cons x xs ih =>
    constructor
    · rintro ⟨ha, h⟩
      obtain ⟨b, h1, h2⟩ := ih.mp h
      exact ⟨b, ⟨ha, h1⟩, h2⟩
    · rintro ⟨b, ⟨ha, h1⟩, h2⟩
      exact ⟨ha, ih.mpr ⟨b, h1, h2⟩⟩

/-- The last node of a path points to where the path arrives. -/
theorem path_concat : Path next a (xs ++ [p]) b ↔ Path next a xs p ∧ next p = b := by
  rw [path_append]
  constructor
  · rintro ⟨c, h1, rfl, h2⟩
    exact ⟨h1, h2⟩
  · rintro ⟨h1, h2⟩
    exact ⟨p, h1, rfl, h2⟩

/-- A path through a node passes it on its way. -/
theorem path_append_cons :
    Path next a (xs ++ p :: ys) b ↔ Path next a xs p ∧ Path next (next p) ys b := by
  rw [path_append]
  constructor
  · rintro ⟨c, h1, rfl, h2⟩
    exact ⟨h1, h2⟩
  · rintro ⟨h1, h2⟩
    exact ⟨p, h1, rfl, h2⟩

/-- Only the field of the visited nodes matters. -/
theorem Path.congr (h : Path next a xs b) (hnext : ∀ x ∈ xs, next' x = next x) :
    Path next' a xs b := by
  induction xs generalizing a with
  | nil => exact h
  | cons x xs ih =>
    obtain ⟨rfl, hrest⟩ := h
    refine ⟨rfl, ?_⟩
    rw [hnext a List.mem_cons_self]
    exact ih hrest fun y hy => hnext y (List.mem_cons_of_mem a hy)

theorem Path.update [DecidableEq α] (h : Path next a xs b) (hp : p ∉ xs) (v : α) :
    Path (Function.update next p v) a xs b := by
  apply h.congr
  intro x hx
  have hne : x ≠ p := fun hxp => hp (hxp ▸ hx)
  exact Function.update_of_ne hne v next

/-- A path is redirected by writing to its last node. -/
theorem Path.redirect [DecidableEq α] (h : Path next a (xs ++ [p]) b) (hp : p ∉ xs) (v : α) :
    Path (Function.update next p v) a (xs ++ [p]) v := by
  rw [path_concat] at h ⊢
  exact ⟨h.1.update hp v, Function.update_self p v next⟩

theorem Path.bypass [DecidableEq α] {x : α} (h : Path next a (xs ++ p :: x :: ys) b) (hxs : p ∉ xs)
    (hys : p ∉ ys) : Path (Function.update next p (next x)) a (xs ++ p :: ys) b := by
  rw [path_append_cons] at h ⊢
  obtain ⟨hto, -, hfrom⟩ := h
  rw [Function.update_self]
  exact ⟨hto.update hxs (next x), hfrom.update hys (next x)⟩

theorem Path.head_eq (h : Path next a xs b) : a = (xs ++ [b]).head (by simp) := by
  cases xs with
  | nil => exact h
  | cons x xs => exact h.1

/-- A path that ends at an address outside of it is the only one with that end. -/
theorem Path.unique (hx : Path next a xs b) (hy : Path next a ys b) (hbx : b ∉ xs) (hby : b ∉ ys) :
    xs = ys := by
  induction xs generalizing a ys with
  | nil =>
    obtain rfl : a = b := hx
    cases ys with
    | nil => rfl
    | cons y ys => exact absurd (hy.1 ▸ List.mem_cons_self) hby
  | cons x xs ih =>
    obtain ⟨rfl, hrest⟩ := hx
    cases ys with
    | nil => exact absurd (hy ▸ List.mem_cons_self) hbx
    | cons y ys =>
      obtain ⟨rfl, hrest'⟩ := hy
      rw [ih hrest hrest' (fun h => hbx (List.mem_cons_of_mem a h))
        fun h => hby (List.mem_cons_of_mem a h)]

/-- A path that ends outside of its nodes visits none of them twice. -/
theorem Path.nodup (h : Path next a xs b) (hb : b ∉ xs) : xs.Nodup := by
  induction xs generalizing a with
  | nil => exact List.nodup_nil
  | cons x xs ih =>
    obtain ⟨rfl, hrest⟩ := h
    have hb' : b ∉ xs := fun h => hb (List.mem_cons_of_mem a h)
    refine List.nodup_cons.mpr ⟨fun ha => ?_, ih hrest hb'⟩
    obtain ⟨us, vs, rfl⟩ := List.append_of_mem ha
    -- from the second visit on the path is the one from the first visit on
    have hagain : Path next a (a :: vs) b := ⟨rfl, (path_append_cons.mp hrest).2⟩
    have hfirst : Path next a (a :: (us ++ a :: vs)) b := ⟨rfl, hrest⟩
    have hsame := hfirst.unique hagain hb fun h =>
      hb (List.mem_cons_of_mem a (List.mem_append_right us h))
    have hlen := congrArg List.length hsame
    simp only [List.length_cons, List.length_append] at hlen
    omega

theorem Path.end_unique {Q : α → Prop} (hx : Path next a xs b) (hy : Path next a ys c)
    (hxs : ∀ x ∈ xs, Q x) (hb : ¬ Q b) (hys : ∀ y ∈ ys, Q y) (hc : ¬ Q c) : xs = ys ∧ b = c := by
  induction xs generalizing a ys with
  | nil =>
    obtain rfl : a = b := hx
    cases ys with
    | nil => exact ⟨rfl, hy⟩
    | cons y ys =>
      obtain ⟨rfl, -⟩ := hy
      exact absurd (hys a List.mem_cons_self) hb
  | cons x xs ih =>
    obtain ⟨rfl, hrest⟩ := hx
    cases ys with
    | nil =>
      obtain rfl : a = c := hy
      exact absurd (hxs a List.mem_cons_self) hc
    | cons y ys =>
      obtain ⟨rfl, hrest'⟩ := hy
      obtain ⟨rfl, hbc⟩ := ih hrest hrest' (fun z hz => hxs z (List.mem_cons_of_mem a hz))
        fun z hz => hys z (List.mem_cons_of_mem a hz)
      exact ⟨rfl, hbc⟩

/-- The nodes that are met from `a` on before `b`, at most `n` of them. -/
def follow [DecidableEq α] (next : α → α) (b : α) : ℕ → α → List α
  | 0, _ => []
  | n + 1, a => if a = b then [] else a :: follow next b n (next a)

theorem Path.follow_eq [DecidableEq α] (h : Path next a xs b) (hb : b ∉ xs) :
    follow next b xs.length a = xs := by
  induction xs generalizing a with
  | nil => rfl
  | cons x xs ih =>
    obtain ⟨rfl, hrest⟩ := h
    have hne : a ≠ b := fun hab => hb (hab ▸ List.mem_cons_self)
    rw [List.length_cons, follow, if_neg hne, ih hrest fun h => hb (List.mem_cons_of_mem a h)]

end Unos.Links
