import Mathlib.Data.List.Basic
import Mathlib.Tactic.Common

namespace Unos.Tiling

/-- The blocks that start at `hs` follow each other without a gap from `a` up to `b`. -/
def Tiles (len : ℕ → ℕ) : ℕ → ℕ → List ℕ → Prop
  | a, b, [] => a = b
  | a, b, h :: hs => h = a ∧ 0 < len a ∧ Tiles len (a + len a) b hs

instance Tiles.decidable (len : ℕ → ℕ) : (a b : ℕ) → (hs : List ℕ) → Decidable (Tiles len a b hs)
  | a, b, [] => inferInstanceAs (Decidable (a = b))
  | a, b, h :: hs =>
    have := Tiles.decidable len (a + len a) b hs
    inferInstanceAs (Decidable (h = a ∧ 0 < len a ∧ Tiles len (a + len a) b hs))

variable {len len' : ℕ → ℕ} {a b c : ℕ} {hs ks : List ℕ}

theorem Tiles.le (h : Tiles len a b hs) : a ≤ b := by
  induction hs generalizing a with
  | nil => exact Nat.le_of_eq h
  | cons x xs ih =>
    have := ih h.2.2
    omega

/-- Every block lies in the interval. -/
theorem Tiles.bounds (h : Tiles len a b hs) {x : ℕ} (hx : x ∈ hs) :
    a ≤ x ∧ 0 < len x ∧ x + len x ≤ b := by
  induction hs generalizing a with
  | nil => exact absurd hx List.not_mem_nil
  | cons y ys ih =>
    obtain ⟨rfl, hpos, hrest⟩ := h
    rcases List.mem_cons.mp hx with rfl | hx
    · exact ⟨Nat.le_refl _, hpos, hrest.le⟩
    · obtain ⟨h1, h2, h3⟩ := ih hrest hx
      exact ⟨by omega, h2, h3⟩

theorem Tiles.length_le (h : Tiles len a b hs) : a + hs.length ≤ b := by
  induction hs generalizing a with
  | nil => exact Nat.le_of_eq h
  | cons x xs ih =>
    have := ih h.2.2
    have := h.2.1
    rw [List.length_cons]
    omega

/-- Only the lengths of the blocks matter. -/
theorem Tiles.congr (h : Tiles len a b hs) (hlen : ∀ x ∈ hs, len' x = len x) :
    Tiles len' a b hs := by
  induction hs generalizing a with
  | nil => exact h
  | cons x xs ih =>
    obtain ⟨rfl, hpos, hrest⟩ := h
    have hx : len' x = len x := hlen x List.mem_cons_self
    refine ⟨rfl, by omega, ?_⟩
    rw [hx]
    exact ih hrest fun y hy => hlen y (List.mem_cons_of_mem x hy)

theorem tiles_append : Tiles len a c (hs ++ ks) ↔ ∃ b, Tiles len a b hs ∧ Tiles len b c ks := by
  induction hs generalizing a with
  | nil =>
    constructor
    · exact fun h => ⟨a, rfl, h⟩
    · rintro ⟨b, rfl, h⟩
      exact h
  | cons x xs ih =>
    constructor
    · rintro ⟨rfl, hpos, hrest⟩
      obtain ⟨b, h1, h2⟩ := ih.mp hrest
      exact ⟨b, ⟨rfl, hpos, h1⟩, h2⟩
    · rintro ⟨b, ⟨rfl, hpos, h1⟩, h2⟩
      exact ⟨rfl, hpos, ih.mpr ⟨b, h1, h2⟩⟩

/-- A block is added at the end. -/
theorem Tiles.concat (h : Tiles len a b hs) (hpos : 0 < len b) :
    Tiles len a (b + len b) (hs ++ [b]) :=
  tiles_append.mpr ⟨b, h, rfl, hpos, rfl⟩

/-- An interval is cut in one way. -/
theorem Tiles.unique (h : Tiles len a b hs) (h' : Tiles len a b ks) : hs = ks := by
  induction hs generalizing a ks with
  | nil =>
    obtain rfl : a = b := h
    cases ks with
    | nil => rfl
    | cons y ys =>
      have hle := h'.2.2.le
      have hpos := h'.2.1
      omega
  | cons x xs ih =>
    cases ks with
    | nil =>
      obtain rfl : a = b := h'
      have hle := h.2.2.le
      have hpos := h.2.1
      omega
    | cons y ys =>
      obtain ⟨rfl, -, hrest⟩ := h
      obtain ⟨rfl, -, hrest'⟩ := h'
      rw [ih hrest hrest']

/-- The blocks are listed by their addresses. -/
theorem Tiles.sorted (h : Tiles len a b hs) : hs.Pairwise (· < ·) := by
  induction hs generalizing a with
  | nil => exact List.Pairwise.nil
  | cons x xs ih =>
    obtain ⟨rfl, hpos, hrest⟩ := h
    refine List.pairwise_cons.mpr ⟨fun y hy => ?_, ih hrest⟩
    have hbound := (hrest.bounds hy).1
    omega

theorem Tiles.disjoint (h : Tiles len a b hs) {x y : ℕ} (hx : x ∈ hs) (hy : y ∈ hs) (hxy : x ≠ y) :
    x + len x ≤ y ∨ y + len y ≤ x := by
  induction hs generalizing a with
  | nil => exact absurd hx List.not_mem_nil
  | cons z zs ih =>
    obtain ⟨rfl, hpos, hrest⟩ := h
    rcases List.mem_cons.mp hx with hxz | hx
    · rcases List.mem_cons.mp hy with hyz | hy
      · exact absurd (hxz.trans hyz.symm) hxy
      · rw [hxz]
        exact Or.inl (hrest.bounds hy).1
    · rcases List.mem_cons.mp hy with hyz | hy
      · rw [hyz]
        exact Or.inr (hrest.bounds hx).1
      · exact ih hrest hx hy

/-- The ranges, each an address and a length, follow each other from `a` up to `b`. -/
def Consecutive : ℕ → List (ℕ × ℕ) → ℕ → Prop
  | a, [], b => a = b
  | a, r :: rs, b => r.1 = a ∧ Consecutive (a + r.2) rs b

variable {rs : List (ℕ × ℕ)}

theorem Consecutive.concat (h : Consecutive a rs b) (n : ℕ) :
    Consecutive a (rs ++ [(b, n)]) (b + n) := by
  induction rs generalizing a with
  | nil =>
    obtain rfl : a = b := h
    exact ⟨rfl, rfl⟩
  | cons r rs ih => exact ⟨h.1, ih h.2⟩

theorem Consecutive.le (h : Consecutive a rs b) : a ≤ b := by
  induction rs generalizing a with
  | nil => exact Nat.le_of_eq h
  | cons r rs ih =>
    have := ih h.2
    omega

theorem Consecutive.inside (h : Consecutive a rs b) {r : ℕ × ℕ} (hr : r ∈ rs) :
    a ≤ r.1 ∧ r.1 + r.2 ≤ b := by
  induction rs generalizing a with
  | nil => exact absurd hr List.not_mem_nil
  | cons q rs ih =>
    obtain ⟨hq, hrest⟩ := h
    rcases List.mem_cons.mp hr with rfl | hr
    · have := hrest.le
      omega
    · have := ih hrest hr
      omega

theorem Consecutive.apart (h : Consecutive a rs b) :
    rs.Pairwise fun r r' => r.1 + r.2 ≤ r'.1 := by
  induction rs generalizing a with
  | nil => exact List.Pairwise.nil
  | cons q rs ih =>
    obtain ⟨hq, hrest⟩ := h
    refine List.pairwise_cons.mpr ⟨fun r hr => ?_, ih hrest⟩
    have := (hrest.inside hr).1
    omega

end Unos.Tiling
