import Mathlib.Data.List.Chain
import Unos.Library.ByteMemory
import Unos.Library.Splits

namespace Unos.BoundaryTags

open Unos.ByteMemory Unos.Splits

structure Block where
  addr : ℕ
  size : ℕ
  alloc : Bool

/-- What is stored in the header and in the footer. -/
def Block.tag (x : Block) : ℕ := x.size + x.alloc.toNat

structure Tagged (m : Mem) (x : Block) : Prop where
  pos : 0 < x.size
  dvd : 8 ∣ x.size
  header : load32 m (x.addr - 4) = x.tag
  footer : load32 m (x.addr + x.size - 8) = x.tag

/-- The blocks `xs` lie one after the other from `a` up to `b`. -/
def Layout (m : Mem) : ℕ → List Block → ℕ → Prop
  | a, [], b => a = b
  | a, x :: xs, b => x.addr = a ∧ Tagged m x ∧ Layout m (a + x.size) xs b

def writeTags (m : Mem) (x : Block) : Mem :=
  store32 (store32 m (x.addr - 4) x.tag) (x.addr + x.size - 8) x.tag

variable {m m' : Mem} {a b c : ℕ} {x y z : Block} {xs ys : List Block}

theorem tag_mod (h : 8 ∣ x.size) : x.tag % 2 = 1 ↔ x.alloc = true := by
  obtain ⟨j, hj⟩ := h
  cases halloc : x.alloc with
  | false =>
    simp only [Block.tag, halloc, Bool.toNat_false, Bool.false_eq_true, iff_false]
    omega
  | true =>
    simp only [Block.tag, halloc, Bool.toNat_true, iff_true]
    omega

theorem Tagged.size_ge (h : Tagged m x) : 8 ≤ x.size := Nat.le_of_dvd h.pos h.dvd

theorem Layout.le (h : Layout m a xs b) : a ≤ b := by
  induction xs generalizing a with
  | nil => exact Nat.le_of_eq h
  | cons x xs ih =>
    have hrest := ih h.2.2
    omega

/-- Every block lies in the interval. -/
theorem Layout.bounds (h : Layout m a xs b) (hx : x ∈ xs) : a ≤ x.addr ∧ x.addr + x.size ≤ b := by
  induction xs generalizing a with
  | nil => exact absurd hx List.not_mem_nil
  | cons y ys ih =>
    obtain ⟨rfl, htag, hrest⟩ := h
    rcases List.mem_cons.mp hx with rfl | hx
    · exact ⟨Nat.le_refl _, hrest.le⟩
    · obtain ⟨h1, h2⟩ := ih hrest hx
      exact ⟨by omega, h2⟩

theorem Layout.tagged (h : Layout m a xs b) (hx : x ∈ xs) : Tagged m x := by
  induction xs generalizing a with
  | nil => exact absurd hx List.not_mem_nil
  | cons y ys ih =>
    obtain ⟨-, htag, hrest⟩ := h
    rcases List.mem_cons.mp hx with rfl | hx
    · exact htag
    · exact ih hrest hx

theorem Layout.length_le (h : Layout m a xs b) : a + xs.length ≤ b := by
  induction xs generalizing a with
  | nil => exact Nat.le_of_eq h
  | cons x xs ih =>
    have hrest := ih h.2.2
    have hpos := h.2.1.pos
    rw [List.length_cons]
    omega

theorem layout_append : Layout m a (xs ++ ys) c ↔ ∃ b, Layout m a xs b ∧ Layout m b ys c := by
  induction xs generalizing a with
  | nil =>
    constructor
    · exact fun h => ⟨a, rfl, h⟩
    · rintro ⟨b, rfl, h⟩
      exact h
  | cons x xs ih =>
    constructor
    · rintro ⟨hx, htag, hrest⟩
      obtain ⟨b, h1, h2⟩ := ih.mp hrest
      exact ⟨b, ⟨hx, htag, h1⟩, h2⟩
    · rintro ⟨b, ⟨hx, htag, h1⟩, h2⟩
      exact ⟨hx, htag, ih.mpr ⟨b, h1, h2⟩⟩

theorem Layout.addr_ne (h : Layout m a (xs ++ x :: ys) b) (hz : z ∈ xs ++ ys) :
    z.addr ≠ x.addr := by
  obtain ⟨c, h1, hc, htag, h2⟩ := layout_append.mp h
  have hpos := htag.pos
  rcases List.mem_append.mp hz with hz | hz
  · have hzpos := (h1.tagged hz).pos
    have hbound := (h1.bounds hz).2
    omega
  · have hbound := (h2.bounds hz).1
    omega

theorem Layout.eq_of_addr (h : Layout m a xs b) (hx : x ∈ xs) (hy : y ∈ xs)
    (haddr : y.addr = x.addr) : y = x := by
  obtain ⟨us, vs, rfl⟩ := List.append_of_mem hx
  by_contra hne
  exact h.addr_ne (mem_of_mem_middle hy hne) haddr

/-- A block ends before the next one starts. -/
theorem Layout.before (h : Layout m a (xs ++ x :: ys) b) (hz : z ∈ xs) :
    z.addr + z.size ≤ x.addr := by
  obtain ⟨c, h1, hc, -, -⟩ := layout_append.mp h
  rw [hc]
  exact (h1.bounds hz).2

theorem Layout.dvd_addr (h : Layout m a xs b) (ha : 8 ∣ a) (hx : x ∈ xs) : 8 ∣ x.addr := by
  induction xs generalizing a with
  | nil => exact absurd hx List.not_mem_nil
  | cons y ys ih =>
    obtain ⟨rfl, htag, hrest⟩ := h
    rcases List.mem_cons.mp hx with rfl | hx
    · exact ha
    · exact ih hrest (Nat.dvd_add ha htag.dvd) hx

/-- Only the bytes of the blocks matter; those start with the header of the first one. -/
theorem Layout.congr (h : Layout m a xs b) (ha : 4 ≤ a)
    (hm : ∀ p, a ≤ p + 4 → p + 4 < b → m' p = m p) : Layout m' a xs b := by
  induction xs generalizing a with
  | nil => exact h
  | cons x xs ih =>
    obtain ⟨rfl, htag, hrest⟩ := h
    have hsize := htag.size_ge
    have hle := hrest.le
    refine ⟨rfl, ⟨htag.pos, htag.dvd, ?_, ?_⟩,
      ih hrest (by omega) fun p h1 h2 => hm p (by omega) h2⟩
    · rw [← htag.header]
      exact load32_congr fun p h1 h2 => hm p (by omega) (by omega)
    · rw [← htag.footer]
      exact load32_congr fun p h1 h2 => hm p (by omega) (by omega)

theorem writeTags_of_outside {p : ℕ} (hx : 4 ≤ x.addr) (hsize : 8 ≤ x.size)
    (h : p + 4 < x.addr ∨ x.addr + x.size ≤ p + 4) : writeTags m x p = m p := by
  rw [writeTags, store32_of_outside (by omega), store32_of_outside (by omega)]

theorem tagged_writeTags (m : Mem) (hx : 4 ≤ x.addr) (hpos : 0 < x.size) (hdvd : 8 ∣ x.size)
    (htag : x.tag < 4294967296) : Tagged (writeTags m x) x := by
  have hsize := Nat.le_of_dvd hpos hdvd
  refine ⟨hpos, hdvd, ?_, ?_⟩
  · rw [writeTags, load32_store32_of_disjoint (by omega), load32_store32 m htag]
  · rw [writeTags, load32_store32 _ htag]

theorem Layout.writeTags (h : Layout m a xs b) (ha : 4 ≤ a) (hx : 4 ≤ x.addr) (hsize : 8 ≤ x.size)
    (hout : b ≤ x.addr ∨ x.addr + x.size ≤ a) : Layout (BoundaryTags.writeTags m x) a xs b :=
  h.congr ha fun p h1 h2 => writeTags_of_outside hx hsize (by omega)

theorem Layout.write (h : Layout m a xs x.addr) (h' : Layout m (x.addr + x.size) ys b) (ha : 4 ≤ a)
    (hpos : 0 < x.size) (hdvd : 8 ∣ x.size) (htag : x.tag < 4294967296) :
    Layout (BoundaryTags.writeTags m x) a (xs ++ x :: ys) b := by
  have hsize := Nat.le_of_dvd hpos hdvd
  have hx : 4 ≤ x.addr := ha.trans h.le
  have hbefore := h.writeTags ha hx hsize (.inl (Nat.le_refl _))
  have hbehind := h'.writeTags (by omega) hx hsize (.inr (Nat.le_refl _))
  exact layout_append.mpr ⟨x.addr, hbefore, rfl, tagged_writeTags m hx hpos hdvd htag, hbehind⟩

theorem Layout.retag (h : Layout m a (xs ++ x :: ys) b) (ha : 4 ≤ a) (hb : b < 4294967296)
    (haddr : y.addr = x.addr) (hsize : y.size = x.size) :
    Layout (BoundaryTags.writeTags m y) a (xs ++ y :: ys) b := by
  obtain ⟨c, h1, hc, htag, h2⟩ := layout_append.mp h
  subst hc
  have hle := h2.le
  have hge := htag.size_ge
  have hpos := h1.le
  have htop : y.tag < 4294967296 := by
    have hbit := y.alloc.toNat_le
    unfold Block.tag
    omega
  rw [← haddr] at h1 h2
  rw [← hsize] at h2
  exact h1.write h2 ha (hsize ▸ htag.pos) (hsize ▸ htag.dvd) htop

/-- No two blocks next to each other are both free. -/
def Settled (xs : List Block) : Prop := xs.IsChain fun x y => x.alloc = true ∨ y.alloc = true

theorem settled_append_cons : Settled (xs ++ x :: ys) ↔
    (Settled xs ∧ Settled ys) ∧ (∀ z ∈ xs.getLast?, z.alloc = true ∨ x.alloc = true) ∧
      ∀ z ∈ ys.head?, x.alloc = true ∨ z.alloc = true := by
  simp only [Settled, List.isChain_append, List.isChain_cons, List.head?_cons, Option.mem_def,
    Option.some.injEq, forall_eq']
  tauto

theorem settled_of_alloc (hx : x.alloc = true) :
    Settled (xs ++ x :: ys) ↔ Settled xs ∧ Settled ys := by
  rw [settled_append_cons]
  exact and_iff_left ⟨fun _ _ => .inr hx, fun _ _ => .inl hx⟩

theorem settled_of_free (hx : x.alloc = false) :
    Settled (xs ++ x :: ys) ↔ (Settled xs ∧ Settled ys) ∧
      (∀ z ∈ xs.getLast?, z.alloc = true) ∧ ∀ z ∈ ys.head?, z.alloc = true := by
  simp [settled_append_cons, hx]

end Unos.BoundaryTags
