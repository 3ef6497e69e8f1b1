import Mathlib.Data.List.Basic
import Mathlib.Data.Tree.Basic
import Mathlib.Order.Lattice

namespace Unos.BinaryTrees

variable {α : Type*}

/-- The values, each before those below it. -/
def preorder : BinaryTree α → List α
  | .nil => []
  | .node a l r => a :: (preorder l ++ preorder r)

def mirror : BinaryTree α → BinaryTree α
  | .nil => .nil
  | .node a l r => .node a (mirror r) (mirror l)

/-- A list as a tree that has only right parts. -/
def chain : List α → BinaryTree α
  | [] => .nil
  | a :: as => .node a .nil (chain as)

def inorder : BinaryTree α → List α
  | .nil => []
  | .node a l r => inorder l ++ a :: inorder r

theorem preorder_chain (as : List α) : preorder (chain as) = as := by
  induction as with
  | nil => rfl
  | cons a as ih => rw [chain, preorder, preorder, List.nil_append, ih]

theorem numNodes_eq_length (t : BinaryTree α) : t.numNodes = (preorder t).length := by
  induction t with
  | nil => rfl
  | node a l r ihl ihr =>
    rw [BinaryTree.numNodes, preorder, List.length_cons, List.length_append, ihl, ihr]

theorem preorder_mirror_perm (t : BinaryTree α) : (preorder (mirror t)).Perm (preorder t) := by
  induction t with
  | nil => exact .refl _
  | node a l r ihl ihr => exact ((ihr.append ihl).trans List.perm_append_comm).cons a

section Order

variable [LinearOrder α] {xs ys us vs : List α} {a b : α} {t t' : BinaryTree α}

/-- The root is the first of the greatest values. -/
def MaxFirst : BinaryTree α → Prop
  | .nil => True
  | .node a l r => (∀ x ∈ inorder l, x < a) ∧ (∀ x ∈ inorder r, x ≤ a) ∧ MaxFirst l ∧ MaxFirst r

theorem first_max_unique (h : xs ++ a :: ys = us ++ b :: vs) (hxs : ∀ x ∈ xs, x < a)
    (hys : ∀ x ∈ ys, x ≤ a) (hus : ∀ x ∈ us, x < b) (hvs : ∀ x ∈ vs, x ≤ b) :
    xs = us ∧ a = b ∧ ys = vs := by
  have hab : a ≤ b := by
    have hmem : a ∈ us ++ b :: vs := h ▸ List.mem_append_right xs List.mem_cons_self
    rcases List.mem_append.mp hmem with ha | ha
    · exact (hus a ha).le
    · exact (List.mem_cons.mp ha).elim le_of_eq (hvs a)
  have hba : b ≤ a := by
    have hmem : b ∈ xs ++ a :: ys := h ▸ List.mem_append_right us List.mem_cons_self
    rcases List.mem_append.mp hmem with hb | hb
    · exact (hxs b hb).le
    · exact (List.mem_cons.mp hb).elim le_of_eq (hys b)
  obtain rfl : a = b := le_antisymm hab hba
  have hax : a ∉ xs := fun ha => lt_irrefl a (hxs a ha)
  have hau : a ∉ us := fun ha => lt_irrefl a (hus a ha)
  rcases List.append_eq_append_iff.mp h with ⟨c, rfl, hc⟩ | ⟨c, rfl, hc⟩
  · cases c with
    | nil => exact ⟨(List.append_nil xs).symm, rfl, (List.cons.inj hc).2⟩
    | cons d c =>
      obtain rfl : a = d := (List.cons.inj hc).1
      exact absurd (List.mem_append_right xs List.mem_cons_self) hau
  · cases c with
    | nil => exact ⟨List.append_nil us, rfl, (List.cons.inj hc).2.symm⟩
    | cons d c =>
      obtain rfl : a = d := (List.cons.inj hc).1
      exact absurd (List.mem_append_right us List.mem_cons_self) hax

theorem maxFirst_unique (ht : MaxFirst t) (ht' : MaxFirst t') (h : inorder t = inorder t') :
    t = t' := by
  induction t generalizing t' with
  | nil =>
    cases t' with
    | nil => rfl
    | node b l' r' =>
      exact absurd h.symm (List.append_ne_nil_of_right_ne_nil _ (List.cons_ne_nil _ _))
  | node a l r ihl ihr =>
    cases t' with
    | nil => exact absurd h (List.append_ne_nil_of_right_ne_nil _ (List.cons_ne_nil _ _))
    | node b l' r' =>
      obtain ⟨hleft, hright, hl, hr⟩ := ht
      obtain ⟨hleft', hright', hl', hr'⟩ := ht'
      obtain ⟨hll, rfl, hrr⟩ := first_max_unique h hleft hright hleft' hright'
      rw [ihl hl hl' hll, ihr hr hr' hrr]

end Order

end Unos.BinaryTrees
