import Unos.DataStructure.Lists
import Unos.Library.BinaryTrees

namespace Unos.DataStructure

open Function Unos.BinaryTrees

/-- The links of all nodes of a tree, as `flat_tree.c` and `invert_tree.c` change them. -/
structure Nodes where
  left : Ptr → Ptr
  right : Ptr → Ptr

def Nodes.setLeft (s : Nodes) (p v : Ptr) : Nodes := { s with left := update s.left p v }

def Nodes.setRight (s : Nodes) (p v : Ptr) : Nodes := { s with right := update s.right p v }

/-- The loop of `flat_tree`: the last node on the way to the right. -/
def lastRight : ℕ → Nodes → Ptr → Option Ptr
  | 0, _, _ => none
  | fuel + 1, s, p => if s.right p ≠ 0 then lastRight fuel s (s.right p) else some p

def flatTree : ℕ → Nodes → Ptr → Option Nodes
  | 0, _, _ => none
  | fuel + 1, s, root =>
    if root = 0 then some s
    else do
      let s ← flatTree fuel s (s.left root)
      let s ← flatTree fuel s (s.right root)
      let left := s.left root
      let right := s.right root
      let s := (s.setLeft root 0).setRight root left
      let p ← lastRight fuel s root
      some (s.setRight p right)

def invertTree : ℕ → Nodes → Ptr → Option Nodes
  | 0, _, _ => none
  | fuel + 1, s, root =>
    if root = 0 then some s
    else do
      let left := s.left root
      let s ← invertTree fuel s left
      let right := s.right root
      let s ← invertTree fuel s right
      some ((s.setLeft root right).setRight root left)

def IsTree (s : Nodes) : Ptr → BinaryTree Ptr → Prop
  | p, .nil => p = 0
  | p, .node a l r => p = a ∧ a ≠ 0 ∧ IsTree s (s.left a) l ∧ IsTree s (s.right a) r

def SameBut (nodes : List Ptr) (s s' : Nodes) : Prop :=
  ∀ a ∉ nodes, s'.left a = s.left a ∧ s'.right a = s.right a

variable {s s' : Nodes} {p q a : Ptr} {as bs : List Ptr} {t l r : BinaryTree Ptr} {fuel : ℕ}

theorem IsTree.congr (h : IsTree s p t)
    (hs : ∀ a ∈ preorder t, s'.left a = s.left a ∧ s'.right a = s.right a) : IsTree s' p t := by
  induction t generalizing p with
  | nil => exact h
  | node a l r ihl ihr =>
    obtain ⟨hp, ha, hl, hr⟩ := h
    obtain ⟨hleft, hright⟩ := hs a List.mem_cons_self
    refine ⟨hp, ha, ?_, ?_⟩
    · rw [hleft]
      exact ihl hl fun x hx => hs x (List.mem_cons_of_mem a (List.mem_append_left _ hx))
    · rw [hright]
      exact ihr hr fun x hx => hs x (List.mem_cons_of_mem a (List.mem_append_right _ hx))

theorem IsTree.sameBut (h : IsTree s p t) (hs : SameBut as s s')
    (hdisjoint : (preorder t).Disjoint as) :
    IsTree s' p t :=
  h.congr fun a ha => hs a (hdisjoint ha)

theorem isTree_chain_cons : IsTree s p (chain (a :: as)) ↔
    p = a ∧ a ≠ 0 ∧ s.left a = 0 ∧ IsTree s (s.right a) (chain as) := Iff.rfl

theorem SameBut.trans {s'' : Nodes} {cs : List Ptr} (h : SameBut as s s') (h' : SameBut bs s' s'')
    (has : as ⊆ cs) (hbs : bs ⊆ cs) : SameBut cs s s'' := by
  intro a ha
  obtain ⟨hl, hr⟩ := h a (mt (@has a) ha)
  obtain ⟨hl', hr'⟩ := h' a (mt (@hbs a) ha)
  exact ⟨hl'.trans hl, hr'.trans hr⟩

/-- The calls for the two parts, and the node itself. -/
theorem SameBut.node {s₁ s₂ : Nodes} (h₁ : SameBut (preorder l) s s₁)
    (h₂ : SameBut (preorder r) s₁ s₂)
    (h₃ : SameBut [p] s₂ s') : SameBut (preorder (.node p l r)) s s' := by
  have hl : preorder l ⊆ preorder (.node p l r) :=
    List.Subset.trans (List.subset_append_left _ _) (List.subset_cons_self _ _)
  have hr : preorder r ⊆ preorder (.node p l r) :=
    List.Subset.trans (List.subset_append_right _ _) (List.subset_cons_self _ _)
  have hp : [p] ⊆ preorder (.node p l r) :=
    List.cons_subset.mpr ⟨List.mem_cons_self, List.nil_subset _⟩
  exact (h₁.trans h₂ hl hr).trans h₃ (List.Subset.refl _) hp

theorem sameBut_setBoth (s : Nodes) (p u v : Ptr) :
    SameBut [p] s ((s.setLeft p u).setRight p v) := by
  intro a ha
  have hne : a ≠ p := List.ne_of_not_mem_cons ha
  exact ⟨update_of_ne hne .., update_of_ne hne ..⟩

theorem sameBut_setRight (s : Nodes) (p v : Ptr) : SameBut [p] s (s.setRight p v) := by
  intro a ha
  exact ⟨rfl, update_of_ne (List.ne_of_not_mem_cons ha) ..⟩

/-- The chain is hung on behind another one. -/
theorem IsTree.append (h : IsTree s p (chain (a :: as))) (hnodup : (a :: as).Nodup)
    (hq : IsTree s q (chain bs))
    (hdisjoint : (a :: as).Disjoint bs) (hfuel : as.length < fuel) :
    ∃ z ∈ a :: as, lastRight fuel s p = some z ∧
      IsTree (s.setRight z q) p (chain (a :: (as ++ bs))) := by
  induction fuel generalizing p a as with
  | zero => exact absurd hfuel (Nat.not_lt_zero _)
  | succ fuel ih =>
    obtain ⟨rfl, hp, hleft, hrest⟩ := isTree_chain_cons.mp h
    cases as with
    | nil =>
      have hend : s.right p = 0 := hrest
      refine ⟨p, List.mem_cons_self, ?_, rfl, hp, hleft, ?_⟩
      · rw [lastRight, if_neg (not_not.mpr hend)]
      · rw [show (s.setRight p q).right p = q from update_self ..]
        apply hq.sameBut (sameBut_setRight s p q)
        rw [preorder_chain]
        exact hdisjoint.symm
    | cons b as =>
      have hb : s.right p = b := (isTree_chain_cons.mp hrest).1
      have hne : s.right p ≠ 0 := hb ▸ (isTree_chain_cons.mp hrest).2.1
      obtain ⟨hpas, hnodup⟩ := List.nodup_cons.mp hnodup
      obtain ⟨z, hz, hlast, htree⟩ := ih hrest hnodup (List.disjoint_cons_left.mp hdisjoint).2
        (Nat.lt_of_succ_lt_succ hfuel)
      have hpz : p ≠ z := fun hpz => hpas (hpz ▸ hz)
      refine ⟨z, List.mem_cons_of_mem p hz, ?_, rfl, hp, hleft, ?_⟩
      · rw [lastRight, if_pos hne, hlast]
      · rw [show (s.setRight z q).right p = s.right p from update_of_ne hpz ..]
        exact htree

structure Parts (p : Ptr) (l r : BinaryTree Ptr) : Prop where
  left : p ∉ preorder l
  right : p ∉ preorder r
  apart : (preorder l).Disjoint (preorder r)

theorem parts_of_nodup (h : (preorder (.node p l r)).Nodup) :
    Parts p l r ∧ (preorder l).Nodup ∧ (preorder r).Nodup := by
  obtain ⟨hp, hrest⟩ := List.nodup_cons.mp h
  obtain ⟨hl, hr, hdisjoint⟩ := List.nodup_append'.mp hrest
  obtain ⟨hpl, hpr⟩ := not_or.mp (mt List.mem_append.mpr hp)
  exact ⟨⟨hpl, hpr, hdisjoint⟩, hl, hr⟩

/-- A tree whose nodes are different becomes the list of its nodes in preorder. -/
theorem flatTree_eq (h : IsTree s p t) (hnodup : (preorder t).Nodup) (hfuel : t.numNodes < fuel) :
    ∃ s', flatTree fuel s p = some s' ∧ IsTree s' p (chain (preorder t)) ∧
      SameBut (preorder t) s s' := by
  induction t generalizing s p fuel with
  | nil =>
    obtain ⟨fuel, rfl⟩ := Nat.exists_eq_add_of_lt hfuel
    exact ⟨s, if_pos h, h, fun _ _ => ⟨rfl, rfl⟩⟩
  | node a l r ihl ihr =>
    cases fuel with
    | zero => exact absurd hfuel (Nat.not_lt_zero _)
    | succ fuel =>
      obtain ⟨rfl, hp, hl, hr⟩ := h
      obtain ⟨hparts, hnodupl, hnodupr⟩ := parts_of_nodup hnodup
      rw [BinaryTree.numNodes] at hfuel
      -- the calls for the two parts
      obtain ⟨s₁, hcall₁, hchain₁, hsame₁⟩ := ihl hl hnodupl (by omega : l.numNodes < fuel)
      obtain ⟨s₂, hcall₂, hchain₂, hsame₂⟩ :=
        ihr (hr.sameBut hsame₁ hparts.apart.symm) hnodupr (by omega : r.numNodes < fuel)
      have hleft : s₂.left p = s.left p := (hsame₂ p hparts.right).1.trans (hsame₁ p hparts.left).1
      have hright : s₂.right p = s.right p :=
        (hsame₂ p hparts.right).2.trans (hsame₁ p hparts.left).2
      have hchain₁' : IsTree s₂ (s.left p) (chain (preorder l)) := by
        apply hchain₁.sameBut hsame₂
        rw [preorder_chain]
        exact hparts.apart
      -- the left part is hung on to the right, and the right part behind it
      have hsame₃ := sameBut_setBoth s₂ p 0 (s.left p)
      have hfirst : IsTree ((s₂.setLeft p 0).setRight p (s.left p)) p
          (chain (p :: preorder l)) := by
        refine ⟨rfl, hp, update_self .., ?_⟩
        rw [show ((s₂.setLeft p 0).setRight p (s.left p)).right p = s.left p from update_self ..]
        apply hchain₁'.sameBut hsame₃
        rw [preorder_chain, List.disjoint_singleton]
        exact hparts.left
      have hrest : IsTree ((s₂.setLeft p 0).setRight p (s.left p)) (s.right p)
          (chain (preorder r)) := by
        apply hchain₂.sameBut hsame₃
        rw [preorder_chain, List.disjoint_singleton]
        exact hparts.right
      have hlength : (preorder l).length < fuel := by
        rw [← numNodes_eq_length]
        omega
      obtain ⟨z, hz, hlast, hflat⟩ :=
        hfirst.append (List.nodup_cons.mpr ⟨hparts.left, hnodupl⟩) hrest
        (List.disjoint_cons_left.mpr ⟨hparts.right, hparts.apart⟩) hlength
      have hz' : [z] ⊆ preorder (.node p l r) :=
        List.cons_subset.mpr ⟨List.cons_subset_cons p (List.subset_append_left _ _) hz,
          List.nil_subset _⟩
      refine ⟨_, ?_, hflat,
        (hsame₁.node hsame₂ hsame₃).trans (sameBut_setRight _ z _) (List.Subset.refl _) hz'⟩
      rw [flatTree, if_neg hp, hcall₁, Option.bind_eq_bind, Option.bind_some,
        (hsame₁ p hparts.left).2, hcall₂, Option.bind_eq_bind, Option.bind_some, hleft, hright]
      dsimp only
      rw [hlast]
      rfl

def smallTree : Nodes := ⟨fun p => if p = 1 then 2 else 0, fun p => if p = 1 then 3 else 0⟩

theorem isTree_small : IsTree smallTree 1 (.node 1 (.node 2 .nil .nil) (.node 3 .nil .nil)) :=
  ⟨rfl, by decide, ⟨rfl, by decide, rfl, rfl⟩, rfl, by decide, rfl, rfl⟩

theorem flatTree_eq_small :
    ∃ s', flatTree 4 smallTree 1 = some s' ∧ IsTree s' 1 (chain [1, 2, 3]) := by
  obtain ⟨s', hcall, htree, -⟩ := flatTree_eq isTree_small (by decide) (by decide : _ < 4)
  exact ⟨s', hcall, htree⟩

/-- Each node keeps its place in the mirror image. -/
theorem invertTree_eq (h : IsTree s p t) (hnodup : (preorder t).Nodup) (hfuel : t.numNodes < fuel) :
    ∃ s', invertTree fuel s p = some s' ∧ IsTree s' p (mirror t) ∧ SameBut (preorder t) s s' := by
  induction t generalizing s p fuel with
  | nil =>
    obtain ⟨fuel, rfl⟩ := Nat.exists_eq_add_of_lt hfuel
    exact ⟨s, if_pos h, h, fun _ _ => ⟨rfl, rfl⟩⟩
  | node a l r ihl ihr =>
    cases fuel with
    | zero => exact absurd hfuel (Nat.not_lt_zero _)
    | succ fuel =>
      obtain ⟨rfl, hp, hl, hr⟩ := h
      obtain ⟨hparts, hnodupl, hnodupr⟩ := parts_of_nodup hnodup
      rw [BinaryTree.numNodes] at hfuel
      obtain ⟨s₁, hcall₁, hmirror₁, hsame₁⟩ := ihl hl hnodupl (by omega : l.numNodes < fuel)
      obtain ⟨s₂, hcall₂, hmirror₂, hsame₂⟩ :=
        ihr (hr.sameBut hsame₁ hparts.apart.symm) hnodupr (by omega : r.numNodes < fuel)
      have hsame₃ := sameBut_setBoth s₂ p (s.right p) (s.left p)
      have hleft : ∀ b ∈ preorder (mirror l), b ∈ preorder l := fun b =>
        (preorder_mirror_perm l).mem_iff.mp
      have hright : ∀ b ∈ preorder (mirror r), b ∈ preorder r := fun b =>
        (preorder_mirror_perm r).mem_iff.mp
      refine ⟨(s₂.setLeft p (s.right p)).setRight p (s.left p), ?_, ⟨rfl, hp, ?_, ?_⟩,
        hsame₁.node hsame₂ hsame₃⟩
      · rw [invertTree, if_neg hp]
        dsimp only
        rw [hcall₁, Option.bind_eq_bind, Option.bind_some, (hsame₁ p hparts.left).2, hcall₂]
        rfl
      · rw [show ((s₂.setLeft p (s.right p)).setRight p (s.left p)).left p = s.right p
          from update_self ..]
        apply hmirror₂.sameBut hsame₃
        rw [List.disjoint_singleton]
        exact mt (hright p) hparts.right
      · rw [show ((s₂.setLeft p (s.right p)).setRight p (s.left p)).right p = s.left p
          from update_self ..]
        have hmirror₁' := hmirror₁.sameBut hsame₂ fun b hb => hparts.apart (hleft b hb)
        apply hmirror₁'.sameBut hsame₃
        rw [List.disjoint_singleton]
        exact mt (hleft p) hparts.left

theorem invertTree_eq_small : ∃ s', invertTree 4 smallTree 1 = some s' ∧
    IsTree s' 1 (.node 1 (.node 3 .nil .nil) (.node 2 .nil .nil)) := by
  obtain ⟨s', hcall, htree, -⟩ := invertTree_eq isTree_small (by decide) (by decide : _ < 4)
  exact ⟨s', hcall, htree⟩

def maxCursor (arr : ℕ → ℤ) (len : ℕ) : ℤ × ℕ :=
  (List.range len).foldl (fun m i => if m.1 < arr i then (arr i, i) else m) (arr 0, 0)

/-- `arr` is what the pointer points to, and `len` is never negative. A node is only its value
here. -/
def constructMaximumBinaryTree : ℕ → (ℕ → ℤ) → ℕ → Option (BinaryTree ℤ)
  | 0, _, _ => none
  | fuel + 1, arr, len =>
    if len < 1 then some .nil
    else do
      let cursor := (maxCursor arr len).2
      let left ← constructMaximumBinaryTree fuel arr cursor
      let right ← constructMaximumBinaryTree fuel (fun i => arr (cursor + 1 + i)) (len - cursor - 1)
      some (.node (arr cursor) left right)

section Construct

variable {arr : ℕ → ℤ} {len : ℕ}

theorem maxCursor_eq (arr : ℕ → ℤ) (len : ℕ) : ∃ cursor, maxCursor arr len = (arr cursor, cursor) ∧
    (len = 0 ∧ cursor = 0 ∨ cursor < len) ∧ (∀ j < cursor, arr j < arr cursor) ∧ ∀ j < len,
      arr j ≤ arr cursor := by
  induction len with
  | zero =>
    have hnone : ∀ j < 0, arr j ≤ arr 0 := fun j hj => absurd hj (Nat.not_lt_zero j)
    exact ⟨0, rfl, .inl ⟨rfl, rfl⟩, fun j hj => absurd hj (Nat.not_lt_zero j), hnone⟩
  | succ n ih =>
    obtain ⟨c, hc, hin, hbefore, hmax⟩ := ih
    have hturn : maxCursor arr (n + 1) = if (maxCursor arr n).1 < arr n then (arr n, n)
        else maxCursor arr n := by
      rw [maxCursor, List.range_succ, List.foldl_append]
      rfl
    rw [hc] at hturn
    by_cases hlt : arr c < arr n
    · rw [if_pos hlt] at hturn
      have hbefore' : ∀ j < n, arr j < arr n := fun j hj => (hmax j hj).trans_lt hlt
      refine ⟨n, hturn, .inr (Nat.lt_succ_self n), hbefore', fun j hj => ?_⟩
      rcases Nat.lt_succ_iff_lt_or_eq.mp hj with hj | rfl
      · exact (hbefore' j hj).le
      · exact le_refl _
    · rw [if_neg hlt] at hturn
      refine ⟨c, hturn, .inr (by omega), hbefore, fun j hj => ?_⟩
      rcases Nat.lt_succ_iff_lt_or_eq.mp hj with hj | rfl
      · exact hmax j hj
      · exact not_lt.mp hlt

theorem map_range_split (arr : ℕ → ℤ) {c : ℕ} (hc : c < len) : (List.range len).map arr =
    (List.range c).map arr ++ arr c :: (List.range (len - c - 1)).map fun i => arr (c + 1 + i) := by
  obtain ⟨k, rfl⟩ := Nat.exists_eq_add_of_lt hc
  have hk : c + k + 1 - c - 1 = k := by omega
  rw [hk, Nat.add_assoc, List.range_add, List.map_append, List.map_map, List.range_succ_eq_map,
    List.map_cons, List.map_map]
  congr 2
  apply List.map_congr_left
  intro i _
  exact congrArg arr (by simp only [Nat.succ_eq_add_one]; omega)

/-- The values are found from left to right in the tree, which is the only such one. -/
theorem constructMaximumBinaryTree_eq {fuel : ℕ} (hfuel : len < fuel) :
    ∃ t, constructMaximumBinaryTree fuel arr len = some t ∧ MaxFirst t ∧
      inorder t = (List.range len).map arr ∧
      ∀ t', MaxFirst t' → inorder t' = (List.range len).map arr → t' = t := by
  have hexists : ∃ t, constructMaximumBinaryTree fuel arr len = some t ∧ MaxFirst t ∧
      inorder t = (List.range len).map arr := by
    induction fuel generalizing arr len with
    | zero => exact absurd hfuel (Nat.not_lt_zero len)
    | succ fuel ih =>
      by_cases hlen : len < 1
      · obtain rfl : len = 0 := Nat.lt_one_iff.mp hlen
        exact ⟨.nil, rfl, trivial, rfl⟩
      · obtain ⟨c, hc, hin, hbefore, hmax⟩ := maxCursor_eq arr len
        have hlt : c < len := hin.resolve_left fun h => hlen (by omega)
        obtain ⟨l, hl, hmaxl, hinl⟩ : ∃ t,
          constructMaximumBinaryTree fuel arr c = some t ∧ MaxFirst t ∧
            inorder t = (List.range c).map arr := ih (by omega)
        obtain ⟨r, hr, hmaxr, hinr⟩ :
            ∃ t, constructMaximumBinaryTree fuel (fun i => arr (c + 1 + i)) (len - c - 1) =
              some t ∧ MaxFirst t ∧
              inorder t = (List.range (len - c - 1)).map fun i => arr (c + 1 + i) := ih (by omega)
        refine ⟨.node (arr c) l r, ?_, ⟨fun x hx => ?_, fun x hx => ?_, hmaxl, hmaxr⟩, ?_⟩
        · rw [constructMaximumBinaryTree, if_neg hlen, hc]
          dsimp only
          rw [hl, Option.bind_eq_bind, Option.bind_some, hr]
          rfl
        · rw [hinl] at hx
          obtain ⟨j, hj, rfl⟩ := List.mem_map.mp hx
          exact hbefore j (List.mem_range.mp hj)
        · rw [hinr] at hx
          obtain ⟨j, hj, rfl⟩ := List.mem_map.mp hx
          have hj := List.mem_range.mp hj
          exact hmax _ (by omega)
        · rw [inorder, hinl, hinr, map_range_split arr hlt]
  obtain ⟨t, ht, hmax, hin⟩ := hexists
  exact ⟨t, ht, hmax, hin, fun t' hmax' hin' => maxFirst_unique hmax' hmax (hin'.trans hin.symm)⟩

end Construct

theorem constructMaximumBinaryTree_eq_six : ∃ t,
    constructMaximumBinaryTree 7 (fun i => [3, 2, 1, 6, 0, 5].getD i 0) 6 = some t ∧
      inorder t = [3, 2, 1, 6, 0, 5] := by
  obtain ⟨t, ht, -, hin, -⟩ :=
    @constructMaximumBinaryTree_eq (fun i => [3, 2, 1, 6, 0, 5].getD i 0) 6 7 (by decide)
  exact ⟨t, ht, hin⟩

end Unos.DataStructure
