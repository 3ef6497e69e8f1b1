import Unos.BPlusTree.Levels

namespace Unos.BPlusTree

open Unos.Arrays Unos.Fences

/-- The places `a` and `b` follow each other in the row of `y`. -/
abbrev PairAt (order : ℕ) (h : Heap) (root k : ℕ) (L₁ : List Place) (a b : Place) (L₂ : List Place)
    (U : List ℕ) (P₁ : List Place) (y : Place) (P₂ r₁ r₂ : List Place) (V : List ℕ) : Prop :=
  ParentAt order h root k L₁ a (b :: L₂) U P₁ y P₂ r₁ (b :: r₂) V

section Facts

variable {order root k : ℕ} {h h' : Heap} {L₁ L₂ P₁ P₂ r₁ r₂ : List Place} {U V : List ℕ}
  {x y a b : Place}

theorem ParentAt.congr (hp : ParentAt order h root k L₁ x L₂ U P₁ y P₂ r₁ r₂ V)
    (hbody : ∀ a ∈ U, SameBody (h'.nodes a) (h.nodes a))
    (hparent : ∀ a ∈ U ++ addrs (L₁ ++ x :: L₂), (h'.nodes a).parent = (h.nodes a).parent) :
    ParentAt order h' root k L₁ x L₂ U P₁ y P₂ r₁ r₂ V := by
  have hup : ∀ z ∈ P₁ ++ y :: P₂, SameBody (h'.nodes z.2) (h.nodes z.2) := fun z hz =>
    hbody z.2 (hp.mem_upper_of_above (List.mem_append_right _ (mem_addrs hz)))
  have hrow : rowOf h' y = rowOf h y := rowOf_congr (hup y (by simp))
  have h1 : P₁.flatMap (rowOf h') = P₁.flatMap (rowOf h) :=
    flatMap_rowOf_congr fun z hz => hup z (List.mem_append_left _ hz)
  have h2 : P₂.flatMap (rowOf h') = P₂.flatMap (rowOf h) :=
    flatMap_rowOf_congr fun z hz => hup z (List.mem_append_right _ (List.mem_cons_of_mem _ hz))
  refine ⟨hrow.trans hp.row, ?_, ?_, hp.nodes, fun z hz => (hp.inner z hz).congr (hup z hz),
    fun z hz c hc => ?_, hp.tower.congr (fun a ha => ?_) fun a ha => ?_⟩
  · rw [h1]
    exact hp.before
  · rw [h2]
    exact hp.behind
  · rw [(hup z hz).children] at hc
    rw [hparent c (List.mem_append_right _ (hp.mem_level hz hc))]
    exact hp.child z hz c hc
  · exact hbody a (hp.mem_upper_of_above (List.mem_append_left _ ha))
  · exact hparent a (List.mem_append_left _ (hp.mem_upper_of_above ha))

theorem ParentAt.exists_pair (horder : 3 ≤ order)
    (hp : ParentAt order h root k L₁ x L₂ U P₁ y P₂ r₁ r₂ V) :
    (∃ L w r, L₁ = L ++ [w] ∧ PairAt order h root k L w x L₂ U P₁ y P₂ r r₂ V) ∨
      ∃ w L r, L₂ = w :: L ∧ PairAt order h root k L₁ x w L U P₁ y P₂ [] r V := by
  obtain ⟨hrow, hbefore, hbehind, hnodes, hinner, hchild, htower⟩ := hp
  rcases List.eq_nil_or_concat r₁ with rfl | ⟨r, w, rfl⟩
  · right
    cases r₂ with
    | nil =>
      -- the node would have no key
      have hlen := congrArg List.length hrow
      have hmin := (one_le_minKeys horder k).trans (hinner y (by simp)).min
      rw [rowOf, length_row (Node.length_row_lists _), Node.length_children, List.length_append,
        List.length_singleton, List.length_nil] at hlen
      omega
    | cons w r => exact ⟨w, r ++ P₂.flatMap (rowOf h), r, hbehind, hrow, hbefore, rfl, hnodes,
      hinner, hchild, htower⟩
  · left
    rw [List.concat_eq_append] at hrow hbefore
    refine ⟨P₁.flatMap (rowOf h) ++ r, w, r, ?_, ?_, rfl, ?_, hnodes, hinner, hchild, htower⟩
    · rw [hbefore, List.append_assoc]
    · rw [hrow, List.append_assoc, List.singleton_append]
    · rw [hbehind]
      rfl

namespace PairAt

theorem level (hp : PairAt order h root k L₁ a b L₂ U P₁ y P₂ r₁ r₂ V) :
    L₁ ++ a :: b :: L₂ = (P₁ ++ y :: P₂).flatMap (rowOf h) := hp.level_eq

/-- The right one of a pair is a child of the node as well. -/
theorem second (hp : PairAt order h root k L₁ a b L₂ U P₁ y P₂ r₁ r₂ V) :
    ParentAt order h root k (L₁ ++ [a]) b L₂ U P₁ y P₂ (r₁ ++ [a]) r₂ V := by
  obtain ⟨hrow, hbefore, hbehind, hnodes, hinner, hchild, htower⟩ := hp
  refine ⟨?_, ?_, (List.cons.inj hbehind).2, hnodes, hinner, hchild, htower⟩
  · rw [hrow, List.append_assoc, List.singleton_append]
  · rw [hbefore, List.append_assoc]

/-- The parts of the node around the pair. -/
theorem parts (hp : PairAt order h root k L₁ a b L₂ U P₁ y P₂ r₁ r₂ V) :
    ∃ (k₁ : List ℤ) (key : ℤ) (k₂ : List ℤ) (c₁ c₂ : List ℕ),
      (h.nodes y.2).keyList = k₁ ++ key :: k₂ ∧ (h.nodes y.2).children = c₁ ++ a.2 :: b.2 :: c₂ ∧
      b.1 = ↑key ∧ k₁.length = c₁.length ∧ c₁.length = r₁.length ∧
      Fences.row y.1 k₁ (c₁ ++ [a.2]) = r₁ ++ [a] ∧ later k₂ c₂ = r₂ := by
  obtain ⟨k₁, key, k₂, c₁, c₂, hk, hc, hb, h1, h2, -, h3, h4⟩ :=
    row_eq_append_pair (Node.length_row_lists _) hp.row
  exact ⟨k₁, key, k₂, c₁, c₂, hk, hc, hb, h1, h2, h3, h4⟩

/-- The cells of the node at the pair. -/
theorem cells (hp : PairAt order h root k L₁ a b L₂ U P₁ y P₂ r₁ r₂ V) :
    b.1 = ↑((h.nodes y.2).keys r₁.length) ∧ (h.nodes y.2).pointers r₁.length = a.2 ∧
      (h.nodes y.2).pointers (r₁.length + 1) = b.2 := by
  obtain ⟨k₁, key, k₂, c₁, c₂, hk, hc, hb, h1, h2, -, -⟩ := hp.parts
  obtain ⟨-, -, hkey, -⟩ := slice_eq_append_cons hk
  obtain ⟨-, -, hleft, hrest⟩ := slice_eq_append_cons hc
  rw [List.length_cons, slice] at hrest
  rw [Nat.zero_add, h2] at hleft hrest
  rw [Nat.zero_add, h1, h2] at hkey
  exact ⟨hb.trans (congrArg _ hkey.symm), hleft, (List.cons.inj hrest).1⟩

theorem set_key (hp : PairAt order h root k L₁ a b L₂ U P₁ y P₂ r₁ r₂ V)
    (hplaced : Placed h (L₁ ++ a :: b :: L₂) U) {newKey : ℤ}
    (hnode : h'.nodes y.2 = { h.nodes y.2 with
      keys := Function.update (h.nodes y.2).keys r₁.length newKey })
    (hbody : ∀ x ∈ U, x ≠ y.2 → SameBody (h'.nodes x) (h.nodes x))
    (hparent : ∀ x ∈ U ++ addrs (L₁ ++ a :: b :: L₂), (h'.nodes x).parent = (h.nodes x).parent) :
    Tower order h' root (k + 1) (L₁ ++ a :: (↑newKey, b.2) :: L₂) U := by
  obtain ⟨k₁, key, k₂, c₁, c₂, hk, hc, hb, h1, h2, h3, h4⟩ := hp.parts
  have hkeys : (h'.nodes y.2).keyList = k₁ ++ newKey :: k₂ := by
    rw [hnode, Node.keyList, ← h2, ← h1]
    exact slice_update hk
  have hchildren : (h'.nodes y.2).children = c₁ ++ a.2 :: b.2 :: c₂ := by
    rw [hnode, ← hc]
    rfl
  have hrow : rowOf h' y = r₁ ++ a :: (↑newKey, b.2) :: r₂ := by
    rw [rowOf, hkeys, hchildren, row_join h1 h3, later_cons, row_cons, h4]
  -- read as the replacement of `b` behind `a`
  have hrow' : rowOf h' y = (r₁ ++ [a]) ++ ([((newKey : WithBot ℤ), b.2)] ++ r₂) := by
    rw [hrow, List.append_assoc, List.singleton_append, List.singleton_append]
  have hplaced' : Placed h ((L₁ ++ [a]) ++ b :: L₂) U := by
    rw [List.append_assoc]
    exact hplaced
  have hinner : Inner order k (h'.nodes y.2) := by
    have hy := hp.inner y (by simp)
    rw [hnode]
    exact ⟨hy.isLeaf, hy.min, hy.max⟩
  have hlevel : addrs (L₁ ++ [a] ++ b :: L₂) = addrs (L₁ ++ a :: b :: L₂) := by
    rw [List.append_assoc, List.singleton_append]
  have hreplace := hp.second.replace hplaced' hrow' hinner (fun z hz => ?_) hbody (by rwa [hlevel])
  · rw [List.append_assoc] at hreplace
    exact hreplace
  · rw [List.mem_singleton.mp hz]
    rw [hparent b.2 (List.mem_append_right _ (mem_addrs (x := b) (by simp)))]
    exact hp.second.parent_eq

end PairAt

end Facts

section Neighbor

variable {order root k : ℕ} {h : Heap} {L₁ L₂ P₁ P₂ r₁ r₂ : List Place} {U V : List ℕ}
  {x y a b : Place}

theorem ParentAt.nodup_children (hp : ParentAt order h root k L₁ x L₂ U P₁ y P₂ r₁ r₂ V)
    (hplaced : Placed h (L₁ ++ x :: L₂) U) : (h.nodes y.2).children.Nodup := by
  rw [hp.level_eq] at hplaced
  exact hplaced.children_nodup (by simp)

theorem ParentAt.getNeighborIndex_eq (hp : ParentAt order h root k L₁ x L₂ U P₁ y P₂ r₁ r₂ V)
    (hplaced : Placed h (L₁ ++ x :: L₂) U) :
    getNeighborIndex h x.2 = some ((r₁.length : ℤ) - 1) := by
  have hnodup := hp.nodup_children hplaced
  obtain ⟨k₁, k₂, c₁, c₂, hk, hc, h1, h2, h3, -, -⟩ :=
    row_eq_append_cons (Node.length_row_lists _) hp.row
  have hscan : scan (fun i => (h.nodes y.2).pointers i != x.2) ((h.nodes y.2).numKeys + 1) 0 =
      c₁.length := by
    apply scan_children hc
    rw [hc] at hnodup
    exact fun hmem => (List.nodup_append.mp hnodup).2.2 _ hmem _ List.mem_cons_self rfl
  have hnum := congrArg List.length hk
  rw [Node.length_keyList, List.length_append] at hnum
  unfold getNeighborIndex
  dsimp only
  rw [hp.parent_eq, hscan, if_neg (by omega), h2]

variable {M : Malloc} {fuel : ℕ} {nd : Node} {key kp : ℤ} {pointer : ℕ} {h₁ : Heap}

/-- The smallest number of keys that `delete_entry` leaves a node alone with. -/
def fewest (order : ℕ) (isLeaf : Bool) : ℕ := if isLeaf then cut (order - 1) else cut order - 1

/-- The number of keys from which on `delete_entry` does not merge two nodes. -/
def capacity (order : ℕ) (isLeaf : Bool) : ℕ := if isLeaf then order else order - 1

theorem deleteEntry_root {n : ℕ}
    (hrem : removeEntryFromNode order (h.nodes n) key pointer = some nd)
    (hh₁ : h₁ = h.modify n fun _ => nd) (hroot : n = root) :
    deleteEntry order (fuel + 1) h root n key pointer = some (adjustRoot h₁ root) := by
  rw [deleteEntry, hrem]
  dsimp only [Option.bind_eq_bind, Option.bind_some]
  rw [if_pos hroot, hh₁]

theorem deleteEntry_enough {n : ℕ}
    (hrem : removeEntryFromNode order (h.nodes n) key pointer = some nd)
    (hh₁ : h₁ = h.modify n fun _ => nd) (hroot : n ≠ root)
    (henough : fewest order nd.isLeaf ≤ nd.numKeys) :
    deleteEntry order (fuel + 1) h root n key pointer = some (h₁, root) := by
  rw [deleteEntry, hrem]
  dsimp only [Option.bind_eq_bind, Option.bind_some]
  rw [if_neg hroot, hh₁]
  exact if_pos henough

theorem deleteEntry_left (hp : PairAt order h₁ root k L₁ a b L₂ U P₁ y P₂ r₁ r₂ V)
    (hplaced : Placed h₁ (L₁ ++ a :: b :: L₂) U) (hkp : b.1 = ↑kp)
    (hrem : removeEntryFromNode order (h.nodes b.2) key pointer = some nd)
    (hh₁ : h₁ = h.modify b.2 fun _ => nd) (hroot : b.2 ≠ root)
    (hfew : ¬ fewest order nd.isLeaf ≤ nd.numKeys) :
    deleteEntry order (fuel + 1) h root b.2 key pointer =
      if (h₁.nodes a.2).numKeys + nd.numKeys < capacity order nd.isLeaf then do
        let r ← deleteEntry order fuel (mergeNodes order h₁ b.2 a.2 kp) root
          ((mergeNodes order h₁ b.2 a.2 kp).nodes b.2).parent kp b.2
        some (r.1.free b.2, r.2)
      else some (borrowLeft h₁ b.2 a.2 r₁.length kp, root) := by
  have hplaced' : Placed h₁ ((L₁ ++ [a]) ++ b :: L₂) U := by
    rw [List.append_assoc]
    exact hplaced
  have hindex : getNeighborIndex h₁ b.2 = some (r₁.length : ℤ) := by
    rw [hp.second.getNeighborIndex_eq hplaced', List.length_append, List.length_singleton]
    congr 1
    omega
  obtain ⟨hkey, hleft, -⟩ := hp.cells
  have hparent : nd.parent = y.2 := by
    rw [← hp.second.parent_eq, hh₁, modify_nodes_self]
  have hkp' : (h₁.nodes y.2).keys r₁.length = kp := WithBot.coe_inj.mp (hkey.symm.trans hkp)
  have hne : ((r₁.length : ℕ) : ℤ) ≠ -1 := by omega
  rw [deleteEntry, hrem]
  dsimp only [Option.bind_eq_bind, Option.bind_some]
  rw [if_neg hroot, ← hh₁]
  rw [if_neg (show ¬ (if nd.isLeaf then cut (order - 1) else cut order - 1) ≤ nd.numKeys from hfew),
    hindex]
  dsimp only [Option.bind_some]
  rw [if_neg hne, if_neg hne, if_neg hne, Int.toNat_natCast, hparent, hleft, hkp',
    redistributeNodes, if_pos hne]
  rfl

theorem deleteEntry_right (hp : PairAt order h₁ root k L₁ a b L₂ U P₁ y P₂ [] r₂ V)
    (hplaced : Placed h₁ (L₁ ++ a :: b :: L₂) U) (hkp : b.1 = ↑kp)
    (hrem : removeEntryFromNode order (h.nodes a.2) key pointer = some nd)
    (hh₁ : h₁ = h.modify a.2 fun _ => nd) (hroot : a.2 ≠ root)
    (hfew : ¬ fewest order nd.isLeaf ≤ nd.numKeys) :
    deleteEntry order (fuel + 1) h root a.2 key pointer =
      if (h₁.nodes b.2).numKeys + nd.numKeys < capacity order nd.isLeaf then do
        let r ← deleteEntry order fuel (mergeNodes order h₁ b.2 a.2 kp) root
          ((mergeNodes order h₁ b.2 a.2 kp).nodes b.2).parent kp b.2
        some (r.1.free b.2, r.2)
      else some (borrowRight h₁ a.2 b.2 0 kp, root) := by
  have hindex : getNeighborIndex h₁ a.2 = some (-1) := hp.getNeighborIndex_eq hplaced
  obtain ⟨hkey, -, hright⟩ := hp.cells
  rw [List.length_nil] at hkey hright
  have hparent : nd.parent = y.2 := by
    rw [← hp.parent_eq, hh₁, modify_nodes_self]
  have hkp' : (h₁.nodes y.2).keys 0 = kp := WithBot.coe_inj.mp (hkey.symm.trans hkp)
  rw [deleteEntry, hrem]
  dsimp only [Option.bind_eq_bind, Option.bind_some]
  rw [if_neg hroot, ← hh₁]
  rw [if_neg (show ¬ (if nd.isLeaf then cut (order - 1) else cut order - 1) ≤ nd.numKeys from hfew),
    hindex]
  dsimp only [Option.bind_some]
  rw [if_pos rfl, if_pos rfl, if_pos rfl, hparent, hright, hkp', redistributeNodes,
    if_neg (not_not_intro (Eq.refl (-1 : ℤ)))]
  rfl

end Neighbor

end Unos.BPlusTree
