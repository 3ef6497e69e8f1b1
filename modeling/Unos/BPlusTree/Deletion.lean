import Unos.BPlusTree.Repair

namespace Unos.BPlusTree

open Unos.Arrays Unos.Fences

section Facts

variable {order root k : ℕ} {h h₁ h' : Heap} {L₁ L₂ P P' P₁ P₂ Q₁ Q₂ r₁ r₂ s₁ s₂ : List Place}
  {U V W X Y : List ℕ} {a b w y z : Place} {key : ℤ}

/-- The node `y` lost the child `b` behind `a`. -/
structure Removed (h h₁ : Heap) (y a b : Place) (r₁ r₂ : List Place) : Prop where
  row : rowOf h₁ y = r₁ ++ a :: r₂
  isLeaf : (h₁.nodes y.2).isLeaf = false
  numKeys : (h₁.nodes y.2).numKeys + 1 = (h.nodes y.2).numKeys
  other : ∀ x, x ≠ y.2 → h₁.nodes x = h.nodes x
  parent : ∀ x, (h₁.nodes x).parent = (h.nodes x).parent
  live : h₁.live = h.live
  records : h₁.records = h.records

theorem PairAt.removed (hp : PairAt order h root k L₁ a b L₂ U P₁ y P₂ r₁ r₂ V)
    (hplaced : Placed h (L₁ ++ a :: b :: L₂) U) (hrise : Rising (L₁ ++ a :: b :: L₂))
    (hkey : b.1 = ↑key) :
    ∃ nd, removeEntryFromNode order (h.nodes y.2) key b.2 = some nd ∧
      Removed h (h.modify y.2 fun _ => nd) y a b r₁ r₂ := by
  obtain ⟨k₁, key', k₂, c₁, c₂, hk, hc, hb, h1, h2, h3, h4⟩ := hp.parts
  obtain rfl : key' = key := WithBot.coe_inj.mp (hb.symm.trans hkey)
  have hinner := hp.inner y (by simp)
  -- the key and the child are each found once
  have hkeys : (h.nodes y.2).keyList.Pairwise (· < ·) := by
    refine Rising.keys (f := y.1) (Node.length_row_lists _) ?_
    rw [hp.level, List.flatMap_append, List.flatMap_cons] at hrise
    exact (List.pairwise_append.mp (List.pairwise_append.mp hrise).2.1).1
  have hnotKey : key' ∉ k₁ := fun hmem => by
    rw [hk] at hkeys
    exact lt_irrefl key' ((List.pairwise_append.mp hkeys).2.2 key' hmem key' List.mem_cons_self)
  have hnotChild : b.2 ∉ c₁ ++ [a.2] := fun hmem => by
    have hnodup := hp.nodup_children hplaced
    rw [hc, ← List.singleton_append, ← List.append_assoc] at hnodup
    exact (List.nodup_append.mp hnodup).2.2 b.2 hmem b.2 List.mem_cons_self rfl
  obtain ⟨nd, hnd, hndKeys, hndChildren, hndLeaf, hndParent, hndNum⟩ :=
    removeEntryFromNode_inner hinner.isLeaf hk hnotKey hc h1 hnotChild hinner.max
  refine ⟨nd, hnd, ?_, ?_, ?_, fun x hx => modify_nodes_of_ne hx, fun x => ?_, rfl, rfl⟩
  · rw [rowOf, modify_nodes_self, hndKeys, hndChildren, row_join h1 h3, h4]
  · rw [modify_nodes_self, hndLeaf]
  · rw [modify_nodes_self, hndNum]
  · by_cases hx : x = y.2
    · rw [hx, modify_nodes_self, hndParent]
    · rw [modify_nodes_of_ne hx]

namespace Removed

/-- What happens to the rest of the tree afterwards happens to the tree. -/
theorem changed (hr : Removed h h₁ y a b r₁ r₂) (hy : y.2 ∈ U) (hc : Changed h₁ h' U X V)
    (hsub : ∀ c ∈ X, c ∈ Y) : Changed h h' U Y V := by
  obtain ⟨hbody, hparent, hkeeps, hupper, hnodup, hzero, hrecords⟩ := hc
  rw [hr.live] at hbody hparent hkeeps hupper
  refine ⟨fun x hx hxU => ?_, fun x hx hxU hxY => ?_, hkeeps, hupper, hnodup, hzero,
    hrecords.trans hr.records⟩
  · rw [← hr.other x fun heq => hxU (heq ▸ hy)]
    exact hbody x hx hxU
  · rw [← hr.parent x]
    exact hparent x hx hxU fun hX => hxY (hsub x hX)

theorem placed (hr : Removed h h₁ y a b r₁ r₂) (hplaced : Placed h (L₁ ++ a :: b :: L₂) U) :
    Placed h₁ (L₁ ++ a :: L₂) U := by
  have hsub : (U ++ addrs (L₁ ++ a :: L₂)).Sublist (U ++ addrs (L₁ ++ a :: b :: L₂)) := by
    rw [addrs_append, addrs_append, addrs_cons, addrs_cons, addrs_cons]
    exact (((List.sublist_cons_self _ _).cons_cons _).append_left _).append_left _
  refine ⟨hplaced.nodup.sublist hsub, fun x hx => ?_, ?_⟩
  · rw [hr.live]
    exact hplaced.live x (hsub.subset hx)
  · rw [hr.live]
    exact hplaced.zero

/-- The node still has enough. -/
theorem tower (hr : Removed h h₁ y a b r₁ r₂)
    (hp : PairAt order h root k L₁ a b L₂ U P₁ y P₂ r₁ r₂ V)
    (hplaced : Placed h (L₁ ++ a :: b :: L₂) U) (hmin : minKeys order k ≤ (h₁.nodes y.2).numKeys) :
    Tower order h₁ root (k + 1) (L₁ ++ a :: L₂) U := by
  have hplaced' : Placed h ((L₁ ++ [a]) ++ b :: L₂) U := by
    rw [List.append_assoc]
    exact hplaced
  have hrow : rowOf h₁ y = (r₁ ++ [a]) ++ ([] ++ r₂) := by
    rw [hr.row, List.append_assoc]
    rfl
  have hinner : Inner order k (h₁.nodes y.2) := by
    have hmax := (hp.inner y (by simp)).max
    have hnum := hr.numKeys
    exact ⟨hr.isLeaf, hmin, by omega⟩
  have hreplace := hp.second.replace hplaced' hrow hinner (fun z hz => absurd hz List.not_mem_nil)
    (fun x _ hx => ?_) fun x _ => hr.parent x
  · rw [List.append_assoc] at hreplace
    exact hreplace
  · rw [hr.other x hx]
    exact SameBody.refl _

/-- The level below, row by row. -/
theorem level (hr : Removed h h₁ y a b r₁ r₂)
    (hp : PairAt order h root k L₁ a b L₂ U P₁ y P₂ r₁ r₂ V)
    (hplaced : Placed h (L₁ ++ a :: b :: L₂) U) :
    (P₁ ++ y :: P₂).flatMap (rowOf h₁) = L₁ ++ a :: L₂ := by
  have hother : ∀ w ∈ P₁ ++ P₂, SameBody (h₁.nodes w.2) (h.nodes w.2) := fun w hw => by
    rw [hr.other w.2 (hp.ne_of_mem hplaced (List.mem_append_right _ (mem_addrs hw)))]
    exact SameBody.refl _
  have h1 := flatMap_rowOf_congr fun w hw => hother w (List.mem_append_left P₂ hw)
  have h2 := flatMap_rowOf_congr fun w hw => hother w (List.mem_append_right P₁ hw)
  rw [List.flatMap_append, List.flatMap_cons, h1, h2, hr.row, hp.before, hp.second.behind]
  simp only [List.append_assoc, List.cons_append]

/-- The node that lost a child, and its neighbor. -/
theorem siblings (hr : Removed h h₁ y a b r₁ r₂)
    (hp : PairAt order h root (k + 1) L₁ a b L₂ U P₁ y P₂ r₁ r₂ V)
    (hplaced : Placed h (L₁ ++ a :: b :: L₂) U) {p q : Place}
    (hpair : PairAt order h root k P p q P' V Q₁ z Q₂ s₁ s₂ W)
    (hlevel : P ++ p :: q :: P' = P₁ ++ y :: P₂)
    (hmem : ∀ w ∈ P ++ P', w ∈ P₁ ++ P₂) {kp : ℤ} (hkp : q.1 = ↑kp) :
    Siblings order h₁ root k P p q P' V Q₁ z Q₂ s₁ s₂ W kp := by
  have hne : ∀ x ∈ V ++ addrs (P₁ ++ P₂), x ≠ y.2 := fun x hx => hp.ne_of_mem hplaced hx
  have hleaf : ∀ w ∈ P₁ ++ y :: P₂, (h₁.nodes w.2).isLeaf = false := fun w hw => by
    by_cases hwy : w.2 = y.2
    · rw [hwy]
      exact hr.isLeaf
    · rw [hr.other _ hwy]
      exact (hp.inner w hw).isLeaf
  refine ⟨hpair.congr (fun x hx => ?_) fun x _ => hr.parent x, ?_, fun w hw => ?_,
    fun w hw c hc => ?_, hleaf p (hlevel ▸ by simp), hleaf q (hlevel ▸ by simp), hkp⟩
  · rw [hr.other x (hne x (List.mem_append_left _ hx))]
    exact SameBody.refl _
  · rw [hlevel, hr.level hp hplaced, ← hp.nodes]
    exact hr.placed hplaced
  · have hw' := hmem w hw
    rw [hr.other _ (hne _ (List.mem_append_right _ (mem_addrs hw')))]
    refine hp.inner w ?_
    rw [List.mem_append] at hw' ⊢
    exact hw'.imp_right (List.mem_cons_of_mem _)
  · rw [hlevel] at hw
    rw [hr.parent]
    refine hp.child w hw c ?_
    by_cases hwy : w.2 = y.2
    · rw [hwy] at hc ⊢
      rw [← addrs_rowOf, hr.row] at hc
      rw [← addrs_rowOf, hp.row]
      simp only [addrs_append, addrs_cons, List.mem_append, List.mem_cons] at hc ⊢
      tauto
    · rwa [hr.other _ hwy] at hc

/-- The other nodes of the level have enough keys. -/
theorem neighbor (hr : Removed h h₁ y a b r₁ r₂)
    (hp : PairAt order h root (k + 1) L₁ a b L₂ U P₁ y P₂ r₁ r₂ V)
    (hplaced : Placed h (L₁ ++ a :: b :: L₂) U) (hw : w ∈ P₁ ++ P₂) :
    cut order - 1 ≤ (h₁.nodes w.2).numKeys ∧ (h₁.nodes w.2).numKeys ≤ order - 1 := by
  have hinner : Inner order (k + 1) (h.nodes w.2) := by
    refine hp.inner w ?_
    rw [List.mem_append] at hw ⊢
    exact hw.imp_right (List.mem_cons_of_mem _)
  rw [hr.other w.2 (hp.ne_of_mem hplaced (List.mem_append_right _ (mem_addrs hw)))]
  exact ⟨hinner.cut_le (Nat.succ_pos k), hinner.max⟩

end Removed

end Facts

section Deletion

variable {order root k fuel : ℕ} {h h₁ : Heap} {L₁ L₂ P₁ P₂ r₁ r₂ : List Place} {U V : List ℕ}
  {a b y : Place} {key : ℤ}

theorem adjustRoot_inner (hr : Removed h h₁ y a b r₁ r₂)
    (hp : PairAt order h root 0 L₁ a b L₂ U P₁ y P₂ r₁ r₂ V)
    (hplaced : Placed h (L₁ ++ a :: b :: L₂) U) :
    ∃ h' root' k' U', adjustRoot h₁ root = (h', root') ∧
      Tower order h' root' k' (L₁ ++ a :: L₂) U' ∧
      Changed h h' U (addrs (L₁ ++ a :: b :: L₂)) U' := by
  have hy := (hp.tower.eq_root_iff (hp.placed_above hplaced)).mpr rfl
  have hplaced₁ := hr.placed hplaced
  rw [adjustRoot, ← hy]
  by_cases hpos : 0 < (h₁.nodes y.2).numKeys
  · rw [if_pos hpos]
    refine ⟨h₁, y.2, 1, U, rfl, hy ▸ hr.tower hp hplaced hpos, ?_⟩
    exact hr.changed hp.mem_upper (Changed.refl hplaced₁ []) fun c hc => absurd hc List.not_mem_nil
  -- the only child is the new root
  rw [if_neg hpos, hr.isLeaf, if_neg Bool.false_ne_true]
  dsimp only
  obtain ⟨rfl, rfl, rfl⟩ := hp.tower.alone
  obtain ⟨-, hV, -⟩ := hp.tower
  have hnum : (h₁.nodes root).numKeys = 0 := Nat.eq_zero_of_not_pos hpos
  have hchildren : (h₁.nodes root).children = [(h₁.nodes root).pointers 0] := by
    rw [Node.children, hnum]
    rfl
  have hkeys : (h₁.nodes root).keyList = [] := by
    rw [Node.keyList, hnum]
    rfl
  have hrow := hr.row
  rw [rowOf, hkeys, hchildren] at hrow
  have hra : r₁ = [] ∧ a = (⊥, (h₁.nodes root).pointers 0) ∧ r₂ = [] := by
    cases r₁ with
    | nil => exact ⟨rfl, (List.cons.inj hrow).1.symm, (List.cons.inj hrow).2.symm⟩
    | cons w r => exact absurd (List.cons.inj hrow).2 (by simp)
  obtain ⟨rfl, ha, rfl⟩ := hra
  have hL₁ : L₁ = [] := hp.before
  have hL₂ : L₂ = [] := hp.second.behind
  have hU : U = [root] := by
    rw [hp.nodes, hV]
    rfl
  subst hL₁ hL₂ hU
  have hchild : (h₁.nodes root).pointers 0 = a.2 := (congrArg Prod.snd ha).symm
  have ha' : a = (⊥, a.2) := ha.trans (congrArg (Prod.mk ⊥) hchild)
  dsimp only
  rw [hchild]
  have haroot : a.2 ≠ root := fun heq =>
    hplaced.not_mem_upper (mem_addrs (x := a) (by simp)) (heq ▸ List.mem_singleton_self _)
  have halive : a.2 ∈ h.live := hplaced.live a.2 (by simp)
  refine ⟨_, _, 0, [], rfl, ⟨?_, rfl, ?_⟩, ?_⟩
  · rw [List.nil_append, ← ha']
  · rw [free_nodes, modify_nodes_self]
  refine hr.changed (List.mem_singleton_self _) (X := [a.2]) ?_ fun c hc => ?_
  · refine ⟨fun x _ _ => ?_, fun x _ _ hx => ?_, fun x hx hxroot => ?_,
      fun x hx => absurd hx List.not_mem_nil, List.nodup_nil, ?_, rfl⟩
    · rw [free_nodes]
      by_cases hx : x = a.2
      · rw [hx, modify_nodes_self]
        exact SameBody.parent _ _
      · rw [modify_nodes_of_ne hx]
        exact SameBody.refl _
    · have hxa : x ≠ a.2 := fun heq => hx (List.mem_singleton.mpr heq)
      rw [free_nodes, modify_nodes_of_ne hxa]
    · exact Finset.mem_erase.mpr ⟨fun heq => hxroot (heq ▸ List.mem_singleton_self _), hx⟩
    · exact fun h0 => hplaced₁.zero (Finset.mem_of_mem_erase h0)
  · rw [List.mem_singleton.mp hc]
    exact mem_addrs (by simp)

/-- The place `b` leaves a level. -/
theorem deleteEntry_spec (horder : 3 ≤ order)
    (hp : PairAt order h root k L₁ a b L₂ U P₁ y P₂ r₁ r₂ V)
    (hplaced : Placed h (L₁ ++ a :: b :: L₂) U) (hrise : Rising (L₁ ++ a :: b :: L₂))
    (hkey : b.1 = ↑key) (hfuel : k < fuel) :
    ∃ h' root' k' U', deleteEntry order fuel h root y.2 key b.2 = some (h', root') ∧
      Tower order h' root' k' (L₁ ++ a :: L₂) U' ∧
      Changed h h' U (addrs (L₁ ++ a :: b :: L₂)) U' := by
  induction fuel generalizing k h L₁ a b L₂ U P₁ y P₂ r₁ r₂ V key with
  | zero => exact absurd hfuel (Nat.not_lt_zero _)
  | succ fuel ih =>
    obtain ⟨nd, hnd, hr⟩ := hp.removed hplaced hrise hkey
    generalize hh₁ : (h.modify y.2 fun _ => nd) = h₁ at hr
    have hnode : h₁.nodes y.2 = nd := by rw [← hh₁, modify_nodes_self]
    have hleaf : nd.isLeaf = false := hnode ▸ hr.isLeaf
    have hmin := hp.inner y (by simp)
    have hnum := hr.numKeys
    rw [hnode] at hnum
    have hsub : ∀ c ∈ addrs (L₁ ++ a :: L₂), c ∈ addrs (L₁ ++ a :: b :: L₂) := fun c hc => by
      simp only [addrs_append, addrs_cons, List.mem_append, List.mem_cons] at hc ⊢
      tauto
    cases k with
    | zero =>
      have hy := (hp.tower.eq_root_iff (hp.placed_above hplaced)).mpr rfl
      obtain ⟨h', root', k', U', heq, ht, hc⟩ := adjustRoot_inner hr hp hplaced
      exact ⟨h', root', k', U',
        (deleteEntry_root hnd hh₁.symm hy).trans (congrArg some heq), ht, hc⟩
    | succ k =>
      have hy : y.2 ≠ root := fun heq =>
        absurd ((hp.tower.eq_root_iff (hp.placed_above hplaced)).mp heq) (Nat.succ_ne_zero k)
      by_cases henough : fewest order nd.isLeaf ≤ nd.numKeys
      · refine ⟨h₁, root, k + 1 + 1, U, deleteEntry_enough hnd hh₁.symm hy henough,
          hr.tower hp hplaced ?_,
          hr.changed hp.mem_upper (Changed.refl (hr.placed hplaced) _) hsub⟩
        rw [fewest, hleaf] at henough
        rw [hnode]
        exact (minKeys_le horder _).trans henough
      -- the node is too small
      have hfew : nd.numKeys < cut order - 1 := by
        rw [fewest, hleaf] at henough
        exact Nat.lt_of_not_le henough
      have hcut := hmin.cut_le (Nat.succ_pos k)
      have hhalf : 2 ≤ cut order ∧ 2 * cut order ≤ order + 1 := by
        unfold cut
        split_ifs <;> omega
      have hriseUp : Rising (P₁ ++ y :: P₂) := by
        rw [hp.level] at hrise
        exact hrise.above fun w _ => exists_rowOf_cons h w
      obtain ⟨Q₁, z, Q₂, s₁, s₂, W, hq⟩ := hp.tower.parentAt
      rcases hq.exists_pair horder with ⟨P, w, s, rfl, hpair⟩ | ⟨w, P, s, rfl, hpair⟩
      · -- the neighbor is the left one
        have hlevel : P ++ w :: y :: P₂ = (P ++ [w]) ++ y :: P₂ := by
          rw [List.append_assoc, List.singleton_append]
        have hs := hr.siblings hp hplaced hpair hlevel (fun v hv => by
          simp only [List.mem_append, List.mem_cons] at hv ⊢
          tauto) hpair.cells.1
        generalize (h.nodes z.2).keys s.length = kp at hs
        obtain ⟨hwcut, hwmax⟩ := hr.neighbor hp hplaced (w := w) (by simp)
        have hm : MergedInto h₁ (mergeNodes order h₁ y.2 w.2 kp) y.2 w.2 kp :=
          mergeNodes_inner hs.ne hs.right kp
        rw [deleteEntry_left hs.pair hs.placed.above hs.key hnd hh₁.symm hy henough,
          capacity, hleaf, if_neg Bool.false_ne_true]
        obtain ⟨h', root', k', U', heq, ht, hc⟩ := hs.repaired horder
          ((h₁.nodes w.2).numKeys + nd.numKeys < order - 1) (by rw [hnode]; omega)
          (fun hroom => by rw [hnode]; omega)
          (ih (hs.merged_pair hm) (hs.merged_placed hm) (hlevel ▸ hriseUp) hs.key (by omega))
          fun hroom => hs.childShifted_left horder (by rw [hnode]; omega)
            (by rw [hnode]; omega) (by omega)
            (by omega)
        rw [hlevel] at ht hc
        rw [← hp.nodes] at hc
        rw [hr.level hp hplaced] at ht hc
        exact ⟨h', root', k', U', heq, ht, hr.changed hp.mem_upper hc hsub⟩
      · -- the node is the first child, and its neighbor the right one
        have hs := hr.siblings hp hplaced hpair rfl (fun v hv => by
          simp only [List.mem_append, List.mem_cons] at hv ⊢
          tauto) hpair.cells.1
        rw [List.length_nil] at hs
        generalize (h.nodes z.2).keys 0 = kp at hs
        obtain ⟨hwcut, hwmax⟩ := hr.neighbor hp hplaced (w := w) (by simp)
        have hm : MergedInto h₁ (mergeNodes order h₁ w.2 y.2 kp) w.2 y.2 kp :=
          mergeNodes_inner hs.ne hs.right kp
        rw [deleteEntry_right hs.pair hs.placed.above hs.key hnd hh₁.symm hy henough,
          capacity, hleaf, if_neg Bool.false_ne_true]
        obtain ⟨h', root', k', U', heq, ht, hc⟩ := hs.repaired horder
          ((h₁.nodes w.2).numKeys + nd.numKeys < order - 1) (by rw [hnode]; omega)
          (fun hroom => by rw [hnode]; omega)
          (ih (hs.merged_pair hm) (hs.merged_placed hm) hriseUp hs.key (by omega))
          fun hroom => hs.childShifted_right horder (by rw [hnode]; omega)
            (by rw [hnode]; omega) (by omega)
            (by omega)
        rw [← hp.nodes] at hc
        rw [hr.level hp hplaced] at ht hc
        exact ⟨h', root', k', U', heq, ht, hr.changed hp.mem_upper hc hsub⟩

end Deletion

end Unos.BPlusTree
