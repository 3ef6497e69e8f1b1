import Unos.BPlusTree.Levels

namespace Unos.BPlusTree

open Unos.Arrays Unos.Fences Unos.Splits

section Insertion

variable {M : Malloc} {order root k fuel : ℕ} {h : Heap} {L₁ L₂ : List Place}
  {U : List ℕ} {x : Place}
  {key : ℤ} {right : ℕ}

theorem insertIntoNewRoot_nodes {left : ℕ} (key : ℤ) (hleft : left ≠ M.next h)
    (hright : right ≠ M.next h) (hne : right ≠ left) {h' : Heap}
    (hh' : h' = (insertIntoNewRoot M h left key right).1) :
    h'.nodes (M.next h) = { h.nodes (M.next h) with
      keys := Function.update (h.nodes (M.next h)).keys 0 key
      pointers := Function.update (Function.update (h.nodes (M.next h)).pointers 0 left) 1 right
      parent := 0
      isLeaf := false
      numKeys := 1 } ∧
    h'.nodes left = { h.nodes left with parent := M.next h } ∧
    h'.nodes right = { h.nodes right with parent := M.next h } ∧
    ∀ a, a ≠ M.next h → a ≠ left → a ≠ right → h'.nodes a = h.nodes a := by
  rw [hh', insertIntoNewRoot, makeNode]
  dsimp only
  refine ⟨?_, ?_, ?_, fun a h1 h2 h3 => ?_⟩
  · rw [modify_nodes_of_ne hright.symm, modify_nodes_of_ne hleft.symm, modify_nodes_self,
      modify_nodes_self, alloc_nodes]
  · rw [modify_nodes_of_ne hne.symm, modify_nodes_self, modify_nodes_of_ne hleft,
      modify_nodes_of_ne hleft, alloc_nodes]
  · rw [modify_nodes_self, modify_nodes_of_ne hne, modify_nodes_of_ne hright,
      modify_nodes_of_ne hright, alloc_nodes]
  · rw [modify_nodes_of_ne h3, modify_nodes_of_ne h2, modify_nodes_of_ne h1, modify_nodes_of_ne h1,
      alloc_nodes]

theorem insertIntoNewRoot_spec (key : ℤ) (horder : 3 ≤ order)
    (ht : Tower order h root 0 (L₁ ++ x :: L₂) U) (hp : Placed h (L₁ ++ x :: L₂) U)
    (hlive : right ∈ h.live) (hright : right ∉ U ++ addrs (L₁ ++ x :: L₂)) :
    ∃ q, (insertIntoNewRoot M h x.2 key right).2 = q ∧
      Tower order (insertIntoNewRoot M h x.2 key right).1 q 1 (L₁ ++ x :: (↑key, right) :: L₂) [q] ∧
      Changed h (insertIntoNewRoot M h x.2 key right).1 U
      (addrs (L₁ ++ x :: L₂) ++ [right]) [q] := by
  obtain ⟨rfl, rfl, rfl⟩ := ht.alone
  obtain ⟨-, rfl, -⟩ := ht
  have hroot : root ∈ h.live := hp.live root (by simp)
  have hne : right ≠ root := fun heq => hright (by simp [heq])
  have hfresh := M.fresh h
  refine ⟨M.next h, rfl, ?_⟩
  generalize hr : (insertIntoNewRoot M h root key right).1 = h'
  obtain ⟨hnew, hleft, hrightNode, hother⟩ := insertIntoNewRoot_nodes key
    (fun heq => hfresh (heq ▸ hroot)) (fun heq => hfresh (heq ▸ hlive)) hne hr.symm
  have hlive' : h'.live = Insert.insert (M.next h) h.live := by
    rw [← hr]
    rfl
  have hkeys : (h'.nodes (M.next h)).keyList = [key] := by
    rw [hnew]
    rfl
  have hchildren : (h'.nodes (M.next h)).children = [root, right] := by
    rw [hnew]
    rfl
  have hrow : rowOf h' (⊥, M.next h) = [(⊥, root), (↑key, right)] := by
    rw [rowOf, hkeys, hchildren]
    rfl
  refine ⟨⟨[(⊥, M.next h)], [], ?_, rfl, fun y hy => ?_, fun y hy c hc => ?_, rfl, rfl, ?_⟩,
    fun a ha _ => ?_, fun a ha _ hL => ?_, fun a ha _ => ?_, fun a ha => ?_, List.nodup_singleton _,
    ?_, ?_⟩
  · rw [List.flatMap_singleton, hrow]
    rfl
  · obtain rfl := List.mem_singleton.mp hy
    rw [hnew]
    exact ⟨rfl, le_refl 1, show 1 ≤ order - 1 by omega⟩
  · obtain rfl := List.mem_singleton.mp hy
    rw [hchildren] at hc
    rcases List.mem_cons.mp hc with rfl | hc
    · rw [hleft]
    · rw [List.mem_singleton.mp hc, hrightNode]
  · rw [hnew]
  · have hane : a ≠ M.next h := fun heq => hfresh (heq ▸ ha)
    by_cases haroot : a = root
    · rw [haroot, hleft]
      exact SameBody.parent _ _
    by_cases haright : a = right
    · rw [haright, hrightNode]
      exact SameBody.parent _ _
    rw [hother a hane haroot haright]
    exact SameBody.refl _
  · have hane : a ≠ M.next h := fun heq => hfresh (heq ▸ ha)
    simp only [List.nil_append, addrs_cons, addrs_nil, List.cons_append, List.mem_cons,
      List.not_mem_nil, or_false, not_or] at hL
    rw [hother a hane hL.1 hL.2]
  · rw [hlive']
    exact Finset.mem_insert_of_mem ha
  · obtain rfl := List.mem_singleton.mp ha
    rw [hlive']
    exact ⟨Finset.mem_insert_self _ _, Or.inr hfresh⟩
  · rw [hlive', Finset.mem_insert, not_or]
    exact ⟨(M.ne_zero h).symm, hp.zero⟩
  · rw [← hr]
    rfl

theorem ParentAt.row_with_child {P₁ P₂ r₁ r₂ : List Place} {V : List ℕ} {y : Place}
    (hp : ParentAt order h root k L₁ x L₂ U P₁ y P₂ r₁ r₂ V) (key : ℤ) (right : ℕ) :
    ∃ k₁ k₂ c₁ c₂, (h.nodes y.2).keyList = k₁ ++ k₂ ∧ (h.nodes y.2).children = c₁ ++ x.2 :: c₂ ∧
      k₁.length = c₁.length ∧
      Fences.row y.1 (k₁ ++ key :: k₂) (c₁ ++ x.2 :: right :: c₂) = r₁ ++ x ::
      (↑key, right) :: r₂ := by
  obtain ⟨k₁, k₂, c₁, c₂, hk, hc, h1, -, -, h2, h3⟩ :=
    row_eq_append_cons (Node.length_row_lists _) hp.row
  refine ⟨k₁, k₂, c₁, c₂, hk, hc, h1, ?_⟩
  rw [row_join h1 h2, later_cons, row_cons, h3]

theorem ParentAt.getLeftIndex_eq {P₁ P₂ r₁ r₂ : List Place} {V : List ℕ} {y : Place}
    {c₁ c₂ : List ℕ} (hp : ParentAt order h root k L₁ x L₂ U P₁ y P₂ r₁ r₂ V)
    (hplaced : Placed h (L₁ ++ x :: L₂) U)
    (hc : (h.nodes y.2).children = c₁ ++ x.2 :: c₂) :
    getLeftIndex (h.nodes y.2) x.2 = c₁.length := by
  apply scan_children hc
  have hnodup : (h.nodes y.2).children.Nodup := by
    rw [hp.level_eq] at hplaced
    exact hplaced.children_nodup (by simp)
  rw [hc] at hnodup
  exact fun hmem => (List.nodup_append.mp hnodup).2.2 _ hmem _ List.mem_cons_self rfl

theorem ParentAt.with_child {P₁ P₂ r₁ r₂ : List Place} {V c₁ c₂ : List ℕ} {y : Place}
    (hp : ParentAt order h root k L₁ x L₂ U P₁ y P₂ r₁ r₂ V) (hplaced : Placed h (L₁ ++ x :: L₂) U)
    (hlive : right ∈ h.live) (hright : right ∉ U ++ addrs (L₁ ++ x :: L₂))
    (hparent : (h.nodes right).parent = y.2) (hc : (h.nodes y.2).children = c₁ ++ x.2 :: c₂) :
    (c₁ ++ x.2 :: right :: c₂).Nodup ∧
      ∀ c ∈ c₁ ++ x.2 :: right :: c₂, c ∈ h.live ∧ (h.nodes c).parent = y.2 := by
  have hchildren : ∀ c ∈ (h.nodes y.2).children, c ∈ addrs (L₁ ++ x :: L₂) := fun c hc =>
    hp.mem_level (by simp) hc
  constructor
  · have hnot : right ∉ (h.nodes y.2).children := fun hmem =>
      hright (List.mem_append_right _ (hchildren right hmem))
    rw [hp.level_eq] at hplaced
    rw [nodup_insert_behind, ← hc]
    exact ⟨hnot, hplaced.children_nodup (by simp)⟩
  · intro c hmem
    by_cases hcr : c = right
    · rw [hcr]
      exact ⟨hlive, hparent⟩
    · have hc' : c ∈ (h.nodes y.2).children := by
        rw [hc]
        simp only [List.mem_append, List.mem_cons] at hmem ⊢
        tauto
      exact ⟨hplaced.live c (List.mem_append_right _ (hchildren c hc')), hp.child y (by simp) c hc'⟩

theorem insertIntoNode_spec (key : ℤ) {P₁ P₂ r₁ r₂ : List Place} {V : List ℕ} {y : Place}
    (hp : ParentAt order h root k L₁ x L₂ U P₁ y P₂ r₁ r₂ V) (hplaced : Placed h (L₁ ++ x :: L₂) U)
    (hparent : (h.nodes right).parent = y.2) (hroom : (h.nodes y.2).numKeys < order - 1) {h' : Heap}
    (hh' : h' = h.modify y.2 fun nd =>
      insertIntoNode nd (getLeftIndex (h.nodes y.2) x.2) key right) :
    Tower order h' root (k + 1) (L₁ ++ x :: (↑key, right) :: L₂) U ∧
      Changed h h' U (addrs (L₁ ++ x :: L₂) ++ [right]) U := by
  obtain ⟨k₁, k₂, c₁, c₂, hk, hc, hlen, hrow⟩ := hp.row_with_child key right
  rw [hp.getLeftIndex_eq hplaced hc] at hh'
  have hnode : h'.nodes y.2 = insertIntoNode (h.nodes y.2) c₁.length key right := by
    rw [hh', modify_nodes_self]
  have hkeys : (h'.nodes y.2).keyList = k₁ ++ key :: k₂ := by
    rw [hnode, ← hlen, keyList_insertIntoNode hk]
  have hchildren : (h'.nodes y.2).children = c₁ ++ x.2 :: right :: c₂ := by
    rw [hnode, children_insertIntoNode hc]
  have hother : ∀ a, a ≠ y.2 → h'.nodes a = h.nodes a := fun a ha => by
    rw [hh', modify_nodes_of_ne ha]
  have hparents : ∀ a, (h'.nodes a).parent = (h.nodes a).parent := fun a => by
    by_cases ha : a = y.2
    · rw [ha, hnode]
      rfl
    · rw [hother a ha]
  have hinner := hp.inner y (by simp)
  have hrow' : rowOf h' y = r₁ ++ ([x, (↑key, right)] ++ r₂) := by
    rw [rowOf, hkeys, hchildren, hrow, List.cons_append, List.cons_append, List.nil_append]
  have hinner' : Inner order k (h'.nodes y.2) := by
    rw [hnode]
    exact ⟨hinner.isLeaf, hinner.min.trans (Nat.le_succ _), Nat.succ_le_of_lt hroom⟩
  refine ⟨hp.replace hplaced hrow' hinner' (fun z hz => ?_)
    (fun a _ ha => ?_) fun a _ => hparents a, fun a _ ha => ?_, fun a _ _ _ =>
      hparents a, fun a ha _ => ?_, fun a ha => ?_, ?_, ?_, ?_⟩
  · rw [hparents]
    rcases List.mem_cons.mp hz with rfl | hz
    · exact hp.parent_eq
    · rw [List.mem_singleton.mp hz]
      exact hparent
  · rw [hother a ha]
    exact SameBody.refl _
  · rw [hother a fun heq => ha (heq ▸ hp.mem_upper)]
    exact SameBody.refl _
  · rw [hh']
    exact ha
  · rw [hh']
    exact ⟨hplaced.live a (List.mem_append_left _ ha), Or.inl ha⟩
  · exact (List.nodup_append.mp hplaced.nodup).1
  · rw [hh']
    exact hplaced.zero
  · rw [hh']
    rfl

/-- The node `y`, with a new child, was divided: its new half `q` with the key `kp` in front
has the end of its row `r`. -/
structure Divided (order : ℕ) (h h' : Heap) (y : Place) (kp : ℤ) (q : ℕ) (r : List Place) :
    Prop where
  row : rowOf h' y ++ rowOf h' (↑kp, q) = r
  inner : ∀ k, Inner order k (h'.nodes y.2) ∧ Inner order k (h'.nodes q)
  child_old : ∀ c ∈ (h'.nodes y.2).children, (h'.nodes c).parent = y.2
  child_new : ∀ c ∈ (h'.nodes q).children, (h'.nodes c).parent = q
  body : ∀ a, a ≠ y.2 → a ≠ q → SameBody (h'.nodes a) (h.nodes a)
  parent : ∀ a, a ∉ addrs r → a ≠ q → (h'.nodes a).parent = (h.nodes a).parent
  parent_new : (h'.nodes q).parent = (h.nodes y.2).parent
  fresh : q ∉ h.live
  ne_zero : q ≠ 0
  live : h'.live = Insert.insert q h.live
  records : h'.records = h.records

theorem Divided.mem_live {h' : Heap} {y : Place} {kp : ℤ} {q : ℕ} {r : List Place}
    (hd : Divided order h h' y kp q r) {a : ℕ} (ha : a ∈ h.live) : a ∈ h'.live := by
  rw [hd.live]
  exact Finset.mem_insert_of_mem ha

theorem Divided.new_mem_live {h' : Heap} {y : Place} {kp : ℤ} {q : ℕ} {r : List Place}
    (hd : Divided order h h' y kp q r) : q ∈ h'.live := by
  rw [hd.live]
  exact Finset.mem_insert_self _ _

theorem splitNode_divided {P₁ P₂ r₁ r₂ : List Place} {V : List ℕ} {y : Place} (horder : 3 ≤ order)
    (hp : ParentAt order h root k L₁ x L₂ U P₁ y P₂ r₁ r₂ V) (hplaced : Placed h (L₁ ++ x :: L₂) U)
    (hlive : right ∈ h.live) (hright : right ∉ U ++ addrs (L₁ ++ x :: L₂))
    (hparent : (h.nodes right).parent = y.2) (hfull : ¬ (h.nodes y.2).numKeys < order - 1)
    {s : Heap × ℤ} (hs : s = splitNode order (makeNode M h).2 y.2 (makeNode M h).1
      (getLeftIndex (h.nodes y.2) x.2) key right) :
    Divided order h s.1 y s.2 (M.next h) (r₁ ++ x :: (↑key, right) :: r₂) := by
  obtain ⟨k₁, k₂, c₁, c₂, hk, hc, hlen, hrow⟩ := hp.row_with_child key right
  rw [hp.getLeftIndex_eq hplaced hc, makeNode_fst] at hs
  have hmax := (hp.inner y (by simp)).max
  obtain ⟨hnodup, hliveOf⟩ := hp.with_child hplaced hlive hright hparent hc
  have hfresh := M.fresh h
  have hy : y.2 ≠ M.next h := fun heq =>
    hfresh (heq ▸ hplaced.live y.2 (List.mem_append_left _ hp.mem_upper))
  have hnodes : ∀ a, a ≠ M.next h → (makeNode M h).2.nodes a = h.nodes a := fun a =>
    makeNode_nodes_of_ne
  have hk' : ((makeNode M h).2.nodes y.2).keyList = k₁ ++ k₂ := by rw [hnodes _ hy, hk]
  obtain ⟨ka, kb, ca, cb, hkeys, hcs, hka, hca, hsplit⟩ :=
    splitNode_spec key right horder hy.symm hk'
    (by rw [hnodes _ hy, hc]) hlen (by rw [hnodes _ hy]; omega)
  rw [← hs] at hkeys hsplit
  have hkb : kb.length = order - cut order := by
    have hlenKeys := congrArg List.length hkeys
    have hnum := congrArg List.length hk
    rw [List.length_append, List.length_cons, List.length_append, List.length_cons] at hlenKeys
    rw [Node.length_keyList, List.length_append] at hnum
    omega
  have hcut : 2 ≤ cut order ∧ cut order - 1 ≤ order - cut order := by
    unfold cut
    split_ifs <;> omega
  have hcbNew : M.next h ∉ cb := fun hmem =>
    hfresh (hliveOf _ (hcs ▸ List.mem_append_right ca hmem)).1
  refine ⟨?_, fun k => ⟨?_, ?_⟩, fun c hmem => ?_, fun c hmem => ?_, fun a ha haq => ?_,
    fun a ha haq => ?_, ?_, hfresh, M.ne_zero h, ?_, ?_⟩
  · rw [rowOf, rowOf, hsplit.old_keys, hsplit.old_children, hsplit.new_keys, hsplit.new_children,
      ← row_append_row (by omega), ← hkeys, ← hcs, hrow]
  · apply Inner.of_cut horder
    · rw [hsplit.old_isLeaf, hnodes _ hy, (hp.inner y (by simp)).isLeaf]
    · rw [← Node.length_keyList, hsplit.old_keys]
      omega
    · rw [← Node.length_keyList, hsplit.old_keys]
      have hle := cut_le order
      omega
  · apply Inner.of_cut horder
    · rw [hsplit.new_isLeaf, makeNode, modify_nodes_self]
    · rw [← Node.length_keyList, hsplit.new_keys, hkb]
      exact hcut.2
    · rw [← Node.length_keyList, hsplit.new_keys, hkb]
      omega
  · -- a child that stays is not among those that move
    rw [hsplit.old_children] at hmem
    have hc' : c ∈ c₁ ++ x.2 :: right :: c₂ := hcs ▸ List.mem_append_left _ hmem
    rw [hcs] at hnodup
    have hcb : c ∉ cb := fun hcb => (List.nodup_append.mp hnodup).2.2 c hmem c hcb rfl
    have hcq : c ≠ M.next h := fun heq => hfresh (heq ▸ (hliveOf c hc').1)
    rw [hsplit.parent_other c hcb hcq, hnodes c hcq]
    exact (hliveOf c hc').2
  · rw [hsplit.new_children] at hmem
    exact hsplit.parent_child c hmem
  · rw [← hnodes a haq]
    exact hsplit.other a ha haq
  · have hcb : a ∉ cb := fun hcb => ha (by
      rw [← hrow, addrs, map_snd_row, hcs]
      · exact List.mem_append_right _ hcb
      · rw [List.length_append, List.length_append, List.length_cons, List.length_cons,
          List.length_cons]
        have hnum := congrArg List.length hk
        have hnum' := congrArg List.length hc
        rw [Node.length_keyList, List.length_append] at hnum
        rw [Node.length_children, List.length_append, List.length_cons] at hnum'
        omega)
    rw [hsplit.parent_other a hcb haq, hnodes a haq]
  · rw [hsplit.parent_new hcbNew, hnodes _ hy]
  · rw [hsplit.live]
    rfl
  · rw [hsplit.records]
    rfl

section Above

variable {P₁ P₂ r₁ r₂ : List Place} {V V' : List ℕ} {y : Place} {h₁ h' : Heap} {kp : ℤ}
  {q root' k' : ℕ}

theorem ParentAt.mem_divided (hp : ParentAt order h root k L₁ x L₂ U P₁ y P₂ r₁ r₂ V) {a : ℕ}
    (ha : a ∈ addrs (r₁ ++ x :: (↑key, right) :: r₂)) : a ∈ (h.nodes y.2).children ∨ a = right := by
  rw [← addrs_rowOf, hp.row]
  simp only [addrs_append, addrs_cons, List.mem_append, List.mem_cons] at ha ⊢
  tauto

theorem Divided.parent_upper (hd : Divided order h h₁ y kp q (r₁ ++ x :: (↑key, right) :: r₂))
    (hp : ParentAt order h root k L₁ x L₂ U P₁ y P₂ r₁ r₂ V) (hplaced : Placed h (L₁ ++ x :: L₂) U)
    (hright : right ∉ U ++ addrs (L₁ ++ x :: L₂)) {a : ℕ} (ha : a ∈ U) :
    (h₁.nodes a).parent = (h.nodes a).parent := by
  refine hd.parent a (fun hmem => ?_) fun heq => ?_
  · rcases hp.mem_divided hmem with hc | rfl
    · exact hplaced.not_mem_upper (hp.mem_level (by simp) hc) ha
    · exact hright (List.mem_append_left _ ha)
  · exact hd.fresh (heq ▸ hplaced.live a (List.mem_append_left _ ha))

theorem Divided.tower_above (hd : Divided order h h₁ y kp q (r₁ ++ x :: (↑key, right) :: r₂))
    (hp : ParentAt order h root k L₁ x L₂ U P₁ y P₂ r₁ r₂ V) (hplaced : Placed h (L₁ ++ x :: L₂) U)
    (hright : right ∉ U ++ addrs (L₁ ++ x :: L₂)) : Tower order h₁ root k (P₁ ++ y :: P₂) V := by
  refine hp.tower.congr (fun a ha => ?_) fun a ha => ?_
  · have haU := hp.mem_upper_of_above (List.mem_append_left _ ha)
    refine hd.body a (hp.ne_of_mem hplaced (List.mem_append_left _ ha)) fun heq => ?_
    exact hd.fresh (heq ▸ hplaced.live a (List.mem_append_left _ haU))
  · exact hd.parent_upper hp hplaced hright (hp.mem_upper_of_above ha)

theorem Divided.placed_above (hd : Divided order h h₁ y kp q (r₁ ++ x :: (↑key, right) :: r₂))
    (hp : ParentAt order h root k L₁ x L₂ U P₁ y P₂ r₁ r₂ V)
    (hplaced : Placed h (L₁ ++ x :: L₂) U) :
    Placed h₁ (P₁ ++ y :: P₂) V := by
  refine (hp.placed_above hplaced).of_live (fun a ha => hd.mem_live ha) fun h0 => ?_
  rw [hd.live, Finset.mem_insert] at h0
  exact h0.elim (fun heq => hd.ne_zero heq.symm) hplaced.zero

/-- The level gets its new place once the level above has the new half. -/
theorem Divided.tower (horder : 3 ≤ order)
    (hd : Divided order h h₁ y kp q (r₁ ++ x :: (↑key, right) :: r₂))
    (hp : ParentAt order h root k L₁ x L₂ U P₁ y P₂ r₁ r₂ V) (hplaced : Placed h (L₁ ++ x :: L₂) U)
    (hlive : right ∈ h.live) (hright : right ∉ U ++ addrs (L₁ ++ x :: L₂))
    (ht : Tower order h' root' k' (P₁ ++ y :: (↑kp, q) :: P₂) V')
    (hc : Changed h₁ h' V (addrs (P₁ ++ y :: P₂) ++ [q]) V') :
    Tower order h' root' (k' + 1) (L₁ ++ x :: (↑key, right) :: L₂)
      (addrs (P₁ ++ y :: (↑kp, q) :: P₂) ++ V') := by
  have hplaced' := hp.placed_above hplaced
  have hmem : ∀ z ∈ P₁ ++ P₂, z ∈ P₁ ++ y :: P₂ := fun z hz => mem_middle_of_mem hz
  have hup : ∀ a ∈ addrs (P₁ ++ y :: P₂), a ∈ h.live ∧ a ∈ U ∧ a ∉ V ∧ a ≠ q := fun a ha => by
    have haU := hp.mem_upper_of_above (List.mem_append_right _ ha)
    have halive := hplaced.live a (List.mem_append_left _ haU)
    exact ⟨halive, haU, hplaced'.not_mem_upper ha, fun heq => hd.fresh (heq ▸ halive)⟩
  have hqV : q ∉ V := fun hq => hd.fresh (hplaced'.live q (List.mem_append_left _ hq))
  -- what lies below the level above keeps its parents
  have hdown : ∀ c, c ∈ addrs (L₁ ++ x :: L₂) ∨ c = right →
      (h'.nodes c).parent = (h₁.nodes c).parent := fun c hcmem => by
    have hclive : c ∈ h.live ∧ c ∉ U := by
      rcases hcmem with hcL | rfl
      · exact ⟨hplaced.live c (List.mem_append_right _ hcL), hplaced.not_mem_upper hcL⟩
      · exact ⟨hlive, fun hU => hright (List.mem_append_left _ hU)⟩
    refine hc.parent c (hd.mem_live hclive.1)
      (fun hV => hclive.2 (hp.mem_upper_of_above (List.mem_append_left _ hV))) fun hmem => ?_
    rcases List.mem_append.mp hmem with hP | hq
    · exact hclive.2 (hup c hP).2.1
    · exact hd.fresh (List.mem_singleton.mp hq ▸ hclive.1)
  have hbody : ∀ z ∈ P₁ ++ P₂, SameBody (h'.nodes z.2) (h.nodes z.2) := fun z hz => by
    obtain ⟨hzlive, -, hzV, hzq⟩ := hup z.2 (mem_addrs (hmem z hz))
    refine (hc.body z.2 (hd.mem_live hzlive) hzV).trans (hd.body z.2 ?_ hzq)
    exact hp.ne_of_mem hplaced (List.mem_append_right _ (mem_addrs hz))
  obtain ⟨hylive, -, hyV, -⟩ := hup y.2 (mem_addrs (by simp))
  have hbodyOld := hc.body y.2 (hd.mem_live hylive) hyV
  have hbodyNew := hc.body q hd.new_mem_live hqV
  have hchildren : ∀ c, c ∈ (h₁.nodes y.2).children ∨ c ∈ (h₁.nodes q).children →
      c ∈ addrs (L₁ ++ x :: L₂) ∨ c = right := fun c hcmem => by
    have hcr : c ∈ addrs (r₁ ++ x :: (↑key, right) :: r₂) := by
      rw [← hd.row, addrs_append, addrs_rowOf, addrs_rowOf]
      exact List.mem_append.mpr hcmem
    exact (hp.mem_divided hcr).imp_left (hp.mem_level (by simp))
  have hinner : ∀ z ∈ P₁ ++ P₂, Inner order k' (h.nodes z.2) := fun z hz => by
    cases k with
    | zero =>
      -- the root has no siblings
      obtain ⟨rfl, -, rfl⟩ := hp.tower.alone
      exact absurd hz List.not_mem_nil
    | succ k => exact (hp.inner z (hmem z hz)).of_pos horder (Nat.succ_pos k) k'
  have htower := Tower.of_middle (h := h) (Y := [y, (↑kp, q)]) hbody hinner (fun z hz c hcz => ?_)
    (fun z hz => ?_) (fun z hz c hcz => ?_) ht
  · have hrows : [y, ((kp : WithBot ℤ), q)].flatMap (rowOf h') = r₁ ++ x ::
        (↑key, right) :: r₂ := by
      rw [List.flatMap_cons, List.flatMap_singleton, rowOf_congr hbodyOld,
        rowOf_congr (x := (↑kp, q)) hbodyNew, hd.row]
    rw [hrows] at htower
    rw [hp.before, hp.behind]
    simpa only [List.append_assoc, List.cons_append, List.nil_append] using htower
  · have hcL := hp.mem_level (hmem z hz) hcz
    have hcr : c ∉ addrs (r₁ ++ x :: (↑key, right) :: r₂) := fun hcr => by
      rcases hp.mem_divided hcr with hcy | rfl
      · rw [hp.level_eq] at hplaced
        exact hplaced.children_disjoint hz hcz hcy
      · exact hright (List.mem_append_right _ hcL)
    have hcq : c ≠ q := fun heq => hd.fresh (heq ▸ hplaced.live c (List.mem_append_right _ hcL))
    rw [hdown c (Or.inl hcL), hd.parent c hcr hcq]
    exact hp.child z (hmem z hz) c hcz
  · rcases List.mem_cons.mp hz with rfl | hz
    · exact (hd.inner k').1.congr hbodyOld
    · rw [List.mem_singleton.mp hz]
      exact (hd.inner k').2.congr hbodyNew
  · rcases List.mem_cons.mp hz with rfl | hz
    · rw [hbodyOld.children] at hcz
      rw [hdown c (hchildren c (Or.inl hcz))]
      exact hd.child_old c hcz
    · rw [List.mem_singleton.mp hz] at hcz ⊢
      rw [hbodyNew.children] at hcz
      rw [hdown c (hchildren c (Or.inr hcz))]
      exact hd.child_new c hcz

theorem Divided.changed (hd : Divided order h h₁ y kp q (r₁ ++ x :: (↑key, right) :: r₂))
    (hp : ParentAt order h root k L₁ x L₂ U P₁ y P₂ r₁ r₂ V) (hplaced : Placed h (L₁ ++ x :: L₂) U)
    (hc : Changed h₁ h' V (addrs (P₁ ++ y :: P₂) ++ [q]) V') :
    Changed h h' U (addrs (L₁ ++ x :: L₂) ++ [right])
    (addrs (P₁ ++ y :: (↑kp, q) :: P₂) ++ V') := by
  have hplaced' := hp.placed_above hplaced
  have hne : ∀ a ∈ h.live, a ≠ q := fun a ha heq => hd.fresh (heq ▸ ha)
  have hnotV : ∀ a, a ∉ U → a ∉ V := fun a ha hV =>
    ha (hp.mem_upper_of_above (List.mem_append_left _ hV))
  have hup : ∀ a ∈ addrs (P₁ ++ y :: (↑kp, q) :: P₂), a ∈ h₁.live ∧ a ∉ V ∧ (a ∈ U ∨ a = q) := by
    intro a ha
    by_cases haq : a = q
    · rw [haq]
      refine ⟨hd.new_mem_live, fun hq => ?_, Or.inr rfl⟩
      exact hd.fresh (hplaced'.live q (List.mem_append_left _ hq))
    · have haP : a ∈ addrs (P₁ ++ y :: P₂) := by
        simp only [addrs_append, addrs_cons, List.mem_append, List.mem_cons] at ha ⊢
        tauto
      exact ⟨hd.mem_live (hplaced'.live a (List.mem_append_right _ haP)),
        hplaced'.not_mem_upper haP, Or.inl (hp.mem_upper_of_above (List.mem_append_right _ haP))⟩
  refine ⟨fun a ha haU => ?_, fun a ha haU haL => ?_, fun a ha haU => ?_,
    fun a ha => ?_, ?_, hc.zero, hc.records.trans hd.records⟩
  · refine (hc.body a (hd.mem_live ha) (hnotV a haU)).trans (hd.body a ?_ (hne a ha))
    exact fun heq => haU (heq ▸ hp.mem_upper)
  · rw [hc.parent a (hd.mem_live ha) (hnotV a haU) fun hmem => ?_]
    · refine hd.parent a (fun hmem => haL ?_) (hne a ha)
      rcases hp.mem_divided hmem with hcy | rfl
      · exact List.mem_append_left _ (hp.mem_level (by simp) hcy)
      · exact List.mem_append_right _ (List.mem_singleton_self _)
    · rcases List.mem_append.mp hmem with hP | hq
      · exact haU (hp.mem_upper_of_above (List.mem_append_right _ hP))
      · exact hne a ha (List.mem_singleton.mp hq)
  · exact hc.keeps a (hd.mem_live ha) (hnotV a haU)
  · rcases List.mem_append.mp ha with hP | hV'
    · obtain ⟨halive, haV, haU⟩ := hup a hP
      refine ⟨hc.keeps a halive haV, haU.imp_right ?_⟩
      rintro rfl
      exact hd.fresh
    · refine ⟨(hc.upper a hV').1, ?_⟩
      rcases (hc.upper a hV').2 with hV | hnew
      · exact Or.inl (hp.mem_upper_of_above (List.mem_append_left _ hV))
      · exact Or.inr fun hlive => hnew (hd.mem_live hlive)
  · refine List.nodup_append.mpr ⟨?_, hc.nodup, fun a ha b hb heq => ?_⟩
    · rw [addrs_append, addrs_cons, addrs_cons, nodup_insert_behind, ← addrs_cons, ← addrs_append]
      exact ⟨fun hmem => hd.fresh (hplaced'.live q (List.mem_append_right _ hmem)),
        hplaced'.nodup_addrs⟩
    · obtain ⟨halive, haV, -⟩ := hup a ha
      rw [← heq] at hb
      rcases (hc.upper a hb).2 with hV | hnew
      · exact haV hV
      · exact hnew halive

end Above

/-- A new node goes behind the place `x` of a level. -/
theorem insertIntoParent_spec (key : ℤ) (horder : 3 ≤ order)
    (ht : Tower order h root k (L₁ ++ x :: L₂) U)
    (hp : Placed h (L₁ ++ x :: L₂) U) (hlive : right ∈ h.live)
    (hright : right ∉ U ++ addrs (L₁ ++ x :: L₂))
    (hparent : (h.nodes right).parent = (h.nodes x.2).parent)
    (hfuel : k < fuel) :
    ∃ h' root' k' U', insertIntoParent M order fuel h root x.2 key right = some
    (h', root') ∧ 0 < k' ∧
      Tower order h' root' k' (L₁ ++ x :: (↑key, right) :: L₂) U' ∧
      Changed h h' U (addrs (L₁ ++ x :: L₂) ++ [right]) U' := by
  induction fuel generalizing k h L₁ x L₂ U key right with
  | zero => exact absurd hfuel (Nat.not_lt_zero _)
  | succ fuel ih =>
    rw [insertIntoParent]
    dsimp only
    cases k with
    | zero =>
      obtain ⟨q, hq, ht', hc⟩ := insertIntoNewRoot_spec (M := M) key horder ht hp hlive hright
      have hroot : (h.nodes x.2).parent = 0 := by
        rw [(ht.eq_root_iff hp).mpr rfl]
        exact ht.root_parent
      rw [if_pos hroot]
      exact ⟨_, q, 1, [q], congrArg some (Prod.ext rfl hq), Nat.one_pos, ht', hc⟩
    | succ k =>
      obtain ⟨P₁, y, P₂, r₁, r₂, V, hat⟩ := ht.parentAt
      rw [hat.parent_eq] at hparent ⊢
      rw [if_neg (hp.ne_zero (List.mem_append_left _ hat.mem_upper))]
      by_cases hroom : (h.nodes y.2).numKeys < order - 1
      · rw [if_pos hroom]
        obtain ⟨ht', hc⟩ := insertIntoNode_spec key hat hp hparent hroom rfl
        exact ⟨_, root, k + 1, U, rfl, Nat.succ_pos k, ht', hc⟩
      · -- the parent is divided, and its new half goes into the level above
        rw [if_neg hroom]
        generalize hs : splitNode order (makeNode M h).2 y.2 (makeNode M h).1
          (getLeftIndex (h.nodes y.2) x.2) key right = s
        have hd := splitNode_divided horder hat hp hlive hright hparent hroom hs.symm
        have hplaced' := hat.placed_above hp
        have hfresh : M.next h ∉ V ++ addrs (P₁ ++ y :: P₂) := fun hmem =>
          hd.fresh (hplaced'.live _ hmem)
        have hparents : (s.1.nodes (M.next h)).parent = (s.1.nodes y.2).parent := by
          rw [hd.parent_new, hd.parent_upper hat hp hright hat.mem_upper]
        obtain ⟨h', root', k', V', heq, hk', ht', hc⟩ := ih s.2
          (hd.tower_above hat hp hright)
            (hd.placed_above hat hp) hd.new_mem_live hfresh hparents (by omega)
        exact ⟨h', root', k' + 1, _, heq, Nat.succ_pos k',
          hd.tower horder hat hp hlive hright ht' hc, hd.changed hat hp hc⟩

end Insertion

end Unos.BPlusTree
