import Unos.BPlusTree.Siblings
import Unos.Library.Splits

namespace Unos.BPlusTree

open Unos.Arrays Unos.Fences Unos.Splits

/-- A node with the fence in front of it. -/
abbrev Place := WithBot ℤ × ℕ

def addrs (L : List Place) : List ℕ := L.map Prod.snd

/-- What an inner node contributes to the level below. -/
def rowOf (h : Heap) (x : Place) : List Place :=
  row x.1 (h.nodes x.2).keyList (h.nodes x.2).children

/-- The fewest keys of an inner node with `k` levels above. -/
def minKeys (order k : ℕ) : ℕ := if k = 0 then 1 else cut order - 1

structure Inner (order k : ℕ) (nd : Node) : Prop where
  isLeaf : nd.isLeaf = false
  min : minKeys order k ≤ nd.numKeys
  max : nd.numKeys ≤ order - 1

/-- `k` levels with the nodes `U` stand above the level `L`, whose nodes know their parents. -/
def Tower (order : ℕ) (h : Heap) (root : ℕ) : ℕ → List Place → List ℕ → Prop
  | 0, L, U => L = [(⊥, root)] ∧ U = [] ∧ (h.nodes root).parent = 0
  | k + 1, L, U => ∃ P V, L = P.flatMap (rowOf h) ∧ U = addrs P ++ V ∧
      (∀ x ∈ P, Inner order k (h.nodes x.2)) ∧
      (∀ x ∈ P, ∀ c ∈ (h.nodes x.2).children, (h.nodes c).parent = x.2) ∧ Tower order h root k P V

/-- The nodes of a level and above are different, and in use. -/
structure Placed (h : Heap) (L : List Place) (U : List ℕ) : Prop where
  nodup : (U ++ addrs L).Nodup
  live : ∀ a ∈ U ++ addrs L, a ∈ h.live
  zero : 0 ∉ h.live

/-- What a change at the level `L` and above leaves alone. The nodes above were `U` and are `V`. -/
structure Changed (h h' : Heap) (U L V : List ℕ) : Prop where
  body : ∀ a ∈ h.live, a ∉ U → SameBody (h'.nodes a) (h.nodes a)
  parent : ∀ a ∈ h.live, a ∉ U → a ∉ L → (h'.nodes a).parent = (h.nodes a).parent
  keeps : ∀ a ∈ h.live, a ∉ U → a ∈ h'.live
  upper : ∀ a ∈ V, a ∈ h'.live ∧ (a ∈ U ∨ a ∉ h.live)
  nodup : V.Nodup
  zero : 0 ∉ h'.live
  records : h'.records = h.records

variable {order root k : ℕ} {h h' : Heap} {L L₁ L₂ P P₁ P₂ : List Place} {U V : List ℕ}
  {x y z : Place} {a : ℕ}

theorem one_le_minKeys (horder : 3 ≤ order) (k : ℕ) : 1 ≤ minKeys order k := by
  unfold minKeys cut
  split_ifs <;> omega

theorem minKeys_le (horder : 3 ≤ order) (k : ℕ) : minKeys order k ≤ cut order - 1 := by
  unfold minKeys cut
  split_ifs <;> omega

@[simp] theorem addrs_append (L₁ L₂ : List Place) : addrs (L₁ ++ L₂) = addrs L₁ ++ addrs L₂ :=
  List.map_append

@[simp] theorem addrs_cons (x : Place) (L : List Place) : addrs (x :: L) = x.2 :: addrs L := rfl

@[simp] theorem addrs_nil : addrs [] = [] := rfl

theorem mem_addrs (hx : x ∈ L) : x.2 ∈ addrs L := List.mem_map_of_mem hx

@[simp] theorem addrs_rowOf (h : Heap) (x : Place) : addrs (rowOf h x) = (h.nodes x.2).children :=
  map_snd_row (Node.length_row_lists _)

theorem addrs_flatMap (h : Heap) (P : List Place) :
    addrs (P.flatMap (rowOf h)) = P.flatMap fun x => (h.nodes x.2).children := by
  rw [addrs, List.map_flatMap]
  exact List.flatMap_congr fun x _ => addrs_rowOf h x

theorem mem_addrs_flatMap (hx : x ∈ P) (ha : a ∈ (h.nodes x.2).children) :
    a ∈ addrs (P.flatMap (rowOf h)) := by
  rw [addrs_flatMap]
  exact List.mem_flatMap.mpr ⟨x, hx, ha⟩

theorem rowOf_congr (hx : SameBody (h'.nodes x.2) (h.nodes x.2)) : rowOf h' x = rowOf h x := by
  rw [rowOf, rowOf, hx.keyList, hx.children]

theorem flatMap_rowOf_congr (hP : ∀ x ∈ P, SameBody (h'.nodes x.2) (h.nodes x.2)) :
    P.flatMap (rowOf h') = P.flatMap (rowOf h) :=
  List.flatMap_congr fun x hx => rowOf_congr (hP x hx)

/-- Every row begins with the fence of its node. -/
theorem exists_rowOf_cons (h : Heap) (x : Place) : ∃ c r, rowOf h x = (x.1, c) :: r := by
  rw [rowOf, Node.children, slice]
  exact ⟨_, _, row_cons _ _ _ _⟩

theorem Inner.congr {nd nd' : Node} (h : Inner order k nd) (hbody : SameBody nd' nd) :
    Inner order k nd' :=
  ⟨hbody.isLeaf.trans
    h.isLeaf, by rw [hbody.numKeys]; exact h.min, by rw [hbody.numKeys]; exact h.max⟩

theorem Inner.of_cut (horder : 3 ≤ order) {nd : Node} (hleaf : nd.isLeaf = false)
    (hmin : cut order - 1 ≤ nd.numKeys) (hmax : nd.numKeys ≤ order - 1) (k : ℕ) :
    Inner order k nd :=
  ⟨hleaf, (minKeys_le horder k).trans hmin, hmax⟩

theorem Inner.cut_le {nd : Node} (h : Inner order k nd) (hk : 0 < k) :
    cut order - 1 ≤ nd.numKeys := by
  have hmin := h.min
  rwa [minKeys, if_neg (by omega)] at hmin

/-- The levels above stay when their nodes do, and the parents of all. -/
theorem Tower.congr (ht : Tower order h root k L U)
    (hbody : ∀ a ∈ U, SameBody (h'.nodes a) (h.nodes a))
    (hparent : ∀ a ∈ U ++ addrs L, (h'.nodes a).parent = (h.nodes a).parent) :
    Tower order h' root k L U := by
  induction k generalizing L U with
  | zero =>
    obtain ⟨rfl, rfl, hroot⟩ := ht
    exact ⟨rfl, rfl, (hparent root (by simp)).trans hroot⟩
  | succ k ih =>
    obtain ⟨P, V, rfl, rfl, hinner, hchild, hup⟩ := ht
    have hP : ∀ x ∈ P, SameBody (h'.nodes x.2) (h.nodes x.2) := fun x hx =>
      hbody x.2 (List.mem_append_left _ (mem_addrs hx))
    refine ⟨P, V, (flatMap_rowOf_congr hP).symm, rfl, fun x hx => (hinner x hx).congr (hP x hx),
      fun x hx c hc => ?_, ih hup (fun a ha => hbody a (List.mem_append_right _ ha)) fun a ha => ?_⟩
    · rw [(hP x hx).children] at hc
      exact (hparent c (List.mem_append_right _ (mem_addrs_flatMap hx hc))).trans (hchild x hx c hc)
    · apply hparent
      rw [List.mem_append] at ha ⊢
      exact Or.inl (List.mem_append.mpr ha.symm)

theorem Inner.of_pos (horder : 3 ≤ order) {nd : Node} (h : Inner order k nd) (hk : 0 < k) (k' : ℕ) :
    Inner order k' nd :=
  .of_cut horder h.isLeaf (h.cut_le hk) h.max k'

/-- Rows in the middle of a level are replaced, those of the nodes `Y`. -/
theorem Tower.of_middle {Y : List Place}
    (hbody : ∀ z ∈ P₁ ++ P₂, SameBody (h'.nodes z.2) (h.nodes z.2))
    (hinner : ∀ z ∈ P₁ ++ P₂, Inner order k (h.nodes z.2))
    (hchild : ∀ z ∈ P₁ ++ P₂, ∀ c ∈ (h.nodes z.2).children, (h'.nodes c).parent = z.2)
    (hinner' : ∀ z ∈ Y, Inner order k (h'.nodes z.2))
    (hchild' : ∀ z ∈ Y, ∀ c ∈ (h'.nodes z.2).children, (h'.nodes c).parent = z.2)
    (ht : Tower order h' root k (P₁ ++ (Y ++ P₂)) V) :
    Tower order h' root (k + 1)
      (P₁.flatMap (rowOf h) ++ (Y.flatMap (rowOf h') ++ P₂.flatMap (rowOf h)))
      (addrs (P₁ ++ (Y ++ P₂)) ++ V) := by
  refine ⟨_, V, ?_, rfl, fun z hz => ?_, fun z hz => ?_, ht⟩
  · have h1 := flatMap_rowOf_congr fun z hz => hbody z (List.mem_append_left P₂ hz)
    have h2 := flatMap_rowOf_congr fun z hz => hbody z (List.mem_append_right P₁ hz)
    rw [List.flatMap_append, List.flatMap_append, h1, h2]
  · rcases mem_part.mp hz with hz | hz
    · exact hinner' z hz
    · exact (hinner z hz).congr (hbody z hz)
  · rcases mem_part.mp hz with hz | hz
    · exact hchild' z hz
    · rw [(hbody z hz).children]
      exact hchild z hz

theorem Tower.root_mem (ht : Tower order h root k L U) : root ∈ U ++ addrs L := by
  induction k generalizing L U with
  | zero =>
    obtain ⟨rfl, rfl, -⟩ := ht
    exact List.mem_singleton_self _
  | succ k ih =>
    obtain ⟨P, V, rfl, rfl, -, -, hup⟩ := ht
    have hmem := ih hup
    rw [List.mem_append] at hmem
    exact List.mem_append_left _ (List.mem_append.mpr hmem.symm)

theorem Tower.ne_nil (ht : Tower order h root k L U) : L ≠ [] := by
  induction k generalizing L U with
  | zero =>
    obtain ⟨rfl, -, -⟩ := ht
    exact List.cons_ne_nil _ _
  | succ k ih =>
    obtain ⟨P, V, rfl, -, -, -, hup⟩ := ht
    obtain ⟨x, P, rfl⟩ := List.exists_cons_of_ne_nil (ih hup)
    obtain ⟨c, r, hrow⟩ := exists_rowOf_cons h x
    rw [List.flatMap_cons, hrow]
    exact List.cons_ne_nil _ _

theorem Tower.le_length (ht : Tower order h root k L U) : k ≤ U.length := by
  induction k generalizing L U with
  | zero => exact Nat.zero_le _
  | succ k ih =>
    obtain ⟨P, V, rfl, rfl, -, -, hup⟩ := ht
    have hV := ih hup
    have hpos := List.length_pos_iff.mpr hup.ne_nil
    rw [List.length_append, addrs, List.length_map]
    omega

/-- The number of levels is a bound that the fuel of the operations meets. -/
theorem Tower.lt_card (ht : Tower order h root k L U) (hplaced : Placed h L U) :
    k < h.live.card := by
  have hpos := List.length_pos_iff.mpr ht.ne_nil
  have hle := ht.le_length
  have hsub : (U ++ addrs L).toFinset ⊆ h.live := fun a ha =>
    hplaced.live a (List.mem_toFinset.mp ha)
  have hcard := Finset.card_le_card hsub
  rw [List.toFinset_card_of_nodup hplaced.nodup, List.length_append, addrs,
    List.length_map] at hcard
  omega

theorem Tower.root_parent (ht : Tower order h root k L U) : (h.nodes root).parent = 0 := by
  induction k generalizing L U with
  | zero => exact ht.2.2
  | succ k ih =>
    obtain ⟨P, V, -, -, -, -, hup⟩ := ht
    exact ih hup

theorem Placed.not_mem_upper (hp : Placed h L U) (ha : a ∈ addrs L) : a ∉ U := fun hU =>
  (List.nodup_append.mp hp.nodup).2.2 a hU a ha rfl

theorem Placed.nodup_addrs (hp : Placed h L U) : (addrs L).Nodup :=
  (List.nodup_append.mp hp.nodup).2.1

theorem Placed.ne_zero (hp : Placed h L U) (ha : a ∈ U ++ addrs L) : a ≠ 0 := fun h0 =>
  hp.zero (h0 ▸ hp.live a ha)

/-- The level above is placed as well. -/
theorem Placed.above (hp : Placed h L (addrs P ++ V)) : Placed h P V := by
  obtain ⟨hU, -, -⟩ := List.nodup_append.mp hp.nodup
  refine ⟨List.nodup_append_comm.mp hU, fun a ha => hp.live a ?_, hp.zero⟩
  rw [List.mem_append] at ha ⊢
  exact Or.inl (List.mem_append.mpr ha.symm)

/-- A level stays placed while its nodes stay in use. -/
theorem Placed.of_live (hp : Placed h L U) (hlive : ∀ a ∈ h.live, a ∈ h'.live)
    (hzero : 0 ∉ h'.live) :
    Placed h' L U :=
  ⟨hp.nodup, fun a ha => hlive a (hp.live a ha), hzero⟩

theorem Placed.children_disjoint (hp : Placed h ((P₁ ++ y :: P₂).flatMap (rowOf h)) U) 
    (hz : z ∈ P₁ ++ P₂) (ha : a ∈ (h.nodes z.2).children) : a ∉ (h.nodes y.2).children := by
  have hnodup := hp.nodup_addrs
  rw [addrs_flatMap, List.flatMap_append, List.flatMap_cons] at hnodup
  intro hay
  obtain ⟨-, h2, h12⟩ := List.nodup_append.mp hnodup
  rcases List.mem_append.mp hz with hz | hz
  · exact h12 a (List.mem_flatMap.mpr ⟨z, hz, ha⟩) a (List.mem_append_left _ hay) rfl
  · exact (List.nodup_append.mp h2).2.2 a hay a (List.mem_flatMap.mpr ⟨z, hz, ha⟩) rfl

theorem Placed.children_nodup (hp : Placed h (P.flatMap (rowOf h)) U) (hy : y ∈ P) :
    (h.nodes y.2).children.Nodup := by
  have hnodup := hp.nodup_addrs
  rw [addrs_flatMap] at hnodup
  exact (List.nodup_flatMap.mp hnodup).1 y hy

theorem Changed.refl (hplaced : Placed h L U) (X : List ℕ) : Changed h h U X U :=
  ⟨fun _ _ _ => SameBody.refl _, fun _ _ _ _ => rfl, fun _ ha _ => ha,
    fun a ha => ⟨hplaced.live a (List.mem_append_left _ ha), Or.inl ha⟩,
    (List.nodup_append.mp hplaced.nodup).1, hplaced.zero, rfl⟩

theorem nodup_insert_behind {A : Type*} {l₁ l₂ : List A} {u v : A} :
    (l₁ ++ u :: v :: l₂).Nodup ↔ v ∉ l₁ ++ u :: l₂ ∧ (l₁ ++ u :: l₂).Nodup := by
  have hperm : (l₁ ++ u :: v :: l₂).Perm (v :: (l₁ ++ u :: l₂)) := by
    rw [← List.singleton_append, ← List.append_assoc]
    refine List.perm_middle.trans ?_
    rw [List.append_assoc, List.singleton_append]
  rw [hperm.nodup_iff, List.nodup_cons]

/-- The other places of a level have other nodes. -/
theorem Placed.ne_of_mem (hp : Placed h (L₁ ++ x :: L₂) U) (hy : y ∈ L₁ ++ L₂) :
    y ∈ L₁ ++ x :: L₂ ∧ y.2 ≠ x.2 := by
  have hnodup := hp.nodup_addrs
  rw [addrs_append, addrs_cons, List.perm_middle.nodup_iff, List.nodup_cons,
    ← addrs_append] at hnodup
  exact ⟨mem_middle_of_mem hy, fun heq => hnodup.1 (heq ▸ mem_addrs hy)⟩

/-- A place of a level and the node it is a child of: `y` with the row `r₁ ++ x :: r₂`, in the
level `P₁ ++ y :: P₂` with the nodes `V` above. -/
structure ParentAt (order : ℕ) (h : Heap) (root k : ℕ) (L₁ : List Place) (x : Place)
    (L₂ : List Place) (U : List ℕ) (P₁ : List Place) (y : Place) (P₂ r₁ r₂ : List Place)
    (V : List ℕ) : Prop where
  row : rowOf h y = r₁ ++ x :: r₂
  before : L₁ = P₁.flatMap (rowOf h) ++ r₁
  behind : L₂ = r₂ ++ P₂.flatMap (rowOf h)
  nodes : U = addrs (P₁ ++ y :: P₂) ++ V
  inner : ∀ z ∈ P₁ ++ y :: P₂, Inner order k (h.nodes z.2)
  child : ∀ z ∈ P₁ ++ y :: P₂, ∀ c ∈ (h.nodes z.2).children, (h.nodes c).parent = z.2
  tower : Tower order h root k (P₁ ++ y :: P₂) V

theorem Tower.parentAt (ht : Tower order h root (k + 1) (L₁ ++ x :: L₂) U) :
    ∃ P₁ y P₂ r₁ r₂ V, ParentAt order h root k L₁ x L₂ U P₁ y P₂ r₁ r₂ V := by
  obtain ⟨P, V, hL, rfl, hinner, hchild, hup⟩ := ht
  obtain ⟨P₁, y, P₂, r₁, r₂, rfl, hrow, h1, h2⟩ := flatMap_eq_append_cons hL.symm
  exact ⟨P₁, y, P₂, r₁, r₂, V, hrow, h1, h2, rfl, hinner, hchild, hup⟩

namespace ParentAt

variable {r₁ r₂ m : List Place} {c : ℕ}

theorem level_eq (hp : ParentAt order h root k L₁ x L₂ U P₁ y P₂ r₁ r₂ V) :
    L₁ ++ x :: L₂ = (P₁ ++ y :: P₂).flatMap (rowOf h) := by
  rw [hp.before, hp.behind, List.flatMap_append, List.flatMap_cons, hp.row]
  simp only [List.append_assoc, List.cons_append]

theorem mem_children (hp : ParentAt order h root k L₁ x L₂ U P₁ y P₂ r₁ r₂ V) :
    x.2 ∈ (h.nodes y.2).children := by
  rw [← addrs_rowOf, hp.row]
  exact mem_addrs (by simp)

theorem parent_eq (hp : ParentAt order h root k L₁ x L₂ U P₁ y P₂ r₁ r₂ V) :
    (h.nodes x.2).parent = y.2 :=
  hp.child y (by simp) _ hp.mem_children

theorem placed_above (hp : ParentAt order h root k L₁ x L₂ U P₁ y P₂ r₁ r₂ V)
    (hplaced : Placed h (L₁ ++ x :: L₂) U) : Placed h (P₁ ++ y :: P₂) V :=
  Placed.above (hp.nodes ▸ hplaced)

theorem mem_upper (hp : ParentAt order h root k L₁ x L₂ U P₁ y P₂ r₁ r₂ V) : y.2 ∈ U := by
  rw [hp.nodes]
  exact List.mem_append_left _ (mem_addrs (by simp))

theorem mem_upper_of_above (hp : ParentAt order h root k L₁ x L₂ U P₁ y P₂ r₁ r₂ V)
    (ha : a ∈ V ++ addrs (P₁ ++ y :: P₂)) : a ∈ U := by
  rw [hp.nodes]
  exact List.mem_append.mpr (List.mem_append.mp ha).symm

/-- The others of its level, and the nodes above, are different from the node. -/
theorem ne_of_mem (hp : ParentAt order h root k L₁ x L₂ U P₁ y P₂ r₁ r₂ V)
    (hplaced : Placed h (L₁ ++ x :: L₂) U) (ha : a ∈ V ++ addrs (P₁ ++ P₂)) : a ≠ y.2 := by
  have hnodup := (hp.placed_above hplaced).nodup
  rintro rfl
  simp only [addrs_append, addrs_cons] at hnodup ha
  have hcount := List.nodup_iff_count_le_one.mp hnodup y.2
  have hpos := List.count_pos_iff.mpr ha
  simp only [List.count_append, List.count_cons_self] at hcount hpos
  omega

theorem mem_level (hp : ParentAt order h root k L₁ x L₂ U P₁ y P₂ r₁ r₂ V) (hz : z ∈ P₁ ++ y :: P₂)
    (hc : c ∈ (h.nodes z.2).children) : c ∈ addrs (L₁ ++ x :: L₂) := by
  rw [hp.level_eq]
  exact mem_addrs_flatMap hz hc

/-- The row of the node is replaced, all else stays. -/
theorem replace (hp : ParentAt order h root k L₁ x L₂ U P₁ y P₂ r₁ r₂ V)
    (hplaced : Placed h (L₁ ++ x :: L₂) U) (hrow : rowOf h' y = r₁ ++ (m ++ r₂))
    (hinner : Inner order k (h'.nodes y.2)) (hm : ∀ z ∈ m, (h'.nodes z.2).parent = y.2)
    (hbody : ∀ a ∈ U, a ≠ y.2 → SameBody (h'.nodes a) (h.nodes a))
    (hparent : ∀ a ∈ U ++ addrs (L₁ ++ x :: L₂), (h'.nodes a).parent = (h.nodes a).parent) :
    Tower order h' root (k + 1) (L₁ ++ (m ++ L₂)) U := by
  have hmem : ∀ z ∈ P₁ ++ P₂, z ∈ P₁ ++ y :: P₂ := fun z hz => mem_middle_of_mem hz
  have hbody' : ∀ a ∈ V ++ addrs (P₁ ++ P₂), SameBody (h'.nodes a) (h.nodes a) := fun a ha => by
    refine hbody a (hp.mem_upper_of_above ?_) (hp.ne_of_mem hplaced ha)
    simp only [addrs_append, addrs_cons, List.mem_append, List.mem_cons] at ha ⊢
    tauto
  have htower : Tower order h' root k (P₁ ++ ([y] ++ P₂)) V :=
    hp.tower.congr (fun a ha => hbody' a (List.mem_append_left _ ha)) fun a ha =>
      hparent a (List.mem_append_left _ (hp.mem_upper_of_above ha))
  have hmiddle := Tower.of_middle (Y := [y])
    (fun z hz => hbody' z.2 (List.mem_append_right _ (mem_addrs hz)))
    (fun z hz => hp.inner z (hmem z hz)) (fun z hz c hc => ?_) (fun z hz => ?_)
      (fun z hz c hc => ?_)
    htower
  · rw [List.flatMap_singleton, hrow] at hmiddle
    rw [hp.before, hp.behind, hp.nodes]
    simpa only [List.append_assoc, List.singleton_append] using hmiddle
  · rw [hparent c (List.mem_append_right _ (hp.mem_level (hmem z hz) hc))]
    exact hp.child z (hmem z hz) c hc
  · rw [List.mem_singleton.mp hz]
    exact hinner
  · rw [List.mem_singleton.mp hz] at hc ⊢
    rw [← addrs_rowOf, hrow, addrs_append, addrs_append, List.mem_append, List.mem_append] at hc
    by_cases hcm : c ∈ addrs m
    · obtain ⟨w, hw, rfl⟩ := List.mem_map.mp hcm
      exact hm w hw
    · have hc' : c ∈ (h.nodes y.2).children := by
        rw [← addrs_rowOf, hp.row, addrs_append, addrs_cons, List.mem_append, List.mem_cons]
        tauto
      rw [hparent c (List.mem_append_right _ (hp.mem_level (by simp) hc'))]
      exact hp.child y (by simp) c hc'

end ParentAt

/-- The root is the only node of the tree without a parent. -/
theorem Tower.eq_root_iff (ht : Tower order h root k (L₁ ++ x :: L₂) U)
    (hplaced : Placed h (L₁ ++ x :: L₂) U) : x.2 = root ↔ k = 0 := by
  constructor
  · intro hx
    cases k with
    | zero => rfl
    | succ k =>
      obtain ⟨P₁, y, P₂, r₁, r₂, V, hp⟩ := ht.parentAt
      have hzero : (h.nodes x.2).parent = 0 := hx ▸ ht.root_parent
      rw [hp.parent_eq] at hzero
      exact absurd hzero (hplaced.ne_zero (List.mem_append_left _ hp.mem_upper))
  · rintro rfl
    obtain ⟨hsingle, -, -⟩ := ht
    have hx : x ∈ [((⊥ : WithBot ℤ), root)] := hsingle ▸ List.mem_append_right _ List.mem_cons_self
    rw [List.mem_singleton.mp hx]

/-- The root is alone in its level. -/
theorem Tower.alone (ht : Tower order h root 0 (L₁ ++ x :: L₂) U) :
    L₁ = [] ∧ x = (⊥, root) ∧ L₂ = [] := by
  obtain ⟨hL, -, -⟩ := ht
  cases L₁ with
  | nil => exact ⟨rfl, (List.cons.inj hL).1, (List.cons.inj hL).2⟩
  | cons z L₁ => exact absurd (List.cons.inj hL).2 (by simp)

end Unos.BPlusTree
