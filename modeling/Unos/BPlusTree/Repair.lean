import Unos.BPlusTree.Neighbors

namespace Unos.BPlusTree

open Unos.Arrays Unos.Fences Unos.Splits

variable {order root k : ℕ} {h h₁ h' : Heap} {P₁ P₂ Q₁ Q₂ s₁ s₂ : List Place} {V V' W : List ℕ}
  {p q z : Place} {kp newKey : ℤ} {root' k' : ℕ}

/-- Two inner nodes with the key `kp` between them, one of which may be too small. -/
structure Siblings (order : ℕ) (h : Heap) (root k : ℕ) (P₁ : List Place) (p q : Place)
    (P₂ : List Place) (V : List ℕ) (Q₁ : List Place) (z : Place) (Q₂ s₁ s₂ : List Place)
    (W : List ℕ) (kp : ℤ) : Prop where
  pair : PairAt order h root k P₁ p q P₂ V Q₁ z Q₂ s₁ s₂ W
  placed : Placed h ((P₁ ++ p :: q :: P₂).flatMap (rowOf h)) (addrs (P₁ ++ p :: q :: P₂) ++ V)
  inner : ∀ w ∈ P₁ ++ P₂, Inner order (k + 1) (h.nodes w.2)
  child : ∀ w ∈ P₁ ++ p :: q :: P₂, ∀ c ∈ (h.nodes w.2).children, (h.nodes c).parent = w.2
  left : (h.nodes p.2).isLeaf = false
  right : (h.nodes q.2).isLeaf = false
  key : q.1 = ↑kp

namespace Siblings

theorem ne (hs : Siblings order h root k P₁ p q P₂ V Q₁ z Q₂ s₁ s₂ W kp) : q.2 ≠ p.2 := by
  have hnodup := hs.placed.above.nodup_addrs
  simp only [addrs_append, addrs_cons] at hnodup
  have hpq := (List.nodup_cons.mp (List.nodup_append.mp hnodup).2.1).1
  exact fun heq => hpq (heq ▸ List.mem_cons_self)

theorem not_mem_upper (hs : Siblings order h root k P₁ p q P₂ V Q₁ z Q₂ s₁ s₂ W kp) {a : ℕ}
    (ha : a ∈ addrs (P₁ ++ p :: q :: P₂)) : a ∉ V := hs.placed.above.not_mem_upper ha

/-- The other nodes of the level. -/
theorem ne_of_mem (hs : Siblings order h root k P₁ p q P₂ V Q₁ z Q₂ s₁ s₂ W kp) {a : ℕ}
    (ha : a ∈ V ++ addrs (P₁ ++ P₂)) : a ≠ p.2 ∧ a ≠ q.2 := by
  have hnodup := hs.placed.above.nodup
  constructor
  all_goals
    rintro rfl
    simp only [addrs_append, addrs_cons] at hnodup ha
    have hcount := List.nodup_iff_count_le_one.mp hnodup
    have hpos := List.count_pos_iff.mpr ha
    simp only [List.count_append] at hpos
  · have hp := hcount p.2
    simp only [List.count_append, List.count_cons_self, List.count_cons] at hp
    omega
  · have hq := hcount q.2
    simp only [List.count_append, List.count_cons_self, List.count_cons] at hq
    omega

theorem mem_child {a : ℕ} (ha : a ∈ (h.nodes p.2).children ++ (h.nodes q.2).children) :
    a ∈ addrs ((P₁ ++ p :: q :: P₂).flatMap (rowOf h)) := by
  rcases List.mem_append.mp ha with ha | ha
  · exact mem_addrs_flatMap (x := p) (by simp) ha
  · exact mem_addrs_flatMap (x := q) (by simp) ha

theorem child_not_mem_upper {a : ℕ} (hs : Siblings order h root k P₁ p q P₂ V Q₁ z Q₂ s₁ s₂ W kp)
    (ha : a ∈ (h.nodes p.2).children ++ (h.nodes q.2).children) :
    a ∉ addrs (P₁ ++ p :: q :: P₂) ++ V := hs.placed.not_mem_upper (mem_child ha)

theorem child_other {w : Place} (hs : Siblings order h root k P₁ p q P₂ V Q₁ z Q₂ s₁ s₂ W kp)
    (hw : w ∈ P₁ ++ P₂) {a : ℕ} (ha : a ∈ (h.nodes w.2).children) :
    a ∉ (h.nodes p.2).children ++ (h.nodes q.2).children := by
  intro hmem
  rcases List.mem_append.mp hmem with hmem | hmem
  · refine hs.placed.children_disjoint (z := w) ?_ ha hmem
    rw [List.mem_append, List.mem_cons] at *
    tauto
  · have hplaced := hs.placed
    rw [← List.singleton_append, ← List.append_assoc] at hplaced
    refine hplaced.children_disjoint (z := w) ?_ ha hmem
    rw [List.mem_append] at hw ⊢
    rw [List.mem_append]
    tauto

theorem nodup_children (hs : Siblings order h root k P₁ p q P₂ V Q₁ z Q₂ s₁ s₂ W kp) :
    ((h.nodes p.2).children ++ (h.nodes q.2).children).Nodup := by
  have hnodup := hs.placed.nodup_addrs
  rw [addrs_flatMap, List.flatMap_append, List.flatMap_cons, List.flatMap_cons, ← List.append_assoc
    (h.nodes p.2).children] at hnodup
  exact (List.nodup_append.mp (List.nodup_append.mp hnodup).2.1).1

theorem mem_of_other {w : Place} (hw : w ∈ P₁ ++ P₂) : w ∈ P₁ ++ p :: q :: P₂ := by
  exact mem_middle_of_mem (mem_middle_of_mem hw)

section Merging

theorem merged_pair (hs : Siblings order h root k P₁ p q P₂ V Q₁ z Q₂ s₁ s₂ W kp)
    (hm : MergedInto h h₁ q.2 p.2 kp) : PairAt order h₁ root k P₁ p q P₂ V Q₁ z Q₂ s₁ s₂ W := by
  refine hs.pair.congr (fun a ha => ?_) fun a ha => ?_
  · obtain ⟨hp, hq⟩ := hs.ne_of_mem (List.mem_append_left _ ha)
    exact hm.other a hq hp
  · exact hm.parent_other a fun hmem =>
      hs.child_not_mem_upper hmem (List.mem_append.mpr (List.mem_append.mp ha).symm)

theorem merged_parent (hs : Siblings order h root k P₁ p q P₂ V Q₁ z Q₂ s₁ s₂ W kp)
    (hm : MergedInto h h₁ q.2 p.2 kp) : (h₁.nodes q.2).parent = z.2 :=
  (hs.merged_pair hm).second.parent_eq

theorem merged_placed (hs : Siblings order h root k P₁ p q P₂ V Q₁ z Q₂ s₁ s₂ W kp)
    (hm : MergedInto h h₁ q.2 p.2 kp) : Placed h₁ (P₁ ++ p :: q :: P₂) V :=
  hs.placed.above.of_live (fun _ ha => hm.live ▸ ha) (hm.live ▸ hs.placed.zero)

theorem merged_row (hs : Siblings order h root k P₁ p q P₂ V Q₁ z Q₂ s₁ s₂ W kp)
    (hm : MergedInto h h₁ q.2 p.2 kp) : rowOf h₁ p = rowOf h p ++ rowOf h q := by
  rw [rowOf, hm.keys, hm.children, row_append_row (Node.length_row_lists _), rowOf, rowOf, hs.key]

theorem merged_tower (horder : 3 ≤ order)
    (hs : Siblings order h root k P₁ p q P₂ V Q₁ z Q₂ s₁ s₂ W kp) (hm : MergedInto h h₁ q.2 p.2 kp)
    (hmin : cut order - 1 ≤ (h.nodes p.2).numKeys + 1 + (h.nodes q.2).numKeys)
    (hmax : (h.nodes p.2).numKeys + 1 + (h.nodes q.2).numKeys ≤ order - 1)
    (ht : Tower order h' root' k' (P₁ ++ p :: P₂) V')
    (hc : Changed h₁ h' V (addrs (P₁ ++ p :: q :: P₂)) V') :
    Tower order (h'.free q.2) root' (k' + 1) ((P₁ ++ p :: q :: P₂).flatMap (rowOf h))
      (addrs (P₁ ++ p :: P₂) ++ V') := by
  have hlive : ∀ w ∈ P₁ ++ p :: q :: P₂, w.2 ∈ h₁.live ∧ w.2 ∉ V := fun w hw => by
    rw [hm.live]
    exact ⟨hs.placed.above.live _ (List.mem_append_right _ (mem_addrs hw)),
      hs.not_mem_upper (mem_addrs hw)⟩
  have hbody : ∀ w ∈ P₁ ++ P₂, SameBody (h'.nodes w.2) (h.nodes w.2) := fun w hw => by
    obtain ⟨hwlive, hwV⟩ := hlive w (mem_of_other hw)
    obtain ⟨hp, hq⟩ := hs.ne_of_mem (List.mem_append_right _ (mem_addrs hw))
    exact (hc.body w.2 hwlive hwV).trans (hm.other w.2 hq hp)
  obtain ⟨hplive, hpV⟩ := hlive p (by simp)
  have hbodyLeft : SameBody (h'.nodes p.2) (h₁.nodes p.2) := hc.body p.2 hplive hpV
  -- the children of the level are below the nodes that the rest of the climb touches
  have hdown : ∀ w ∈ P₁ ++ p :: q :: P₂, ∀ c ∈ (h.nodes w.2).children,
      (h'.nodes c).parent = (h₁.nodes c).parent := fun w hw c hcw => by
    have hcmem := mem_addrs_flatMap hw hcw
    have hup := hs.placed.not_mem_upper hcmem
    refine hc.parent c ?_ (fun hV => hup (List.mem_append_right _ hV))
      fun hP => hup (List.mem_append_left _ hP)
    rw [hm.live]
    exact hs.placed.live c (List.mem_append_right _ hcmem)
  have hinner : Inner order k' (h'.nodes p.2) := by
    have hnum := congrArg List.length hm.keys
    rw [Node.length_keyList, List.length_append, List.length_cons, Node.length_keyList,
      Node.length_keyList] at hnum
    refine Inner.congr (Inner.of_cut horder (hm.isLeaf.trans hs.left) ?_ ?_ k') hbodyLeft
    · omega
    · omega
  have hbodyFree : ∀ w ∈ P₁ ++ P₂, SameBody ((h'.free q.2).nodes w.2) (h.nodes w.2) := hbody
  have hrowLeft : rowOf (h'.free q.2) p = rowOf h₁ p := rowOf_congr hbodyLeft
  have htower := Tower.of_middle (h := h) (Y := [p]) hbodyFree
    (fun w hw => (hs.inner w hw).of_pos horder (Nat.succ_pos k) k') (fun w hw c hcw => ?_)
    (fun w hw => ?_) (fun w hw c hcw => ?_) (ht.congr (fun _ _ => SameBody.refl _) fun _ _ => rfl)
  · have hrow : [p].flatMap (rowOf (h'.free q.2)) = rowOf h p ++ rowOf h q := by
      rw [List.flatMap_singleton, hrowLeft, hs.merged_row hm]
    rw [hrow] at htower
    simpa only [List.flatMap_append, List.flatMap_cons, List.append_assoc, List.singleton_append]
      using htower
  · have hother : (h₁.nodes c).parent = (h.nodes c).parent :=
      hm.parent_other c (hs.child_other hw hcw)
    exact (hdown w (mem_of_other hw) c hcw).trans
      (hother.trans (hs.child w (mem_of_other hw) c hcw))
  · rw [List.mem_singleton.mp hw]
    exact hinner
  · rw [List.mem_singleton.mp hw] at hcw ⊢
    have hcw' : c ∈ (h.nodes p.2).children ++ (h.nodes q.2).children := by
      rw [← hm.children, ← hbodyLeft.children]
      exact hcw
    have hparent : (h'.nodes c).parent = (h₁.nodes c).parent := by
      rcases List.mem_append.mp hcw' with hcp | hcq
      · exact hdown p (by simp) c hcp
      · exact hdown q (by simp) c hcq
    exact hparent.trans (hm.parent_child c hcw')

theorem merged_changed (hs : Siblings order h root k P₁ p q P₂ V Q₁ z Q₂ s₁ s₂ W kp)
    (hm : MergedInto h h₁ q.2 p.2 kp)
    (hc : Changed h₁ h' V (addrs (P₁ ++ p :: q :: P₂)) V') :
    Changed h (h'.free q.2) (addrs (P₁ ++ p :: q :: P₂) ++ V)
      (addrs ((P₁ ++ p :: q :: P₂).flatMap (rowOf h))) (addrs (P₁ ++ p :: P₂) ++ V') := by
  have hplaced := hs.placed.above
  have hout : ∀ a, a ∉ addrs (P₁ ++ p :: q :: P₂) ++ V → a ∉ addrs (P₁ ++ p :: q :: P₂) ∧ a ∉ V ∧
      a ≠ p.2 ∧ a ≠ q.2 := fun a ha => by
    rw [List.mem_append, not_or] at ha
    exact ⟨ha.1, ha.2, fun heq => ha.1 (heq ▸ mem_addrs (x := p) (by simp)),
      fun heq => ha.1 (heq ▸ mem_addrs (x := q) (by simp))⟩
  have hkept : ∀ a ∈ addrs (P₁ ++ p :: P₂), a ∈ addrs (P₁ ++ p :: q :: P₂) ∧ a ≠ q.2 :=
      fun a ha => by
    have hmem : a ∈ addrs (P₁ ++ p :: q :: P₂) := by
      simp only [addrs_append, addrs_cons, List.mem_append, List.mem_cons] at ha ⊢
      tauto
    refine ⟨hmem, ?_⟩
    rintro rfl
    have hnodup := hplaced.nodup_addrs
    have hcount := List.nodup_iff_count_le_one.mp hnodup q.2
    have hpos := List.count_pos_iff.mpr ha
    simp only [addrs_append, addrs_cons, List.count_append, List.count_cons_self, List.count_cons]
      at hcount hpos
    omega
  refine ⟨fun a ha haU => ?_, fun a ha haU haL => ?_, fun a ha haU => ?_,
    fun a ha => ?_, ?_, ?_, ?_⟩
  · obtain ⟨-, haV, hp, hq⟩ := hout a haU
    exact (hc.body a (hm.live ▸ ha) haV).trans (hm.other a hq hp)
  · obtain ⟨haP, haV, -, -⟩ := hout a haU
    refine (hc.parent a (hm.live ▸ ha) haV haP).trans (hm.parent_other a fun hmem => haL ?_)
    exact mem_child hmem
  · obtain ⟨-, haV, -, hq⟩ := hout a haU
    exact Finset.mem_erase.mpr ⟨hq, hc.keeps a (hm.live ▸ ha) haV⟩
  · rcases List.mem_append.mp ha with haP | haV'
    · obtain ⟨hmem, hne⟩ := hkept a haP
      have halive := hplaced.live a (List.mem_append_right _ hmem)
      exact ⟨Finset.mem_erase.mpr ⟨hne, hc.keeps a (hm.live ▸ halive) (hs.not_mem_upper hmem)⟩,
        Or.inl (List.mem_append_left _ hmem)⟩
    · obtain ⟨halive, hold⟩ := hc.upper a haV'
      have hq : a ≠ q.2 := by
        rintro rfl
        have hqmem : q.2 ∈ addrs (P₁ ++ p :: q :: P₂) := mem_addrs (x := q) (by simp)
        rcases hold with hV | hnew
        · exact hs.not_mem_upper hqmem hV
        · rw [hm.live] at hnew
          exact hnew (hplaced.live _ (List.mem_append_right _ hqmem))
      refine ⟨Finset.mem_erase.mpr ⟨hq, halive⟩, ?_⟩
      rw [hm.live] at hold
      exact hold.imp_left (List.mem_append_right _)
  · refine List.nodup_append.mpr ⟨?_, hc.nodup, fun a ha b hb heq => ?_⟩
    · have hnodup := hplaced.nodup_addrs
      simp only [addrs_append, addrs_cons] at hnodup ⊢
      exact hnodup.sublist
        (List.Sublist.append_left (List.Sublist.cons_cons _ (List.sublist_cons_self _ _)) _)
    · obtain ⟨hmem, -⟩ := hkept a ha
      rw [← heq] at hb
      rcases (hc.upper a hb).2 with hV | hnew
      · exact hs.not_mem_upper hmem hV
      · rw [hm.live] at hnew
        exact hnew (hplaced.live a (List.mem_append_right _ hmem))
  · exact fun h0 => hc.zero (Finset.mem_of_mem_erase h0)
  · exact hc.records.trans hm.records

/-- Merging, with what the climb does to the level above. -/
theorem merge {fuel : ℕ} (horder : 3 ≤ order)
    (hs : Siblings order h root k P₁ p q P₂ V Q₁ z Q₂ s₁ s₂ W kp)
    (hmin : cut order - 1 ≤ (h.nodes p.2).numKeys + 1 + (h.nodes q.2).numKeys)
    (hmax : (h.nodes p.2).numKeys + 1 + (h.nodes q.2).numKeys ≤ order - 1)
    (hclimb : ∃ h' root' k' V',
      deleteEntry order fuel (mergeNodes order h q.2 p.2 kp) root z.2 kp q.2 =
      some (h', root') ∧ Tower order h' root' k' (P₁ ++ p :: P₂) V' ∧
      Changed (mergeNodes order h q.2 p.2 kp) h' V (addrs (P₁ ++ p :: q :: P₂)) V') :
    ∃ h' root' k' U', (do
        let r ← deleteEntry order fuel (mergeNodes order h q.2 p.2 kp) root
          ((mergeNodes order h q.2 p.2 kp).nodes q.2).parent kp q.2
        some (r.1.free q.2, r.2)) = some (h', root') ∧
      Tower order h' root' k' ((P₁ ++ p :: q :: P₂).flatMap (rowOf h)) U' ∧
      Changed h h' (addrs (P₁ ++ p :: q :: P₂) ++ V)
      (addrs ((P₁ ++ p :: q :: P₂).flatMap (rowOf h)))
        U' := by
  have hm : MergedInto h (mergeNodes order h q.2 p.2 kp) q.2 p.2 kp :=
    mergeNodes_inner hs.ne hs.right kp
  obtain ⟨h', root', k', V', heq, ht, hc⟩ := hclimb
  refine ⟨h'.free q.2, root', k' + 1, _, ?_, hs.merged_tower horder hm hmin hmax ht hc,
    hs.merged_changed hm hc⟩
  rw [hs.merged_parent hm, heq]
  rfl

end Merging

section Sharing

variable {c i : ℕ} {k' : ℤ} {kb : List ℤ} {cb : List ℕ}

/-- A child went over between the nodes `p` and `q`, with `newKey` now between them. -/
structure ChildShifted (order : ℕ) (h h' : Heap) (p q : Place) (y i : ℕ) (newKey : ℤ) : Prop where
  rows : rowOf h' p ++ rowOf h' (↑newKey, q.2) = rowOf h p ++ rowOf h q
  inner : ∀ k, Inner order k (h'.nodes p.2) ∧ Inner order k (h'.nodes q.2)
  child_left : ∀ c ∈ (h'.nodes p.2).children, (h'.nodes c).parent = p.2
  child_right : ∀ c ∈ (h'.nodes q.2).children, (h'.nodes c).parent = q.2
  node : h'.nodes y = { h.nodes y with keys := Function.update (h.nodes y).keys i newKey }
  body : ∀ x, x ≠ p.2 → x ≠ q.2 → x ≠ y → SameBody (h'.nodes x) (h.nodes x)
  parent : ∀ x, x ∉ (h.nodes p.2).children ++ (h.nodes q.2).children →
    (h'.nodes x).parent = (h.nodes x).parent
  live : h'.live = h.live
  records : h'.records = h.records

/-- What `borrowLeft_inner` and `borrowRight_inner` ask for. -/
theorem apart (hs : Siblings order h root k P₁ p q P₂ V Q₁ z Q₂ s₁ s₂ W kp) :
    (h.nodes p.2).parent = z.2 ∧ (h.nodes q.2).parent = z.2 ∧ z.2 ≠ p.2 ∧ z.2 ≠ q.2 ∧
      ∀ c ∈ (h.nodes p.2).children ++ (h.nodes q.2).children, c ≠ p.2 ∧ c ≠ q.2 ∧ c ≠ z.2 := by
  have hz := hs.pair.mem_upper
  obtain ⟨hzp, hzq⟩ := hs.ne_of_mem (List.mem_append_left _ hz)
  refine ⟨hs.pair.parent_eq, hs.pair.second.parent_eq, hzp, hzq, fun c hc => ?_⟩
  have hup := hs.child_not_mem_upper hc
  rw [List.mem_append, not_or] at hup
  exact ⟨fun heq => hup.1 (heq ▸ mem_addrs (x := p) (by simp)),
    fun heq => hup.1 (heq ▸ mem_addrs (x := q) (by simp)), fun heq => hup.2 (heq ▸ hz)⟩

theorem childShifted_left (horder : 3 ≤ order)
    (hs : Siblings order h root k P₁ p q P₂ V Q₁ z Q₂ s₁ s₂ W kp)
    (hmin : cut order - 1 ≤ (h.nodes q.2).numKeys + 1)
    (hmax : (h.nodes q.2).numKeys + 1 ≤ order - 1)
    (hmin' : cut order ≤ (h.nodes p.2).numKeys) (hmax' : (h.nodes p.2).numKeys ≤ order) :
    ∃ newKey, ChildShifted order h (borrowLeft h q.2 p.2 i kp) p q z.2 i newKey := by
  obtain ⟨-, hq, hzp, hzq, hapart⟩ := hs.apart
  have hcut : 1 ≤ cut order := by
    unfold cut
    split_ifs <;> omega
  -- the last key and the last child of the left node
  obtain ⟨kb, newKey, hkb⟩ :=
      List.eq_nil_or_concat (h.nodes p.2).keyList |>.resolve_left fun hnil => by
    have hlen := congrArg List.length hnil
    rw [Node.length_keyList, List.length_nil] at hlen
    omega
  obtain ⟨cb, c, hcb⟩ := List.eq_nil_or_concat (h.nodes p.2).children |>.resolve_left fun hnil => by
    have hlen := congrArg List.length hnil
    rw [Node.length_children, List.length_nil] at hlen
    omega
  rw [List.concat_eq_append] at hkb hcb
  have hlenKeys := congrArg List.length hkb
  have hlenChildren := congrArg List.length hcb
  rw [Node.length_keyList, List.length_append, List.length_singleton] at hlenKeys
  rw [Node.length_children, List.length_append, List.length_singleton] at hlenChildren
  have hmem : c ∈ (h.nodes p.2).children := by
    rw [hcb]
    exact List.mem_append_right _ (List.mem_singleton_self _)
  obtain ⟨hcp, hcq, hcz⟩ := hapart c (List.mem_append_left _ hmem)
  have hr := borrowLeft_inner (i := i) kp hs.right hs.ne (by rwa [hq]) (by rwa [hq]) hcq hcp
    (by rwa [hq]) hkb hcb
  rw [hq] at hr
  have hnodup := hs.nodup_children
  have hparents : ∀ x, x ≠ c → ((borrowLeft h q.2 p.2 i kp).nodes x).parent = (h.nodes x).parent :=
    hr.parent_other
  refine ⟨newKey, ?_, fun k => ⟨?_, ?_⟩, fun x hx => ?_, fun x hx => ?_, hr.parent_node,
    fun x hxp hxq hxz => hr.other x hxq hxp hxz, fun x hx => ?_, hr.live, hr.records⟩
  · rw [rowOf, rowOf, rowOf, rowOf, hr.nb_keys, hr.nb_children, hr.n_keys, hr.n_children, hkb, hcb,
      row_cons, later_cons, row_append (by omega), hs.key, List.append_assoc]
    rfl
  · have hnum := congrArg List.length hr.nb_keys
    rw [Node.length_keyList] at hnum
    refine Inner.of_cut horder (hr.nb_isLeaf.trans hs.left) ?_ ?_ k
    · omega
    · omega
  · have hnum := congrArg List.length hr.n_keys
    rw [Node.length_keyList, List.length_cons, Node.length_keyList] at hnum
    refine Inner.of_cut horder (hr.n_isLeaf.trans hs.right) ?_ ?_ k
    · omega
    · omega
  · rw [hr.nb_children] at hx
    have hxc : x ≠ c := by
      rintro rfl
      rw [hcb, List.append_assoc] at hnodup
      exact (List.nodup_append.mp hnodup).2.2 x hx x List.mem_cons_self rfl
    rw [hparents x hxc]
    exact hs.child p (by simp) x (hcb ▸ List.mem_append_left _ hx)
  · rw [hr.n_children] at hx
    rcases List.mem_cons.mp hx with rfl | hx
    · exact hr.parent_moved
    · have hxc : x ≠ c := fun heq =>
        (List.nodup_append.mp hnodup).2.2 c hmem x hx heq.symm
      rw [hparents x hxc]
      exact hs.child q (by simp) x hx
  · exact hparents x fun heq => hx (heq ▸ List.mem_append_left _ hmem)

theorem childShifted_right (horder : 3 ≤ order)
    (hs : Siblings order h root k P₁ p q P₂ V Q₁ z Q₂ s₁ s₂ W kp)
    (hmin : cut order - 1 ≤ (h.nodes p.2).numKeys + 1)
    (hmax : (h.nodes p.2).numKeys + 1 ≤ order - 1)
    (hmin' : cut order ≤ (h.nodes q.2).numKeys) (hmax' : (h.nodes q.2).numKeys ≤ order) :
    ∃ newKey, ChildShifted order h (borrowRight h p.2 q.2 i kp) p q z.2 i newKey := by
  obtain ⟨hp, -, hzp, hzq, hapart⟩ := hs.apart
  have hcut : 1 ≤ cut order := by
    unfold cut
    split_ifs <;> omega
  -- the first key and the first child of the right node
  obtain ⟨newKey, kb, hkb⟩ := List.exists_cons_of_ne_nil (l := (h.nodes q.2).keyList) fun hnil => by
    have hlen := congrArg List.length hnil
    rw [Node.length_keyList, List.length_nil] at hlen
    omega
  obtain ⟨c, cb, hcb⟩ := List.exists_cons_of_ne_nil (l := (h.nodes q.2).children) fun hnil => by
    have hlen := congrArg List.length hnil
    rw [Node.length_children, List.length_nil] at hlen
    omega
  have hlenKeys := congrArg List.length hkb
  rw [Node.length_keyList, List.length_cons] at hlenKeys
  have hmem : c ∈ (h.nodes q.2).children := by
    rw [hcb]
    exact List.mem_cons_self
  obtain ⟨hcp, hcq, hcz⟩ := hapart c (List.mem_append_right _ hmem)
  have hr := borrowRight_inner (i := i) kp hs.left hs.ne.symm (by rwa [hp]) (by rwa [hp]) hcp
    hcq (by rwa [hp]) hkb hcb
  rw [hp] at hr
  have hnodup := hs.nodup_children
  have hparents : ∀ x, x ≠ c → ((borrowRight h p.2 q.2 i kp).nodes x).parent = (h.nodes x).parent :=
    hr.parent_other
  refine ⟨newKey, ?_, fun k => ⟨?_, ?_⟩, fun x hx => ?_, fun x hx => ?_, hr.parent_node,
    fun x hxp hxq hxz => hr.other x hxp hxq hxz, fun x hx => ?_, hr.live, hr.records⟩
  · rw [rowOf, rowOf, rowOf, rowOf, hr.n_keys, hr.n_children, hr.nb_keys, hr.nb_children, hkb, hcb,
      row_append (Node.length_row_lists _), row_cons, later_cons, hs.key, List.append_assoc]
    rfl
  · have hnum := congrArg List.length hr.n_keys
    rw [Node.length_keyList, List.length_append, List.length_singleton, Node.length_keyList] at hnum
    refine Inner.of_cut horder (hr.n_isLeaf.trans hs.left) ?_ ?_ k
    · omega
    · omega
  · have hnum := congrArg List.length hr.nb_keys
    rw [Node.length_keyList] at hnum
    refine Inner.of_cut horder (hr.nb_isLeaf.trans hs.right) ?_ ?_ k
    · omega
    · omega
  · rw [hr.n_children] at hx
    rcases List.mem_append.mp hx with hx | hx
    · have hxc : x ≠ c := fun heq => (List.nodup_append.mp hnodup).2.2 x hx c hmem heq
      rw [hparents x hxc]
      exact hs.child p (by simp) x hx
    · rw [List.mem_singleton.mp hx]
      exact hr.parent_moved
  · rw [hr.nb_children] at hx
    have hxc : x ≠ c := by
      rintro rfl
      rw [hcb] at hnodup
      exact (List.nodup_cons.mp (List.nodup_append.mp hnodup).2.1).1 hx
    rw [hparents x hxc]
    exact hs.child q (by simp) x (hcb ▸ List.mem_cons_of_mem _ hx)
  · exact hparents x fun heq => hx (heq ▸ List.mem_append_right _ hmem)

theorem childShifted_tower (hs : Siblings order h root k P₁ p q P₂ V Q₁ z Q₂ s₁ s₂ W kp)
    (hf : ChildShifted order h h' p q z.2 s₁.length newKey) :
    Tower order h' root (k + 1 + 1) ((P₁ ++ p :: q :: P₂).flatMap (rowOf h))
      (addrs (P₁ ++ p :: q :: P₂) ++ V) := by
  have hkeepsParent : ∀ x ∈ V ++ addrs (P₁ ++ p :: q :: P₂),
      (h'.nodes x).parent = (h.nodes x).parent :=
    fun x hx => hf.parent x fun hmem =>
      hs.child_not_mem_upper hmem (List.mem_append.mpr (List.mem_append.mp hx).symm)
  have hup : Tower order h' root (k + 1) (P₁ ++ p :: (↑newKey, q.2) :: P₂) V := by
    refine hs.pair.set_key hs.placed.above hf.node (fun x hx hxz => ?_) hkeepsParent
    obtain ⟨hxp, hxq⟩ := hs.ne_of_mem (List.mem_append_left _ hx)
    exact hf.body x hxp hxq hxz
  have hbody : ∀ w ∈ P₁ ++ P₂, SameBody (h'.nodes w.2) (h.nodes w.2) := fun w hw => by
    obtain ⟨hwp, hwq⟩ := hs.ne_of_mem (List.mem_append_right _ (mem_addrs hw))
    refine hf.body w.2 hwp hwq fun heq => ?_
    exact hs.not_mem_upper (mem_addrs (mem_of_other hw)) (heq ▸ hs.pair.mem_upper)
  have htower := Tower.of_middle (h := h) (Y := [p, (↑newKey, q.2)]) hbody hs.inner
    (fun w hw c hcw => ?_)
    (fun w hw => ?_) (fun w hw c hcw => ?_) hup
  · have hrows : [p, ((newKey : WithBot ℤ), q.2)].flatMap (rowOf h') = rowOf h p ++ rowOf h q := by
      rw [List.flatMap_cons, List.flatMap_singleton, hf.rows]
    rw [hrows] at htower
    simpa only [List.flatMap_append, List.flatMap_cons, List.append_assoc, List.cons_append,
      List.nil_append, addrs_append, addrs_cons] using htower
  · rw [hf.parent c (hs.child_other hw hcw)]
    exact hs.child w (mem_of_other hw) c hcw
  · rcases List.mem_cons.mp hw with rfl | hw
    · exact (hf.inner (k + 1)).1
    · rw [List.mem_singleton.mp hw]
      exact (hf.inner (k + 1)).2
  · rcases List.mem_cons.mp hw with rfl | hw
    · exact hf.child_left c hcw
    · rw [List.mem_singleton.mp hw] at hcw ⊢
      exact hf.child_right c hcw

theorem childShifted_changed (hs : Siblings order h root k P₁ p q P₂ V Q₁ z Q₂ s₁ s₂ W kp)
    (hf : ChildShifted order h h' p q z.2 i newKey) :
    Changed h h' (addrs (P₁ ++ p :: q :: P₂) ++ V)
      (addrs ((P₁ ++ p :: q :: P₂).flatMap (rowOf h))) (addrs (P₁ ++ p :: q :: P₂) ++ V) := by
  refine ⟨fun a ha haU => ?_, fun a ha haU haL => ?_, fun a ha _ => hf.live ▸ ha,
    fun a ha => ?_, ?_, hf.live ▸ hs.placed.zero, hf.records⟩
  · rw [List.mem_append, not_or] at haU
    exact hf.body a (fun heq => haU.1 (heq ▸ mem_addrs (x := p) (by simp)))
      (fun heq => haU.1 (heq ▸ mem_addrs (x := q) (by simp)))
      fun heq => haU.2 (heq ▸ hs.pair.mem_upper)
  · exact hf.parent a fun hmem => haL (mem_child hmem)
  · rw [hf.live]
    exact ⟨hs.placed.live a (List.mem_append_left _ ha), Or.inl ha⟩
  · exact (List.nodup_append.mp hs.placed.nodup).1

end Sharing

theorem repaired {fuel : ℕ} {shared : Heap} (horder : 3 ≤ order)
    (hs : Siblings order h root k P₁ p q P₂ V Q₁ z Q₂ s₁ s₂ W kp) (room : Prop) [Decidable room]
    (hmin : cut order - 1 ≤ (h.nodes p.2).numKeys + 1 + (h.nodes q.2).numKeys)
    (hmax : room → (h.nodes p.2).numKeys + 1 + (h.nodes q.2).numKeys ≤ order - 1)
    (hclimb : ∃ h' root' k' V',
      deleteEntry order fuel (mergeNodes order h q.2 p.2 kp) root z.2 kp q.2 =
      some (h', root') ∧ Tower order h' root' k' (P₁ ++ p :: P₂) V' ∧
      Changed (mergeNodes order h q.2 p.2 kp) h' V (addrs (P₁ ++ p :: q :: P₂)) V')
    (hshare : ¬ room → ∃ newKey, ChildShifted order h shared p q z.2 s₁.length newKey) :
    ∃ h' root' k' U', (if room then do
        let r ← deleteEntry order fuel (mergeNodes order h q.2 p.2 kp) root
          ((mergeNodes order h q.2 p.2 kp).nodes q.2).parent kp q.2
        some (r.1.free q.2, r.2)
      else some (shared, root)) = some (h', root') ∧
      Tower order h' root' k' ((P₁ ++ p :: q :: P₂).flatMap (rowOf h)) U' ∧
      Changed h h' (addrs (P₁ ++ p :: q :: P₂) ++ V)
      (addrs ((P₁ ++ p :: q :: P₂).flatMap (rowOf h)))
        U' := by
  by_cases hroom : room
  · rw [if_pos hroom]
    exact hs.merge horder hmin (hmax hroom) hclimb
  · rw [if_neg hroom]
    obtain ⟨newKey, hf⟩ := hshare hroom
    exact ⟨shared, root, _, _, rfl, hs.childShifted_tower hf, hs.childShifted_changed hf⟩

end Siblings

end Unos.BPlusTree
