import Unos.BPlusTree.Deletion
import Unos.BPlusTree.Leaves

namespace Unos.BPlusTree

open Unos.Arrays Unos.Fences Unos.Links Unos.Splits

section Facts

variable {order root root' k k' : ℕ} {h h' : Heap} {L L₁ L₂ P₁ P₂ Q₁ Q₂ s₁ s₂ : List Place}
  {U W : List ℕ} {x p q z : Place} {key kp : ℤ} {r : ℕ} {e₁ e₂ B : List (ℤ × ℕ)}

/-- The leaf `x` lost the entry of the record `r`. -/
structure Lost (order : ℕ) (h h' : Heap) (root k : ℕ) (L₁ : List Place) (x : Place)
    (L₂ : List Place) (U : List ℕ) (es : List (ℤ × ℕ)) : Prop where
  store : Store order h' root k (L₁ ++ x :: L₂) U
  entries : bindings h' (L₁ ++ x :: L₂) = bindings h L₁ ++ (es ++ bindings h L₂)
  numKeys : (h'.nodes x.2).numKeys + 1 = (h.nodes x.2).numKeys
  other : ∀ a, a ≠ x.2 → h'.nodes a = h.nodes a
  live : h'.live = h.live
  records : h'.records = h.records

theorem Store.lost (hs : Store order h root k (L₁ ++ x :: L₂) U)
    (he : (h.nodes x.2).entries = e₁ ++ (key, r) :: e₂) (h1 : ∀ e ∈ e₁, e.1 < key) :
    ∃ nd, removeEntryFromNode order (h.nodes x.2) key r = some nd ∧
      Lost order h (h.modify x.2 fun _ => nd) root k L₁ x L₂ U (e₁ ++ e₂) := by
  have hxmem : x ∈ L₁ ++ x :: L₂ := by simp
  have hmax := hs.leaves.max x hxmem
  have hsplit : bindings h (L₁ ++ x :: L₂) = bindings h L₁ ++
      (e₁ ++ (key, r) :: e₂ ++ bindings h L₂) := by
    rw [bindings_append, bindings_cons, he]
  have hsub : (bindings h L₁ ++ (e₁ ++ e₂ ++ bindings h L₂)).Sublist
      (bindings h (L₁ ++ x :: L₂)) := by
    rw [hsplit]
    exact ((((List.sublist_cons_self _ _).append_left _).append_right _).append_left _)
  -- the record is not that of an entry before
  have hrecord : ∀ e ∈ e₁, e.2 ≠ r := fun e hmem heq => by
    have hdistinct := hs.leaves.distinct
    rw [hsplit, List.map_append, List.map_append, List.map_append, List.map_cons] at hdistinct
    have hnodup := (List.nodup_append.mp
      (List.nodup_append.mp (List.nodup_append.mp hdistinct).2.1).1).2.2
    exact hnodup e.2 (List.mem_map_of_mem hmem) r List.mem_cons_self heq
  obtain ⟨nd, hnd, hentries, hleaf, hparent, hnum, hlink⟩ := removeEntryFromNode_leaf
    (hs.leaves.isLeaf x hxmem) he (fun e hmem => (h1 e hmem).ne) hrecord hmax
  refine ⟨nd, hnd, ?_⟩
  generalize hh₁ : (h.modify x.2 fun _ => nd) = h₁
  have hnode : h₁.nodes x.2 = nd := by rw [← hh₁, modify_nodes_self]
  have hother : ∀ a, a ≠ x.2 → h₁.nodes a = h.nodes a := fun a ha => by
    rw [← hh₁, modify_nodes_of_ne ha]
  have hlive : h₁.live = h.live := by
    rw [← hh₁]
    rfl
  have hkeep : ∀ y ∈ L₁ ++ L₂, h₁.nodes y.2 = h.nodes y.2 := fun y hy =>
    hother y.2 (hs.placed.ne_of_mem hy).2
  have hbindings : bindings h₁ (L₁ ++ x :: L₂) = bindings h L₁ ++ (e₁ ++ e₂ ++ bindings h L₂) := by
    have hmiddle := bindings_middle hkeep [x]
    rw [bindings_cons, bindings_nil, hnode, hentries, List.append_nil] at hmiddle
    exact hmiddle
  have hkeys : (keysOf h₁ x.2).Sublist (keysOf h x.2) := by
    rw [keysOf_eq_map, keysOf_eq_map, hnode, hentries, he]
    exact ((List.sublist_cons_self _ _).append_left _).map _
  have hstore : Store order h₁ root k (L₁ ++ x :: L₂) U := by
    refine hs.rewrite_leaf hother hlive ?_ ?_ ?_ ?_ (fun key' hmem => ?_) ?_ fun e hmem => ?_
    · rw [hnode]
      exact ⟨hleaf, by omega⟩
    · rw [hnode, hparent]
    · rw [link, hnode, hlink]
      rfl
    · exact (hs.leaves.fenced.sorted x hxmem).sublist hkeys
    · exact ⟨hs.leaves.fenced.low x hxmem key' (hkeys.subset hmem), fun y hy =>
        (hs.leaves.fenced.behind hy).2 key' (hkeys.subset hmem)⟩
    · rw [hbindings]
      exact hs.leaves.distinct.sublist (hsub.map _)
    · rw [hbindings] at hmem
      exact hs.owned e (hsub.subset hmem)
  refine ⟨hstore, hbindings, by rw [hnode, hnum], hother, hlive, ?_⟩
  rw [← hh₁]
  rfl

theorem Store.holds_free (hs : Store order h root k L U) (hfill : Filled order h k L)
    (hr : Unused h L U r) : Holds order (h.free r) root (bindings h L) := by
  refine Or.inr ⟨k, L, U,
    hs.of_nodes rfl (fun a ha => ?_) (fun e he => ?_) fun h0 => ?_, hfill, rfl⟩
  · exact Finset.mem_erase.mpr ⟨fun heq => hr.node (heq ▸ ha), hs.placed.live a ha⟩
  · exact Finset.mem_erase.mpr ⟨hr.record e he, (hs.owned e he).1⟩
  · exact hs.placed.zero (Finset.mem_of_mem_erase h0)

/-- Two leaves with the key `kp` between them, one of which may be too small. -/
structure LeafPair (order : ℕ) (h : Heap) (root k : ℕ) (P₁ : List Place) (p q : Place)
    (P₂ : List Place) (U : List ℕ) (Q₁ : List Place) (z : Place) (Q₂ s₁ s₂ : List Place)
    (W : List ℕ) (kp : ℤ) : Prop where
  store : Store order h root (k + 1) (P₁ ++ p :: q :: P₂) U
  pair : PairAt order h root k P₁ p q P₂ U Q₁ z Q₂ s₁ s₂ W
  key : q.1 = ↑kp

namespace LeafPair

theorem mem_left (hl : LeafPair order h root k P₁ p q P₂ U Q₁ z Q₂ s₁ s₂ W kp) :
    p ∈ P₁ ++ p :: q :: P₂ ∧ p.2 ∉ U := by
  have hmem : p ∈ P₁ ++ p :: q :: P₂ := by simp
  exact ⟨hmem, hl.store.placed.not_mem_upper (mem_addrs hmem)⟩

theorem mem_right (hl : LeafPair order h root k P₁ p q P₂ U Q₁ z Q₂ s₁ s₂ W kp) :
    q ∈ P₁ ++ p :: q :: P₂ ∧ q.2 ∉ U := by
  have hmem : q ∈ P₁ ++ p :: q :: P₂ := by simp
  exact ⟨hmem, hl.store.placed.not_mem_upper (mem_addrs hmem)⟩

/-- The other leaves, and the two from each other. -/
theorem apart (hl : LeafPair order h root k P₁ p q P₂ U Q₁ z Q₂ s₁ s₂ W kp) :
    q.2 ≠ p.2 ∧ ∀ y ∈ P₁ ++ P₂, y ∈ P₁ ++ p :: q :: P₂ ∧ y.2 ≠ p.2 ∧ y.2 ≠ q.2 := by
  have hplaced := hl.store.placed
  have hplaced' : Placed h ((P₁ ++ [p]) ++ q :: P₂) U := by
    rw [List.append_assoc]
    exact hplaced
  refine ⟨(hplaced.ne_of_mem (y := q) (by simp)).2, fun y hy => ?_⟩
  have hyp : y ∈ P₁ ++ q :: P₂ := mem_middle_of_mem hy
  have hyq : y ∈ P₁ ++ [p] ++ P₂ := by
    simp only [List.mem_append] at hy ⊢
    tauto
  exact ⟨(hplaced.ne_of_mem hyp).1, (hplaced.ne_of_mem hyp).2, (hplaced'.ne_of_mem hyq).2⟩

/-- The keys of the two are in order, and below what is behind them. -/
theorem sorted (hl : LeafPair order h root k P₁ p q P₂ U Q₁ z Q₂ s₁ s₂ W kp) :
    (keysOf h p.2 ++ keysOf h q.2).Pairwise (· < ·) ∧
      ∀ key ∈ keysOf h p.2 ++ keysOf h q.2, p.1 ≤ key ∧ ∀ y ∈ P₂, (key : WithBot ℤ) < y.1 := by
  have hf := hl.store.leaves.fenced
  have hpart : Fenced (keysOf h) [p, q] := by
    have htwo : [p, q].Sublist (p :: q :: P₂) := ((List.nil_sublist P₂).cons_cons q).cons_cons p
    exact hf.sublist (htwo.trans (List.sublist_append_right _ _))
  have hf' : Fenced (keysOf h) ((P₁ ++ [p]) ++ q :: P₂) := by
    rw [List.append_assoc]
    exact hf
  refine ⟨?_, fun key hmem => ?_⟩
  · have hflat := hpart.sorted_flatMap
    rwa [List.flatMap_cons, List.flatMap_singleton] at hflat
  · rcases List.mem_append.mp hmem with hp | hq
    · exact ⟨hf.low p hl.mem_left.1 key hp, fun y hy =>
        (hf.behind (List.mem_cons_of_mem q hy)).2 key hp⟩
    · exact ⟨(hf.behind List.mem_cons_self).1.le.trans (hf.low q hl.mem_right.1 key hq), fun y hy =>
        (hf'.behind hy).2 key hq⟩

/-- The entries of the leaf `q` went over to the leaf `p`. -/
structure Joined (order : ℕ) (h h' : Heap) (p q : Place) : Prop where
  entries : (h'.nodes p.2).entries = (h.nodes p.2).entries ++ (h.nodes q.2).entries
  isLeaf : (h'.nodes p.2).isLeaf = (h.nodes p.2).isLeaf
  parent : (h'.nodes p.2).parent = (h.nodes p.2).parent
  linked : link order h' p.2 = link order h q.2
  other : ∀ a, a ≠ p.2 → h'.nodes a = h.nodes a
  live : h'.live = h.live
  records : h'.records = h.records

theorem joined (hl : LeafPair order h root k P₁ p q P₂ U Q₁ z Q₂ s₁ s₂ W kp)
    (hmax : (h.nodes p.2).numKeys + (h.nodes q.2).numKeys ≤ order - 1) :
    Joined order h (mergeNodes order h q.2 p.2 kp) p q := by
  obtain ⟨nd, hmerge, hentries, hleaf, hparent, hlink⟩ := mergeNodes_leaf
    (hl.store.leaves.isLeaf q hl.mem_right.1) kp hmax
  rw [hmerge]
  have hnode : (h.modify p.2 fun _ => nd).nodes p.2 = nd := modify_nodes_self
  refine ⟨?_, ?_, ?_, ?_, fun a ha => modify_nodes_of_ne ha, rfl, rfl⟩
  · rw [hnode, hentries]
  · rw [hnode, hleaf]
  · rw [hnode, hparent]
  · rw [link, hnode, hlink, link]

theorem Joined.numKeys (hj : Joined order h h' p q) :
    (h'.nodes p.2).numKeys = (h.nodes p.2).numKeys + (h.nodes q.2).numKeys := by
  rw [← Node.length_entries, hj.entries, List.length_append, Node.length_entries,
    Node.length_entries]

theorem Joined.keysOf_eq (hj : Joined order h h' p q) :
    keysOf h' p.2 = keysOf h p.2 ++ keysOf h q.2 := by
  rw [keysOf_eq_map, keysOf_eq_map, keysOf_eq_map, hj.entries, List.map_append]

theorem joined_kept (hl : LeafPair order h root k P₁ p q P₂ U Q₁ z Q₂ s₁ s₂ W kp)
    (hj : Joined order h h' p q) : ∀ y ∈ P₁ ++ P₂, h'.nodes y.2 = h.nodes y.2 := fun y hy =>
  hj.other y.2 (hl.apart.2 y hy).2.1

theorem joined_bindings (hl : LeafPair order h root k P₁ p q P₂ U Q₁ z Q₂ s₁ s₂ W kp)
    (hj : Joined order h h' p q) :
    bindings h' (P₁ ++ p :: P₂) = bindings h (P₁ ++ p :: q :: P₂) := by
  have hkeep := hl.joined_kept hj
  rw [bindings_append, bindings_cons, hj.entries, bindings_append, bindings_cons, bindings_cons,
    bindings_congr fun y hy => congrArg _ (hkeep y (List.mem_append_left _ hy)),
    bindings_congr fun y hy => congrArg _ (hkeep y (List.mem_append_right _ hy)), List.append_assoc
    (h.nodes p.2).entries]

theorem joined_leaves (hl : LeafPair order h root k P₁ p q P₂ U Q₁ z Q₂ s₁ s₂ W kp)
    (hj : Joined order h h' p q)
    (hmax : (h.nodes p.2).numKeys + (h.nodes q.2).numKeys ≤ order - 1) :
    Leaves order h' (P₁ ++ p :: P₂) := by
  obtain ⟨hpmem, -⟩ := hl.mem_left
  obtain ⟨hsorted, hbounds⟩ := hl.sorted
  have hkeep := hl.joined_kept hj
  have hkeys := hj.keysOf_eq
  show Leaves order h' (P₁ ++ ([p] ++ P₂))
  refine Leaves.replace (m := [p, q]) hl.store.leaves (fun y hy => ?_) (fun y hy => ?_)
    (Fenced.singleton (fun key hmem => (hbounds key (hkeys ▸ hmem)).1) (hkeys ▸ hsorted))
    (fun y hy => ⟨p, List.mem_cons_self, ?_⟩) (fun y hy w hw => ?_) (fun a b hpath => ?_) ?_
  · rw [hkeep y hy]
    exact SameBody.refl _
  · rw [List.mem_singleton.mp hy, hj.numKeys, hj.isLeaf]
    exact ⟨hl.store.leaves.isLeaf p hpmem, hmax⟩
  · rw [List.mem_singleton.mp hy]
  · rw [List.mem_singleton.mp hy, hkeys]
    exact ⟨(hl.store.leaves.fenced.behind (List.mem_cons_of_mem q hw)).1, fun key hmem =>
      (hbounds key hmem).2 w hw⟩
  · obtain ⟨ha, -, hb⟩ := hpath
    refine ⟨ha, ?_⟩
    rw [hj.linked]
    exact hb
  · have hdistinct := hl.store.leaves.distinct
    rw [← hl.joined_bindings hj] at hdistinct
    rw [bindings_append, bindings_cons] at hdistinct
    rw [bindings_cons, bindings_nil, List.append_nil]
    rw [bindings_congr fun y hy => congrArg _ (hkeep y (List.mem_append_left _ hy)),
      bindings_congr fun y hy => congrArg _ (hkeep y (List.mem_append_right _ hy))] at hdistinct
    exact hdistinct

theorem mem_joined (hl : LeafPair order h root k P₁ p q P₂ U Q₁ z Q₂ s₁ s₂ W kp) {y : Place}
    (hy : y ∈ P₁ ++ p :: P₂) : y ∈ P₁ ++ p :: q :: P₂ ∧ y.2 ≠ q.2 := by
  obtain ⟨hqp, hothers⟩ := hl.apart
  rcases mem_middle.mp hy with rfl | hy
  · exact ⟨hl.mem_left.1, hqp.symm⟩
  · exact ⟨(hothers y hy).1, (hothers y hy).2.2⟩

theorem merge {fuel : ℕ} (horder : 3 ≤ order)
    (hl : LeafPair order h root k P₁ p q P₂ U Q₁ z Q₂ s₁ s₂ W kp)
    (hmin : cut (order - 1) ≤ (h.nodes p.2).numKeys + (h.nodes q.2).numKeys)
    (hmax : (h.nodes p.2).numKeys + (h.nodes q.2).numKeys ≤ order - 1)
    (hfill : ∀ y ∈ P₁ ++ P₂, cut (order - 1) ≤ (h.nodes y.2).numKeys)
    (hr : Unused h (P₁ ++ p :: q :: P₂) U r) (hfuel : k < fuel) :
    ∃ h' root', (do
        let r ← deleteEntry order fuel (mergeNodes order h q.2 p.2 kp) root
          ((mergeNodes order h q.2 p.2 kp).nodes q.2).parent kp q.2
        some (r.1.free q.2, r.2)) = some (h', root') ∧
      Holds order (h'.free r) root' (bindings h (P₁ ++ p :: q :: P₂)) ∧ h'.records = h.records := by
  obtain ⟨hpmem, hpU⟩ := hl.mem_left
  obtain ⟨hqmem, hqU⟩ := hl.mem_right
  have hlive : ∀ y ∈ P₁ ++ p :: q :: P₂, y.2 ∈ h.live := fun y hy =>
    hl.store.placed.live _ (List.mem_append_right _ (mem_addrs hy))
  have hj := hl.joined hmax
  generalize mergeNodes order h q.2 p.2 kp = h₁ at hj
  have hbindings := hl.joined_bindings hj
  have hpair : PairAt order h₁ root k P₁ p q P₂ U Q₁ z Q₂ s₁ s₂ W := by
    refine hl.pair.congr (fun a ha => ?_) fun a _ => ?_
    · rw [hj.other a fun heq => hpU (heq ▸ ha)]
      exact SameBody.refl _
    · by_cases hap : a = p.2
      · rw [hap, hj.parent]
      · rw [hj.other a hap]
  have hplaced : Placed h₁ (P₁ ++ p :: q :: P₂) U :=
    hl.store.placed.of_live (fun a ha => hj.live ▸ ha) (hj.live ▸ hl.store.placed.zero)
  obtain ⟨h', root', k', U', heq, ht, hc⟩ := deleteEntry_spec horder hpair hplaced
    hl.store.leaves.fenced.rising hl.key hfuel
  have hsub : ∀ a ∈ addrs (P₁ ++ p :: P₂), a ∈ addrs (P₁ ++ p :: q :: P₂) ∧ a ≠ q.2 :=
      fun a ha => by
    obtain ⟨y, hy, rfl⟩ := List.mem_map.mp ha
    exact ⟨mem_addrs (hl.mem_joined hy).1, (hl.mem_joined hy).2⟩
  have hnodup : (addrs (P₁ ++ p :: P₂)).Nodup := by
    refine hl.store.placed.nodup_addrs.sublist (List.Sublist.map _ ?_)
    exact ((List.sublist_cons_self _ _).cons_cons p).append_left P₁
  have howned : ∀ e ∈ bindings h₁ (P₁ ++ p :: P₂), e.2 ∈ h₁.live ∧
      e.2 ∉ U ++ addrs (P₁ ++ p :: P₂) :=
    fun e hmem => by
      rw [hbindings] at hmem
      obtain ⟨helive, hout⟩ := hl.store.owned e hmem
      rw [hj.live]
      refine ⟨helive, fun hin => hout ?_⟩
      exact (List.mem_append.mp hin).elim (List.mem_append_left _) fun ha =>
        List.mem_append_right _ (hsub _ ha).1
  obtain ⟨hstore, hsame, hnums⟩ := Leaves.store (hl.joined_leaves hj hmax) ht hc hnodup
    (fun a ha => ⟨hj.live ▸ hl.store.placed.live a (List.mem_append_right _ (hsub a ha).1),
      hl.store.placed.not_mem_upper (hsub a ha).1⟩) howned
  have hfilled : Filled order h' k' (P₁ ++ p :: P₂) := fun y hy => by
    have hcut : minLeaf order k' ≤ cut (order - 1) := by
      unfold minLeaf cut
      split_ifs <;> omega
    refine hcut.trans ?_
    rw [hnums y hy]
    rcases mem_middle.mp hy with rfl | hy
    · rw [hj.numKeys]
      exact hmin
    · rw [hl.joined_kept hj y hy]
      exact hfill y hy
  -- what was in use and not in the tree is not in it now
  have hupper : ∀ a ∈ h.live, a ∉ U → a ∉ U' := fun a ha haU haU' =>
    (hc.upper a haU').2.elim haU fun hnew => hnew (hj.live ▸ ha)
  have hbind : bindings h' (P₁ ++ p :: P₂) = bindings h (P₁ ++ p :: q :: P₂) :=
    hsame.trans hbindings
  have hstore' : Store order (h'.free q.2) root' k' (P₁ ++ p :: P₂) U' := by
    refine hstore.of_nodes rfl (fun a ha => ?_) (fun e he => ?_) fun h0 =>
      hstore.placed.zero (Finset.mem_of_mem_erase h0)
    · refine Finset.mem_erase.mpr ⟨?_, hstore.placed.live a ha⟩
      rcases List.mem_append.mp ha with hU | hL
      · exact fun heq => hupper q.2 (hlive q hqmem) hqU (heq ▸ hU)
      · exact (hsub a hL).2
    · refine Finset.mem_erase.mpr ⟨fun heq => ?_, (hstore.owned e he).1⟩
      rw [hbind] at he
      exact (hl.store.owned e he).2 (heq ▸ List.mem_append_right _ (mem_addrs hqmem))
  refine ⟨h'.free q.2, root', ?_, ?_, ?_⟩
  · rw [hpair.second.parent_eq, heq]
    rfl
  · rw [← hbind]
    refine hstore'.holds_free hfilled ⟨?_, fun hmem => ?_, fun e he => ?_⟩
    · refine Finset.mem_erase.mpr ⟨fun heq => hr.node ?_,
        hc.keeps r (hj.live ▸ hr.live) fun hU => ?_⟩
      · rw [heq]
        exact List.mem_append_right _ (mem_addrs hqmem)
      · exact hr.node (List.mem_append_left _ hU)
    · rcases List.mem_append.mp hmem with hU | hL
      · exact hupper r hr.live (fun hU => hr.node (List.mem_append_left _ hU)) hU
      · exact hr.node (List.mem_append_right _ (hsub r hL).1)
    · exact hr.record e (hbind ▸ he)
  · rw [free_records, hc.records, hj.records]

/-- An entry went over between the leaves `p` and `q`, with `newKey` now between them. -/
structure EntryShifted (order : ℕ) (h h' : Heap) (p q : Place) (y i : ℕ) (newKey : ℤ) : Prop where
  entries : (h'.nodes p.2).entries ++ (h'.nodes q.2).entries =
    (h.nodes p.2).entries ++ (h.nodes q.2).entries
  first : (keysOf h' q.2).head? = some newKey
  isLeaf : ∀ x ∈ [p, q], (h'.nodes x.2).isLeaf = (h.nodes x.2).isLeaf
  min : ∀ x ∈ [p, q], cut (order - 1) ≤ (h'.nodes x.2).numKeys
  max : ∀ x ∈ [p, q], (h'.nodes x.2).numKeys ≤ order - 1
  links : ∀ x ∈ [p, q], link order h' x.2 = link order h x.2
  node : h'.nodes y = { h.nodes y with keys := Function.update (h.nodes y).keys i newKey }
  other : ∀ x, x ≠ p.2 → x ≠ q.2 → x ≠ y → h'.nodes x = h.nodes x
  parent : ∀ x, (h'.nodes x).parent = (h.nodes x).parent
  live : h'.live = h.live
  records : h'.records = h.records

/-- What `borrowLeft_leaf` and `borrowRight_leaf` ask for. -/
theorem parents (hl : LeafPair order h root k P₁ p q P₂ U Q₁ z Q₂ s₁ s₂ W kp) :
    (h.nodes p.2).parent = z.2 ∧ (h.nodes q.2).parent = z.2 ∧ z.2 ≠ p.2 ∧ z.2 ≠ q.2 :=
  ⟨hl.pair.parent_eq, hl.pair.second.parent_eq,
    fun heq => hl.mem_left.2 (heq ▸ hl.pair.mem_upper),
    fun heq => hl.mem_right.2 (heq ▸ hl.pair.mem_upper)⟩

theorem forall_pair {C : Place → Prop} (hp : C p) (hq : C q) : ∀ x ∈ [p, q], C x := fun x hx => by
  rcases List.mem_cons.mp hx with rfl | hx
  · exact hp
  · exact List.mem_singleton.mp hx ▸ hq

theorem entryShifted_left {i : ℕ} (hl : LeafPair order h root k P₁ p q P₂ U Q₁ z Q₂ s₁ s₂ W kp)
    (hmin : cut (order - 1) ≤ (h.nodes q.2).numKeys + 1) (hmax : (h.nodes q.2).numKeys < order - 1)
    (hmin' : cut (order - 1) < (h.nodes p.2).numKeys) :
    ∃ newKey, EntryShifted order h (borrowLeft h q.2 p.2 i kp) p q z.2 i newKey := by
  obtain ⟨-, hq, hzp, hzq⟩ := hl.parents
  have hpmax := hl.store.leaves.max p hl.mem_left.1
  have hqleaf := hl.store.leaves.isLeaf q hl.mem_right.1
  -- the last entry of the left leaf
  obtain ⟨eb, e, heb⟩ := List.eq_nil_or_concat (h.nodes p.2).entries |>.resolve_left fun hnil => by
    have hlen := congrArg List.length hnil
    rw [Node.length_entries, List.length_nil] at hlen
    omega
  rw [List.concat_eq_append] at heb
  have hlen := congrArg List.length heb
  rw [Node.length_entries, List.length_append, List.length_singleton] at hlen
  have hr := borrowLeft_leaf (i := i) kp hqleaf hl.apart.1 (by rwa [hq]) (by rwa [hq]) heb
    hmax hpmax
  rw [hq] at hr
  have hnumQ := congrArg List.length hr.n_entries
  have hnumP := congrArg List.length hr.nb_entries
  rw [Node.length_entries, List.length_cons, Node.length_entries] at hnumQ
  rw [Node.length_entries] at hnumP
  refine ⟨e.1, ?_, ?_, forall_pair hr.nb_isLeaf hr.n_isLeaf, forall_pair (by omega) (by omega),
    forall_pair (by omega) (by omega), forall_pair hr.nb_link hr.n_link, hr.parent_node,
    fun x hxp hxq hxz => hr.other x hxq hxp hxz, hr.parent, hr.live, hr.records⟩
  · rw [hr.nb_entries, hr.n_entries, heb, List.append_assoc, List.singleton_append]
  · rw [keysOf_eq_map, hr.n_entries]
    rfl

theorem entryShifted_right {i : ℕ} (hl : LeafPair order h root k P₁ p q P₂ U Q₁ z Q₂ s₁ s₂ W kp)
    (hmin : cut (order - 1) ≤ (h.nodes p.2).numKeys + 1) (hmax : (h.nodes p.2).numKeys < order - 1)
    (hmin' : cut (order - 1) < (h.nodes q.2).numKeys) (hcut : 1 ≤ cut (order - 1)) :
    ∃ newKey, EntryShifted order h (borrowRight h p.2 q.2 i kp) p q z.2 i newKey := by
  obtain ⟨hp, -, hzp, hzq⟩ := hl.parents
  have hqmax := hl.store.leaves.max q hl.mem_right.1
  have hpleaf := hl.store.leaves.isLeaf p hl.mem_left.1
  -- the first two entries of the right leaf
  obtain ⟨e, es, hes⟩ := List.exists_cons_of_ne_nil (l := (h.nodes q.2).entries) fun hnil => by
    have hlen := congrArg List.length hnil
    rw [Node.length_entries, List.length_nil] at hlen
    omega
  obtain ⟨e', eb, rfl⟩ := List.exists_cons_of_ne_nil (l := es) fun hnil => by
    have hlen := congrArg List.length hes
    rw [Node.length_entries, List.length_cons, hnil, List.length_nil] at hlen
    omega
  have hlen := congrArg List.length hes
  rw [Node.length_entries, List.length_cons, List.length_cons] at hlen
  have hr := borrowRight_leaf (i := i) kp hpleaf hl.apart.1.symm (by rwa [hp]) (by rwa [hp])
    hes hmax hqmax
  rw [hp] at hr
  have hnumP := congrArg List.length hr.n_entries
  have hnumQ := congrArg List.length hr.nb_entries
  rw [Node.length_entries, List.length_append, List.length_singleton, Node.length_entries] at hnumP
  rw [Node.length_entries, List.length_cons] at hnumQ
  refine ⟨e'.1, ?_, ?_, forall_pair hr.n_isLeaf hr.nb_isLeaf, forall_pair (by omega) (by omega),
    forall_pair (by omega) (by omega), forall_pair hr.n_link hr.nb_link, hr.parent_node,
    fun x hxp hxq hxz => hr.other x hxp hxq hxz, hr.parent, hr.live, hr.records⟩
  · rw [hr.nb_entries, hr.n_entries, hes, List.append_assoc, List.singleton_append]
  · rw [keysOf_eq_map, hr.nb_entries]
    rfl

theorem shared_kept {y i : ℕ} {newKey : ℤ}
    (hl : LeafPair order h root k P₁ p q P₂ U Q₁ z Q₂ s₁ s₂ W kp)
    (hf : EntryShifted order h h' p q y i newKey) (hy : y ∈ U) :
    ∀ x ∈ P₁ ++ P₂, h'.nodes x.2 = h.nodes x.2 := fun x hx => by
  obtain ⟨hxmem, hxp, hxq⟩ := hl.apart.2 x hx
  exact hf.other x.2 hxp hxq fun heq => hl.store.placed.not_mem_upper (mem_addrs hxmem) (heq ▸ hy)

theorem EntryShifted.keysOf_eq {y i : ℕ} {newKey : ℤ}
    (hf : EntryShifted order h h' p q y i newKey) :
    keysOf h' p.2 ++ keysOf h' q.2 = keysOf h p.2 ++ keysOf h q.2 := by
  rw [keysOf_eq_map, keysOf_eq_map, ← List.map_append, hf.entries, List.map_append, ← keysOf_eq_map,
    ← keysOf_eq_map]

theorem shared_bindings {y i : ℕ} {newKey : ℤ}
    (hl : LeafPair order h root k P₁ p q P₂ U Q₁ z Q₂ s₁ s₂ W kp)
    (hf : EntryShifted order h h' p q y i newKey) (hy : y ∈ U) :
    bindings h' (P₁ ++ p :: (↑newKey, q.2) :: P₂) = bindings h (P₁ ++ p :: q :: P₂) := by
  have hkeep := hl.shared_kept hf hy
  rw [bindings_append, bindings_cons, bindings_cons, bindings_append, bindings_cons, bindings_cons,
    bindings_congr fun y hy => congrArg _ (hkeep y (List.mem_append_left _ hy)),
    bindings_congr fun y hy => congrArg _ (hkeep y (List.mem_append_right _ hy)),
    ← List.append_assoc (h'.nodes p.2).entries, hf.entries, List.append_assoc (h.nodes p.2).entries]

theorem shared_leaves {y i : ℕ} {newKey : ℤ} (horder : 3 ≤ order)
    (hl : LeafPair order h root k P₁ p q P₂ U Q₁ z Q₂ s₁ s₂ W kp)
    (hf : EntryShifted order h h' p q y i newKey) (hy : y ∈ U) :
    Leaves order h' (P₁ ++ p :: (↑newKey, q.2) :: P₂) := by
  obtain ⟨hpmem, -⟩ := hl.mem_left
  obtain ⟨hqmem, -⟩ := hl.mem_right
  obtain ⟨hsorted, hbounds⟩ := hl.sorted
  have hkeep := hl.shared_kept hf hy
  have hnew : newKey ∈ keysOf h' p.2 ++ keysOf h' q.2 :=
    List.mem_append_right _ (List.mem_of_mem_head? hf.first)
  rw [← hf.keysOf_eq] at hsorted hbounds
  have hcut : 1 ≤ cut (order - 1) := by
    unfold cut
    split_ifs <;> omega
  show Leaves order h' (P₁ ++ ([p, (↑newKey, q.2)] ++ P₂))
  refine Leaves.replace (m := [p, q]) hl.store.leaves (fun y hy => ?_)
    (forall_pair ⟨?_, ?_⟩ ⟨?_, ?_⟩)
    (Fenced.pair hsorted
      (fun key hmem => (hbounds key (List.mem_append_left _ hmem)).1) ?_ hf.first)
    (fun y hy => ⟨p, List.mem_cons_self, ?_⟩) (fun y hy w hw => ?_) (fun a b hpath => ?_) ?_
  · rw [hkeep y hy]
    exact SameBody.refl _
  · rw [hf.isLeaf p (by simp)]
    exact hl.store.leaves.isLeaf p hpmem
  · exact hf.max p (by simp)
  · rw [hf.isLeaf q (by simp)]
    exact hl.store.leaves.isLeaf q hqmem
  · exact hf.max q (by simp)
  · intro hnil
    have hlen := congrArg List.length hnil
    have hmin := hf.min p (by simp)
    rw [keysOf, Node.length_keyList, List.length_nil] at hlen
    omega
  · rcases List.mem_cons.mp hy with rfl | hy
    · exact le_refl _
    · rw [List.mem_singleton.mp hy]
      exact (hbounds newKey hnew).1
  · rcases List.mem_cons.mp hy with rfl | hy
    · exact ⟨(hl.store.leaves.fenced.behind (List.mem_cons_of_mem q hw)).1, fun key hmem =>
        (hbounds key (List.mem_append_left _ hmem)).2 w hw⟩
    · rw [List.mem_singleton.mp hy]
      exact ⟨(hbounds newKey hnew).2 w hw, fun key hmem =>
        (hbounds key (List.mem_append_right _ hmem)).2 w hw⟩
  · obtain ⟨ha, hb, hc⟩ := hpath
    refine ⟨ha, ?_, ?_⟩
    · rw [hf.links p (by simp)]
      exact hb
    · rw [hf.links q (by simp)]
      exact hc
  · have hdistinct := hl.store.leaves.distinct
    rw [bindings_append, bindings_cons, bindings_cons, ← List.append_assoc (h.nodes p.2).entries]
      at hdistinct
    rw [bindings_cons, bindings_cons, bindings_nil, List.append_nil, hf.entries]
    exact hdistinct

theorem share {newKey : ℤ} (horder : 3 ≤ order)
    (hl : LeafPair order h root k P₁ p q P₂ U Q₁ z Q₂ s₁ s₂ W kp)
    (hf : EntryShifted order h h' p q z.2 s₁.length newKey)
    (hfill : ∀ y ∈ P₁ ++ P₂, cut (order - 1) ≤ (h.nodes y.2).numKeys)
    (hr : Unused h (P₁ ++ p :: q :: P₂) U r) :
    Holds order (h'.free r) root (bindings h (P₁ ++ p :: q :: P₂)) := by
  have hzU : z.2 ∈ U := hl.pair.mem_upper
  have hbindings := hl.shared_bindings hf hzU
  have haddrs : addrs (P₁ ++ p :: (↑newKey, q.2) :: P₂) = addrs (P₁ ++ p :: q :: P₂) := by
    rw [addrs_append, addrs_cons, addrs_cons, addrs_append, addrs_cons, addrs_cons]
  have htower : Tower order h' root (k + 1) (P₁ ++ p :: (↑newKey, q.2) :: P₂) U := by
    refine hl.pair.set_key hl.store.placed hf.node (fun x hx hxz => ?_) fun x _ => hf.parent x
    rw [hf.other x (fun heq => hl.mem_left.2 (heq ▸ hx)) (fun heq => hl.mem_right.2 (heq ▸ hx)) hxz]
    exact SameBody.refl _
  have hplaced : Placed h' (P₁ ++ p :: (↑newKey, q.2) :: P₂) U := by
    obtain ⟨hnodup, hlive, hzero⟩ := hl.store.placed
    rw [← haddrs] at hnodup hlive
    exact ⟨hnodup, fun a ha => hf.live ▸ hlive a ha, hf.live ▸ hzero⟩
  have hstore : Store order h' root (k + 1) (P₁ ++ p :: (↑newKey, q.2) :: P₂) U := by
    refine ⟨htower, hplaced, hl.shared_leaves horder hf hzU, fun e he => ?_⟩
    rw [hbindings] at he
    rw [hf.live, haddrs]
    exact hl.store.owned e he
  have hfilled : Filled order h' (k + 1) (P₁ ++ p :: (↑newKey, q.2) :: P₂) := fun y hy => by
    rw [minLeaf, if_neg (Nat.succ_ne_zero k)]
    rcases mem_middle.mp hy with rfl | hy
    · exact hf.min y (by simp)
    · rcases mem_middle.mp hy with rfl | hy
      · exact hf.min q (by simp)
      · rw [hl.shared_kept hf hzU y hy]
        exact hfill y hy
  rw [← hbindings]
  refine hstore.holds_free hfilled ⟨hf.live ▸ hr.live, haddrs ▸ hr.node, fun e he => ?_⟩
  rw [hbindings] at he
  exact hr.record e he

theorem repaired {fuel : ℕ} {shared : Heap} (horder : 3 ≤ order)
    (hl : LeafPair order h root k P₁ p q P₂ U Q₁ z Q₂ s₁ s₂ W kp) (room : Prop) [Decidable room]
    (hmin : cut (order - 1) ≤ (h.nodes p.2).numKeys + (h.nodes q.2).numKeys)
    (hmax : room → (h.nodes p.2).numKeys + (h.nodes q.2).numKeys ≤ order - 1)
    (hshare : ¬ room → ∃ newKey, EntryShifted order h shared p q z.2 s₁.length newKey)
    (hfill : ∀ y ∈ P₁ ++ P₂, cut (order - 1) ≤ (h.nodes y.2).numKeys)
    (hr : Unused h (P₁ ++ p :: q :: P₂) U r) (hfuel : k < fuel) :
    ∃ h' root', (if room then do
        let r ← deleteEntry order fuel (mergeNodes order h q.2 p.2 kp) root
          ((mergeNodes order h q.2 p.2 kp).nodes q.2).parent kp q.2
        some (r.1.free q.2, r.2)
      else some (shared, root)) = some (h', root') ∧
      Holds order (h'.free r) root' (bindings h (P₁ ++ p :: q :: P₂)) ∧ h'.records = h.records := by
  by_cases hroom : room
  · rw [if_pos hroom]
    exact hl.merge horder hmin (hmax hroom) hfill hr hfuel
  · rw [if_neg hroom]
    obtain ⟨newKey, hf⟩ := hshare hroom
    exact ⟨shared, root, rfl, hl.share horder hf hfill hr, hf.records⟩

end LeafPair

theorem Lost.adjustRoot_spec (hl : Lost order h h' root 0 L₁ x L₂ U (e₁ ++ e₂))
    (hr : Unused h' (L₁ ++ x :: L₂) U r) :
    ∃ h'' root'', adjustRoot h' root = (h'', root'') ∧
      Holds order (h''.free r) root'' (bindings h' (L₁ ++ x :: L₂)) ∧ h''.records = h.records := by
  obtain ⟨rfl, rfl, rfl⟩ := hl.store.tower.alone
  unfold adjustRoot
  by_cases hpos : 0 < (h'.nodes root).numKeys
  · rw [if_pos hpos]
    refine ⟨h', root, rfl, hl.store.holds_free (fun y hy => ?_) hr, hl.records⟩
    rw [List.mem_singleton.mp hy]
    exact hpos
  · -- nothing is left
    rw [if_neg hpos, if_pos (hl.store.leaves.isLeaf (⊥, root) (by simp))]
    have hnil : bindings h' [((⊥ : WithBot ℤ), root)] = [] := by
      rw [bindings_cons, bindings_nil, List.append_nil]
      apply List.eq_nil_of_length_eq_zero
      rw [Node.length_entries]
      exact Nat.eq_zero_of_not_pos hpos
    refine ⟨_, 0, rfl, Or.inl ⟨rfl, fun h0 => ?_, hnil⟩, hl.records⟩
    exact hl.store.placed.zero (Finset.mem_of_mem_erase (Finset.mem_of_mem_erase h0))

theorem Lost.unused (hl : Lost order h h' root k L₁ x L₂ U (e₁ ++ e₂))
    (hs : Store order h root k (L₁ ++ x :: L₂) U)
    (he : (h.nodes x.2).entries = e₁ ++ (key, r) :: e₂) : Unused h' (L₁ ++ x :: L₂) U r := by
  have hmem : (key, r) ∈ bindings h (L₁ ++ x :: L₂) :=
    mem_bindings.mpr ⟨x, by simp, he ▸ List.mem_append_right _ List.mem_cons_self⟩
  refine ⟨hl.live ▸ (hs.owned _ hmem).1, (hs.owned _ hmem).2, fun e hmem heq => ?_⟩
  have hdistinct := hs.leaves.distinct
  rw [bindings_append, bindings_cons, he] at hdistinct
  rw [((perm_entry _ _ e₁ e₂ _).map Prod.snd).nodup_iff, List.map_cons,
    List.nodup_cons] at hdistinct
  rw [hl.entries] at hmem
  exact hdistinct.1 (List.mem_map.mpr ⟨e, hmem, heq⟩)

theorem deleteEntry_leaf_spec {fuel : ℕ} (horder : 3 ≤ order)
    (hs : Store order h root k (L₁ ++ x :: L₂) U) (hfill : Filled order h k (L₁ ++ x :: L₂))
    (he : (h.nodes x.2).entries = e₁ ++ (key, r) :: e₂) (h1 : ∀ e ∈ e₁, e.1 < key)
    (hfuel : k ≤ fuel) :
    ∃ h' root', deleteEntry order (fuel + 1) h root x.2 key r = some (h', root') ∧
      Holds order (h'.free r) root' (bindings h L₁ ++ (e₁ ++ e₂ ++ bindings h L₂)) ∧
      h'.records = h.records := by
  obtain ⟨nd, hnd, hlost⟩ := hs.lost he h1
  generalize hh₁ : (h.modify x.2 fun _ => nd) = h₁ at hlost
  have hnode : h₁.nodes x.2 = nd := by rw [← hh₁, modify_nodes_self]
  have hxmem : x ∈ L₁ ++ x :: L₂ := by simp
  have hleaf : nd.isLeaf = true := hnode ▸ hlost.store.leaves.isLeaf x hxmem
  have hnum := hlost.numKeys
  rw [hnode] at hnum
  have hmax := hs.leaves.max x hxmem
  have hr := hlost.unused hs he
  rw [← hlost.entries]
  cases k with
  | zero =>
    obtain ⟨h', root', heq, hholds, hrecords⟩ := hlost.adjustRoot_spec hr
    have hroot := (hs.tower.eq_root_iff hs.placed).mpr rfl
    exact ⟨h', root', (deleteEntry_root hnd hh₁.symm hroot).trans (congrArg some heq),
      hholds, hrecords⟩
  | succ k =>
    have hroot : x.2 ≠ root := fun heq =>
      absurd ((hs.tower.eq_root_iff hs.placed).mp heq) (Nat.succ_ne_zero k)
    have hfilled : ∀ y ∈ L₁ ++ x :: L₂, cut (order - 1) ≤ (h.nodes y.2).numKeys := fun y hy => by
      have hmin := hfill y hy
      rwa [minLeaf, if_neg (Nat.succ_ne_zero k)] at hmin
    have hmin := hfilled x hxmem
    have hkept : ∀ y ∈ L₁ ++ L₂, cut (order - 1) ≤ (h₁.nodes y.2).numKeys := fun y hy => by
      obtain ⟨hymem, hyx⟩ := hs.placed.ne_of_mem hy
      rw [hlost.other y.2 hyx]
      exact hfilled y hymem
    by_cases henough : fewest order nd.isLeaf ≤ nd.numKeys
    · refine ⟨h₁, root, deleteEntry_enough hnd hh₁.symm hroot henough,
        hlost.store.holds_free (fun y hy => ?_) hr, hlost.records⟩
      rw [minLeaf, if_neg (Nat.succ_ne_zero k)]
      rcases mem_middle.mp hy with rfl | hy
      · rw [fewest, hleaf] at henough
        rw [hnode]
        exact henough
      · exact hkept y hy
    -- the leaf is too small
    have hfew : nd.numKeys < cut (order - 1) := by
      rw [fewest, hleaf] at henough
      exact Nat.lt_of_not_le henough
    have hhalf : 1 ≤ cut (order - 1) ∧ 2 * cut (order - 1) ≤ order := by
      unfold cut
      split_ifs <;> omega
    obtain ⟨P₁, y, P₂, r₁, r₂, V, hat⟩ := hlost.store.tower.parentAt
    rcases hat.exists_pair horder with ⟨L, w, s, rfl, hpair⟩ | ⟨w, L, s, rfl, hpair⟩
    · -- the neighbor is the left one
      have hlevel : L ++ [w] ++ x :: L₂ = L ++ w :: x :: L₂ := by
        rw [List.append_assoc, List.singleton_append]
      have hstore := hlost.store
      rw [hlevel] at hstore hr ⊢
      have hl : LeafPair order h₁ root k L w x L₂ U P₁ y P₂ s r₂ V _ :=
        ⟨hstore, hpair, hpair.cells.1⟩
      have hw := hkept w (by simp)
      have hwmax := hstore.leaves.max w (by simp)
      have hothers : ∀ v ∈ L ++ L₂, cut (order - 1) ≤ (h₁.nodes v.2).numKeys := fun v hv => by
        refine hkept v ?_
        simp only [List.mem_append] at hv ⊢
        tauto
      rw [deleteEntry_left hl.pair hstore.placed hl.key hnd hh₁.symm hroot henough, capacity, hleaf,
        if_pos rfl, ← hlost.records]
      exact hl.repaired horder ((h₁.nodes w.2).numKeys + nd.numKeys < order) (by rw [hnode]; omega)
        (fun hroom => by rw [hnode]; omega)
        (fun hroom => hl.entryShifted_left (by rw [hnode]; omega) (by rw [hnode]; omega) (by omega))
        hothers hr (Nat.lt_of_succ_le hfuel)
    · -- the leaf is the first child, and its neighbor the right one
      have hstore := hlost.store
      have hl : LeafPair order h₁ root k L₁ x w L U P₁ y P₂ [] s V _ :=
        ⟨hstore, hpair, hpair.cells.1⟩
      have hw := hkept w (by simp)
      have hwmax := hstore.leaves.max w (by simp)
      have hothers : ∀ v ∈ L₁ ++ L, cut (order - 1) ≤ (h₁.nodes v.2).numKeys := fun v hv => by
        exact hkept v (mem_middle_of_mem hv)
      rw [deleteEntry_right hl.pair hstore.placed hl.key hnd hh₁.symm hroot henough,
        capacity, hleaf, if_pos rfl, ← hlost.records]
      exact hl.repaired horder ((h₁.nodes w.2).numKeys + nd.numKeys < order) (by rw [hnode]; omega)
        (fun hroom => by rw [hnode]; omega)
        (fun hroom => hl.entryShifted_right (by rw [hnode]; omega) (by rw [hnode]; omega)
          (by omega) hhalf.1)
        hothers hr (Nat.lt_of_succ_le hfuel)

theorem delete_spec (horder : 3 ≤ order) (hb : Holds order h root B) (key : ℤ) :
    (∀ r, (key, r) ∉ B) ∧ delete order h root key = some (h, root) ∨
      ∃ r B₁ B₂ h' root', B = B₁ ++ (key, r) :: B₂ ∧ delete order h root key = some (h', root') ∧
        Holds order h' root' (B₁ ++ B₂) ∧ h'.records = h.records := by
  obtain ⟨leaf, ⟨hfind, hnone⟩ | ⟨r, hfind, hmem, hr, hleaf⟩⟩ := hb.find_spec key
  · left
    refine ⟨hnone, ?_⟩
    have hnull : ¬ ((0 : ℕ) ≠ 0 ∧ leaf ≠ 0) := fun hfound => hfound.1 rfl
    rw [delete, hfind]
    dsimp only [Option.bind_eq_bind, Option.bind_some]
    rw [if_neg hnull]
  · right
    obtain ⟨-, -, rfl⟩ | ⟨k, L, U, hs, hfill, rfl⟩ := hb
    · exact absurd hmem List.not_mem_nil
    obtain ⟨L₁, x, L₂, e₁, e₂, rfl, -, h1, -, -, hplace⟩ := hs.find_place key
    obtain ⟨-, hfind'⟩ | ⟨r', hes, hfind'⟩ := hplace
    · rw [hfind, Option.some_inj, Prod.mk.injEq] at hfind'
      exact absurd hfind'.1 hr
    · rw [hfind, Option.some_inj, Prod.mk.injEq] at hfind'
      obtain ⟨rfl, rfl⟩ := hfind'
      obtain ⟨h', root', heq, hholds, hrecords⟩ := deleteEntry_leaf_spec horder hs
        hfill hes h1 (hs.tower.lt_card hs.placed).le
      refine ⟨r, bindings h L₁ ++ e₁, e₂ ++ bindings h L₂, h'.free r, root', ?_, ?_, ?_, hrecords⟩
      · rw [bindings_append, bindings_cons, hes]
        simp only [List.append_assoc, List.cons_append]
      · rw [delete, hfind]
        dsimp only [Option.bind_eq_bind, Option.bind_some]
        rw [if_pos ⟨hr, hleaf⟩, heq]
        rfl
      · simpa only [List.append_assoc] using hholds

end Facts

end Unos.BPlusTree
