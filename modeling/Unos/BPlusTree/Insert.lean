import Unos.BPlusTree.Insertion
import Unos.BPlusTree.Leaves

namespace Unos.BPlusTree

open Unos.Arrays Unos.Fences Unos.Links Unos.Splits

section Facts

variable {M : Malloc} {order root k : ℕ} {h h' : Heap} {L L₁ L₂ : List Place}
  {U : List ℕ} {x : Place}
  {key value : ℤ} {p : ℕ} {e₁ e₂ : List (ℤ × ℕ)}

theorem Store.makeRecord_spec (hs : Store order h root k L U) (value : ℤ) :
    Store order (makeRecord M h value).2 root k L U ∧
      Unused (makeRecord M h value).2 L U (M.next h) := by
  have hfresh := M.fresh h
  have hlive : ∀ a ∈ h.live, a ∈ (makeRecord M h value).2.live := fun a ha =>
    Finset.mem_insert_of_mem ha
  refine ⟨hs.of_nodes rfl (fun a ha => hlive a (hs.placed.live a ha))
    (fun e he => hlive e.2 (hs.owned e he).1) fun h0 =>
      ?_, Finset.mem_insert_self _ _, fun hmem => ?_,
    fun e he heq => ?_⟩
  · exact (Finset.mem_insert.mp h0).elim (fun heq => M.ne_zero h heq.symm) hs.placed.zero
  · exact hfresh (hs.placed.live _ hmem)
  · exact hfresh (heq ▸ (hs.owned e he).1)

theorem sorted_insert (hsorted : (e₁ ++ e₂).Pairwise fun e e' => e.1 < e'.1)
    (h1 : ∀ e ∈ e₁, e.1 < key) (h2 : ∀ e ∈ e₂, key < e.1) :
    ((e₁ ++ (key, p) :: e₂).map Prod.fst).Pairwise (· < ·) := by
  obtain ⟨hs1, hs2, hs12⟩ := List.pairwise_append.mp hsorted
  refine List.pairwise_map.mpr (List.pairwise_append.mpr ⟨hs1, List.pairwise_cons.mpr ⟨h2, hs2⟩,
    fun e he e' he' => ?_⟩)
  rcases List.mem_cons.mp he' with rfl | he'
  · exact h1 e he
  · exact hs12 e he e' he'

/-- The entries of a leaf with a new one lie between its fence and the next. -/
theorem Leaves.bounds (hl : Leaves order h (L₁ ++ x :: L₂)) (hslot : Slot key x L₂)
    (he : (h.nodes x.2).entries = e₁ ++ e₂) {key' : ℤ}
    (hmem : key' ∈ (e₁ ++ (key, p) :: e₂).map Prod.fst) :
    x.1 ≤ key' ∧ ∀ y ∈ L₂, (key' : WithBot ℤ) < y.1 := by
  obtain ⟨e, hentry, rfl⟩ := List.mem_map.mp hmem
  by_cases hek : e = (key, p)
  · rw [hek]
    exact hslot
  · have hold : e ∈ (h.nodes x.2).entries := by
      rw [he]
      simp only [List.mem_append, List.mem_cons] at hentry ⊢
      tauto
    exact ⟨hl.fenced.low x (by simp) _ (mem_keysOf hold), fun y hy =>
      (hl.fenced.behind hy).2 _ (mem_keysOf hold)⟩

theorem distinct_insert {B₁ B₂ : List (ℤ × ℕ)} (hd : ((B₁ ++ (e₁ ++ e₂ ++ B₂)).map Prod.snd).Nodup)
    (hp : ∀ e ∈ B₁ ++ (e₁ ++ e₂ ++ B₂), e.2 ≠ p) :
    ((B₁ ++ (e₁ ++ (key, p) :: e₂ ++ B₂)).map Prod.snd).Nodup := by
  rw [((perm_entry _ B₁ e₁ e₂ B₂).map Prod.snd).nodup_iff, List.map_cons, List.nodup_cons]
  refine ⟨fun hmem => ?_, hd⟩
  obtain ⟨e, he, heq⟩ := List.mem_map.mp hmem
  exact hp e he heq

theorem Store.sorted_inserted (hs : Store order h root k (L₁ ++ x :: L₂) U)
    (he : (h.nodes x.2).entries = e₁ ++ e₂) (h1 : ∀ e ∈ e₁, e.1 < key) (h2 : ∀ e ∈ e₂, key < e.1) :
    ((e₁ ++ (key, p) :: e₂).map Prod.fst).Pairwise (· < ·) := by
  have hsorted := hs.leaves.sorted_entries (x := x) (by simp)
  rw [he] at hsorted
  exact sorted_insert hsorted h1 h2

theorem Store.distinct_inserted (hs : Store order h root k (L₁ ++ x :: L₂) U)
    (he : (h.nodes x.2).entries = e₁ ++ e₂) (hp : Unused h (L₁ ++ x :: L₂) U p) :
    ((bindings h L₁ ++ (e₁ ++ (key, p) :: e₂ ++ bindings h L₂)).map Prod.snd).Nodup := by
  have hbefore := hs.leaves.distinct
  have hrecord := hp.record
  rw [bindings_append, bindings_cons, he] at hbefore hrecord
  exact distinct_insert hbefore hrecord

theorem Store.owned_inserted (hs : Store order h root k (L₁ ++ x :: L₂) U)
    (he : (h.nodes x.2).entries = e₁ ++ e₂) (hp : Unused h (L₁ ++ x :: L₂) U p) :
    ∀ e ∈ bindings h L₁ ++ (e₁ ++ (key, p) :: e₂ ++ bindings h L₂),
      e.2 ∈ h.live ∧ e.2 ∉ U ++ addrs (L₁ ++ x :: L₂) := by
  intro e hmem
  by_cases hek : e = (key, p)
  · rw [hek]
    exact ⟨hp.live, hp.node⟩
  · refine hs.owned e ?_
    rw [bindings_append, bindings_cons, he]
    simp only [List.mem_append, List.mem_cons] at hmem ⊢
    tauto

theorem Store.insertIntoLeaf_spec (hs : Store order h root k (L₁ ++ x :: L₂) U)
    (hfill : Filled order h k (L₁ ++ x :: L₂)) (hslot : Slot key x L₂)
    (he : (h.nodes x.2).entries = e₁ ++ e₂) (h1 : ∀ e ∈ e₁, e.1 < key) (h2 : ∀ e ∈ e₂, key < e.1)
    (hp : Unused h (L₁ ++ x :: L₂) U p) (hroom : (h.nodes x.2).numKeys < order - 1)
    (hh' : h' = insertIntoLeaf h x.2 key p) :
    Store order h' root k (L₁ ++ x :: L₂) U ∧ Filled order h' k (L₁ ++ x :: L₂) ∧
      bindings h' (L₁ ++ x :: L₂) = bindings h L₁ ++ (e₁ ++ (key, p) :: e₂ ++ bindings h L₂) := by
  have hindex : scan (fun i => decide ((h.nodes x.2).keys i < key)) (h.nodes x.2).numKeys 0 =
      e₁.length := by
    refine scan_entries (q := fun k => decide (k < key)) he (le_refl _) (fun e hmem => ?_)
      (fun e hmem => ?_) fun _ => rfl
    · exact decide_eq_true (h1 e hmem)
    · exact decide_eq_false (h2 e (List.mem_of_mem_head? hmem)).not_gt
  have hlen := congrArg List.length he
  rw [Node.length_entries, List.length_append] at hlen
  have hnode : h'.nodes x.2 = insertEntry (h.nodes x.2) e₁.length key p := by
    rw [hh', insertIntoLeaf, modify_nodes_self, hindex]
  have hother : ∀ a, a ≠ x.2 → h'.nodes a = h.nodes a := fun a ha => by
    rw [hh', insertIntoLeaf, modify_nodes_of_ne ha]
  have hentries : (h'.nodes x.2).entries = e₁ ++ (key, p) :: e₂ := by
    rw [hnode, entries_insertEntry he]
  have hkeep : ∀ y ∈ L₁ ++ L₂, h'.nodes y.2 = h.nodes y.2 := fun y hy =>
    hother y.2 (hs.placed.ne_of_mem hy).2
  have hbindings : bindings h' (L₁ ++ x :: L₂) =
      bindings h L₁ ++ (e₁ ++ (key, p) :: e₂ ++ bindings h L₂) := by
    have hmiddle := bindings_middle hkeep [x]
    rw [bindings_cons, bindings_nil, hentries, List.append_nil] at hmiddle
    exact hmiddle
  have hkeys : keysOf h' x.2 = (e₁ ++ (key, p) :: e₂).map Prod.fst := by
    rw [keysOf_eq_map, hentries]
  have hstore : Store order h' root k (L₁ ++ x :: L₂) U := by
    refine hs.rewrite_leaf hother (by rw [hh']; rfl) ?_ ?_ ?_ ?_ (fun key' hmem => ?_) ?_ ?_
    · rw [hnode]
      exact ⟨hs.leaves.isLeaf x (by simp), Nat.succ_le_of_lt hroom⟩
    · rw [hnode]
      rfl
    · rw [link, hnode, pointers_insertEntry (by omega) hroom]
      rfl
    · rw [hkeys]
      exact hs.sorted_inserted he h1 h2
    · rw [hkeys] at hmem
      exact hs.leaves.bounds hslot he hmem
    · rw [hbindings]
      exact hs.distinct_inserted he hp
    · rw [hbindings]
      exact hs.owned_inserted he hp
  refine ⟨hstore, fun y hy => ?_, hbindings⟩
  by_cases hyx : y.2 = x.2
  · rw [hyx, hnode]
    exact (hfill x (by simp)).trans (Nat.le_succ _)
  · rw [hother _ hyx]
    exact hfill y hy

/-- The leaf `x` was split, its new half `new` with `newKey` in front is not yet in the tree. -/
structure LeafSplit (order : ℕ) (h h' : Heap) (L₁ : List Place) (x : Place) (L₂ : List Place)
    (newKey : ℤ) (new : ℕ) (es : List (ℤ × ℕ)) : Prop where
  leaves : Leaves order h' (L₁ ++ x :: (↑newKey, new) :: L₂)
  entries : bindings h' (L₁ ++ x :: (↑newKey, new) :: L₂) = bindings h L₁ ++ (es ++ bindings h L₂)
  key : (h'.nodes new).keys 0 = newKey
  min_old : cut (order - 1) ≤ (h'.nodes x.2).numKeys
  min_new : cut (order - 1) ≤ (h'.nodes new).numKeys
  other : ∀ a ∈ h.live, a ≠ x.2 → h'.nodes a = h.nodes a
  parent_old : (h'.nodes x.2).parent = (h.nodes x.2).parent
  parent_new : (h'.nodes new).parent = (h.nodes x.2).parent
  live : h'.live = Insert.insert new h.live
  records : h'.records = h.records

theorem Store.leaves_split {new r : ℕ} {newKey : ℤ} {ea eb : List (ℤ × ℕ)}
    (hs : Store order h root k (L₁ ++ x :: L₂) U) (hslot : Slot key x L₂)
    (he : (h.nodes x.2).entries = e₁ ++ e₂) (h1 : ∀ e ∈ e₁, e.1 < key) (h2 : ∀ e ∈ e₂, key < e.1)
    (hp : Unused h (L₁ ++ x :: L₂) U p) (hkeep : ∀ y ∈ L₁ ++ L₂, h'.nodes y.2 = h.nodes y.2)
    (hes : e₁ ++ (key, p) :: e₂ = ea ++ (newKey, r) :: eb) (hea : ea ≠ [])
    (hold : (h'.nodes x.2).entries = ea) (hnew : (h'.nodes new).entries = (newKey, r) :: eb)
    (hleaf : (h'.nodes x.2).isLeaf = true ∧ (h'.nodes new).isLeaf = true)
    (hmax : (h'.nodes x.2).numKeys ≤ order - 1 ∧ (h'.nodes new).numKeys ≤ order - 1)
    (hlink : link order h' x.2 = new ∧ link order h' new = link order h x.2) :
    Leaves order h' (L₁ ++ x :: (↑newKey, new) :: L₂) := by
  have hxmem : x ∈ L₁ ++ x :: L₂ := by simp
  have hkeysOld : keysOf h' x.2 = ea.map Prod.fst := by rw [keysOf_eq_map, hold]
  have hkeysNew : keysOf h' new = newKey :: eb.map Prod.fst := by
    rw [keysOf_eq_map, hnew, List.map_cons]
  have hkeys : keysOf h' x.2 ++ keysOf h' new = (e₁ ++ (key, p) :: e₂).map Prod.fst := by
    rw [hkeysOld, hkeysNew, hes, List.map_append, List.map_cons]
  have hbounds : ∀ key' ∈ keysOf h' x.2 ++ keysOf h' new,
      x.1 ≤ key' ∧ ∀ y ∈ L₂, (key' : WithBot ℤ) < y.1 := fun key' hmem => by
    rw [hkeys] at hmem
    exact hs.leaves.bounds hslot he hmem
  have hfirst : newKey ∈ keysOf h' x.2 ++ keysOf h' new := by
    rw [hkeysNew]
    exact List.mem_append_right _ List.mem_cons_self
  show Leaves order h' (L₁ ++ ([x, (↑newKey, new)] ++ L₂))
  refine Leaves.replace (m := [x]) hs.leaves (fun y hy => ?_)
    (fun y hy => ?_) (Fenced.pair (hkeys ▸ hs.sorted_inserted he h1 h2)
      (fun key' hmem => (hbounds key' (List.mem_append_left _ hmem)).1) ?_ ?_)
    (fun y hy => ⟨x, List.mem_singleton_self _, ?_⟩) (fun y hy z hz => ?_) (fun a b hpath => ?_) ?_
  · rw [hkeep y hy]
    exact SameBody.refl _
  · rcases List.mem_cons.mp hy with rfl | hy
    · exact ⟨hleaf.1, hmax.1⟩
    · rw [List.mem_singleton.mp hy]
      exact ⟨hleaf.2, hmax.2⟩
  · rw [hkeysOld]
    exact fun hnil => hea (List.map_eq_nil_iff.mp hnil)
  · rw [hkeysNew, List.head?_cons]
  · rcases List.mem_cons.mp hy with rfl | hy
    · exact le_refl _
    · rw [List.mem_singleton.mp hy]
      exact (hbounds newKey hfirst).1
  · rcases List.mem_cons.mp hy with rfl | hy
    · exact ⟨(hs.leaves.fenced.behind hz).1, fun key' hmem =>
        (hbounds key' (List.mem_append_left _ hmem)).2 z hz⟩
    · rw [List.mem_singleton.mp hy]
      exact ⟨(hbounds newKey hfirst).2 z hz, fun key' hmem =>
        (hbounds key' (List.mem_append_right _ hmem)).2 z hz⟩
  · -- the new leaf takes the link over
    exact ⟨hpath.1, hlink.1, hlink.2.trans hpath.2⟩
  · rw [bindings_cons, bindings_cons, bindings_nil, List.append_nil, hold, hnew, ← hes]
    exact hs.distinct_inserted he hp

theorem Store.splitLeaf_spec (horder : 3 ≤ order) (hs : Store order h root k (L₁ ++ x :: L₂) U)
    (hslot : Slot key x L₂) (he : (h.nodes x.2).entries = e₁ ++ e₂) (h1 : ∀ e ∈ e₁, e.1 < key)
    (h2 : ∀ e ∈ e₂, key < e.1) (hp : Unused h (L₁ ++ x :: L₂) U p)
    (hfull : ¬ (h.nodes x.2).numKeys < order - 1) :
    ∃ newKey, LeafSplit order h
    (splitLeaf order (makeLeaf M h).2 x.2 (M.next h) key p) L₁ x L₂ newKey
      (M.next h) (e₁ ++ (key, p) :: e₂) := by
  have hfresh := M.fresh h
  have hxmem : x ∈ L₁ ++ x :: L₂ := by simp
  have hxlive : x.2 ∈ h.live := hs.placed.live x.2 (List.mem_append_right _ (mem_addrs hxmem))
  have hne : ∀ a ∈ h.live, a ≠ M.next h := fun a ha heq => hfresh (heq ▸ ha)
  have hmax := hs.leaves.max x hxmem
  have hnodes : ∀ a, a ≠ M.next h → (makeLeaf M h).2.nodes a = h.nodes a := fun a ha => by
    rw [makeLeaf, makeNode_fst, modify_nodes_of_ne ha, makeNode_nodes_of_ne ha]
  have hnewLeaf : ((makeLeaf M h).2.nodes (M.next h)).isLeaf = true := by
    rw [makeLeaf, makeNode_fst, modify_nodes_self]
  have hx₀ := hnodes x.2 (hne x.2 hxlive)
  have he₀ : ((makeLeaf M h).2.nodes x.2).entries = e₁ ++ e₂ := by rw [hx₀, he]
  obtain ⟨ea, eb, hes, hea, heb, hsplit⟩ :=
    BPlusTree.splitLeaf_spec p horder (hne x.2 hxlive).symm he₀ h1
    (fun e hmem => (h2 e hmem).not_gt) (by rw [hx₀]; omega)
  generalize splitLeaf order (makeLeaf M h).2 x.2 (M.next h) key p = h₁ at hsplit ⊢
  have hother : ∀ a ∈ h.live, a ≠ x.2 → h₁.nodes a = h.nodes a := fun a ha hax => by
    rw [hsplit.other a hax (hne a ha), hnodes a (hne a ha)]
  have hkeep : ∀ y ∈ L₁ ++ L₂, h₁.nodes y.2 = h.nodes y.2 := fun y hy => by
    obtain ⟨hymem, hyx⟩ := hs.placed.ne_of_mem hy
    exact hother y.2 (hs.placed.live _ (List.mem_append_right _ (mem_addrs hymem))) hyx
  have hcut : 1 ≤ cut (order - 1) ∧ cut (order - 1) ≤ order - cut (order - 1) ∧
      order - cut (order - 1) ≤ order - 1 := by
    unfold cut
    split_ifs <;> omega
  have hcutMax := cut_le (order - 1)
  have hnumOld : (h₁.nodes x.2).numKeys = cut (order - 1) := by
    rw [← Node.length_entries, hsplit.old_entries, hea]
  have hnumNew : (h₁.nodes (M.next h)).numKeys = order - cut (order - 1) := by
    rw [← Node.length_entries, hsplit.new_entries, heb]
  -- the first key of the new leaf goes up
  obtain ⟨⟨newKey, r⟩, eb, rfl⟩ := List.exists_cons_of_ne_nil (l := eb) fun hnil => by
    rw [hnil, List.length_nil] at heb
    omega
  have hslice : slice (h₁.nodes (M.next h)).keys 0 (h₁.nodes (M.next h)).numKeys =
      [] ++ newKey :: eb.map Prod.fst := by
    have hkeysNew : keysOf h₁ (M.next h) = newKey :: eb.map Prod.fst := by
      rw [keysOf_eq_map, hsplit.new_entries, List.map_cons]
    exact hkeysNew
  obtain ⟨-, -, hcell, -⟩ := slice_eq_append_cons hslice
  refine ⟨newKey, ?_, ?_, hcell, hnumOld.ge, ?_, hother, ?_, ?_, ?_, ?_⟩
  · refine hs.leaves_split hslot he h1 h2 hp hkeep hes (fun hnil => ?_) hsplit.old_entries
      hsplit.new_entries ⟨?_, hsplit.new_isLeaf.trans hnewLeaf⟩ ⟨?_, ?_⟩ ⟨hsplit.old_link, ?_⟩
    · rw [hnil, List.length_nil] at hea
      omega
    · rw [hsplit.old_isLeaf, hx₀]
      exact hs.leaves.isLeaf x hxmem
    · exact hnumOld.trans_le hcutMax
    · exact hnumNew.trans_le hcut.2.2
    · rw [link, hsplit.new_link, hx₀, link]
  · have hmiddle := bindings_middle hkeep [x, (↑newKey, M.next h)]
    rw [bindings_cons, bindings_cons, bindings_nil, List.append_nil, hsplit.old_entries,
      hsplit.new_entries, ← hes] at hmiddle
    exact hmiddle
  · rw [hnumNew]
    exact hcut.2.1
  · rw [hsplit.old_parent, hx₀]
  · rw [hsplit.new_parent, hx₀]
  · rw [hsplit.live]
    rfl
  · rw [hsplit.records]
    rfl

theorem Store.insertIntoLeafAfterSplitting_spec (horder : 3 ≤ order)
    (hs : Store order h root k (L₁ ++ x :: L₂) U) (hfill : Filled order h k (L₁ ++ x :: L₂))
    (hslot : Slot key x L₂) (he : (h.nodes x.2).entries = e₁ ++ e₂) (h1 : ∀ e ∈ e₁, e.1 < key)
    (h2 : ∀ e ∈ e₂, key < e.1) (hp : Unused h (L₁ ++ x :: L₂) U p)
    (hfull : ¬ (h.nodes x.2).numKeys < order - 1) :
    ∃ h' root' k' L' U', insertIntoLeafAfterSplitting M order h root x.2 key p = some (h', root') ∧
      Store order h' root' k' L' U' ∧ Filled order h' k' L' ∧ h'.records = h.records ∧
      bindings h' L' = bindings h L₁ ++ (e₁ ++ (key, p) :: e₂ ++ bindings h L₂) := by
  obtain ⟨newKey, hsplit⟩ := hs.splitLeaf_spec (M := M) horder hslot he h1 h2 hp hfull
  generalize hh₁ : splitLeaf order (makeLeaf M h).2 x.2 (M.next h) key p = h₁ at hsplit
  have hfresh := M.fresh h
  have hxmem : x ∈ L₁ ++ x :: L₂ := by simp
  have hxupper : x.2 ∉ U := hs.placed.not_mem_upper (mem_addrs hxmem)
  have hkept : ∀ a ∈ h.live, a ∈ h₁.live := fun a ha => by
    rw [hsplit.live]
    exact Finset.mem_insert_of_mem ha
  have hnewLive : M.next h ∈ h₁.live := by
    rw [hsplit.live]
    exact Finset.mem_insert_self _ _
  have hnewOut : M.next h ∉ U ++ addrs (L₁ ++ x :: L₂) := fun hmem => hfresh (hs.placed.live _ hmem)
  have htower : Tower order h₁ root k (L₁ ++ x :: L₂) U := by
    refine hs.tower.congr (fun a ha => ?_) fun a ha => ?_
    · rw [hsplit.other a (hs.placed.live a (List.mem_append_left _ ha)) fun heq =>
        hxupper (heq ▸ ha)]
      exact SameBody.refl _
    · by_cases hax : a = x.2
      · rw [hax, hsplit.parent_old]
      · rw [hsplit.other a (hs.placed.live a ha) hax]
  have hplaced : Placed h₁ (L₁ ++ x :: L₂) U := by
    refine hs.placed.of_live hkept fun h0 => ?_
    rw [hsplit.live] at h0
    exact (Finset.mem_insert.mp h0).elim (fun heq => M.ne_zero h heq.symm) hs.placed.zero
  obtain ⟨h', root', k', U', heq, hk', ht, hc⟩ := insertIntoParent_spec (M := M) newKey
    horder htower hplaced hnewLive hnewOut (hsplit.parent_new.trans hsplit.parent_old.symm)
    (Nat.lt_succ_of_lt (htower.lt_card hplaced))
  have hnodup : (addrs (L₁ ++ x :: (↑newKey, M.next h) :: L₂)).Nodup := by
    rw [addrs_append, addrs_cons, addrs_cons, nodup_insert_behind, ← addrs_cons, ← addrs_append]
    exact ⟨fun hmem => hnewOut (List.mem_append_right _ hmem), hs.placed.nodup_addrs⟩
  have hsub : ∀ a ∈ addrs (L₁ ++ x :: (↑newKey, M.next h) :: L₂),
      a ∈ addrs (L₁ ++ x :: L₂) ∨ a = M.next h := fun a ha => by
    simp only [addrs_append, addrs_cons, List.mem_append, List.mem_cons] at ha ⊢
    tauto
  have hlive : ∀ a ∈ addrs (L₁ ++ x :: (↑newKey, M.next h) :: L₂), a ∈ h₁.live ∧ a ∉ U :=
      fun a ha => by
    rcases hsub a ha with ha | rfl
    · exact ⟨hkept a (hs.placed.live a (List.mem_append_right _ ha)), hs.placed.not_mem_upper ha⟩
    · exact ⟨hnewLive, fun hU => hnewOut (List.mem_append_left _ hU)⟩
  have howned : ∀ e ∈ bindings h₁ (L₁ ++ x :: (↑newKey, M.next h) :: L₂),
      e.2 ∈ h₁.live ∧ e.2 ∉ U ++ addrs (L₁ ++ x :: (↑newKey, M.next h) :: L₂) := fun e hmem => by
    rw [hsplit.entries] at hmem
    have hold := hs.owned_inserted he hp e hmem
    refine ⟨hkept _ hold.1, fun hmem' => ?_⟩
    rcases List.mem_append.mp hmem' with hU | hL
    · exact hold.2 (List.mem_append_left _ hU)
    · rcases hsub _ hL with hL | hnew
      · exact hold.2 (List.mem_append_right _ hL)
      · exact hfresh (hnew ▸ hold.1)
  obtain ⟨hstore, hsame, hnum⟩ := Leaves.store hsplit.leaves ht hc hnodup hlive howned
  refine ⟨h', root', k', _, U', ?_, hstore, fun y hy => ?_, hc.records.trans hsplit.records,
    hsame.trans hsplit.entries⟩
  · have hnew : (makeLeaf M h).1 = M.next h := rfl
    unfold insertIntoLeafAfterSplitting
    dsimp only
    rw [hnew, hh₁, hsplit.key]
    exact heq
  · rw [hnum y hy, minLeaf, if_neg hk'.ne']
    rcases mem_middle.mp hy with rfl | hy
    · exact hsplit.min_old
    rcases mem_middle.mp hy with rfl | hy
    · exact hsplit.min_new
    · obtain ⟨hymem, hyx⟩ := hs.placed.ne_of_mem hy
      rw [hsplit.other y.2 (hs.placed.live _ (List.mem_append_right _ (mem_addrs hymem))) hyx]
      cases k with
      | zero =>
        -- a leaf that was the root has no siblings
        obtain ⟨rfl, -, rfl⟩ := hs.tower.alone
        exact absurd hy List.not_mem_nil
      | succ k =>
        have hmin := hfill y hymem
        rwa [minLeaf, if_neg (Nat.succ_ne_zero k)] at hmin

theorem startNewTree_spec (key : ℤ) (horder : 3 ≤ order) (hzero : 0 ∉ h.live) (hp : p ∈ h.live) :
    ∃ h' root', startNewTree M order h key p = (h', root') ∧
      Holds order h' root' [(key, p)] ∧ h'.records = h.records := by
  have hfresh := M.fresh h
  have hpne : p ≠ M.next h := fun heq => hfresh (heq ▸ hp)
  generalize hh' : (startNewTree M order h key p).1 = h'
  have hnode : h'.nodes (M.next h) = { h.nodes (M.next h) with
      keys := Function.update (h.nodes (M.next h)).keys 0 key
      pointers := Function.update (Function.update (h.nodes (M.next h)).pointers 0 p) (order - 1) 0
      parent := 0
      isLeaf := true
      numKeys := 1 } := by
    rw [← hh', startNewTree, makeLeaf, makeNode]
    dsimp only
    rw [modify_nodes_self, modify_nodes_self, modify_nodes_self, alloc_nodes]
  have hlive : h'.live = Insert.insert (M.next h) h.live := by
    rw [← hh']
    rfl
  have hentries : (h'.nodes (M.next h)).entries = [(key, p)] := by
    apply Node.entries_of
    · rw [hnode]
      rfl
    · have hcell : Function.update (Function.update (h.nodes (M.next h)).pointers 0 p)
        (order - 1) 0 0 =
          p := by
        rw [Function.update_of_ne (by omega), Function.update_self]
      rw [hnode, Node.records]
      exact congrArg (· :: []) hcell
  have hkeys : keysOf h' (M.next h) = [key] := by
    rw [keysOf_eq_map, hentries]
    rfl
  have hbindings : bindings h' [(⊥, M.next h)] = [(key, p)] := by
    rw [bindings_cons, bindings_nil, hentries, List.append_nil]
  have hleaves : Leaves order h' [(⊥, M.next h)] := by
    refine ⟨fun x hx => ?_, fun x hx => ?_, Fenced.singleton (fun k _ => bot_le) ?_,
      ⟨M.next h, rfl, ?_⟩, ?_⟩
    · rw [List.mem_singleton.mp hx, hnode]
    · rw [List.mem_singleton.mp hx, hnode]
      exact show 1 ≤ order - 1 by omega
    · rw [hkeys]
      exact List.pairwise_singleton _ _
    · rw [link, hnode]
      exact Function.update_self _ _ _
    · rw [hbindings]
      exact List.nodup_singleton _
  refine ⟨h', M.next h, Prod.ext hh' rfl, Or.inr ⟨0, [(⊥, M.next h)], [], ⟨⟨rfl, rfl, ?_⟩,
    ⟨List.nodup_singleton _, fun a ha => ?_, fun h0 => ?_⟩, hleaves, fun e he => ?_⟩,
      fun x hx => ?_,
    hbindings⟩, ?_⟩
  · rw [hnode]
  · rw [hlive, List.mem_singleton.mp ha]
    exact Finset.mem_insert_self _ _
  · rw [hlive] at h0
    exact (Finset.mem_insert.mp h0).elim (fun heq => M.ne_zero h heq.symm) hzero
  · rw [hbindings] at he
    rw [List.mem_singleton.mp he, hlive]
    exact ⟨Finset.mem_insert_of_mem hp, fun hmem => hpne (List.mem_singleton.mp hmem)⟩
  · rw [List.mem_singleton.mp hx, hnode]
    exact le_refl 1
  · rw [← hh']
    rfl

theorem insert_spec {B : List (ℤ × ℕ)} (horder : 3 ≤ order) (hb : Holds order h root B)
    (key value : ℤ) :
    (∃ r, (key, r) ∈ B ∧ insert M order h root key value =
        some ({ h with records := Function.update h.records r value }, root)) ∨
      (∀ r, (key, r) ∉ B) ∧ ∃ h' root' B₁ B₂ p, insert M order h root key value = some (h', root') ∧
        B = B₁ ++ B₂ ∧ Holds order h' root' (B₁ ++ (key, p) :: B₂) ∧
        h'.records = Function.update h.records p value := by
  obtain ⟨leaf, ⟨hfind, hnew⟩ | ⟨r, hfind, hmem, hr, -⟩⟩ := hb.find_spec key
  · right
    refine ⟨hnew, ?_⟩
    have hinsert : insert M order h root key value =
        if root = 0 then some (startNewTree M order (makeRecord M h value).2 key (M.next h))
        else (findLeaf (makeRecord M h value).2 root key).bind fun leaf =>
          if ((makeRecord M h value).2.nodes leaf).numKeys < order - 1 then
            some (insertIntoLeaf (makeRecord M h value).2 leaf key (M.next h), root)
          else insertIntoLeafAfterSplitting M order (makeRecord M h value).2 root leaf key
              (M.next h) := by
      rw [insert, hfind]
      rfl
    have hrecords : (makeRecord M h value).2.records = Function.update h.records
      (M.next h) value := rfl
    rw [hinsert]
    obtain ⟨rfl, hzero, rfl⟩ | ⟨k, L, U, hs, hfill, rfl⟩ := hb
    · rw [if_pos rfl]
      have hzero' : 0 ∉ (makeRecord M h value).2.live := fun h0 =>
        (Finset.mem_insert.mp h0).elim (fun heq => M.ne_zero h heq.symm) hzero
      obtain ⟨h', root', heq, hb', hrec⟩ := startNewTree_spec (M := M) key horder hzero'
        (Finset.mem_insert_self (M.next h) h.live)
      exact ⟨h', root', [], [], M.next h, congrArg some heq, rfl, hb', hrec.trans hrecords⟩
    · obtain ⟨hs₁, hp⟩ := hs.makeRecord_spec (M := M) value
      have hsame : bindings (makeRecord M h value).2 L = bindings h L := rfl
      have hfill₁ : Filled order (makeRecord M h value).2 k L := hfill
      rw [if_neg hs.root_ne_zero]
      generalize (makeRecord M h value).2 = h₁ at *
      obtain ⟨L₁, x, L₂, e₁, e₂, rfl, hslot, h1, h2, hleaf, hfound⟩ := hs₁.find_place key
      obtain ⟨hes, -⟩ | ⟨r, hes, -⟩ := hfound
      · rw [hleaf, Option.bind_some]
        have hsplit : bindings h (L₁ ++ x :: L₂) = (bindings h₁ L₁ ++ e₁) ++
            (e₂ ++ bindings h₁ L₂) := by
          rw [← hsame, bindings_append, bindings_cons, hes]
          simp only [List.append_assoc]
        by_cases hroom : (h₁.nodes x.2).numKeys < order - 1
        · rw [if_pos hroom]
          obtain ⟨hs', hfill', hB⟩ := hs₁.insertIntoLeaf_spec hfill₁ hslot hes h1 h2 hp hroom rfl
          refine ⟨_, root, _, _, M.next h, rfl, hsplit, Or.inr ⟨k, _, U, hs', hfill', ?_⟩, hrecords⟩
          rw [hB]
          simp only [List.append_assoc, List.cons_append]
        · rw [if_neg hroom]
          obtain ⟨h', root', k', L', U', heq, hs', hfill', hrec, hB⟩ :=
            hs₁.insertIntoLeafAfterSplitting_spec (M := M) horder hfill₁ hslot hes h1 h2 hp hroom
          refine ⟨h', root', _, _, M.next h, heq, hsplit, Or.inr ⟨k', L', U', hs', hfill', ?_⟩,
            hrec.trans hrecords⟩
          rw [hB]
          simp only [List.append_assoc, List.cons_append]
      · refine absurd (hsame ▸ mem_bindings.mpr ⟨x, by simp, ?_⟩) (hnew r)
        rw [hes]
        exact List.mem_append_right _ List.mem_cons_self
  · left
    refine ⟨r, hmem, ?_⟩
    rw [insert, hfind]
    exact if_pos hr

end Facts

end Unos.BPlusTree
