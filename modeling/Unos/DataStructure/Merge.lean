import Unos.DataStructure.Lists

namespace Unos.DataStructure

open Function Unos.Links Unos.Turns

/-- The variables of `merge_ordered_list`, and the links. -/
structure Merge where
  next : Ptr → Ptr
  list1 : Ptr
  list2 : Ptr
  resCur : Ptr

def mergeTurn (data : Ptr → ℤ) (result : Ptr) (s : Merge) : Turn (Ptr × (Ptr → Ptr)) Merge :=
  if s.list1 ≠ 0 ∧ s.list2 ≠ 0 then
    if data s.list1 < data s.list2 then
      let next := update s.next s.resCur s.list1
      .goOn { next := next, list1 := next s.list1, list2 := s.list2, resCur := next s.resCur }
    else
      let next := update s.next s.resCur s.list2
      .goOn { next := next, list1 := s.list1, list2 := next s.list2, resCur := next s.resCur }
  else
    let next := if s.list1 ≠ 0 then update s.next s.resCur s.list1 else s.next
    let next := if s.list2 ≠ 0 then update next s.resCur s.list2 else next
    .stop (result, next) s

def MergeOrderedList (data : Ptr → ℤ) (next : Ptr → Ptr) (result list1 list2 p : Ptr)
    (next' : Ptr → Ptr) : Prop :=
  Ends (mergeTurn data result) ⟨next, list1, list2, result⟩ (p, next')

/-- The order of the merged list: of equal nodes that of the second list comes first. -/
def merged (data : Ptr → ℤ) (xs ys : List Ptr) : List Ptr := ys.merge xs fun a b =>
    decide (data a ≤ data b)

section Merged

variable {data : Ptr → ℤ} {next next' : Ptr → Ptr} {result list1 list2 p q c x y v : Ptr}
  {xs ys us vs : List Ptr}

theorem IsList.update (h : IsList next p xs) (hc : c ∉ xs) (v : Ptr) :
    IsList (update next c v) p xs :=
  ⟨h.1.update hc v, h.2⟩

theorem merged_cons_of_lt (h : data x < data y) (xs ys : List Ptr) :
    merged data (x :: xs) (y :: ys) = x :: merged data xs (y :: ys) :=
  List.cons_merge_cons_neg _ _ _ (by simpa using h)

theorem merged_cons_of_ge (h : ¬ data x < data y) (xs ys : List Ptr) :
    merged data (x :: xs) (y :: ys) = y :: merged data (x :: xs) ys :=
  List.cons_merge_cons_pos _ _ _ (by simpa using h)

theorem merged_nil_left (ys : List Ptr) : merged data [] ys = ys := List.merge_right ys

theorem merged_nil_right (xs : List Ptr) : merged data xs [] = xs := List.nil_merge xs

/-- What becomes of the links: those of the nodes of `us` and `vs` and of the node `c` in front of
them. -/
structure Linked (data : Ptr → ℤ) (next next' : Ptr → Ptr) (c : Ptr) (us vs : List Ptr) : Prop where
  none : us = [] → vs = [] → next' = next
  list : us ≠ [] ∨ vs ≠ [] → IsList next' (next' c) (merged data us vs)
  others : ∀ z, z ≠ c → z ∉ us → z ∉ vs → next' z = next z

/-- One node is linked behind `c`, and the others behind that. -/
theorem Linked.cons {ws : List Ptr} (h : Linked data (Function.update next c x) next' x us vs)
    (hne : us ≠ [] ∨ vs ≠ []) (hx : x ≠ 0) (hcx : c ≠ x) (hcu : c ∉ us) (hcv : c ∉ vs)
    (hws : ws = x :: merged data us vs) :
    IsList next' (next' c) ws ∧ ∀ z, z ≠ c → z ≠ x → z ∉ us → z ∉ vs → next' z = next z := by
  have hc : next' c = x := (h.others c hcx hcu hcv).trans (update_self ..)
  have hlist : IsList next' (next' x) (merged data us vs) := h.list hne
  constructor
  · rw [hws, hc]
    exact isList_cons.mpr ⟨rfl, hx, hlist⟩
  · intro z hz hzx hzu hzv
    rw [h.others z hzx hzu hzv, update_of_ne hz]

theorem linked_rest (h : IsList next p us) (hne : us ≠ []) (hc : c ∉ us)
    (hus : merged data xs ys = us) : Linked data next (Function.update next c p) c xs ys where
  none hx hy := by
    rw [hx, hy, merged_nil_left] at hus
    exact absurd hus.symm hne
  list _ := by
    rw [hus, update_self]
    exact h.update hc p
  others _ hz _ _ := update_of_ne hz ..

theorem ends_merge (hu : IsList next p us) (hv : IsList next q vs) (hcu : c ∉ us) (hcv : c ∉ vs)
    (hdisjoint : us.Disjoint vs) :
    ∃ next', Ends (mergeTurn data result) ⟨next, p, q, c⟩ (result, next') ∧
      Linked data next next' c us vs := by
  induction hn : us.length + vs.length generalizing next p q c us vs with
  | zero =>
    obtain rfl : us = [] := List.length_eq_zero_iff.mp (Nat.eq_zero_of_add_eq_zero_right hn)
    obtain rfl : vs = [] := List.length_eq_zero_iff.mp (Nat.eq_zero_of_add_eq_zero_left hn)
    obtain rfl := isList_nil.mp hu
    obtain rfl := isList_nil.mp hv
    have hnone : ¬ (([] : List Ptr) ≠ [] ∨ ([] : List Ptr) ≠ []) := by
      rw [or_self, not_not]
    exact ⟨next, .of_stop rfl, fun _ _ => rfl, fun hne => absurd hne hnone, fun _ _ _ _ => rfl⟩
  | succ n ih =>
    cases us with
    | nil =>
      obtain rfl := isList_nil.mp hu
      cases vs with
      | nil => cases hn
      | cons y vs =>
        have hq : q ≠ 0 := by
          obtain ⟨rfl, hy, -⟩ := isList_cons.mp hv
          exact hy
        refine ⟨Function.update next c q, .of_stop (t := ⟨next, 0, q, c⟩) ?_,
          linked_rest hv (List.cons_ne_nil y vs) hcv (merged_nil_left _)⟩
        rw [mergeTurn, if_neg (fun h => h.1 rfl)]
        simp only [if_pos hq, ne_eq, not_true_eq_false, if_false]
    | cons x us =>
      have hp : p ≠ 0 := by
        obtain ⟨rfl, hx, -⟩ := isList_cons.mp hu
        exact hx
      cases vs with
      | nil =>
        obtain rfl := isList_nil.mp hv
        refine ⟨Function.update next c p, .of_stop (t := ⟨next, p, 0, c⟩) ?_,
          linked_rest hu (List.cons_ne_nil x us) hcu (merged_nil_right _)⟩
        rw [mergeTurn, if_neg (fun h => h.2 rfl)]
        simp only [if_pos hp, ne_eq, not_true_eq_false, if_false]
      | cons y vs =>
        obtain ⟨rfl, -, hu'⟩ := isList_cons.mp hu
        obtain ⟨rfl, hq, hv'⟩ := isList_cons.mp hv
        obtain ⟨hcp, hcu'⟩ := not_or.mp (mt List.mem_cons.mpr hcu)
        obtain ⟨hcq, hcv'⟩ := not_or.mp (mt List.mem_cons.mpr hcv)
        have hpus := (List.nodup_cons.mp (hu.1.nodup hu.2)).1
        have hqvs := (List.nodup_cons.mp (hv.1.nodup hv.2)).1
        obtain ⟨hpvs, hrest⟩ := List.disjoint_cons_left.mp hdisjoint
        obtain ⟨hqus, hrest'⟩ := List.disjoint_cons_right.mp hdisjoint
        simp only [List.length_cons] at hn
        by_cases hlt : data p < data q
        · obtain ⟨next', hends, hlinked⟩ :=
            ih (hu'.update hcu' p) (hv.update hcv p) hpus hpvs hrest
            (by simp only [List.length_cons]; omega)
          obtain ⟨hlist, hothers⟩ := hlinked.cons (.inr (List.cons_ne_nil q vs)) hp hcp hcu' hcv
            (merged_cons_of_lt hlt us vs)
          refine ⟨next', hends.of_goOn ?_, fun hnil => absurd hnil (List.cons_ne_nil p us),
            fun _ => hlist, fun z hz hzu hzv => ?_⟩
          · rw [mergeTurn, if_pos ⟨hp, hq⟩, if_pos hlt]
            simp only [update_self, update_of_ne (Ne.symm hcp)]
          · obtain ⟨hzp, hzus⟩ := not_or.mp (mt List.mem_cons.mpr hzu)
            exact hothers z hz hzp hzus hzv
        · obtain ⟨next', hends, hlinked⟩ :=
            ih (hu.update hcu q) (hv'.update hcv' q) hqus hqvs hrest'
            (by simp only [List.length_cons]; omega)
          obtain ⟨hlist, hothers⟩ := hlinked.cons (.inl (List.cons_ne_nil p us)) hq hcq hcu hcv'
            (merged_cons_of_ge hlt us vs)
          refine ⟨next', hends.of_goOn ?_, fun hnil => absurd hnil (List.cons_ne_nil p us),
            fun _ => hlist, fun z hz hzu hzv => ?_⟩
          · rw [mergeTurn, if_pos ⟨hp, hq⟩, if_neg hlt]
            simp only [update_self, update_of_ne (Ne.symm hcq)]
          · obtain ⟨hzq, hzvs⟩ := not_or.mp (mt List.mem_cons.mpr hzv)
            exact hothers z hz hzq hzu hzvs

/-- The nodes of both lists, in order when both lists are; without any node the link of the new one
stays what it was. No other link is written. -/
theorem mergeOrderedList_eq (hx : IsList next list1 xs) (hy : IsList next list2 ys)
    (hdisjoint : xs.Disjoint ys) (hrx : result ∉ xs) (hry : result ∉ ys) :
    ∃ next', MergeOrderedList data next result list1 list2 result next' ∧
      (xs = [] → ys = [] → next' = next) ∧
      (xs ≠ [] ∨ ys ≠ [] → IsList next' (next' result) (merged data xs ys)) ∧
      (merged data xs ys).Perm (ys ++ xs) ∧
      (xs.Pairwise (fun a b => data a ≤ data b) → ys.Pairwise (fun a b => data a ≤ data b) →
        (merged data xs ys).Pairwise fun a b => data a ≤ data b) ∧
      ∀ z, z ≠ result → z ∉ xs → z ∉ ys → next' z = next z := by
  obtain ⟨next', hends, hnone, hlist, hothers⟩ := ends_merge hx hy hrx hry hdisjoint
  refine ⟨next', hends, hnone, hlist, List.merge_perm_append _, fun hxs hys => ?_, hothers⟩
  have hle : ∀ {zs : List Ptr}, zs.Pairwise (fun a b => decide (data a ≤ data b) = true) ↔
      zs.Pairwise fun a b => data a ≤ data b := by
    intro zs
    simp only [decide_eq_true_eq]
  apply hle.mp
  apply List.pairwise_merge
  · intro a b c hab hbc
    rw [decide_eq_true_eq] at hab hbc ⊢
    exact hab.trans hbc
  · intro a b
    rw [Bool.or_eq_true, decide_eq_true_eq, decide_eq_true_eq]
    exact le_total _ _
  · exact hle.mpr hys
  · exact hle.mpr hxs

end Merged

def mergeLinks : Ptr → Ptr := fun p => if p = 1 then 3 else 0

theorem mergeOrderedList_eq_three :
    ∃ next', MergeOrderedList (fun p => p.toNat) mergeLinks 4 1 2 4 next' ∧
    IsList next' (next' 4) [1, 2, 3] := by
  have hx : IsList mergeLinks 1 [1, 3] :=
    isList_cons.mpr ⟨rfl, by decide, isList_cons.mpr ⟨rfl, by decide, isList_nil.mpr rfl⟩⟩
  have hy : IsList mergeLinks 2 [2] := isList_cons.mpr ⟨rfl, by decide, isList_nil.mpr rfl⟩
  have hdisjoint : List.Disjoint [(1 : Ptr), 3] [2] := List.disjoint_singleton.mpr (by decide)
  have hmerged : merged (fun p => p.toNat) [1, 3] [2] = [1, 2, 3] := by
    rw [merged_cons_of_lt (by decide), merged_cons_of_ge (by decide), merged_nil_right]
  obtain ⟨next', hcall, -, hlist, -⟩ := @mergeOrderedList_eq (fun p => p.toNat) mergeLinks 4 1 2
    [1, 3] [2] hx hy hdisjoint (by decide) (by decide)
  exact ⟨next', hcall, hmerged ▸ hlist (.inl (List.cons_ne_nil 1 [3]))⟩

end Unos.DataStructure
