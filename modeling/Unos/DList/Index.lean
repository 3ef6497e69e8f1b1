import Unos.Library.Splits
import Unos.DList.Deque

namespace Unos.DList

open Unos.Words Unos.Links Unos.Splits

def listSizeInt (s : State) : ℤ := (BitVec.ofNat 32 (listSize s)).toInt

/-- The loop `foreach`, with as many turns as `curr` is behind `index`. -/
def indexLoop (s : State) : ℕ → ℕ → ℕ × State
  | 0, listnode => (listnode, s)
  | n + 1, listnode =>
    if listnode = 0 then (0, s) else indexLoop (s.deref listnode) n (s.next listnode)

def listGetNodeByIndex (s : State) (index : BitVec 32) : ℕ × State :=
  if index.toInt < 0 ∨ listSizeInt s ≤ index.toInt then (0, s)
  else indexLoop s index.toInt.toNat s.head

def listRemoveByIndex (s : State) (index : BitVec 32) : ℕ × State :=
  let (node, s) := listGetNodeByIndex s index
  listRemoveNode s node

/-- The list of the nodes `xs`, which may be none. -/
structure Leaves (s : State) (xs : List ℕ) : Prop where
  faults : s.faults = []
  list : ListInv s xs

structure RemovesAt (s : State) (index : BitVec 32) : Prop where
  inside : 0 ≤ index.toInt → index.toInt < s.size →
    ∃ as x bs, nodes s = as ++ x :: bs ∧ (as.length : ℤ) = index.toInt ∧
      (listRemoveByIndex s index).1 = s.val x ∧ (listRemoveByIndex s index).2.val = s.val ∧
      Leaves (listRemoveByIndex s index).2 (as ++ bs)
  outside : ¬ (0 ≤ index.toInt ∧ index.toInt < s.size) → listRemoveByIndex s index = (0, s)

section Facts

variable {s : State} {xs as bs : List ℕ} {a x : ℕ} {index : BitVec 32}

theorem State.deref_faults (h : s.faults ≠ []) (a : ℕ) : (s.deref a).faults ≠ [] := by
  rw [State.deref]
  split_ifs
  · exact List.cons_ne_nil a s.faults
  · exact h

theorem ListInv.removeNode_null (h : ListInv s xs) : (listRemoveNode s 0).2.faults ≠ [] := by
  have hnull : (s.deref 0).faults ≠ [] := by simp [State.deref]
  by_cases hhead : s.head = 0
  · have hhead' : (s.deref 0).head = 0 := hhead
    rw [listRemoveNode, if_pos hhead', listRemoveFront, if_pos hhead']
    exact hnull
  · have hhead' : (s.deref 0).head ≠ 0 := hhead
    have htail' : (s.deref 0).tail ≠ 0 := fun h0 =>
      hhead (h.head_eq_zero.mpr (h.tail_eq_zero.mp h0))
    rw [listRemoveNode, if_neg hhead', if_neg htail']
    exact State.deref_faults (State.deref_faults hnull _) _

theorem ListInv.indexLoop_eq (h : ListInv s xs) (hsub : as ++ x :: bs <:+ xs)
    (hpath : Path s.next a (as ++ x :: bs) 0) : indexLoop s as.length a = (x, s) := by
  induction as generalizing a with
  | nil => exact congrArg (·, s) hpath.1
  | cons b as ih =>
    obtain ⟨rfl, hrest⟩ := hpath
    have ha : a ∈ xs := hsub.subset List.mem_cons_self
    rw [List.length_cons, indexLoop, if_neg (h.addr a ha).1, h.deref_eq ha]
    exact ih ((List.suffix_cons a _).trans hsub) hrest

theorem ListInv.isDeque (h : ListInv s xs) : IsDeque s (xs.map fun x => (x, s.val x)) := by
  have hnodes : (xs.map fun x => (x, s.val x)).map Prod.fst = xs := by
    rw [List.map_map]
    exact List.map_id xs
  refine ⟨?_, ?_, ?_, fun e he => ?_, fun _ => ⟨0, ?_⟩, fun _ => ⟨0, ?_⟩⟩
  · rw [List.length_map]
    exact h.size
  · rw [hnodes]
    exact h.nodup
  · rw [hnodes]
    exact h.addr
  · obtain ⟨x, -, rfl⟩ := List.mem_map.mp he
    rfl
  · rw [hnodes]
    exact h.forward
  · rw [hnodes]
    exact h.backward

theorem Leaves.wellFormed (h : Leaves s xs) : WellFormed s := ⟨h.faults, xs, h.list⟩

theorem ListInv.removeNode_value (h : ListInv s (as ++ x :: bs)) :
    (listRemoveNode s x).1 = s.val x := by
  have hdeque := h.isDeque
  rw [List.map_append, List.map_cons] at hdeque
  exact hdeque.removeNode.1

theorem ListInv.removeNode_leaves (h : ListInv s (as ++ x :: bs)) (hfaults : s.faults = [])
    (hsize : s.size ≠ 1) : Leaves (listRemoveNode s x).2 (as ++ bs) := by
  have hx : x ∈ as ++ x :: bs := by simp
  have hne : as ++ bs ≠ [] := by
    intro hnil
    obtain ⟨rfl, rfl⟩ := List.append_eq_nil_iff.mp hnil
    exact hsize h.size
  have hwell : WellFormed (listRemoveNode s x).2 :=
    (WellFormed.removeNode_iff ⟨hfaults, _, h⟩ (h.nodes_eq ▸ hx)).mpr hsize
  exact ⟨hwell.1, h.removeNode hne⟩

theorem ListInv.sizeInt_le (h : ListInv s xs) : listSizeInt s ≤ s.size := by
  have hlt : s.size < 4294967296 := h.size ▸ h.length_lt
  rw [listSizeInt, listSize, BitVec.toInt_eq_toNat_cond, BitVec.toNat_ofNat, Nat.mod_eq_of_lt hlt]
  split_ifs <;> omega

theorem ListInv.getNode_eq (h : ListInv s xs) (hlow : 0 ≤ index.toInt)
    (hhigh : index.toInt < listSizeInt s) : ∃ as x bs, xs = as ++ x :: bs ∧
      (as.length : ℤ) = index.toInt ∧ listGetNodeByIndex s index = (x, s) := by
  have hsize := h.sizeInt_le
  rw [h.size] at hsize
  obtain ⟨as, x, bs, rfl, hlen⟩ :=
    exists_part_at (show index.toInt.toNat < xs.length by omega)
  refine ⟨as, x, bs, rfl, by omega, ?_⟩
  rw [listGetNodeByIndex, if_neg (by omega), ← hlen]
  exact h.indexLoop_eq List.suffix_rfl h.forward

theorem ListInv.faults_of_outside (h : ListInv s xs)
    (hindex : ¬ (0 ≤ index.toInt ∧ index.toInt < listSizeInt s)) :
    (listRemoveByIndex s index).2.faults ≠ [] := by
  have hnull : listGetNodeByIndex s index = (0, s) := if_pos (by omega)
  rw [listRemoveByIndex, hnull]
  exact h.removeNode_null

end Facts

/-- The calls that do what they should are those with an index in the list, when it has other nodes
too. -/
theorem removesAt_iff {s : State} (h : WellFormed s) (index : BitVec 32) :
    RemovesAt s index ↔ 0 ≤ index.toInt ∧ index.toInt < listSizeInt s ∧ 2 ≤ s.size := by
  obtain ⟨hfaults, xs, hi⟩ := h
  have hsize := hi.sizeInt_le
  by_cases hindex : 0 ≤ index.toInt ∧ index.toInt < listSizeInt s
  · obtain ⟨hlow, hhigh⟩ := hindex
    obtain ⟨as, x, bs, rfl, hlen, hnode⟩ := hi.getNode_eq hlow hhigh
    have hcall : listRemoveByIndex s index = listRemoveNode s x := by
      rw [listRemoveByIndex, hnode]
    constructor
    · intro hremoves
      obtain ⟨_, _, _, -, -, -, -, hleaves⟩ := hremoves.inside hlow (by omega)
      have hx : x ∈ nodes s := by simp [hi.nodes_eq]
      rw [hcall] at hleaves
      have hne := (WellFormed.removeNode_iff ⟨hfaults, _, hi⟩ hx).mp hleaves.wellFormed
      exact ⟨hlow, hhigh, by omega⟩
    · rintro ⟨-, -, htwo⟩
      refine ⟨fun _ _ => ⟨as, x, bs, hi.nodes_eq, hlen, ?_⟩, fun hout => ?_⟩
      · rw [hcall]
        exact ⟨hi.removeNode_value, listRemoveNode_val s x,
          hi.removeNode_leaves hfaults (by omega)⟩
      · exact absurd ⟨hlow, hhigh.trans_le hsize⟩ hout
  · refine iff_of_false (fun hremoves => ?_) fun hcond => hindex ⟨hcond.1, hcond.2.1⟩
    apply hi.faults_of_outside hindex
    by_cases hinside : 0 ≤ index.toInt ∧ index.toInt < s.size
    · obtain ⟨as, x, bs, -, -, -, -, hleaves⟩ := hremoves.inside hinside.1 hinside.2
      exact hleaves.faults
    · rw [hremoves.outside hinside]
      exact hfaults

/-- The second of two nodes. -/
theorem removesAt_second : RemovesAt (listInsertBack (listInsertBack
    (listCreate (fun _ => 0) (fun _ => 0) fun _ => 0) 16 7) 32 8) 1 := by
  have hfirst := (wellFormed_listCreate (fun _ => 0) (fun _ => 0) fun _ => 0).insertBack 7
    (t := 16) (by decide +kernel)
  exact (removesAt_iff (hfirst.insertBack 8 (by decide +kernel)) 1).mpr (by decide +kernel)

/-- On an empty list even the index 0 is one too many. -/
theorem not_removesAt : ¬ ∀ (s : State), WellFormed s → ∀ index : BitVec 32, RemovesAt s index := by
  intro h
  obtain ⟨hfaults, xs, hi⟩ := wellFormed_listCreate (fun _ => 0) (fun _ => 0) fun _ => 0
  have hindex : ¬ (0 ≤ (0 : BitVec 32).toInt ∧ (0 : BitVec 32).toInt <
      listSizeInt (listCreate (fun _ => 0) (fun _ => 0) fun _ => 0)) := by decide
  apply hi.faults_of_outside hindex
  rw [(h _ ⟨hfaults, xs, hi⟩ 0).outside (by decide)]
  exact hfaults

end Unos.DList
