import Unos.BPlusTree.Nodes

namespace Unos.BPlusTree

open Unos.Arrays Unos.Fences

section Removal

variable {order : ℕ} {nd : Node} {k₁ k₂ : List ℤ} {c₁ c₂ : List ℕ} {e₁ e₂ : List (ℤ × ℕ)} {key : ℤ}
  {a p right : ℕ}

theorem removeEntryFromNode_inner (hinner : nd.isLeaf = false) (hk : nd.keyList = k₁ ++ key :: k₂)
    (hkey : key ∉ k₁) (hc : nd.children = c₁ ++ a :: right :: c₂) (hlen : k₁.length = c₁.length)
    (hright : right ∉ c₁ ++ [a]) (hmax : nd.numKeys ≤ order - 1) :
    ∃ nd', removeEntryFromNode order nd key right = some nd' ∧ nd'.keyList = k₁ ++ k₂ ∧
      nd'.children = c₁ ++ a :: c₂ ∧ nd'.isLeaf = false ∧ nd'.parent = nd.parent ∧
      nd'.numKeys + 1 = nd.numKeys := by
  have hc' : slice nd.pointers 0 (nd.numKeys + 1) = (c₁ ++ [a]) ++ right :: c₂ := by
    rw [List.append_assoc, List.singleton_append]
    exact hc
  have hnum : nd.numKeys = k₁.length + (k₂.length + 1) := by
    rw [← Node.length_keyList, hk, List.length_append, List.length_cons]
  have hnum' : nd.numKeys + 1 = c₁.length + (c₂.length + 1 + 1) := by
    rw [← Node.length_children, hc, List.length_append, List.length_cons, List.length_cons]
  have hi : scan (fun i => nd.keys i != key) (order - 1) 0 = k₁.length := by
    refine scan_slice (q := (· != key)) hk ?_ (fun x hx => ?_) (fun x hx => ?_) fun h => ?_
    · rw [List.length_cons]
      omega
    · exact bne_iff_ne.mpr fun heq => hkey (heq ▸ hx)
    · obtain rfl := Option.some.inj hx
      exact bne_self_eq_false' _
    · exact absurd h (List.cons_ne_nil _ _)
  have hj : scan (fun i => nd.pointers i != right) order 0 = c₁.length + 1 := by
    have hscan : scan (fun i => nd.pointers i != right) order 0 = (c₁ ++ [a]).length := by
      refine scan_slice (q := (· != right)) hc' ?_ (fun x hx => ?_) (fun x hx => ?_) fun h => ?_
      · rw [List.length_append, List.length_singleton, List.length_cons]
        omega
      · exact bne_iff_ne.mpr fun heq => hright (heq ▸ hx)
      · obtain rfl := Option.some.inj hx
        exact bne_self_eq_false' _
      · exact absurd h (List.cons_ne_nil _ _)
    rwa [List.length_append, List.length_singleton] at hscan
  have hpointers := slice_remove hc'
  rw [List.length_append, List.length_singleton, Nat.add_sub_cancel] at hpointers
  unfold removeEntryFromNode
  dsimp only
  rw [hi, hj, if_neg (by omega), hinner]
  simp only [Bool.false_eq_true, if_false]
  refine ⟨_, rfl, slice_remove hk, ?_, rfl, rfl, by dsimp only; omega⟩
  rw [Node.children]
  dsimp only
  rw [slice_fillRange_of_outside (by omega),
    show nd.numKeys - 1 + 1 = nd.numKeys by omega, hpointers, List.append_assoc,
      List.singleton_append]

theorem removeEntryFromNode_leaf (hleaf : nd.isLeaf = true) (he : nd.entries = e₁ ++ (key, p) :: e₂)
    (hkey : ∀ e ∈ e₁, e.1 ≠ key) (hp : ∀ e ∈ e₁, e.2 ≠ p) (hmax : nd.numKeys ≤ order - 1) :
    ∃ nd', removeEntryFromNode order nd key p = some nd' ∧ nd'.entries = e₁ ++ e₂ ∧
      nd'.isLeaf = true ∧ nd'.parent = nd.parent ∧ nd'.numKeys + 1 = nd.numKeys ∧
      nd'.pointers (order - 1) = nd.pointers (order - 1) := by
  have hnum : nd.numKeys = e₁.length + (e₂.length + 1) := by
    rw [← Node.length_entries, he, List.length_append, List.length_cons]
  have hkeys := slice_keys_of_entries he
  have hpointers := slice_pointers_of_entries he
  rw [List.map_cons] at hkeys hpointers
  have hi : scan (fun i => nd.keys i != key) (order - 1) 0 = e₁.length := by
    refine scan_entries (q := (· != key)) he hmax (fun e hmem => ?_) (fun e hmem => ?_) fun h => ?_
    · exact bne_iff_ne.mpr (hkey e hmem)
    · obtain rfl := Option.some.inj hmem
      exact bne_self_eq_false' _
    · exact absurd h (List.cons_ne_nil _ _)
  have hj : scan (fun i => nd.pointers i != p) order 0 = e₁.length := by
    have hlen : (e₁.map Prod.snd).length = e₁.length := List.length_map _
    rw [← hlen]
    refine scan_slice (q := (· != p)) hpointers ?_ (fun x hx => ?_) (fun x hx => ?_) fun h => ?_
    · rw [List.length_map, List.length_cons, List.length_map]
      omega
    · obtain ⟨e, hmem, rfl⟩ := List.mem_map.mp hx
      exact bne_iff_ne.mpr (hp e hmem)
    · obtain rfl := Option.some.inj hx
      exact bne_self_eq_false' _
    · exact absurd h (List.cons_ne_nil _ _)
  have hkeys' := slice_remove hkeys
  have hpointers' := slice_remove hpointers
  rw [List.length_map] at hkeys' hpointers'
  unfold removeEntryFromNode
  dsimp only
  rw [hi, hj, if_neg (by omega), hleaf]
  simp only [if_true]
  refine ⟨_, rfl, ?_, rfl, rfl, by dsimp only; omega, ?_⟩
  · apply Node.entries_of
    · rw [List.map_append]
      exact hkeys'
    · rw [List.map_append, Node.records]
      dsimp only
      rw [slice_fillRange_of_outside (by omega), hpointers']
  · dsimp only
    rw [fillRange_of_outside (by omega), shiftDown_of_outside (by omega) (by omega)]

end Removal

section Merging

variable {order : ℕ} {h : Heap} {n nb : ℕ}

/-- The children of both nodes are children of the left one. -/
structure MergedInto (h h' : Heap) (n nb : ℕ) (kPrime : ℤ) : Prop where
  keys : (h'.nodes nb).keyList = (h.nodes nb).keyList ++ kPrime :: (h.nodes n).keyList
  children : (h'.nodes nb).children = (h.nodes nb).children ++ (h.nodes n).children
  isLeaf : (h'.nodes nb).isLeaf = (h.nodes nb).isLeaf
  other : ∀ x, x ≠ n → x ≠ nb → SameBody (h'.nodes x) (h.nodes x)
  parent_child : ∀ x ∈ (h.nodes nb).children ++ (h.nodes n).children, (h'.nodes x).parent = nb
  parent_other : ∀ x, x ∉ (h.nodes nb).children ++ (h.nodes n).children →
    (h'.nodes x).parent = (h.nodes x).parent
  live : h'.live = h.live
  records : h'.records = h.records

theorem mergeNodes_inner (hne : n ≠ nb) (hinner : (h.nodes n).isLeaf = false) (kPrime : ℤ) :
    MergedInto h (mergeNodes order h n nb kPrime) n nb kPrime := by
  unfold mergeNodes
  dsimp only
  rw [hinner, if_neg Bool.false_ne_true]
  generalize hh₂ : (h.modify nb _).modify n _ = h₂
  have hnb : h₂.nodes nb = { h.nodes nb with
      keys := copyRange (Function.update (h.nodes nb).keys (h.nodes nb).numKeys kPrime)
        (h.nodes n).keys ((h.nodes nb).numKeys + 1) 0 (h.nodes n).numKeys
      pointers := Function.update (copyRange (h.nodes nb).pointers (h.nodes n).pointers
        ((h.nodes nb).numKeys + 1) 0 (h.nodes n).numKeys)
        ((h.nodes nb).numKeys + 1 + (h.nodes n).numKeys) ((h.nodes n).pointers (h.nodes n).numKeys)
      numKeys := (h.nodes nb).numKeys + 1 + (h.nodes n).numKeys } := by
    rw [← hh₂, modify_nodes_of_ne hne.symm, modify_nodes_self]
  have hkeys : (h₂.nodes nb).keyList = (h.nodes nb).keyList ++ kPrime :: (h.nodes n).keyList := by
    rw [Node.keyList, hnb]
    dsimp only
    rw [slice_copyRange_append, slice_concat, slice_update_of_outside (by omega), Nat.zero_add,
      Function.update_self, List.append_assoc, List.singleton_append]
    rfl
  have hchildren : (h₂.nodes nb).children = (h.nodes nb).children ++ (h.nodes n).children := by
    rw [Node.children, hnb]
    dsimp only
    rw [slice_concat, slice_update_of_outside (by omega), slice_copyRange_append, Nat.zero_add,
      Function.update_self, List.append_assoc, Node.children, Node.children,
      slice_concat (h.nodes n).pointers, Nat.zero_add]
  have hbody : ∀ x, SameBody ((setParents h₂ nb ((h₂.nodes nb).numKeys + 1)).nodes x)
      (h₂.nodes x) := by
    intro x
    rw [setParents_nodes]
    split_ifs
    · exact SameBody.parent _ _
    · exact SameBody.refl _
  have hother : ∀ x, x ≠ n → x ≠ nb → h₂.nodes x = h.nodes x := fun x hx hx' => by
    rw [← hh₂, modify_nodes_of_ne hx, modify_nodes_of_ne hx']
  refine ⟨?_, ?_, ?_, fun x hx hx' => ?_, fun x hx => ?_, fun x hx => ?_, ?_, ?_⟩
  · rw [(hbody nb).keyList, hkeys]
  · rw [(hbody nb).children, hchildren]
  · rw [(hbody nb).isLeaf, hnb]
  · rw [← hother x hx hx']
    exact hbody x
  · rw [← hchildren] at hx
    rw [setParents_nodes]
    exact (congrArg Node.parent (if_pos hx)).trans rfl
  · rw [← hchildren] at hx
    rw [setParents_nodes]
    refine (congrArg Node.parent (if_neg hx)).trans ?_
    by_cases hxn : x = n
    · rw [hxn, ← hh₂, modify_nodes_self, modify_nodes_of_ne hne]
    by_cases hxnb : x = nb
    · rw [hxnb, hnb]
    rw [hother x hxn hxnb]
  · rw [setParents_live, ← hh₂]
    rfl
  · rw [setParents_records, ← hh₂]
    rfl

theorem mergeNodes_leaf (hleaf : (h.nodes n).isLeaf = true) (kPrime : ℤ)
    (hroom : (h.nodes nb).numKeys + (h.nodes n).numKeys ≤ order - 1) :
    ∃ nd, mergeNodes order h n nb kPrime = h.modify nb (fun _ => nd) ∧
      nd.entries = (h.nodes nb).entries ++ (h.nodes n).entries ∧
      nd.isLeaf = (h.nodes nb).isLeaf ∧ nd.parent = (h.nodes nb).parent ∧
      nd.pointers (order - 1) = (h.nodes n).pointers (order - 1) := by
  unfold mergeNodes
  dsimp only
  rw [hleaf, if_pos rfl]
  refine ⟨_, rfl, ?_, rfl, rfl, Function.update_self _ _ _⟩
  apply Node.entries_of
  · rw [List.map_append, Node.map_fst_entries, Node.map_fst_entries, Node.keyList]
    dsimp only
    rw [slice_copyRange_append]
    rfl
  · rw [List.map_append, Node.map_snd_entries, Node.map_snd_entries, Node.records]
    dsimp only
    rw [slice_update_of_outside (by omega), slice_copyRange_append]
    rfl

end Merging

/-- `n` took the child `c` over from its sibling, and a key of the parent `q` is new. -/
structure RotatedInner (h h' : Heap) (n nb q c i : ℕ) (newKey : ℤ) (kn : List ℤ) (cn : List ℕ)
    (kb : List ℤ) (cb : List ℕ) : Prop where
  n_keys : (h'.nodes n).keyList = kn
  n_children : (h'.nodes n).children = cn
  n_isLeaf : (h'.nodes n).isLeaf = (h.nodes n).isLeaf
  nb_keys : (h'.nodes nb).keyList = kb
  nb_children : (h'.nodes nb).children = cb
  nb_isLeaf : (h'.nodes nb).isLeaf = (h.nodes nb).isLeaf
  parent_node : h'.nodes q = { h.nodes q with keys := Function.update (h.nodes q).keys i newKey }
  other : ∀ x, x ≠ n → x ≠ nb → x ≠ q → SameBody (h'.nodes x) (h.nodes x)
  parent_moved : (h'.nodes c).parent = n
  parent_other : ∀ x, x ≠ c → (h'.nodes x).parent = (h.nodes x).parent
  live : h'.live = h.live
  records : h'.records = h.records

/-- `n` took an entry over from its sibling, and a key of the parent `q` is new. -/
structure RotatedLeaf (h h' : Heap) (next n nb q i : ℕ) (newKey : ℤ) (en eb : List (ℤ × ℕ)) :
    Prop where
  n_entries : (h'.nodes n).entries = en
  n_isLeaf : (h'.nodes n).isLeaf = (h.nodes n).isLeaf
  n_link : (h'.nodes n).pointers next = (h.nodes n).pointers next
  nb_entries : (h'.nodes nb).entries = eb
  nb_isLeaf : (h'.nodes nb).isLeaf = (h.nodes nb).isLeaf
  nb_link : (h'.nodes nb).pointers next = (h.nodes nb).pointers next
  parent_node : h'.nodes q = { h.nodes q with keys := Function.update (h.nodes q).keys i newKey }
  other : ∀ x, x ≠ n → x ≠ nb → x ≠ q → h'.nodes x = h.nodes x
  parent : ∀ x, (h'.nodes x).parent = (h.nodes x).parent
  live : h'.live = h.live
  records : h'.records = h.records

section Sharing

variable {order : ℕ} {h : Heap} {n nb c i : ℕ} {kb : List ℤ} {cb : List ℕ} {eb : List (ℤ × ℕ)}
  {k : ℤ}

/-- A rotation of inner nodes, by the nodes that it writes. -/
theorem RotatedInner.of_nodes {h' : Heap} {q : ℕ} {kn : List ℤ} {cn : List ℕ}
    (hn : (h'.nodes n).keyList = kn ∧ (h'.nodes n).children = cn ∧
      (h'.nodes n).isLeaf = (h.nodes n).isLeaf ∧ (h'.nodes n).parent = (h.nodes n).parent)
    (hnb : (h'.nodes nb).keyList = kb ∧ (h'.nodes nb).children = cb ∧
      (h'.nodes nb).isLeaf = (h.nodes nb).isLeaf ∧ (h'.nodes nb).parent = (h.nodes nb).parent)
    (hq : h'.nodes q = { h.nodes q with keys := Function.update (h.nodes q).keys i k })
    (hc : h'.nodes c = { h.nodes c with parent := n })
    (hrest : ∀ x, x ≠ n → x ≠ nb → x ≠ q → x ≠ c → h'.nodes x = h.nodes x)
    (hlive : h'.live = h.live) (hrecords : h'.records = h.records) :
    RotatedInner h h' n nb q c i k kn cn kb cb := by
  refine ⟨hn.1, hn.2.1, hn.2.2.1, hnb.1, hnb.2.1, hnb.2.2.1, hq, fun x hxn hxnb hxq => ?_, ?_,
    fun x hxc => ?_, hlive, hrecords⟩
  · by_cases hxc : x = c
    · rw [hxc, hc]
      exact SameBody.parent _ _
    · rw [hrest x hxn hxnb hxq hxc]
      exact SameBody.refl _
  · rw [hc]
  · by_cases hxn : x = n
    · rw [hxn, hn.2.2.2]
    by_cases hxnb : x = nb
    · rw [hxnb, hnb.2.2.2]
    by_cases hxq : x = q
    · rw [hxq, hq]
    rw [hrest x hxn hxnb hxq hxc]

theorem borrowLeft_inner (kPrime : ℤ) (hinner : (h.nodes n).isLeaf = false) (hne : n ≠ nb)
    (hqn : (h.nodes n).parent ≠ n) (hqnb : (h.nodes n).parent ≠ nb) (hcn : c ≠ n) (hcnb : c ≠ nb)
    (hcq : c ≠ (h.nodes n).parent) (hk : (h.nodes nb).keyList = kb ++ [k])
    (hc : (h.nodes nb).children = cb ++ [c]) :
    RotatedInner h (borrowLeft h n nb i kPrime) n nb (h.nodes n).parent c i k
      (kPrime :: (h.nodes n).keyList) (c :: (h.nodes n).children) kb cb := by
  obtain ⟨hnum, hkb, hlast, -⟩ := slice_eq_append_cons hk
  obtain ⟨hnum', hcb, hmoved, -⟩ := slice_eq_append_cons hc
  rw [List.length_nil, Nat.add_zero] at hnum hnum'
  rw [Nat.zero_add] at hlast hmoved
  have hcells : cb.length = (h.nodes nb).numKeys := by omega
  rw [hcells] at hmoved
  unfold borrowLeft
  dsimp only
  rw [hinner, if_neg Bool.false_ne_true, hmoved, hnum, Nat.add_sub_cancel, hlast]
  generalize hh' : Heap.modify _ (h.nodes n).parent _ = h'
  have hn : h'.nodes n = { h.nodes n with
      keys := Function.update (shiftUp (h.nodes n).keys 0 (h.nodes n).numKeys) 0 kPrime
      pointers := Function.update (shiftUp (Function.update (h.nodes n).pointers
        ((h.nodes n).numKeys + 1) ((h.nodes n).pointers (h.nodes n).numKeys)) 0
          (h.nodes n).numKeys) 0 c
      numKeys := (h.nodes n).numKeys + 1 } := by
    rw [← hh', modify_nodes_of_ne hqn.symm, modify_nodes_of_ne hne, modify_nodes_of_ne hcn.symm,
      modify_nodes_self]
  have hnb : h'.nodes nb = { h.nodes nb with
      pointers := Function.update (h.nodes nb).pointers (h.nodes nb).numKeys 0
      numKeys := (h.nodes nb).numKeys - 1 } := by
    rw [← hh', modify_nodes_of_ne hqnb.symm, modify_nodes_self, modify_nodes_of_ne hcnb.symm,
      modify_nodes_of_ne hne.symm]
  have hq : h'.nodes (h.nodes n).parent = { h.nodes (h.nodes n).parent with
      keys := Function.update (h.nodes (h.nodes n).parent).keys i k } := by
    rw [← hh', modify_nodes_self, modify_nodes_of_ne hqnb, modify_nodes_of_ne hcq.symm,
      modify_nodes_of_ne hqn]
  have hmovedNode : h'.nodes c = { h.nodes c with parent := n } := by
    rw [← hh', modify_nodes_of_ne hcq, modify_nodes_of_ne hcnb, modify_nodes_self,
      modify_nodes_of_ne hcn]
  have hrest : ∀ x, x ≠ n → x ≠ nb → x ≠ (h.nodes n).parent → x ≠ c → h'.nodes x = h.nodes x := by
    intro x hxn hxnb hxq hxc
    rw [← hh', modify_nodes_of_ne hxq, modify_nodes_of_ne hxnb, modify_nodes_of_ne hxc,
      modify_nodes_of_ne hxn]
  refine RotatedInner.of_nodes ⟨?_, ?_, ?_⟩ ⟨?_, ?_, ?_⟩ hq hmovedNode hrest ?_ ?_
  · rw [hn]
    exact slice_insert_front _ _ _
  · have hlow : slice (Function.update (h.nodes n).pointers ((h.nodes n).numKeys + 1)
        ((h.nodes n).pointers (h.nodes n).numKeys)) 0 (h.nodes n).numKeys =
        slice (h.nodes n).pointers 0 (h.nodes n).numKeys := slice_update_of_outside (by omega)
    rw [hn, Node.children]
    dsimp only
    rw [slice_concat, slice_insert_front, hlow, Nat.zero_add, Function.update_of_ne (by omega),
      shiftUp_apply (by omega), if_neg (by omega), Function.update_self, List.cons_append,
      Node.children, slice_concat, Nat.zero_add]
  · rw [hn]
    exact ⟨rfl, rfl⟩
  · rw [hnb, Node.keyList]
    dsimp only
    rw [hnum, Nat.add_sub_cancel, hkb]
  · rw [hnb, Node.children]
    dsimp only
    rw [slice_update_of_outside (by omega), Nat.sub_add_cancel (by omega), ← hcells, hcb]
  · rw [hnb]
    exact ⟨rfl, rfl⟩
  · rw [← hh']
    rfl
  · rw [← hh']
    rfl

theorem borrowRight_inner (kPrime : ℤ) (hinner : (h.nodes n).isLeaf = false) (hne : n ≠ nb)
    (hqn : (h.nodes n).parent ≠ n) (hqnb : (h.nodes n).parent ≠ nb) (hcn : c ≠ n) (hcnb : c ≠ nb)
    (hcq : c ≠ (h.nodes n).parent) (hk : (h.nodes nb).keyList = k :: kb)
    (hc : (h.nodes nb).children = c :: cb) :
    RotatedInner h (borrowRight h n nb i kPrime) n nb (h.nodes n).parent c i k
      ((h.nodes n).keyList ++ [kPrime]) ((h.nodes n).children ++ [c]) kb cb := by
  have hk' : slice (h.nodes nb).keys 0 (h.nodes nb).numKeys = [] ++ k :: kb := hk
  have hc' : slice (h.nodes nb).pointers 0 ((h.nodes nb).numKeys + 1) = [] ++ c :: cb := hc
  obtain ⟨hnum, -, hfirst, hkb⟩ := slice_eq_append_cons hk'
  obtain ⟨hnum', -, hmoved, hcb⟩ := slice_eq_append_cons hc'
  rw [List.length_nil] at hnum hnum' hfirst hmoved hkb hcb
  rw [Nat.zero_add] at hfirst hmoved
  have hshift := slice_remove hk'
  rw [List.length_nil, List.nil_append, Nat.zero_add] at hshift
  unfold borrowRight
  dsimp only
  simp only [hinner, Bool.false_eq_true, if_false, hmoved, hfirst]
  generalize hh' : Heap.modify _ nb _ = h'
  have hn : h'.nodes n = { h.nodes n with
      keys := Function.update (h.nodes n).keys (h.nodes n).numKeys kPrime
      pointers := Function.update (h.nodes n).pointers ((h.nodes n).numKeys + 1) c
      numKeys := (h.nodes n).numKeys + 1 } := by
    rw [← hh', modify_nodes_of_ne hne, modify_nodes_of_ne hqn.symm, modify_nodes_of_ne hcn.symm,
      modify_nodes_self]
  have hnb : h'.nodes nb = { h.nodes nb with
      keys := shiftDown (h.nodes nb).keys 1 ((h.nodes nb).numKeys - 1)
      pointers := Function.update (shiftDown (h.nodes nb).pointers 1 ((h.nodes nb).numKeys - 1))
        ((h.nodes nb).numKeys - 1)
        (shiftDown (h.nodes nb).pointers 1 ((h.nodes nb).numKeys - 1) (h.nodes nb).numKeys)
      numKeys := (h.nodes nb).numKeys - 1 } := by
    rw [← hh', modify_nodes_self, modify_nodes_of_ne hqnb.symm, modify_nodes_of_ne hcnb.symm,
      modify_nodes_of_ne hne.symm]
  have hq : h'.nodes (h.nodes n).parent = { h.nodes (h.nodes n).parent with
      keys := Function.update (h.nodes (h.nodes n).parent).keys i k } := by
    rw [← hh', modify_nodes_of_ne hqnb, modify_nodes_self, modify_nodes_of_ne hcq.symm,
      modify_nodes_of_ne hqn]
  have hmovedNode : h'.nodes c = { h.nodes c with parent := n } := by
    rw [← hh', modify_nodes_of_ne hcnb, modify_nodes_of_ne hcq, modify_nodes_self,
      modify_nodes_of_ne hcn]
  have hrest : ∀ x, x ≠ n → x ≠ nb → x ≠ (h.nodes n).parent → x ≠ c → h'.nodes x = h.nodes x := by
    intro x hxn hxnb hxq hxc
    rw [← hh', modify_nodes_of_ne hxnb, modify_nodes_of_ne hxq, modify_nodes_of_ne hxc,
      modify_nodes_of_ne hxn]
  refine RotatedInner.of_nodes ⟨?_, ?_, ?_⟩ ⟨?_, ?_, ?_⟩ hq hmovedNode hrest ?_ ?_
  · rw [hn, Node.keyList]
    dsimp only
    rw [slice_concat, slice_update_of_outside (by omega), Nat.zero_add, Function.update_self]
    rfl
  · rw [hn, Node.children]
    dsimp only
    rw [slice_concat, slice_update_of_outside (by omega), Nat.zero_add, Function.update_self]
    rfl
  · rw [hn]
    exact ⟨rfl, rfl⟩
  · rw [hnb]
    exact hshift
  · rw [hnb, Node.children]
    conv_rhs => rw [← hcb]
    have hlen : (h.nodes nb).numKeys - 1 + 1 = cb.length := by omega
    dsimp only
    rw [hlen]
    refine slice_congr fun j hj => ?_
    rw [Function.update_apply]
    split_ifs with hlast
    · rw [shiftDown_of_outside (by omega) (by omega)]
      congr 1
      omega
    · rw [shiftDown_apply (by omega), if_pos (by omega)]
      congr 1
      omega
  · rw [hnb]
    exact ⟨rfl, rfl⟩
  · rw [← hh']
    rfl
  · rw [← hh']
    rfl

variable {next : ℕ} {e e' : ℤ × ℕ}

theorem borrowLeft_leaf (kPrime : ℤ) (hleaf : (h.nodes n).isLeaf = true) (hne : n ≠ nb)
    (hqn : (h.nodes n).parent ≠ n) (hqnb : (h.nodes n).parent ≠ nb)
    (he : (h.nodes nb).entries = eb ++ [e]) (hroom : (h.nodes n).numKeys < next)
    (hroom' : (h.nodes nb).numKeys ≤ next) :
    RotatedLeaf h (borrowLeft h n nb i kPrime) next n nb (h.nodes n).parent i e.1
      (e :: (h.nodes n).entries) eb := by
  obtain ⟨hnum, hkb, hlastKey, -⟩ := slice_eq_append_cons (slice_keys_of_entries he)
  obtain ⟨-, hrb, hlastPointer, -⟩ := slice_eq_append_cons (slice_pointers_of_entries he)
  rw [List.length_map, List.length_map, List.length_nil, Nat.add_zero] at hnum
  rw [List.length_map] at hkb hlastKey hrb hlastPointer
  rw [Nat.zero_add] at hlastKey hlastPointer
  unfold borrowLeft
  dsimp only
  rw [hleaf, if_pos rfl, hnum, Nat.add_sub_cancel, hlastKey, hlastPointer]
  generalize hh₂ : (h.modify n _).modify nb _ = h₂
  have hn : h₂.nodes n = { h.nodes n with
      keys := Function.update (shiftUp (h.nodes n).keys 0 (h.nodes n).numKeys) 0 e.1
      pointers := Function.update (shiftUp (h.nodes n).pointers 0 (h.nodes n).numKeys) 0 e.2
      numKeys := (h.nodes n).numKeys + 1 } := by
    rw [← hh₂, modify_nodes_of_ne hne, modify_nodes_self]
  have hfirst : (h₂.nodes n).keys 0 = e.1 := by
    rw [hn]
    dsimp only
    rw [Function.update_self]
  have hnb : h₂.nodes nb = { h.nodes nb with
      pointers := Function.update (h.nodes nb).pointers ((h.nodes nb).numKeys - 1) 0
      numKeys := (h.nodes nb).numKeys - 1 } := by
    rw [← hh₂, modify_nodes_self, modify_nodes_of_ne hne.symm]
  have hrest : ∀ x, x ≠ n → x ≠ nb → h₂.nodes x = h.nodes x := fun x hx hx' => by
    rw [← hh₂, modify_nodes_of_ne hx', modify_nodes_of_ne hx]
  rw [hfirst]
  refine ⟨?_, ?_, ?_, ?_, ?_, ?_, ?_, fun x hx hx' hx'' => ?_, fun x => ?_, ?_, ?_⟩
  · rw [modify_nodes_of_ne hqn.symm, hn]
    apply Node.entries_of
    · rw [List.map_cons, Node.map_fst_entries]
      exact slice_insert_front _ _ _
    · rw [List.map_cons, Node.map_snd_entries]
      exact slice_insert_front _ _ _
  · rw [modify_nodes_of_ne hqn.symm, hn]
  · rw [modify_nodes_of_ne hqn.symm, hn]
    dsimp only
    rw [Function.update_of_ne (by omega), shiftUp_apply (by omega), if_neg (by omega)]
  · rw [modify_nodes_of_ne hqnb.symm, hnb]
    apply Node.entries_of
    · rw [Node.keyList]
      dsimp only
      rw [hnum, Nat.add_sub_cancel, hkb]
    · rw [Node.records]
      dsimp only
      rw [slice_update_of_outside (by omega), hnum, Nat.add_sub_cancel, hrb]
  · rw [modify_nodes_of_ne hqnb.symm, hnb]
  · rw [modify_nodes_of_ne hqnb.symm, hnb]
    dsimp only
    rw [Function.update_of_ne (by omega)]
  · rw [modify_nodes_self, hrest _ hqn hqnb]
  · rw [modify_nodes_of_ne hx'', hrest x hx hx']
  · by_cases hxq : x = (h.nodes n).parent
    · rw [hxq, modify_nodes_self, hrest _ hqn hqnb]
    rw [modify_nodes_of_ne hxq]
    by_cases hxn : x = n
    · rw [hxn, hn]
    by_cases hxnb : x = nb
    · rw [hxnb, hnb]
    rw [hrest x hxn hxnb]
  · rw [modify_live, ← hh₂]
    rfl
  · rw [modify_records, ← hh₂]
    rfl

theorem borrowRight_leaf (kPrime : ℤ) (hleaf : (h.nodes n).isLeaf = true) (hne : n ≠ nb)
    (hqn : (h.nodes n).parent ≠ n) (hqnb : (h.nodes n).parent ≠ nb)
    (he : (h.nodes nb).entries = e :: e' :: eb) (hroom : (h.nodes n).numKeys < next)
    (hroom' : (h.nodes nb).numKeys ≤ next) :
    RotatedLeaf h (borrowRight h n nb i kPrime) next n nb (h.nodes n).parent i e'.1
      ((h.nodes n).entries ++ [e]) (e' :: eb) := by
  have he' : (h.nodes nb).entries = [] ++ e :: e' :: eb := he
  have hkeys := slice_keys_of_entries he'
  have hpointers := slice_pointers_of_entries he'
  rw [List.map_nil, List.map_cons, List.map_cons] at hkeys hpointers
  have hkeys' := slice_remove hkeys
  have hpointers' := slice_remove hpointers
  rw [List.length_nil, List.nil_append, Nat.zero_add] at hkeys' hpointers'
  obtain ⟨hnum, -, hfirst, hbehind⟩ := slice_eq_append_cons hkeys
  obtain ⟨-, -, hfirst', -⟩ := slice_eq_append_cons hpointers
  rw [List.length_nil] at hnum hfirst hfirst' hbehind
  rw [List.length_cons, slice] at hbehind
  have hsecond := (List.cons.inj hbehind).1
  unfold borrowRight
  dsimp only
  simp only [hleaf, if_true]
  rw [hfirst, hfirst', hsecond]
  generalize hh' : Heap.modify _ nb _ = h'
  have hn : h'.nodes n = { h.nodes n with
      keys := Function.update (h.nodes n).keys (h.nodes n).numKeys e.1
      pointers := Function.update (h.nodes n).pointers (h.nodes n).numKeys e.2
      numKeys := (h.nodes n).numKeys + 1 } := by
    rw [← hh', modify_nodes_of_ne hne, modify_nodes_of_ne hqn.symm, modify_nodes_self]
  have hnb : h'.nodes nb = { h.nodes nb with
      keys := shiftDown (h.nodes nb).keys 1 ((h.nodes nb).numKeys - 1)
      pointers := shiftDown (h.nodes nb).pointers 1 ((h.nodes nb).numKeys - 1)
      numKeys := (h.nodes nb).numKeys - 1 } := by
    rw [← hh', modify_nodes_self, modify_nodes_of_ne hqnb.symm, modify_nodes_of_ne hne.symm]
  have hq : h'.nodes (h.nodes n).parent = { h.nodes (h.nodes n).parent with
      keys := Function.update (h.nodes (h.nodes n).parent).keys i e'.1 } := by
    rw [← hh', modify_nodes_of_ne hqnb, modify_nodes_self, modify_nodes_of_ne hqn]
  have hrest : ∀ x, x ≠ n → x ≠ nb → x ≠ (h.nodes n).parent → h'.nodes x = h.nodes x := by
    intro x hx hx' hx''
    rw [← hh', modify_nodes_of_ne hx', modify_nodes_of_ne hx'', modify_nodes_of_ne hx]
  refine ⟨?_, ?_, ?_, ?_, ?_, ?_, hq, hrest, fun x => ?_, ?_, ?_⟩
  · rw [hn]
    apply Node.entries_of
    · rw [List.map_append, Node.map_fst_entries, Node.keyList]
      dsimp only
      rw [slice_concat, slice_update_of_outside (by omega), Nat.zero_add, Function.update_self]
      rfl
    · rw [List.map_append, Node.map_snd_entries, Node.records]
      dsimp only
      rw [slice_concat, slice_update_of_outside (by omega), Nat.zero_add, Function.update_self]
      rfl
  · rw [hn]
  · rw [hn]
    dsimp only
    rw [Function.update_of_ne (by omega)]
  · rw [hnb]
    exact Node.entries_of hkeys' hpointers'
  · rw [hnb]
  · rw [hnb]
    dsimp only
    rw [shiftDown_of_outside (by omega) (by omega)]
  · by_cases hxn : x = n
    · rw [hxn, hn]
    by_cases hxnb : x = nb
    · rw [hxnb, hnb]
    by_cases hxq : x = (h.nodes n).parent
    · rw [hxq, hq]
    rw [hrest x hxn hxnb hxq]
  · rw [← hh']
    rfl
  · rw [← hh']
    rfl

end Sharing

end Unos.BPlusTree
