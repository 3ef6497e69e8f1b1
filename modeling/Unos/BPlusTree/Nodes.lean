import Unos.BPlusTree.Model
import Unos.Library.Fences

namespace Unos.BPlusTree

open Unos.Arrays Unos.Fences

namespace Node

def keyList (nd : Node) : List ℤ := slice nd.keys 0 nd.numKeys

def children (nd : Node) : List ℕ := slice nd.pointers 0 (nd.numKeys + 1)

def records (nd : Node) : List ℕ := slice nd.pointers 0 nd.numKeys

def entries (nd : Node) : List (ℤ × ℕ) := nd.keyList.zip nd.records

variable {nd : Node}

@[simp] theorem length_keyList (nd : Node) : nd.keyList.length = nd.numKeys := length_slice _ _ _

@[simp] theorem length_children (nd : Node) : nd.children.length = nd.numKeys + 1 :=
  length_slice _ _ _

@[simp] theorem length_records (nd : Node) : nd.records.length = nd.numKeys := length_slice _ _ _

theorem length_row_lists (nd : Node) : nd.keyList.length + 1 = nd.children.length := by
  rw [length_keyList, length_children]

@[simp] theorem length_entries (nd : Node) : nd.entries.length = nd.numKeys := by
  rw [entries, List.length_zip, length_keyList, length_records, Nat.min_self]

theorem map_fst_entries (nd : Node) : nd.entries.map Prod.fst = nd.keyList :=
  List.map_fst_zip (by rw [length_keyList, length_records])

theorem map_snd_entries (nd : Node) : nd.entries.map Prod.snd = nd.records :=
  List.map_snd_zip (by rw [length_keyList, length_records])

theorem entries_of {e : List (ℤ × ℕ)} (hk : nd.keyList = e.map Prod.fst)
    (hr : nd.records = e.map Prod.snd) : nd.entries = e := by
  rw [entries, hk, hr]
  exact (List.zip_of_prod rfl rfl).symm

end Node

/-- The nodes agree in all but the parent. -/
structure SameBody (x y : Node) : Prop where
  keys : x.keys = y.keys
  pointers : x.pointers = y.pointers
  isLeaf : x.isLeaf = y.isLeaf
  numKeys : x.numKeys = y.numKeys

theorem SameBody.refl (x : Node) : SameBody x x := ⟨rfl, rfl, rfl, rfl⟩

theorem SameBody.trans {x y z : Node} (h : SameBody x y) (h' : SameBody y z) : SameBody x z :=
  ⟨h.keys.trans h'.keys, h.pointers.trans h'.pointers, h.isLeaf.trans h'.isLeaf,
    h.numKeys.trans h'.numKeys⟩

theorem SameBody.parent (x : Node) (p : ℕ) : SameBody { x with parent := p } x :=
  ⟨rfl, rfl, rfl, rfl⟩

theorem SameBody.keyList {x y : Node} (h : SameBody x y) : x.keyList = y.keyList := by
  rw [Node.keyList, Node.keyList, h.keys, h.numKeys]

theorem SameBody.children {x y : Node} (h : SameBody x y) : x.children = y.children := by
  rw [Node.children, Node.children, h.pointers, h.numKeys]

theorem SameBody.records {x y : Node} (h : SameBody x y) : x.records = y.records := by
  rw [Node.records, Node.records, h.pointers, h.numKeys]

theorem SameBody.entries {x y : Node} (h : SameBody x y) : x.entries = y.entries := by
  rw [Node.entries, Node.entries, h.keyList, h.records]

section Heaps

variable {h : Heap} {a x : ℕ} {f : Node → Node}

@[simp] theorem modify_nodes_self : (h.modify a f).nodes a = f (h.nodes a) :=
  Function.update_self _ _ _

@[simp] theorem modify_nodes_of_ne (hx : x ≠ a) : (h.modify a f).nodes x = h.nodes x :=
  Function.update_of_ne hx _ _

@[simp] theorem modify_live : (h.modify a f).live = h.live := rfl

@[simp] theorem modify_records : (h.modify a f).records = h.records := rfl

@[simp] theorem alloc_nodes : (h.alloc a).nodes = h.nodes := rfl

@[simp] theorem free_nodes : (h.free a).nodes = h.nodes := rfl

@[simp] theorem free_records : (h.free a).records = h.records := rfl

theorem setParents_nodes (h : Heap) (a n x : ℕ) : (setParents h a n).nodes x =
    if x ∈ slice (h.nodes a).pointers 0 n then { h.nodes x with parent := a } else h.nodes x := by
  induction n with
  | zero => exact (if_neg List.not_mem_nil).symm
  | succ n ih =>
    rw [setParents, slice_concat, Nat.zero_add]
    by_cases hx : x = (h.nodes a).pointers n
    · subst hx
      rw [modify_nodes_self, ih, if_pos (List.mem_append_right _ (List.mem_singleton_self _))]
      split_ifs <;> rfl
    · rw [modify_nodes_of_ne hx, ih]
      simp only [List.mem_append, List.mem_singleton, hx, or_false]

@[simp] theorem setParents_live (h : Heap) (a n : ℕ) : (setParents h a n).live = h.live := by
  induction n with
  | zero => rfl
  | succ n ih => rw [setParents, modify_live, ih]

@[simp] theorem setParents_records (h : Heap) (a n : ℕ) :
    (setParents h a n).records = h.records := by
  induction n with
  | zero => rfl
  | succ n ih => rw [setParents, modify_records, ih]

variable {M : Malloc}

theorem makeNode_fst (h : Heap) : (makeNode M h).1 = M.next h := rfl

theorem makeNode_nodes_of_ne (hx : x ≠ M.next h) : (makeNode M h).2.nodes x = h.nodes x := by
  rw [makeNode, modify_nodes_of_ne hx, alloc_nodes]

end Heaps

section Entries

variable {nd : Node} {k₁ k₂ : List ℤ} {c₁ c₂ : List ℕ} {e₁ e₂ : List (ℤ × ℕ)} {key : ℤ}
  {a p right : ℕ}

theorem scan_children (hc : nd.children = c₁ ++ a :: c₂) (ha : a ∉ c₁) :
    scan (fun i => nd.pointers i != a) (nd.numKeys + 1) 0 = c₁.length := by
  have hlen := congrArg List.length hc
  rw [Node.length_children, List.length_append] at hlen
  refine scan_slice (q := (· != a)) hc hlen.ge (fun x hx => ?_) (fun x hx => ?_) fun h => ?_
  · exact bne_iff_ne.mpr fun heq => ha (heq ▸ hx)
  · obtain rfl := Option.some.inj hx
    exact bne_self_eq_false' _
  · exact absurd h (List.cons_ne_nil _ _)

theorem keyList_insertIntoNode (hk : nd.keyList = k₁ ++ k₂) :
    (insertIntoNode nd k₁.length key right).keyList = k₁ ++ key :: k₂ := slice_insert hk

theorem children_insertIntoNode (hc : nd.children = c₁ ++ a :: c₂) :
    (insertIntoNode nd c₁.length key right).children = c₁ ++ a :: right :: c₂ := by
  have hc' : slice nd.pointers 0 (nd.numKeys + 1) = (c₁ ++ [a]) ++ c₂ := by
    rw [List.append_assoc, List.singleton_append]
    exact hc
  have hinsert := slice_insert (v := right) hc'
  rw [List.length_append, List.length_singleton, List.append_assoc,
    List.singleton_append] at hinsert
  exact hinsert

theorem slice_keys_of_entries (he : nd.entries = e₁ ++ e₂) :
    slice nd.keys 0 nd.numKeys = e₁.map Prod.fst ++ e₂.map Prod.fst := by
  rw [← List.map_append, ← he, Node.map_fst_entries]
  rfl

theorem slice_pointers_of_entries (he : nd.entries = e₁ ++ e₂) :
    slice nd.pointers 0 nd.numKeys = e₁.map Prod.snd ++ e₂.map Prod.snd := by
  rw [← List.map_append, ← he, Node.map_snd_entries]
  rfl

/-- The searches for the place of a key in a leaf stop behind the smaller keys. -/
theorem scan_entries {q : ℤ → Bool} {m : ℕ} (he : nd.entries = e₁ ++ e₂) (hm : nd.numKeys ≤ m)
    (h1 : ∀ e ∈ e₁, q e.1 = true) (h2 : ∀ e ∈ e₂.head?, q e.1 = false)
    (hend : e₂ = [] → m = nd.numKeys) : scan (fun i => q (nd.keys i)) m 0 = e₁.length := by
  have hlen := congrArg List.length he
  rw [Node.length_entries, List.length_append] at hlen
  have hmap : (e₁.map Prod.fst).length = e₁.length := List.length_map _
  rw [← hmap]
  refine scan_slice (slice_keys_of_entries he) ?_ (fun x hx => ?_) (fun x hx => ?_) fun hnil => ?_
  · rw [List.length_map, List.length_map]
    omega
  · obtain ⟨e, hmem, rfl⟩ := List.mem_map.mp hx
    exact h1 e hmem
  · rw [List.head?_map] at hx
    obtain ⟨e, hmem, rfl⟩ := Option.mem_map.mp hx
    exact h2 e hmem
  · obtain rfl := List.map_eq_nil_iff.mp hnil
    rw [hend rfl, hlen, List.length_map]
    rfl

theorem entries_insertEntry (he : nd.entries = e₁ ++ e₂) :
    (insertEntry nd e₁.length key p).entries = e₁ ++ (key, p) :: e₂ := by
  apply Node.entries_of
  · have hinsert := slice_insert (v := key) (slice_keys_of_entries he)
    rw [List.length_map] at hinsert
    rw [List.map_append, List.map_cons]
    exact hinsert
  · have hinsert := slice_insert (v := p) (slice_pointers_of_entries he)
    rw [List.length_map] at hinsert
    rw [List.map_append, List.map_cons]
    exact hinsert

theorem pointers_insertEntry {i x : ℕ} (hi : i ≤ nd.numKeys) (hx : nd.numKeys < x) :
    (insertEntry nd i key p).pointers x = nd.pointers x := by
  have hcell : Function.update (shiftUp nd.pointers i nd.numKeys) i p x = nd.pointers x := by
    rw [Function.update_of_ne (by omega), shiftUp_apply hi, if_neg (by omega)]
  exact hcell

end Entries

/-- Of a node and a new one behind it: what they hold, and that the children of the new one know
their parent. -/
structure SplitInto (h h' : Heap) (old new : ℕ) (ka : List ℤ) (ca : List ℕ) (kb : List ℤ)
    (cb : List ℕ) : Prop where
  old_keys : (h'.nodes old).keyList = ka
  old_children : (h'.nodes old).children = ca
  old_isLeaf : (h'.nodes old).isLeaf = (h.nodes old).isLeaf
  new_keys : (h'.nodes new).keyList = kb
  new_children : (h'.nodes new).children = cb
  new_isLeaf : (h'.nodes new).isLeaf = (h.nodes new).isLeaf
  other : ∀ x, x ≠ old → x ≠ new → SameBody (h'.nodes x) (h.nodes x)
  parent_child : ∀ x ∈ cb, (h'.nodes x).parent = new
  parent_other : ∀ x, x ∉ cb → x ≠ new → (h'.nodes x).parent = (h.nodes x).parent
  parent_new : new ∉ cb → (h'.nodes new).parent = (h.nodes old).parent
  live : h'.live = h.live
  records : h'.records = h.records

theorem cut_le (n : ℕ) : cut n ≤ n := by
  unfold cut
  split_ifs <;> omega

section Splitting

variable {order : ℕ} {h : Heap} {old new : ℕ} {k₁ k₂ : List ℤ} {c₁ c₂ : List ℕ}
  {key : ℤ} {a right : ℕ}

/-- What `splitNode` does once the temporary arrays are filled. -/
def writeNodes (order : ℕ) (h : Heap) (old new split : ℕ) (tempKeys : ℕ → ℤ)
    (tempPointers : ℕ → ℕ) : Heap :=
  let h := h.modify old fun nd => { nd with
    pointers :=
      Function.update (copyRange nd.pointers tempPointers 0 0 (split - 1)) (split - 1)
        (tempPointers (split - 1))
    keys := copyRange nd.keys tempKeys 0 0 (split - 1)
    numKeys := split - 1 }
  let h := h.modify new fun nd => { nd with
    pointers :=
      Function.update (copyRange nd.pointers tempPointers 0 split (order - split)) (order - split)
        (tempPointers order)
    keys := copyRange nd.keys tempKeys 0 split (order - split)
    numKeys := order - split }
  let h := h.modify new fun nd => { nd with parent := (h.nodes old).parent }
  setParents h new ((h.nodes new).numKeys + 1)

theorem writeNodes_into {split : ℕ} {tempKeys : ℕ → ℤ} {tempPointers : ℕ → ℕ} (hne : new ≠ old)
    (hpos : 1 ≤ split) (hsplit : split ≤ order) :
    SplitInto h (writeNodes order h old new split tempKeys tempPointers) old new
      (slice tempKeys 0 (split - 1)) (slice tempPointers 0 split)
      (slice tempKeys split (order - split)) (slice tempPointers split (order - split + 1)) := by
  unfold writeNodes
  dsimp only
  -- the heap before the children of the new node get their parent
  generalize hh₁ : ((h.modify old _).modify new _) = h₁
  generalize hh₂ : h₁.modify new _ = h₂
  have hold : h₂.nodes old = { h.nodes old with
      pointers := Function.update (copyRange (h.nodes old).pointers tempPointers 0 0 (split - 1))
        (split - 1) (tempPointers (split - 1))
      keys := copyRange (h.nodes old).keys tempKeys 0 0 (split - 1)
      numKeys := split - 1 } := by
    rw [← hh₂, modify_nodes_of_ne hne.symm, ← hh₁, modify_nodes_of_ne hne.symm, modify_nodes_self]
  have hnew : h₂.nodes new = { h.nodes new with
      pointers := Function.update
        (copyRange (h.nodes new).pointers tempPointers 0 split (order - split))
        (order - split) (tempPointers order)
      keys := copyRange (h.nodes new).keys tempKeys 0 split (order - split)
      parent := (h.nodes old).parent
      numKeys := order - split } := by
    rw [← hh₂, modify_nodes_self, ← hh₁, modify_nodes_self, modify_nodes_of_ne hne,
      modify_nodes_of_ne hne.symm, modify_nodes_self]
  have hother : ∀ x, x ≠ old → x ≠ new → h₂.nodes x = h.nodes x := fun x hx hx' => by
    rw [← hh₂, modify_nodes_of_ne hx', ← hh₁, modify_nodes_of_ne hx', modify_nodes_of_ne hx]
  have hcb : slice (h₂.nodes new).pointers 0 ((h₂.nodes new).numKeys + 1) =
      slice tempPointers split (order - split + 1) := by
    rw [hnew, slice_concat tempPointers, show split + (order - split) = order by omega]
    exact slice_copyRange_concat _ _ _ _ _
  have hbody : ∀ x, SameBody ((setParents h₂ new ((h₂.nodes new).numKeys + 1)).nodes x)
      (h₂.nodes x) := by
    intro x
    rw [setParents_nodes]
    split_ifs
    · exact SameBody.parent _ _
    · exact SameBody.refl _
  refine ⟨?_, ?_, ?_, ?_, ?_, ?_, fun x hx hx' => ?_, fun x hx => ?_, fun x hx hx' => ?_,
    fun hx => ?_, ?_, ?_⟩
  · rw [(hbody old).keyList, hold, Node.keyList, slice_copyRange]
  · rw [(hbody old).children, hold]
    refine (slice_copyRange_concat _ _ _ _ _).trans ?_
    conv_rhs => rw [show split = split - 1 + 1 by omega, slice_concat, Nat.zero_add]
  · rw [(hbody old).isLeaf, hold]
  · rw [(hbody new).keyList, hnew, Node.keyList, slice_copyRange]
  · rw [(hbody new).children, Node.children, hcb]
  · rw [(hbody new).isLeaf, hnew]
  · rw [← hother x hx hx']
    exact hbody x
  · rw [setParents_nodes, hcb, if_pos hx]
  · rw [setParents_nodes, hcb, if_neg hx]
    by_cases hxo : x = old
    · rw [hxo, hold]
    · rw [hother x hxo hx']
  · rw [setParents_nodes, hcb, if_neg hx, hnew]
  · rw [setParents_live, ← hh₂, ← hh₁]
    rfl
  · rw [setParents_records, ← hh₂, ← hh₁]
    rfl

theorem splitNode_spec (key : ℤ) (right : ℕ) (horder : 3 ≤ order) (hne : new ≠ old)
    (hk : (h.nodes old).keyList = k₁ ++ k₂) (hc : (h.nodes old).children = c₁ ++ a :: c₂)
    (hlen : k₁.length = c₁.length) (hfull : (h.nodes old).numKeys = order - 1) :
    ∃ ka kb ca cb,
      k₁ ++ key :: k₂ = ka ++ (splitNode order h old new c₁.length key right).2 :: kb ∧
      c₁ ++ a :: right :: c₂ = ca ++ cb ∧ ka.length + 1 = cut order ∧ ca.length = cut order ∧
      SplitInto h (splitNode order h old new c₁.length key right).1 old new ka ca kb cb := by
  have hcut : 1 ≤ cut order ∧ cut order ≤ order := by
    refine ⟨?_, cut_le order⟩
    unfold cut
    split_ifs <;> omega
  -- the temporary arrays
  have htempKeys : slice (Function.update (copyAround (fun _ => 0) (h.nodes old).keys c₁.length 0 0
      (h.nodes old).numKeys) c₁.length key) 0 order = k₁ ++ key :: k₂ := by
    have hcopy := slice_copyAround (t := fun _ => 0) (v := key) hk
    rw [hlen] at hcopy
    conv_lhs => rw [show order = (h.nodes old).numKeys + 1 by omega]
    exact hcopy
  have htempPointers : slice (Function.update (copyAround (fun _ => 0) (h.nodes old).pointers
      (c₁.length + 1) 0 0 ((h.nodes old).numKeys + 1)) (c₁.length + 1) right) 0 (order + 1) =
      c₁ ++ a :: right :: c₂ := by
    have hc' : slice (h.nodes old).pointers 0 ((h.nodes old).numKeys + 1) = (c₁ ++ [a]) ++ c₂ := by
      rw [List.append_assoc, List.singleton_append]
      exact hc
    have hcopy := slice_copyAround (t := fun _ => 0) (v := right) hc'
    rw [List.length_append, List.length_singleton, List.append_assoc,
      List.singleton_append] at hcopy
    rw [show order + 1 = (h.nodes old).numKeys + 1 + 1 by omega]
    exact hcopy
  unfold splitNode
  dsimp only
  generalize Function.update (copyAround (fun _ => 0) (h.nodes old).keys c₁.length 0 0
    (h.nodes old).numKeys) c₁.length key = tempKeys at htempKeys ⊢
  generalize Function.update (copyAround (fun _ => 0) (h.nodes old).pointers (c₁.length + 1) 0 0
    ((h.nodes old).numKeys + 1)) (c₁.length + 1) right = tempPointers at htempPointers ⊢
  refine ⟨slice tempKeys 0 (cut order - 1), slice tempKeys (cut order) (order - cut order),
    slice tempPointers 0 (cut order), slice tempPointers (cut order) (order - cut order + 1),
    ?_, ?_, ?_, ?_, ?_⟩
  · rw [← htempKeys, show order = cut order - 1 + 1 + (order - cut order) by omega, slice_add,
      slice_concat, List.append_assoc, List.singleton_append]
    simp only [Nat.zero_add, show cut order - 1 + 1 = cut order by omega,
      show cut order + (order - cut order) = order by omega]
  · rw [← htempPointers, show order + 1 = cut order + (order - cut order + 1) by omega, slice_add,
      Nat.zero_add]
  · rw [length_slice]
    omega
  · rw [length_slice]
  · exact writeNodes_into hne hcut.1 hcut.2

structure SplitLeafInto (h h' : Heap) (next leaf new : ℕ) (ea eb : List (ℤ × ℕ)) : Prop where
  old_entries : (h'.nodes leaf).entries = ea
  old_isLeaf : (h'.nodes leaf).isLeaf = (h.nodes leaf).isLeaf
  old_parent : (h'.nodes leaf).parent = (h.nodes leaf).parent
  old_link : (h'.nodes leaf).pointers next = new
  new_entries : (h'.nodes new).entries = eb
  new_isLeaf : (h'.nodes new).isLeaf = (h.nodes new).isLeaf
  new_parent : (h'.nodes new).parent = (h.nodes leaf).parent
  new_link : (h'.nodes new).pointers next = (h.nodes leaf).pointers next
  other : ∀ x, x ≠ leaf → x ≠ new → h'.nodes x = h.nodes x
  live : h'.live = h.live
  records : h'.records = h.records

variable {leaf : ℕ} {e₁ e₂ : List (ℤ × ℕ)} {p : ℕ}

/-- What `splitLeaf` does once the temporary arrays are filled. -/
def writeLeaves (order : ℕ) (h : Heap) (leaf new split : ℕ) (tempKeys : ℕ → ℤ)
    (tempPointers : ℕ → ℕ) : Heap :=
  let h := h.modify leaf fun nd => { nd with
    pointers := copyRange nd.pointers tempPointers 0 0 split
    keys := copyRange nd.keys tempKeys 0 0 split
    numKeys := split }
  let h := h.modify new fun nd => { nd with
    pointers := copyRange nd.pointers tempPointers 0 split (order - split)
    keys := copyRange nd.keys tempKeys 0 split (order - split)
    numKeys := order - split }
  let h := h.modify new fun nd => { nd with
    pointers := Function.update nd.pointers (order - 1) ((h.nodes leaf).pointers (order - 1)) }
  let h := h.modify leaf fun nd => { nd with
    pointers := Function.update nd.pointers (order - 1) new }
  let h := h.modify leaf fun nd => { nd with
    pointers := fillRange nd.pointers 0 nd.numKeys (order - 1 - nd.numKeys) }
  let h := h.modify new fun nd => { nd with
    pointers := fillRange nd.pointers 0 nd.numKeys (order - 1 - nd.numKeys) }
  h.modify new fun nd => { nd with parent := (h.nodes leaf).parent }

theorem splitLeaf_eq (p : ℕ) : splitLeaf order h leaf new key p =
    writeLeaves order h leaf new (cut (order - 1))
      (Function.update (copyAround (fun _ => 0) (h.nodes leaf).keys
        (scan (fun i => decide ((h.nodes leaf).keys i < key)) (order - 1) 0) 0 0
        (h.nodes leaf).numKeys)
        (scan (fun i => decide ((h.nodes leaf).keys i < key)) (order - 1) 0) key)
      (Function.update (copyAround (fun _ => 0) (h.nodes leaf).pointers
        (scan (fun i => decide ((h.nodes leaf).keys i < key)) (order - 1) 0) 0 0
        (h.nodes leaf).numKeys)
        (scan (fun i => decide ((h.nodes leaf).keys i < key)) (order - 1) 0) p) := rfl

theorem writeLeaves_into {split : ℕ} {tempKeys : ℕ → ℤ} {tempPointers : ℕ → ℕ}
    {ea eb : List (ℤ × ℕ)} (hne : new ≠ leaf) (hpos : 1 ≤ split) (hsplit : split < order)
    (hk1 : slice tempKeys 0 split = ea.map Prod.fst)
    (hp1 : slice tempPointers 0 split = ea.map Prod.snd)
    (hk2 : slice tempKeys split (order - split) = eb.map Prod.fst)
    (hp2 : slice tempPointers split (order - split) = eb.map Prod.snd) :
    SplitLeafInto h (writeLeaves order h leaf new split tempKeys tempPointers)
    (order - 1) leaf new ea eb := by
  unfold writeLeaves
  dsimp only
  -- the two nodes when everything is copied, before their last cells are set
  generalize hh₂ : (h.modify leaf _).modify new _ = h₂
  have hold₂ : h₂.nodes leaf = { h.nodes leaf with
      pointers := copyRange (h.nodes leaf).pointers tempPointers 0 0 split
      keys := copyRange (h.nodes leaf).keys tempKeys 0 0 split
      numKeys := split } := by
    rw [← hh₂, modify_nodes_of_ne hne.symm, modify_nodes_self]
  have hnew₂ : h₂.nodes new = { h.nodes new with
      pointers := copyRange (h.nodes new).pointers tempPointers 0 split (order - split)
      keys := copyRange (h.nodes new).keys tempKeys 0 split (order - split)
      numKeys := order - split } := by
    rw [← hh₂, modify_nodes_self, modify_nodes_of_ne hne]
  have hlink : (h₂.nodes leaf).pointers (order - 1) = (h.nodes leaf).pointers (order - 1) := by
    rw [hold₂]
    exact copyRange_of_outside (by omega)
  generalize hh₇ : Heap.modify _ new _ = h₇
  have hold : h₇.nodes leaf = { h₂.nodes leaf with
      pointers := fillRange (Function.update (h₂.nodes leaf).pointers (order - 1) new) 0
        (h₂.nodes leaf).numKeys (order - 1 - (h₂.nodes leaf).numKeys) } := by
    rw [← hh₇, modify_nodes_of_ne hne.symm, modify_nodes_of_ne hne.symm, modify_nodes_self,
      modify_nodes_self, modify_nodes_of_ne hne.symm]
  have hnew : h₇.nodes new = { h₂.nodes new with
      pointers := fillRange (Function.update (h₂.nodes new).pointers (order - 1)
        ((h.nodes leaf).pointers (order - 1))) 0 (h₂.nodes new).numKeys
        (order - 1 - (h₂.nodes new).numKeys)
      parent := (h.nodes leaf).parent } := by
    rw [← hh₇, modify_nodes_self, modify_nodes_self, modify_nodes_of_ne hne, modify_nodes_of_ne hne,
      modify_nodes_self, modify_nodes_of_ne hne.symm, modify_nodes_self, modify_nodes_self,
      modify_nodes_of_ne hne.symm, hlink, hold₂]
  refine ⟨?_, ?_, ?_, ?_, ?_, ?_, ?_, ?_, fun x hx hx' => ?_, ?_, ?_⟩
  · apply Node.entries_of
    · rw [hold, Node.keyList, hold₂, ← hk1]
      exact slice_copyRange _ _ _ _ _
    · rw [hold, Node.records, hold₂, ← hp1]
      dsimp only
      rw [slice_fillRange_of_outside (by omega), slice_update_of_outside (by omega),
        slice_copyRange]
  · rw [hold, hold₂]
  · rw [hold, hold₂]
  · rw [hold, hold₂]
    dsimp only
    rw [fillRange_of_outside (by omega), Function.update_self]
  · apply Node.entries_of
    · rw [hnew, Node.keyList, hnew₂, ← hk2]
      exact slice_copyRange _ _ _ _ _
    · rw [hnew, Node.records, hnew₂, ← hp2]
      dsimp only
      rw [slice_fillRange_of_outside (by omega), slice_update_of_outside (by omega),
        slice_copyRange]
  · rw [hnew, hnew₂]
  · rw [hnew]
  · rw [hnew, hnew₂]
    dsimp only
    rw [fillRange_of_outside (by omega), Function.update_self]
  · rw [← hh₇, modify_nodes_of_ne hx', modify_nodes_of_ne hx', modify_nodes_of_ne hx,
      modify_nodes_of_ne hx, modify_nodes_of_ne hx', ← hh₂, modify_nodes_of_ne hx',
      modify_nodes_of_ne hx]
  · rw [← hh₇, ← hh₂]
    rfl
  · rw [← hh₇, ← hh₂]
    rfl

theorem splitLeaf_spec (p : ℕ) (horder : 3 ≤ order) (hne : new ≠ leaf)
    (he : (h.nodes leaf).entries = e₁ ++ e₂) (h1 : ∀ e ∈ e₁, e.1 < key) (h2 : ∀ e ∈ e₂, ¬ e.1 < key)
    (hfull : (h.nodes leaf).numKeys = order - 1) :
    ∃ ea eb, e₁ ++ (key, p) :: e₂ = ea ++ eb ∧ ea.length = cut (order - 1) ∧
      eb.length = order - cut (order - 1) ∧
      SplitLeafInto h (splitLeaf order h leaf new key p) (order - 1) leaf new ea eb := by
  have hcut := cut_le (order - 1)
  have hindex : scan (fun i => decide ((h.nodes leaf).keys i < key)) (order - 1) 0 = e₁.length := by
    refine scan_entries (q := fun k => decide (k < key)) he hfull.le (fun e hmem => ?_)
      (fun e hmem => ?_) fun _ => hfull.symm
    · exact decide_eq_true (h1 e hmem)
    · exact decide_eq_false (h2 e (List.mem_of_mem_head? hmem))
  -- the temporary arrays
  have htempKeys : slice (Function.update (copyAround (fun _ => 0) (h.nodes leaf).keys e₁.length 0 0
      (h.nodes leaf).numKeys) e₁.length key) 0 order = (e₁ ++ (key, p) :: e₂).map Prod.fst := by
    have hcopy := slice_copyAround (t := fun _ => 0) (v := key) (slice_keys_of_entries he)
    rw [List.length_map] at hcopy
    conv_lhs => rw [show order = (h.nodes leaf).numKeys + 1 by omega]
    rw [List.map_append, List.map_cons]
    exact hcopy
  have htempPointers : slice (Function.update (copyAround (fun _ => 0) (h.nodes leaf).pointers
      e₁.length 0 0 (h.nodes leaf).numKeys) e₁.length p) 0 order =
      (e₁ ++ (key, p) :: e₂).map Prod.snd := by
    have hcopy := slice_copyAround (t := fun _ => 0) (v := p) (slice_pointers_of_entries he)
    rw [List.length_map] at hcopy
    conv_lhs => rw [show order = (h.nodes leaf).numKeys + 1 by omega]
    rw [List.map_append, List.map_cons]
    exact hcopy
  rw [splitLeaf_eq, hindex]
  generalize Function.update (copyAround (fun _ => 0) (h.nodes leaf).keys e₁.length 0 0
    (h.nodes leaf).numKeys) e₁.length key = tempKeys at htempKeys ⊢
  generalize Function.update (copyAround (fun _ => 0) (h.nodes leaf).pointers e₁.length 0 0
    (h.nodes leaf).numKeys) e₁.length p = tempPointers at htempPointers ⊢
  generalize e₁ ++ (key, p) :: e₂ = e at htempKeys htempPointers ⊢
  have horder' : order = cut (order - 1) + (order - cut (order - 1)) := by omega
  have hlen : e.length = order := by
    rw [← List.length_map (f := Prod.fst), ← htempKeys, length_slice]
  rw [← List.take_append_drop (cut (order - 1)) e, List.map_append] at htempKeys htempPointers
  have htake : (e.take (cut (order - 1))).length = cut (order - 1) := by
    rw [List.length_take]
    omega
  have hdrop : (e.drop (cut (order - 1))).length = order - cut (order - 1) := by
    rw [List.length_drop, hlen]
  obtain ⟨-, hk1, hk2⟩ := slice_eq_append htempKeys
  obtain ⟨-, hp1, hp2⟩ := slice_eq_append htempPointers
  rw [List.length_map, htake] at hk1 hp1
  rw [List.length_map, List.length_map, htake, hdrop, Nat.zero_add] at hk2 hp2
  have hpos : 1 ≤ cut (order - 1) := by
    unfold cut
    split_ifs <;> omega
  refine ⟨_, _, (List.take_append_drop (cut (order - 1)) e).symm, htake, hdrop, ?_⟩
  exact writeLeaves_into hne hpos (by omega) hk1 hp1 hk2 hp2

end Splitting

end Unos.BPlusTree
