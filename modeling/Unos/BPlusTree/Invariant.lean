import Mathlib.Data.Finset.Lattice.Fold
import Mathlib.Order.Lattice.Nat
import Unos.BPlusTree.Insert
import Unos.BPlusTree.Delete
import Unos.Library.Runs

namespace Unos.BPlusTree

open Unos.Arrays Unos.Fences Unos.Links Unos.Runs

inductive Op where
  | insert (key value : ℤ)
  | delete (key : ℤ)
  deriving DecidableEq, Repr

/-- `root = insert(root, key, value)` or `root = delete(root, key)`. -/
def step (M : Malloc) (order : ℕ) (t : Heap × ℕ) : Op → Option (Heap × ℕ)
  | .insert key value => insert M order t.1 t.2 key value
  | .delete key => delete order t.1 t.2 key

/-- The empty tree, with anything in the memory. -/
def start (nodes : ℕ → Node) (records : ℕ → ℤ) : Heap × ℕ := (⟨nodes, records, ∅, 0⟩, 0)

def bump : Malloc where
  next h := h.live.sup id + 1
  fresh _ hmem := absurd (Finset.le_sup (f := id) hmem) (Nat.not_succ_le_self _)
  ne_zero _ := Nat.succ_ne_zero _

def leavesUnder (h : Heap) : ℕ → ℕ → List ℕ
  | 0, a => [a]
  | d + 1, a => (h.nodes a).children.flatMap (leavesUnder h d)

def keysUnder (h : Heap) (d a : ℕ) : List ℤ := (leavesUnder h d a).flatMap (keysOf h)

def leftmost (h : Heap) : ℕ → ℕ → ℕ
  | 0, a => a
  | d + 1, a => leftmost h d ((h.nodes a).pointers 0)

/-- The fewest keys of a node that is not the root, `d` levels above the leaves. -/
def fewestAt (order d : ℕ) : ℕ := if d = 0 then cut (order - 1) else cut order - 1

/-- The subtree below `a` with its leaves `d` levels down. -/
def WellFormed (order : ℕ) (h : Heap) : ℕ → ℕ → Prop
  | 0, a => (h.nodes a).isLeaf = true ∧ (h.nodes a).keyList.Pairwise (· < ·)
  | d + 1, a =>
    (h.nodes a).isLeaf = false ∧ (h.nodes a).keyList.Pairwise (· < ·) ∧
      (∀ i < (h.nodes a).numKeys,
        (∀ j ≤ i, ∀ key ∈ keysUnder h d ((h.nodes a).pointers j), key < (h.nodes a).keys i) ∧
        ∀ j, i < j → j ≤ (h.nodes a).numKeys →
          ∀ key ∈ keysUnder h d ((h.nodes a).pointers j), (h.nodes a).keys i ≤ key) ∧
      ∀ c ∈ (h.nodes a).children, (h.nodes c).parent = a ∧ fewestAt order d ≤ (h.nodes c).numKeys ∧
        (h.nodes c).numKeys ≤ order - 1 ∧ WellFormed order h d c

/-- The tree with all its leaves `d` levels below the root. -/
structure IsTree (order : ℕ) (h : Heap) (root d : ℕ) : Prop where
  wellFormed : WellFormed order h d root
  parent : (h.nodes root).parent = 0
  min : 1 ≤ (h.nodes root).numKeys
  max : (h.nodes root).numKeys ≤ order - 1
  chain : Path (link order h) (leftmost h d root) (leavesUnder h d root) 0

def Valid (order : ℕ) (t : Heap × ℕ) : Prop := t.2 = 0 ∨ ∃ d, IsTree order t.1 t.2 d

section Facts

variable {M : Malloc} {order root k d : ℕ} {h : Heap} {L : List Place} {U : List ℕ} {x : Place}

theorem leavesUnder_eq_cons (h : Heap) (d a : ℕ) :
    ∃ l, leavesUnder h d a = leftmost h d a :: l := by
  induction d generalizing a with
  | zero => exact ⟨[], rfl⟩
  | succ d ih =>
    obtain ⟨l, hl⟩ := ih ((h.nodes a).pointers 0)
    rw [leavesUnder, Node.children, slice, List.flatMap_cons, hl]
    exact ⟨_, rfl⟩

theorem keysUnder_succ (h : Heap) (d : ℕ) (x : Place) :
    keysUnder h (d + 1) x.2 = (rowOf h x).flatMap fun y => keysUnder h d y.2 := by
  have hrow : (h.nodes x.2).children = (rowOf h x).map Prod.snd := (addrs_rowOf h x).symm
  unfold keysUnder
  rw [leavesUnder, hrow, List.flatMap_map, List.flatMap_assoc]

theorem Fenced.wellFormed (hf : Fenced (keysUnder h d) (rowOf h x))
    (hleaf : (h.nodes x.2).isLeaf = false)
    (hchild : ∀ c ∈ (h.nodes x.2).children, (h.nodes c).parent = x.2)
    (hbelow : ∀ y ∈ rowOf h x, fewestAt order d ≤ (h.nodes y.2).numKeys ∧
      (h.nodes y.2).numKeys ≤ order - 1 ∧ WellFormed order h d y.2) :
    WellFormed order h (d + 1) x.2 := by
  have hlen := Node.length_row_lists (h.nodes x.2)
  refine ⟨hleaf, hf.rising.keys hlen, fun i hi => ?_, fun c hc => ?_⟩
  · -- the row in two parts, the second one beginning with the key
    have hkeys : (h.nodes x.2).keyList = slice (h.nodes x.2).keys 0 i ++ (h.nodes x.2).keys i ::
        slice (h.nodes x.2).keys (i + 1) ((h.nodes x.2).numKeys - (i + 1)) := by
      rw [Node.keyList, show (h.nodes x.2).numKeys = i +
        ((h.nodes x.2).numKeys - (i + 1) + 1) by omega, slice_add, slice, Nat.zero_add]
      simp only [show i + ((h.nodes x.2).numKeys - (i + 1) + 1) = (h.nodes x.2).numKeys by omega]
    have hchildren : (h.nodes x.2).children = slice (h.nodes x.2).pointers 0 (i + 1) ++
        slice (h.nodes x.2).pointers (i + 1) ((h.nodes x.2).numKeys - i) := by
      rw [Node.children, show (h.nodes x.2).numKeys + 1 = i + 1 +
        ((h.nodes x.2).numKeys - i) by omega, slice_add, Nat.zero_add]
    rw [rowOf, hkeys, hchildren] at hf
    obtain ⟨hleft, hright⟩ := hf.separates (by simp) (by simp only [length_slice]; omega)
    refine ⟨fun j hj => hleft _ ?_, fun j hij hj => hright _ ?_⟩
    · exact mem_slice.mpr ⟨j, by omega, by rw [Nat.zero_add]⟩
    · exact mem_slice.mpr ⟨j - (i + 1), by omega, by congr 1; omega⟩
  · rw [← addrs_rowOf] at hc
    obtain ⟨y, hy, rfl⟩ := List.mem_map.mp hc
    exact ⟨hchild y.2 (addrs_rowOf h x ▸ mem_addrs hy), hbelow y hy⟩

theorem Tower.wellFormed (ht : Tower order h root k L U) (hf : Fenced (keysUnder h d) L)
    (hlevel : ∀ x ∈ L, WellFormed order h d x.2)
    (hnum : 0 < k → ∀ x ∈ L, fewestAt order d ≤ (h.nodes x.2).numKeys ∧
      (h.nodes x.2).numKeys ≤ order - 1) :
    WellFormed order h (d + k) root ∧
      leavesUnder h (d + k) root = (addrs L).flatMap (leavesUnder h d) := by
  induction k generalizing d L U with
  | zero =>
    obtain ⟨rfl, -, -⟩ := ht
    exact ⟨hlevel (⊥, root) (List.mem_singleton_self _), (List.flatMap_singleton _ _).symm⟩
  | succ k ih =>
    obtain ⟨P, V, rfl, -, hinner, hchild, hup⟩ := ht
    have hfUp : Fenced (keysUnder h (d + 1)) P :=
      hf.above (fun x _ => exists_rowOf_cons h x) fun x _ => keysUnder_succ h d x
    have hnodes : ∀ x ∈ P, WellFormed order h (d + 1) x.2 := fun x hx => by
      have hmem : ∀ y ∈ rowOf h x, y ∈ P.flatMap (rowOf h) := fun y hy =>
        List.mem_flatMap.mpr ⟨x, hx, hy⟩
      have hrow : Fenced (keysUnder h d) (rowOf h x) :=
        hf.sublist (List.sublist_flatten_of_mem (List.mem_map_of_mem hx))
      exact Fenced.wellFormed hrow (hinner x hx).isLeaf (hchild x hx) fun y hy =>
        ⟨(hnum (Nat.succ_pos k) y (hmem y hy)).1, (hnum (Nat.succ_pos k) y (hmem y hy)).2,
          hlevel y (hmem y hy)⟩
    obtain ⟨hroot, hleaves⟩ := ih hup hfUp hnodes fun hk x hx => by
      rw [fewestAt, if_neg (Nat.succ_ne_zero d)]
      exact ⟨(hinner x hx).cut_le hk, (hinner x hx).max⟩
    rw [Nat.add_right_comm, Nat.add_assoc] at hroot hleaves
    refine ⟨hroot, hleaves.trans ?_⟩
    rw [addrs_flatMap, List.flatMap_assoc, addrs, List.flatMap_map]
    rfl

theorem Tower.root_inner (ht : Tower order h root (k + 1) L U) : Inner order 0 (h.nodes root) := by
  induction k generalizing L U with
  | zero =>
    obtain ⟨P, V, -, -, hinner, -, hsingle, -, -⟩ := ht
    exact hinner (⊥, root) (hsingle ▸ List.mem_singleton_self _)
  | succ k ih =>
    obtain ⟨P, V, -, -, -, -, hup⟩ := ht
    exact ih hup

theorem Store.isTree (hs : Store order h root k L U) (hfill : Filled order h k L) :
    IsTree order h root k := by
  have hkeys : ∀ a, keysUnder h 0 a = keysOf h a := fun a => List.flatMap_singleton _ _
  have hfenced : Fenced (keysUnder h 0) L := hs.leaves.fenced.congr fun x _ => hkeys x.2
  have hleaf : ∀ x ∈ L, WellFormed order h 0 x.2 := fun x hx =>
    ⟨hs.leaves.isLeaf x hx, hs.leaves.fenced.sorted x hx⟩
  have hnum : 0 < k → ∀ x ∈ L, fewestAt order 0 ≤ (h.nodes x.2).numKeys ∧
      (h.nodes x.2).numKeys ≤ order - 1 := fun hk x hx => by
    have hmin := hfill x hx
    rw [minLeaf, if_neg hk.ne'] at hmin
    exact ⟨hmin, hs.leaves.max x hx⟩
  obtain ⟨hroot, hleaves⟩ := hs.tower.wellFormed hfenced hleaf hnum
  rw [Nat.zero_add] at hroot hleaves
  have hall : leavesUnder h k root = addrs L := hleaves.trans (List.flatMap_singleton' _)
  have hbounds : 1 ≤ (h.nodes root).numKeys ∧ (h.nodes root).numKeys ≤ order - 1 := by
    cases k with
    | zero =>
      have hmem : (⊥, root) ∈ L := by
        obtain ⟨rfl, -, -⟩ := hs.tower
        exact List.mem_singleton_self _
      exact ⟨hfill _ hmem, hs.leaves.max _ hmem⟩
    | succ k => exact ⟨hs.tower.root_inner.min, hs.tower.root_inner.max⟩
  refine ⟨hroot, hs.tower.root_parent, hbounds.1, hbounds.2, ?_⟩
  -- the chain begins with the first leaf
  obtain ⟨a, hpath⟩ := hs.leaves.chain
  obtain ⟨l, hl⟩ := leavesUnder_eq_cons h k root
  rw [← hall, hl] at hpath
  rw [hl]
  exact ⟨rfl, hpath.2⟩

end Facts

end Unos.BPlusTree
