import Mathlib.Data.Int.ConditionallyCompleteOrder
import Mathlib.Data.Int.SuccPred
import Mathlib.Data.List.Nodup
import Mathlib.Data.List.TakeWhile
import Unos.BPlusTree.Levels
import Unos.Library.Links

namespace Unos.BPlusTree

open Unos.Arrays Unos.Fences Unos.Links Unos.Splits

/-- What the leaves hold from left to right. -/
def bindings (h : Heap) (L : List Place) : List (ℤ × ℕ) := L.flatMap fun x => (h.nodes x.2).entries

def keysOf (h : Heap) (a : ℕ) : List ℤ := (h.nodes a).keyList

def link (order : ℕ) (h : Heap) (a : ℕ) : ℕ := (h.nodes a).pointers (order - 1)

/-- The fewest keys of a leaf with `k` levels above. -/
def minLeaf (order k : ℕ) : ℕ := if k = 0 then 1 else cut (order - 1)

/-- The leaves `L` as a chain of what they hold. -/
structure Leaves (order : ℕ) (h : Heap) (L : List Place) : Prop where
  isLeaf : ∀ x ∈ L, (h.nodes x.2).isLeaf = true
  max : ∀ x ∈ L, (h.nodes x.2).numKeys ≤ order - 1
  fenced : Fenced (keysOf h) L
  chain : ∃ a, Path (link order h) a (addrs L) 0
  distinct : ((bindings h L).map Prod.snd).Nodup

/-- A tree with the leaves `L`, each of which may be too small. -/
structure Store (order : ℕ) (h : Heap) (root k : ℕ) (L : List Place) (U : List ℕ) : Prop where
  tower : Tower order h root k L U
  placed : Placed h L U
  leaves : Leaves order h L
  owned : ∀ e ∈ bindings h L, e.2 ∈ h.live ∧ e.2 ∉ U ++ addrs L

/-- An address that no part of the tree uses. -/
structure Unused (h : Heap) (L : List Place) (U : List ℕ) (p : ℕ) : Prop where
  live : p ∈ h.live
  node : p ∉ U ++ addrs L
  record : ∀ e ∈ bindings h L, e.2 ≠ p

def Filled (order : ℕ) (h : Heap) (k : ℕ) (L : List Place) : Prop :=
  ∀ x ∈ L, minLeaf order k ≤ (h.nodes x.2).numKeys

section Facts

variable {order root root' k k' : ℕ} {h h' : Heap} {L L' L₁ L₂ m m' : List Place} {U U' X : List ℕ}
  {x y : Place} {e : ℤ × ℕ} {key : ℤ} {r : ℕ}

@[simp] theorem bindings_append (h : Heap) (L₁ L₂ : List Place) :
    bindings h (L₁ ++ L₂) = bindings h L₁ ++ bindings h L₂ := List.flatMap_append

@[simp] theorem bindings_cons (h : Heap) (x : Place) (L : List Place) :
    bindings h (x :: L) = (h.nodes x.2).entries ++ bindings h L := List.flatMap_cons

@[simp] theorem bindings_nil (h : Heap) : bindings h [] = [] := rfl

theorem mem_bindings : e ∈ bindings h L ↔ ∃ x ∈ L, e ∈ (h.nodes x.2).entries := List.mem_flatMap

theorem bindings_congr (hL : ∀ x ∈ L, (h'.nodes x.2).entries = (h.nodes x.2).entries) :
    bindings h' L = bindings h L := List.flatMap_congr hL

theorem bindings_middle {L₁ L₂ : List Place} (hL : ∀ x ∈ L₁ ++ L₂, h'.nodes x.2 = h.nodes x.2)
    (m : List Place) :
    bindings h' (L₁ ++ (m ++ L₂)) = bindings h L₁ ++ (bindings h' m ++ bindings h L₂) := by
  rw [bindings_append, bindings_append,
    bindings_congr fun x hx => congrArg Node.entries (hL x (List.mem_append_left L₂ hx)),
    bindings_congr fun x hx => congrArg Node.entries (hL x (List.mem_append_right L₁ hx))]

theorem map_fst_bindings (h : Heap) (L : List Place) :
    (bindings h L).map Prod.fst = L.flatMap fun x => keysOf h x.2 := by
  rw [bindings, List.map_flatMap]
  exact List.flatMap_congr fun x _ => Node.map_fst_entries _

theorem keysOf_eq_map (h : Heap) (a : ℕ) : keysOf h a = (h.nodes a).entries.map Prod.fst :=
  (Node.map_fst_entries _).symm

theorem mem_keysOf (he : e ∈ (h.nodes x.2).entries) : e.1 ∈ keysOf h x.2 := by
  rw [keysOf_eq_map]
  exact List.mem_map_of_mem he

theorem sorted_bindings (hf : Fenced (keysOf h) L) : (bindings h L).Pairwise fun e e' =>
    e.1 < e'.1 := by
  have hsorted := hf.sorted_flatMap
  rw [← map_fst_bindings, List.pairwise_map] at hsorted
  exact hsorted

theorem bindings_unique (hf : Fenced (keysOf h) L) {e e' : ℤ × ℕ} (he : e ∈ bindings h L)
    (he' : e' ∈ bindings h L) (hkey : e.1 = e'.1) : e = e' := by
  have hnodup : ((bindings h L).map Prod.fst).Nodup := by
    rw [map_fst_bindings]
    exact hf.sorted_flatMap.imp fun hlt => hlt.ne
  exact List.inj_on_of_nodup_map hnodup he he' hkey

theorem perm_entry (e : ℤ × ℕ) (B₁ e₁ e₂ B₂ : List (ℤ × ℕ)) :
    (B₁ ++ (e₁ ++ e :: e₂ ++ B₂)).Perm (e :: (B₁ ++ (e₁ ++ e₂ ++ B₂))) := by
  have hmiddle : ((B₁ ++ e₁) ++ e :: (e₂ ++ B₂)).Perm (e :: ((B₁ ++ e₁) ++ (e₂ ++ B₂))) :=
    List.perm_middle
  simpa only [List.append_assoc, List.cons_append] using hmiddle

theorem exists_place {es : List (ℤ × ℕ)} (hsorted : es.Pairwise fun e e' => e.1 < e'.1) (key : ℤ) :
    ∃ e₁ e₂, (∀ e ∈ e₁, e.1 < key) ∧ (∀ e ∈ e₂, key < e.1) ∧
      (es = e₁ ++ e₂ ∨ ∃ r, es = e₁ ++ (key, r) :: e₂) := by
  induction es with
  | nil => exact ⟨[], [], by simp, by simp, Or.inl rfl⟩
  | cons e es ih =>
    obtain ⟨hhead, htail⟩ := List.pairwise_cons.mp hsorted
    rcases lt_trichotomy e.1 key with hlt | heq | hgt
    · obtain ⟨e₁, e₂, h1, h2, hes⟩ := ih htail
      refine ⟨e :: e₁, e₂, fun e' he' => ?_, h2, ?_⟩
      · rcases List.mem_cons.mp he' with rfl | he'
        · exact hlt
        · exact h1 e' he'
      · rcases hes with rfl | ⟨r, rfl⟩
        · exact Or.inl rfl
        · exact Or.inr ⟨r, rfl⟩
    · refine ⟨[], es, by simp, fun e' he' => heq ▸ hhead e' he', Or.inr ⟨e.2, ?_⟩⟩
      rw [← heq]
      rfl
    · refine ⟨[], e :: es, by simp, fun e' he' => ?_, Or.inl rfl⟩
      rcases List.mem_cons.mp he' with rfl | he'
      · exact hgt
      · exact hgt.trans (hhead e' he')

theorem Leaves.sorted_entries (hl : Leaves order h L) (hx : x ∈ L) :
    (h.nodes x.2).entries.Pairwise fun e e' => e.1 < e'.1 := by
  have hsorted := hl.fenced.sorted x hx
  rwa [keysOf_eq_map, List.pairwise_map] at hsorted

theorem Leaves.congr (hl : Leaves order h L)
    (hbody : ∀ x ∈ L, SameBody (h'.nodes x.2) (h.nodes x.2)) :
    Leaves order h' L := by
  obtain ⟨a, hpath⟩ := hl.chain
  refine ⟨fun x hx => ?_, fun x hx => ?_, hl.fenced.congr fun x hx => (hbody x hx).keyList,
    ⟨a, hpath.congr fun b hb => ?_⟩, ?_⟩
  · rw [(hbody x hx).isLeaf]
    exact hl.isLeaf x hx
  · rw [(hbody x hx).numKeys]
    exact hl.max x hx
  · obtain ⟨x, hx, rfl⟩ := List.mem_map.mp hb
    rw [link, (hbody x hx).pointers]
    rfl
  · rw [bindings_congr fun x hx => (hbody x hx).entries]
    exact hl.distinct

/-- Leaves in the middle are replaced, the first one staying where it is. -/
theorem Leaves.replace (hl : Leaves order h (L₁ ++ (m ++ L₂)))
    (hkeep : ∀ x ∈ L₁ ++ L₂, SameBody (h'.nodes x.2) (h.nodes x.2))
    (hleaf : ∀ x ∈ m', (h'.nodes x.2).isLeaf = true ∧ (h'.nodes x.2).numKeys ≤ order - 1)
    (hfenced : Fenced (keysOf h') m') (hlow : ∀ x ∈ m', ∃ y ∈ m, y.1 ≤ x.1)
    (hhigh : ∀ x ∈ m', ∀ y ∈ L₂, x.1 < y.1 ∧ ∀ key ∈ keysOf h' x.2, (key : WithBot ℤ) < y.1)
    (hchain : ∀ a b, Path (link order h) a (addrs m) b → Path (link order h') a (addrs m') b)
    (hdistinct : ((bindings h L₁ ++ (bindings h' m' ++ bindings h L₂)).map Prod.snd).Nodup) :
    Leaves order h' (L₁ ++ (m' ++ L₂)) := by
  have hkeep1 := fun x hx => hkeep x (List.mem_append_left L₂ hx)
  have hkeep2 := fun x hx => hkeep x (List.mem_append_right L₁ hx)
  have hother : ∀ x ∈ L₁ ++ L₂, (h'.nodes x.2).isLeaf = true ∧
      (h'.nodes x.2).numKeys ≤ order - 1 := by
    intro x hx
    have hmem : x ∈ L₁ ++ (m ++ L₂) := mem_part.mpr (Or.inr hx)
    rw [(hkeep x hx).isLeaf, (hkeep x hx).numKeys]
    exact ⟨hl.isLeaf x hmem, hl.max x hmem⟩
  have hlinks : ∀ (l : List Place), (∀ x ∈ l, SameBody (h'.nodes x.2) (h.nodes x.2)) → ∀ a b,
      Path (link order h) a (addrs l) b → Path (link order h') a (addrs l) b :=
          fun l hbody a b hpath => by
    refine hpath.congr fun c hc => ?_
    obtain ⟨x, hx, rfl⟩ := List.mem_map.mp hc
    rw [link, (hbody x hx).pointers]
    rfl
  obtain ⟨a, hpath⟩ := hl.chain
  rw [addrs_append, addrs_append, path_append] at hpath
  obtain ⟨b, hpath1, hpath⟩ := hpath
  rw [path_append] at hpath
  obtain ⟨c, hpath2, hpath3⟩ := hpath
  refine ⟨fun x hx => ((mem_part.mp hx).elim (hleaf x) (hother x)).1,
    fun x hx => ((mem_part.mp hx).elim (hleaf x) (hother x)).2,
    hl.fenced.replace hfenced (fun x hx => (hkeep x hx).keyList) hlow hhigh, ⟨a, ?_⟩, ?_⟩
  · rw [addrs_append, addrs_append, path_append]
    refine ⟨b, hlinks L₁ hkeep1 a b hpath1, ?_⟩
    rw [path_append]
    exact ⟨c, hchain b c hpath2, hlinks L₂ hkeep2 c 0 hpath3⟩
  · rw [bindings_append, bindings_append, bindings_congr fun x hx => (hkeep1 x hx).entries,
      bindings_congr fun x hx => (hkeep2 x hx).entries]
    exact hdistinct

theorem Store.rewrite_leaf (hs : Store order h root k (L₁ ++ x :: L₂) U)
    (hother : ∀ a, a ≠ x.2 → h'.nodes a = h.nodes a) (hlive : h'.live = h.live)
    (hleaf : (h'.nodes x.2).isLeaf = true ∧ (h'.nodes x.2).numKeys ≤ order - 1)
    (hparent : (h'.nodes x.2).parent = (h.nodes x.2).parent)
    (hlink : link order h' x.2 = link order h x.2) (hsorted : (keysOf h' x.2).Pairwise (· < ·))
    (hslot : ∀ key ∈ keysOf h' x.2, Slot key x L₂)
    (hdistinct : ((bindings h' (L₁ ++ x :: L₂)).map Prod.snd).Nodup)
    (howned : ∀ e ∈ bindings h' (L₁ ++ x :: L₂), e.2 ∈ h.live ∧ e.2 ∉ U ++ addrs (L₁ ++ x :: L₂)) :
    Store order h' root k (L₁ ++ x :: L₂) U := by
  have hxmem : x ∈ L₁ ++ x :: L₂ := by simp
  have hkeep : ∀ y ∈ L₁ ++ L₂, h'.nodes y.2 = h.nodes y.2 := fun y hy =>
    hother y.2 (hs.placed.ne_of_mem hy).2
  have htower : Tower order h' root k (L₁ ++ x :: L₂) U := by
    refine hs.tower.congr (fun a ha => ?_) fun a _ => ?_
    · rw [hother a fun heq => hs.placed.not_mem_upper (mem_addrs hxmem) (heq ▸ ha)]
      exact SameBody.refl _
    · by_cases hax : a = x.2
      · rw [hax, hparent]
      · rw [hother a hax]
  have hleaves : Leaves order h' (L₁ ++ ([x] ++ L₂)) := by
    refine Leaves.replace (m := [x]) hs.leaves (fun y hy => ?_) (fun y hy => ?_)
      (Fenced.singleton (fun key hmem => (hslot key hmem).1) hsorted)
        (fun y hy => ⟨y, hy, le_refl _⟩)
      (fun y hy z hz => ?_) (fun a b hpath => ⟨hpath.1, ?_⟩) ?_
    · rw [hkeep y hy]
      exact SameBody.refl _
    · rw [List.mem_singleton.mp hy]
      exact hleaf
    · rw [List.mem_singleton.mp hy]
      exact ⟨(hs.leaves.fenced.behind hz).1, fun key hmem => (hslot key hmem).2 z hz⟩
    · rw [hlink]
      exact hpath.2
    · rw [← bindings_middle hkeep [x]]
      exact hdistinct
  refine ⟨htower, hs.placed.of_live (fun a ha => hlive ▸ ha) (hlive ▸ hs.placed.zero), hleaves,
    fun e hmem => ?_⟩
  rw [hlive]
  exact howned e hmem

/-- The leaves with a tower that was changed above them. -/
theorem Leaves.store (hl : Leaves order h L) (ht : Tower order h' root' k' L U')
    (hc : Changed h h' U X U') (hnodup : (addrs L).Nodup)
    (hlive : ∀ a ∈ addrs L, a ∈ h.live ∧ a ∉ U)
    (howned : ∀ e ∈ bindings h L, e.2 ∈ h.live ∧ e.2 ∉ U ++ addrs L) :
    Store order h' root' k' L U' ∧ bindings h' L = bindings h L ∧
      ∀ x ∈ L, (h'.nodes x.2).numKeys = (h.nodes x.2).numKeys := by
  have hbody : ∀ x ∈ L, SameBody (h'.nodes x.2) (h.nodes x.2) := fun x hx =>
    hc.body x.2 (hlive x.2 (mem_addrs hx)).1 (hlive x.2 (mem_addrs hx)).2
  have hbindings : bindings h' L = bindings h L := bindings_congr fun x hx => (hbody x hx).entries
  -- nothing that was in use below is a node above
  have hupper : ∀ a ∈ h.live, a ∉ U → a ∉ U' := fun a ha haU haU' =>
    (hc.upper a haU').2.elim haU fun hnew => hnew ha
  refine ⟨⟨ht, ⟨List.nodup_append.mpr ⟨hc.nodup, hnodup, fun a ha b hb heq => ?_⟩, fun a ha => ?_,
    hc.zero⟩, hl.congr hbody, fun e he => ?_⟩, hbindings, fun x hx => (hbody x hx).numKeys⟩
  · exact hupper b (hlive b hb).1 (hlive b hb).2 (heq ▸ ha)
  · rcases List.mem_append.mp ha with ha | ha
    · exact (hc.upper a ha).1
    · exact hc.keeps a (hlive a ha).1 (hlive a ha).2
  · rw [hbindings] at he
    obtain ⟨helive, hout⟩ := howned e he
    rw [List.mem_append, not_or] at hout ⊢
    exact ⟨hc.keeps e.2 helive hout.1, hupper e.2 helive hout.1, hout.2⟩

/-- A tree stays while its nodes do and what it has stays in use. -/
theorem Store.of_nodes (hs : Store order h root k L U) (hnodes : h'.nodes = h.nodes)
    (hlive : ∀ a ∈ U ++ addrs L, a ∈ h'.live) (hrecords : ∀ e ∈ bindings h L, e.2 ∈ h'.live)
    (hzero : 0 ∉ h'.live) : Store order h' root k L U := by
  have hbody : ∀ a, SameBody (h'.nodes a) (h.nodes a) := fun a => by
    rw [hnodes]
    exact SameBody.refl _
  refine ⟨hs.tower.congr (fun a _ => hbody a) fun a _ => by rw [hnodes],
    ⟨hs.placed.nodup, hlive, hzero⟩, hs.leaves.congr fun x _ => hbody x.2, fun e he => ?_⟩
  rw [bindings_congr fun x _ => (hbody x.2).entries] at he
  exact ⟨hrecords e he, (hs.owned e he).2⟩

end Facts

section Search

variable {order root k : ℕ} {h : Heap} {L L₁ L₂ : List Place} {U : List ℕ} {x : Place} {key : ℤ}

theorem childIndex_slot (y : Place) (hrise : Rising (rowOf h y)) (hy : y.1 ≤ key) :
    ∃ r₁ x r₂, rowOf h y = r₁ ++ x :: r₂ ∧ Slot key x r₂ ∧
      (h.nodes y.2).pointers (childIndex (h.nodes y.2) key) = x.2 := by
  have hlen := Node.length_row_lists (h.nodes y.2)
  have hsorted := hrise.keys hlen
  generalize hk₁ : (h.nodes y.2).keyList.takeWhile (fun k => decide (k ≤ key)) = k₁
  generalize hk₂ : (h.nodes y.2).keyList.dropWhile (fun k => decide (k ≤ key)) = k₂
  have hk : (h.nodes y.2).keyList = k₁ ++ k₂ := by
    rw [← hk₁, ← hk₂, List.takeWhile_append_dropWhile]
  have h1 : ∀ k ∈ k₁, k ≤ key := fun k hmem => by
    rw [← hk₁] at hmem
    have hpass := List.mem_takeWhile_imp hmem
    exact of_decide_eq_true hpass
  have hhead : ∀ k ∈ k₂.head?, ¬ k ≤ key := fun k hmem => by
    have hnot := List.head?_dropWhile_not (fun k => decide (k ≤ key)) (h.nodes y.2).keyList
    rw [hk₂, Option.mem_def.mp hmem] at hnot
    exact of_decide_eq_false hnot
  -- behind the first key that is above, all are above
  have h2 : ∀ k ∈ k₂, key < k := fun k hmem => by
    cases k₂ with
    | nil => exact absurd hmem List.not_mem_nil
    | cons k' k₂ =>
      have hfirst : key < k' := lt_of_not_ge (hhead k' rfl)
      rw [hk] at hsorted
      rcases List.mem_cons.mp hmem with rfl | hmem
      · exact hfirst
      · exact hfirst.trans ((List.pairwise_cons.mp (List.pairwise_append.mp hsorted).2.1).1 k hmem)
  have hindex : childIndex (h.nodes y.2) key = k₁.length := by
    have hnum := congrArg List.length hk
    rw [Node.length_keyList, List.length_append] at hnum
    refine scan_slice (q := fun k => decide (k ≤ key)) hk hnum.ge (fun k hmem => ?_)
      (fun k hmem => ?_)
      fun hnil => ?_
    · exact decide_eq_true (h1 k hmem)
    · exact decide_eq_false (hhead k hmem)
    · rw [hnum, hnil]
      rfl
  rw [hk] at hlen
  obtain ⟨r₁, x, r₂, hrow, hchild, hslot⟩ := exists_slot_row hlen hy h1 h2
  refine ⟨r₁, x, r₂, by rw [rowOf, hk, hrow], hslot, ?_⟩
  obtain ⟨hlt, hget⟩ := List.getElem?_eq_some_iff.mp hchild
  have hsplit : slice (h.nodes y.2).pointers 0 ((h.nodes y.2).numKeys + 1) =
      (h.nodes y.2).children.take k₁.length ++ x.2 :: (h.nodes y.2).children.drop
          (k₁.length + 1) := by
    rw [← hget, ← List.drop_eq_getElem_cons hlt, List.take_append_drop]
    rfl
  obtain ⟨-, -, hcell, -⟩ := slice_eq_append_cons hsplit
  rw [List.length_take, Nat.min_eq_left hlt.le, Nat.zero_add] at hcell
  rw [hindex, hcell]

theorem Tower.descend (ht : Tower order h root k L U) (hrise : Rising L) (key : ℤ) :
    ∃ L₁ x L₂, L = L₁ ++ x :: L₂ ∧ Slot key x L₂ ∧
      ∀ fuel, findLeafLoop h key (fuel + k) root = findLeafLoop h key fuel x.2 := by
  induction k generalizing L U with
  | zero =>
    obtain ⟨rfl, -, -⟩ := ht
    exact ⟨[], (⊥, root), [], rfl, ⟨bot_le, fun y hy => absurd hy List.not_mem_nil⟩, fun _ => rfl⟩
  | succ k ih =>
    obtain ⟨P, V, rfl, -, hinner, -, hup⟩ := ht
    obtain ⟨P₁, y, P₂, rfl, hslot, hloop⟩ := ih hup (hrise.above fun w _ => exists_rowOf_cons h w)
    rw [List.flatMap_append, List.flatMap_cons] at hrise
    obtain ⟨hriseRow, hriseBehind, -⟩ :=
      List.pairwise_append.mp (List.pairwise_append.mp hrise).2.1
    obtain ⟨r₁, x, r₂, hrow, hx, hchild⟩ := childIndex_slot y hriseRow hslot.1
    refine ⟨P₁.flatMap (rowOf h) ++ r₁, x, r₂ ++ P₂.flatMap (rowOf h), ?_, ⟨hx.1, fun w hw => ?_⟩,
      fun fuel => ?_⟩
    · rw [List.flatMap_append, List.flatMap_cons, hrow]
      simp only [List.append_assoc, List.cons_append]
    · rcases List.mem_append.mp hw with hw | hw
      · exact hx.2 w hw
      · -- the fences of a later row are not below that of its node
        obtain ⟨v, hv, hwv⟩ := List.mem_flatMap.mp hw
        obtain ⟨c, s, hc⟩ := exists_rowOf_cons h v
        have hpart : Rising (rowOf h v) := (List.pairwise_flatMap.mp hriseBehind).1 v hv
        rw [hc] at hwv hpart
        rcases List.mem_cons.mp hwv with rfl | hwv
        · exact hslot.2 v hv
        · exact (hslot.2 v hv).trans ((List.pairwise_cons.mp hpart).1 w hwv)
    · have hstep := hloop (fuel + 1)
      rw [Nat.add_right_comm, Nat.add_assoc] at hstep
      rw [hstep, findLeafLoop, (hinner y (by simp)).isLeaf, if_neg Bool.false_ne_true, hchild]

theorem Store.root_ne_zero (hs : Store order h root k L U) : root ≠ 0 :=
  hs.placed.ne_zero hs.tower.root_mem

theorem Store.findLeaf_spec (hs : Store order h root k L U) (key : ℤ) :
    ∃ L₁ x L₂, L = L₁ ++ x :: L₂ ∧ Slot key x L₂ ∧ findLeaf h root key = some x.2 := by
  obtain ⟨L₁, x, L₂, rfl, hslot, hloop⟩ := hs.tower.descend hs.leaves.fenced.rising key
  refine ⟨L₁, x, L₂, rfl, hslot, ?_⟩
  have hlt := hs.tower.lt_card hs.placed
  rw [findLeaf, if_neg hs.root_ne_zero,
    show h.live.card + 1 = h.live.card - k + 1 + k by omega, hloop, findLeafLoop,
    hs.leaves.isLeaf x (by simp), if_pos rfl]

/-- The record found is that of the key, or `NULL`. -/
theorem Store.find_place (hs : Store order h root k L U) (key : ℤ) :
    ∃ L₁ x L₂ e₁ e₂, L = L₁ ++ x :: L₂ ∧ Slot key x L₂ ∧ (∀ e ∈ e₁, e.1 < key) ∧
      (∀ e ∈ e₂, key < e.1) ∧ findLeaf h root key = some x.2 ∧
      ((h.nodes x.2).entries = e₁ ++ e₂ ∧ find h root key = some (0, x.2) ∨
        ∃ r, (h.nodes x.2).entries = e₁ ++ (key, r) :: e₂ ∧ find h root key = some (r, x.2)) := by
  obtain ⟨L₁, x, L₂, rfl, hslot, hleaf⟩ := hs.findLeaf_spec key
  obtain ⟨e₁, e₂, h1, h2, hes⟩ := exists_place (hs.leaves.sorted_entries (x := x) (by simp)) key
  refine ⟨L₁, x, L₂, e₁, e₂, rfl, hslot, h1, h2, hleaf, ?_⟩
  have hpass : ∀ e ∈ e₁, (e.1 != key) = true := fun e he => bne_iff_ne.mpr (h1 e he).ne
  rw [BPlusTree.find, if_neg hs.root_ne_zero, hleaf]
  dsimp only [Option.bind_eq_bind, Option.bind_some]
  rcases hes with hes | ⟨r, hes⟩
  · left
    have hscan : scan (fun i => (h.nodes x.2).keys i != key) (h.nodes x.2).numKeys 0 =
        (e₁ ++ e₂).length := by
      refine scan_entries (q := (· != key)) (hes.trans (List.append_nil _).symm) (le_refl _)
        (fun e he => ?_) (fun e he => ?_) fun _ => rfl
      · rcases List.mem_append.mp he with he | he
        · exact hpass e he
        · exact bne_iff_ne.mpr (h2 e he).ne'
      · exact absurd he (by simp)
    rw [hscan, ← hes, Node.length_entries, if_pos rfl]
    exact ⟨rfl, rfl⟩
  · right
    have hscan : scan (fun i => (h.nodes x.2).keys i != key) (h.nodes x.2).numKeys 0 =
        e₁.length := by
      refine scan_entries (q := (· != key)) hes (le_refl _) hpass (fun e he => ?_) fun hnil => ?_
      · obtain rfl := Option.some.inj he
        exact bne_self_eq_false' _
      · exact absurd hnil (List.cons_ne_nil _ _)
    have hlen := congrArg List.length hes
    rw [Node.length_entries, List.length_append, List.length_cons] at hlen
    obtain ⟨-, -, hcell, -⟩ := slice_eq_append_cons (slice_pointers_of_entries hes)
    rw [List.length_map, Nat.zero_add] at hcell
    rw [hscan, if_neg (by omega), hcell]
    exact ⟨r, hes, rfl⟩

theorem Leaves.mem_slot (hl : Leaves order h (L₁ ++ x :: L₂)) (hslot : Slot key x L₂) {r : ℕ}
    (hmem : (key, r) ∈ bindings h (L₁ ++ x :: L₂)) : ∃ r', (key, r') ∈ (h.nodes x.2).entries := by
  obtain ⟨y, hy, he⟩ := mem_bindings.mp hmem
  have hkey : key ∈ keysOf h x.2 := hl.fenced.mem_of_slot hslot hy (mem_keysOf he)
  rw [keysOf_eq_map] at hkey
  obtain ⟨⟨key', r'⟩, he', rfl⟩ := List.mem_map.mp hkey
  exact ⟨r', he'⟩

/-- The search finds the record of the key if the tree has one. -/
theorem Store.find_spec (hs : Store order h root k L U) (key : ℤ) :
    ∃ leaf, leaf ≠ 0 ∧ (find h root key = some (0, leaf) ∧ (∀ r, (key, r) ∉ bindings h L) ∨
      ∃ r, find h root key = some (r, leaf) ∧ (key, r) ∈ bindings h L) := by
  obtain ⟨L₁, x, L₂, e₁, e₂, rfl, hslot, h1, h2, -, hfind⟩ := hs.find_place key
  refine ⟨x.2, hs.placed.ne_zero (List.mem_append_right _ (mem_addrs (by simp))), ?_⟩
  rcases hfind with ⟨hes, hfind⟩ | ⟨r, hes, hfind⟩
  · refine Or.inl ⟨hfind, fun r hmem => ?_⟩
    obtain ⟨r', hmem⟩ := hs.leaves.mem_slot hslot hmem
    rw [hes] at hmem
    rcases List.mem_append.mp hmem with hmem | hmem
    · exact lt_irrefl key (h1 _ hmem)
    · exact lt_irrefl key (h2 _ hmem)
  · refine Or.inr ⟨r, hfind, mem_bindings.mpr ⟨x, by simp, ?_⟩⟩
    rw [hes]
    exact List.mem_append_right _ List.mem_cons_self

end Search

/-- The tree at `root` has the bindings `B`. -/
def Holds (order : ℕ) (h : Heap) (root : ℕ) (B : List (ℤ × ℕ)) : Prop :=
  root = 0 ∧ 0 ∉ h.live ∧ B = [] ∨
    ∃ k L U, Store order h root k L U ∧ Filled order h k L ∧ bindings h L = B

section Tree

variable {order root : ℕ} {h : Heap} {B : List (ℤ × ℕ)} {e e' : ℤ × ℕ}

theorem Holds.unique (hb : Holds order h root B) (he : e ∈ B) (he' : e' ∈ B) (hkey : e.1 = e'.1) :
    e = e' := by
  obtain ⟨-, -, rfl⟩ | ⟨k, L, U, hs, -, rfl⟩ := hb
  · exact absurd he List.not_mem_nil
  · exact bindings_unique hs.leaves.fenced he he' hkey

theorem Holds.distinct (hb : Holds order h root B) : (B.map Prod.snd).Nodup := by
  obtain ⟨-, -, rfl⟩ | ⟨k, L, U, hs, -, rfl⟩ := hb
  · exact List.nodup_nil
  · exact hs.leaves.distinct

/-- Records are in use. -/
theorem Holds.live (hb : Holds order h root B) (he : e ∈ B) : e.2 ∈ h.live ∧ e.2 ≠ 0 := by
  obtain ⟨-, -, rfl⟩ | ⟨k, L, U, hs, -, rfl⟩ := hb
  · exact absurd he List.not_mem_nil
  · exact ⟨(hs.owned e he).1, fun h0 => hs.placed.zero (h0 ▸ (hs.owned e he).1)⟩

theorem Holds.root_eq_zero_iff (horder : 3 ≤ order) (hb : Holds order h root B) :
    root = 0 ↔ B = [] := by
  obtain ⟨hroot, -, rfl⟩ | ⟨k, L, U, hs, hfill, rfl⟩ := hb
  · exact iff_of_true hroot rfl
  · refine iff_of_false hs.root_ne_zero fun hnil => ?_
    obtain ⟨x, L', rfl⟩ := List.exists_cons_of_ne_nil hs.tower.ne_nil
    rw [bindings_cons, List.append_eq_nil_iff] at hnil
    have hmin := hfill x List.mem_cons_self
    rw [← Node.length_entries, hnil.1, List.length_nil] at hmin
    unfold minLeaf cut at hmin
    split_ifs at hmin <;> omega

theorem Holds.find_spec (hb : Holds order h root B) (key : ℤ) :
    ∃ leaf, find h root key = some (0, leaf) ∧ (∀ r, (key, r) ∉ B) ∨
      ∃ r, find h root key = some (r, leaf) ∧ (key, r) ∈ B ∧ r ≠ 0 ∧ leaf ≠ 0 := by
  have hlive : ∀ e ∈ B, e.2 ∈ h.live ∧ e.2 ≠ 0 := fun e he => hb.live he
  obtain ⟨rfl, -, rfl⟩ | ⟨k, L, U, hs, -, rfl⟩ := hb
  · exact ⟨0, Or.inl ⟨if_pos rfl, fun r => List.not_mem_nil⟩⟩
  · obtain ⟨leaf, hleaf, hfound | ⟨r, hfound, hmem⟩⟩ := hs.find_spec key
    · exact ⟨leaf, Or.inl hfound⟩
    · exact ⟨leaf, Or.inr ⟨r, hfound, hmem, (hlive (key, r) hmem).2, hleaf⟩⟩

end Tree

end Unos.BPlusTree
