import Mathlib.Data.Set.Card
import Unos.BPlusTree.Dictionary
import Unos.Library.Search

namespace Unos.BPlusTree

open Unos.Arrays Unos.Fences Unos.Links Unos.Runs Unos.Search

structure Returned where
  keys : ℕ → ℤ
  pointers : ℕ → ℕ
  numFound : ℕ

def Returned.put (out : Returned) (e : ℤ × ℕ) : Returned where
  keys := Function.update out.keys out.numFound e.1
  pointers := Function.update out.pointers out.numFound e.2
  numFound := out.numFound + 1

def copyKeys (nd : Node) (keyEnd : ℤ) : ℕ → ℕ → Returned → Returned
  | 0, _, out => out
  | n + 1, i, out =>
    if nd.keys i ≤ keyEnd then copyKeys nd keyEnd n (i + 1) (out.put (nd.keys i, nd.pointers i))
    else out

def copyLeaves (order : ℕ) (h : Heap) (keyEnd : ℤ) : ℕ → ℕ → ℕ → Returned → Option Returned
  | 0, _, _, _ => none
  | fuel + 1, n, i, out =>
    if n = 0 then some out
    else
      let nd := h.nodes n
      copyLeaves order h keyEnd fuel (nd.pointers (order - 1)) 0
        (copyKeys nd keyEnd (nd.numKeys - i) i out)

def findRange (order : ℕ) (h : Heap) (root : ℕ) (keyStart keyEnd : ℤ) (returnedKeys : ℕ → ℤ)
    (returnedPointers : ℕ → ℕ) : Option Returned := do
  let out : Returned := ⟨returnedKeys, returnedPointers, 0⟩
  let n ← findLeaf h root keyStart
  if n = 0 then some out
  else
    let nd := h.nodes n
    let i := scan (fun i => decide (nd.keys i < keyStart)) nd.numKeys 0
    if i = nd.numKeys then some out
    else copyLeaves order h keyEnd (h.live.card + 1) n i out

/-- What a query is to return: the keys of the dictionary in the range, in order and with their
records. Nothing else is written. -/
structure RangeExact (h : Heap) (root : ℕ) (d : ℤ → Option ℤ) (keyStart keyEnd : ℤ)
    (returnedKeys : ℕ → ℤ) (returnedPointers : ℕ → ℕ) (out : Returned) : Prop where
  count : {key | d key ≠ none ∧ keyStart ≤ key ∧ key ≤ keyEnd}.ncard = out.numFound
  increasing : ∀ i j, i < j → j < out.numFound → out.keys i < out.keys j
  exact : ∀ key, (∃ i < out.numFound, out.keys i = key) ↔
    d key ≠ none ∧ keyStart ≤ key ∧ key ≤ keyEnd
  records : ∀ i < out.numFound, out.pointers i ≠ 0 ∧
    ∃ leaf, find h root (out.keys i) = some (out.pointers i, leaf)
  rest : ∀ i, out.numFound ≤ i → out.keys i = returnedKeys i ∧ out.pointers i = returnedPointers i

section Loops

variable {order root k : ℕ} {h : Heap} {L L₁ L₂ : List Place} {U : List ℕ} {x : Place}
  {es e₁ e₂ : List (ℤ × ℕ)} {keyStart keyEnd : ℤ} {out : Returned} {nd : Node}

@[simp] theorem Returned.put_numFound (out : Returned) (e : ℤ × ℕ) :
    (out.put e).numFound = out.numFound + 1 := rfl

def Returned.putAll (out : Returned) (es : List (ℤ × ℕ)) : Returned := es.foldl Returned.put out

theorem Returned.putAll_append (out : Returned) (e₁ e₂ : List (ℤ × ℕ)) :
    out.putAll (e₁ ++ e₂) = (out.putAll e₁).putAll e₂ := List.foldl_append

theorem Returned.putAll_numFound (out : Returned) (es : List (ℤ × ℕ)) :
    (out.putAll es).numFound = out.numFound + es.length := by
  induction es generalizing out with
  | nil => rfl
  | cons e es ih =>
    have hrest := ih (out.put e)
    rw [List.length_cons]
    rw [Returned.put_numFound] at hrest
    exact hrest.trans (by omega)

theorem Returned.putAll_of_outside (out : Returned) (es : List (ℤ × ℕ)) {j : ℕ}
    (hj : j < out.numFound ∨ out.numFound + es.length ≤ j) :
    (out.putAll es).keys j = out.keys j ∧ (out.putAll es).pointers j = out.pointers j := by
  induction es generalizing out with
  | nil => exact ⟨rfl, rfl⟩
  | cons e es ih =>
    rw [List.length_cons] at hj
    have hne : j ≠ out.numFound := by omega
    obtain ⟨hkeys, hpointers⟩ := ih (out.put e) (by rw [Returned.put_numFound]; omega)
    exact ⟨hkeys.trans (Function.update_of_ne hne _ _),
      hpointers.trans (Function.update_of_ne hne _ _)⟩

theorem Returned.putAll_cell (out : Returned) (es : List (ℤ × ℕ)) {j : ℕ} (hj : j < es.length) :
    (out.putAll es).keys (out.numFound + j) = es[j].1 ∧
      (out.putAll es).pointers (out.numFound + j) = es[j].2 := by
  induction es generalizing out j with
  | nil => exact absurd hj (Nat.not_lt_zero j)
  | cons e es ih =>
    cases j with
    | zero =>
      obtain ⟨hkeys, hpointers⟩ := (out.put e).putAll_of_outside es (j := out.numFound)
        (Or.inl (Nat.lt_succ_self _))
      exact ⟨hkeys.trans (Function.update_self _ _ _), hpointers.trans (Function.update_self _ _ _)⟩
    | succ j =>
      have hrest := ih (out.put e) (j := j) (Nat.lt_of_succ_lt_succ hj)
      have hplace : (out.put e).numFound + j = out.numFound + (j + 1) := by
        rw [Returned.put_numFound]
        omega
      rw [hplace] at hrest
      exact hrest

def upTo (keyEnd : ℤ) (e : ℤ × ℕ) : Bool := decide (e.1 ≤ keyEnd)

theorem copyKeys_eq (nd : Node) (keyEnd : ℤ) (n i : ℕ) (out : Returned) :
    copyKeys nd keyEnd n i out =
      out.putAll (((slice nd.keys i n).zip (slice nd.pointers i n)).takeWhile (upTo keyEnd)) := by
  induction n generalizing i out with
  | zero => rfl
  | succ n ih =>
    rw [copyKeys, slice, slice, List.zip_cons_cons]
    by_cases hle : nd.keys i ≤ keyEnd
    · rw [if_pos hle, ih, List.takeWhile_cons_of_pos (by simp [upTo, hle])]
      rfl
    · rw [if_neg hle, List.takeWhile_cons_of_neg (by simp [upTo, hle])]
      rfl

theorem copyKeys_entries (he : nd.entries = e₁ ++ e₂)
    (hsorted : e₂.Pairwise fun e e' => e.1 < e'.1) (keyEnd : ℤ) (out : Returned) :
    copyKeys nd keyEnd (nd.numKeys - e₁.length) e₁.length out =
      out.putAll (e₂.filter (upTo keyEnd)) := by
  obtain ⟨-, -, hkeys⟩ := slice_eq_append (slice_keys_of_entries he)
  obtain ⟨-, -, hpointers⟩ := slice_eq_append (slice_pointers_of_entries he)
  have hlen := congrArg List.length he
  rw [Node.length_entries, List.length_append] at hlen
  simp only [List.length_map, Nat.zero_add] at hkeys hpointers
  have hnum : nd.numKeys - e₁.length = e₂.length := by omega
  rw [hnum, copyKeys_eq, hkeys, hpointers, ← List.zip_of_prod rfl rfl, takeWhile_eq_filter]
  refine hsorted.imp fun hlt hb => ?_
  exact decide_eq_true (hlt.le.trans (of_decide_eq_true hb))

theorem copyLeaves_eq (hsorted : ∀ x ∈ L, (h.nodes x.2).entries.Pairwise fun e e' => e.1 < e'.1)
    (hne : ∀ x ∈ L, x.2 ≠ 0) {n fuel : ℕ} (hpath : Path (link order h) n (addrs L) 0)
    (hfuel : L.length < fuel) (keyEnd : ℤ) (out : Returned) :
    copyLeaves order h keyEnd fuel n 0 out =
      some (out.putAll ((bindings h L).filter (upTo keyEnd))) := by
  induction L generalizing n fuel out with
  | nil =>
    obtain rfl : n = 0 := hpath
    cases fuel with
    | zero => exact absurd hfuel (Nat.not_lt_zero _)
    | succ fuel => rfl
  | cons x L ih =>
    obtain ⟨hn, hpath⟩ := hpath
    cases fuel with
    | zero => exact absurd hfuel (Nat.not_lt_zero _)
    | succ fuel =>
      have hparts : (h.nodes x.2).entries = [] ++ (h.nodes x.2).entries := rfl
      have hleaf := copyKeys_entries hparts (hsorted x List.mem_cons_self) keyEnd out
      rw [List.length_nil] at hleaf
      rw [copyLeaves, hn, if_neg (hne x List.mem_cons_self), bindings_cons, List.filter_append,
        Returned.putAll_append]
      dsimp only
      rw [hleaf]
      exact ih (fun y hy => hsorted y (List.mem_cons_of_mem x hy))
        (fun y hy => hne y (List.mem_cons_of_mem x hy)) hpath (Nat.lt_of_succ_lt_succ hfuel) _

theorem exists_start {es : List (ℤ × ℕ)} (hsorted : es.Pairwise fun e e' => e.1 < e'.1)
    (keyStart : ℤ) : ∃ e₁ e₂, es = e₁ ++ e₂ ∧ (∀ e ∈ e₁, e.1 < keyStart) ∧
      ∀ e ∈ e₂, keyStart ≤ e.1 := by
  obtain ⟨e₁, e₂, h1, h2, hes | ⟨r, hes⟩⟩ := exists_place hsorted keyStart
  · exact ⟨e₁, e₂, hes, h1, fun e he => (h2 e he).le⟩
  · refine ⟨e₁, (keyStart, r) :: e₂, hes, h1, fun e he => ?_⟩
    rcases List.mem_cons.mp he with rfl | he
    · exact le_refl keyStart
    · exact (h2 e he).le

def inRange (keyStart keyEnd : ℤ) (e : ℤ × ℕ) : Bool := decide (keyStart ≤ e.1 ∧ e.1 ≤ keyEnd)

/-- The entries in the range are some of the leaf with the slot of its start, and some of the leaves
behind it. -/
theorem Leaves.filter_inRange (hl : Leaves order h (L₁ ++ x :: L₂)) (hslot : Slot keyStart x L₂)
    (hes : (h.nodes x.2).entries = e₁ ++ e₂) (h1 : ∀ e ∈ e₁, e.1 < keyStart)
    (h2 : ∀ e ∈ e₂, keyStart ≤ e.1) (keyEnd : ℤ) :
    (bindings h (L₁ ++ x :: L₂)).filter (inRange keyStart keyEnd) =
      e₂.filter (upTo keyEnd) ++ (bindings h L₂).filter (upTo keyEnd) := by
  have hbelow : ∀ e : ℤ × ℕ, e.1 < keyStart → ¬ inRange keyStart keyEnd e = true := fun e he hin =>
    he.not_ge (of_decide_eq_true hin).1
  have habove : ∀ e : ℤ × ℕ, keyStart ≤ e.1 → inRange keyStart keyEnd e = upTo keyEnd e :=
    fun e he => decide_eq_decide.mpr (and_iff_right he)
  -- the keys of the leaves in front are below the fence
  have hfront : ∀ e ∈ bindings h L₁, e.1 < keyStart := fun e he => by
    obtain ⟨y, hy, he⟩ := mem_bindings.mp he
    have hapart := (List.pairwise_append.mp hl.fenced.apart).2.2 y hy x List.mem_cons_self
    exact WithBot.coe_lt_coe.mp ((hapart.2 e.1 (mem_keysOf he)).trans_le hslot.1)
  have hbehind : ∀ e ∈ bindings h L₂, keyStart ≤ e.1 := fun e he => by
    obtain ⟨y, hy, he⟩ := mem_bindings.mp he
    have hlow := hl.fenced.low y (by simp [hy]) e.1 (mem_keysOf he)
    exact (WithBot.coe_lt_coe.mp ((hslot.2 y hy).trans_le hlow)).le
  have hnone : (bindings h L₁).filter (inRange keyStart keyEnd) = [] :=
    List.filter_eq_nil_iff.mpr fun e he => hbelow e (hfront e he)
  have hnone1 : e₁.filter (inRange keyStart keyEnd) = [] :=
    List.filter_eq_nil_iff.mpr fun e he => hbelow e (h1 e he)
  rw [bindings_append, bindings_cons, hes, List.filter_append, List.filter_append,
    List.filter_append, hnone, hnone1, List.nil_append, List.nil_append]
  congr 1
  · exact List.filter_congr fun e he => habove e (h2 e he)
  · exact List.filter_congr fun e he => habove e (hbehind e he)

theorem Store.findRange_eq (hs : Store order h root k L U) (keyStart keyEnd : ℤ)
    (returnedKeys : ℕ → ℤ) (returnedPointers : ℕ → ℕ) :
    ∃ leaf, findLeaf h root keyStart = some leaf ∧
      findRange order h root keyStart keyEnd returnedKeys returnedPointers =
        some (Returned.putAll ⟨returnedKeys, returnedPointers, 0⟩
          (if ∃ key ∈ keysOf h leaf, keyStart ≤ key then
            (bindings h L).filter (inRange keyStart keyEnd) else [])) := by
  obtain ⟨L₁, x, L₂, rfl, hslot, hleaf⟩ := hs.findLeaf_spec keyStart
  have hx : x ∈ L₁ ++ x :: L₂ := by simp
  have hne : ∀ y ∈ L₁ ++ x :: L₂, y.2 ≠ 0 := fun y hy =>
    hs.placed.ne_zero (List.mem_append_right _ (mem_addrs hy))
  have hsorted := hs.leaves.sorted_entries hx
  obtain ⟨e₁, e₂, hes, h1, h2⟩ := exists_start hsorted keyStart
  refine ⟨x.2, hleaf, ?_⟩
  have hlen := congrArg List.length hes
  rw [Node.length_entries, List.length_append] at hlen
  have hscan : scan (fun i => decide ((h.nodes x.2).keys i < keyStart)) (h.nodes x.2).numKeys 0 =
      e₁.length := by
    refine scan_entries (q := fun k => decide (k < keyStart)) hes (le_refl _) (fun e he => ?_)
      (fun e he => ?_) fun _ => rfl
    · exact decide_eq_true (h1 e he)
    · exact decide_eq_false (h2 e (List.mem_of_mem_head? he)).not_gt
  rw [findRange, hleaf]
  dsimp only [Option.bind_eq_bind, Option.bind_some]
  rw [if_neg (hne x hx), hscan]
  cases e₂ with
  | nil =>
    have hall : ¬ ∃ key ∈ keysOf h x.2, keyStart ≤ key := by
      rintro ⟨key, hkey, hle⟩
      rw [keysOf_eq_map, hes, List.append_nil] at hkey
      obtain ⟨e, he, rfl⟩ := List.mem_map.mp hkey
      exact (h1 e he).not_ge hle
    rw [List.length_nil, Nat.add_zero] at hlen
    rw [if_pos hlen.symm, if_neg hall]
    rfl
  | cons e e₂ =>
    have hsome : ∃ key ∈ keysOf h x.2, keyStart ≤ key := by
      refine ⟨e.1, ?_, h2 e List.mem_cons_self⟩
      rw [keysOf_eq_map, hes]
      exact List.mem_map_of_mem (by simp)
    rw [List.length_cons] at hlen
    rw [if_neg (by omega), if_pos hsome, hs.leaves.filter_inRange hslot hes h1 h2 keyEnd,
      Returned.putAll_append]
    obtain ⟨a, hpath⟩ := hs.leaves.chain
    have hcard := Finset.card_le_card (s := (addrs (L₁ ++ x :: L₂)).toFinset) (t := h.live)
      fun b hb => hs.placed.live b (List.mem_append_right _ (List.mem_toFinset.mp hb))
    rw [List.toFinset_card_of_nodup hs.placed.nodup_addrs, addrs, List.length_map,
      List.length_append, List.length_cons] at hcard
    rw [addrs_append, addrs, addrs, List.map_cons, path_append_cons] at hpath
    have hsorted2 : (e :: e₂).Pairwise fun e e' => e.1 < e'.1 := by
      rw [hes] at hsorted
      exact (List.pairwise_append.mp hsorted).2.1
    rw [copyLeaves, if_neg (hne x hx)]
    dsimp only
    rw [copyKeys_entries hes hsorted2]
    refine copyLeaves_eq (fun y hy => hs.leaves.sorted_entries (by simp [hy]))
      (fun y hy => hne y (by simp [hy])) hpath.2 (by omega) keyEnd _

end Loops

section Results

variable {order root : ℕ} {h : Heap} {B : List (ℤ × ℕ)} {d : ℤ → Option ℤ}

theorem Holds.findRange_eq (hb : Holds order h root B) (keyStart keyEnd : ℤ)
    (returnedKeys : ℕ → ℤ) (returnedPointers : ℕ → ℕ) :
    ∃ leaf, findLeaf h root keyStart = some leaf ∧
      findRange order h root keyStart keyEnd returnedKeys returnedPointers =
        some (Returned.putAll ⟨returnedKeys, returnedPointers, 0⟩
          (if ∃ key ∈ keysOf h leaf, keyStart ≤ key then B.filter (inRange keyStart keyEnd)
            else [])) := by
  obtain ⟨rfl, -, rfl⟩ | ⟨k, L, U, hs, -, rfl⟩ := hb
  · have hleaf : findLeaf h 0 keyStart = some 0 := if_pos rfl
    refine ⟨0, hleaf, ?_⟩
    rw [findRange, hleaf, List.filter_nil, ite_self]
    rfl
  · exact hs.findRange_eq keyStart keyEnd returnedKeys returnedPointers

theorem Holds.sorted (hb : Holds order h root B) : B.Pairwise fun e e' => e.1 < e'.1 := by
  obtain ⟨-, -, rfl⟩ | ⟨k, L, U, hs, -, rfl⟩ := hb
  · exact List.Pairwise.nil
  · exact sorted_bindings hs.leaves.fenced

theorem Holds.find_eq (hb : Holds order h root B) {e : ℤ × ℕ} (he : e ∈ B) :
    ∃ leaf, find h root e.1 = some (e.2, leaf) := by
  obtain ⟨leaf, ⟨-, hnone⟩ | ⟨r, hfind, hmem, -, -⟩⟩ := hb.find_spec e.1
  · exact absurd he (hnone e.2)
  · have heq := hb.unique he hmem rfl
    rw [heq]
    exact ⟨leaf, hfind⟩

theorem Holds.rangeExact (hb : Holds order h root B) (hd : Represents h B d) (keyStart keyEnd : ℤ)
    (returnedKeys : ℕ → ℤ) (returnedPointers : ℕ → ℕ) :
    RangeExact h root d keyStart keyEnd returnedKeys returnedPointers
      (Returned.putAll ⟨returnedKeys, returnedPointers, 0⟩
      (B.filter (inRange keyStart keyEnd))) := by
  generalize hes : B.filter (inRange keyStart keyEnd) = es
  have hmem : ∀ e, e ∈ es ↔ e ∈ B ∧ keyStart ≤ e.1 ∧ e.1 ≤ keyEnd := fun e => by
    rw [← hes, List.mem_filter, inRange, decide_eq_true_iff]
  have hsorted : es.Pairwise fun e e' => e.1 < e'.1 := by
    rw [← hes]
    exact hb.sorted.filter _
  have hkeys : ∀ key, (∃ e ∈ es, e.1 = key) ↔ d key ≠ none ∧ keyStart ≤ key ∧ key ≤ keyEnd := by
    intro key
    rw [Ne, hd.eq_none_iff]
    push Not
    constructor
    · rintro ⟨e, he, rfl⟩
      obtain ⟨heB, hrange⟩ := (hmem e).mp he
      exact ⟨⟨e.2, heB⟩, hrange⟩
    · rintro ⟨⟨r, hr⟩, hrange⟩
      exact ⟨(key, r), (hmem _).mpr ⟨hr, hrange⟩, rfl⟩
  generalize hout : Returned.putAll ⟨returnedKeys, returnedPointers, 0⟩ es = out
  have hnum : out.numFound = es.length := by
    rw [← hout, Returned.putAll_numFound, Nat.zero_add]
  have hcell : ∀ j (hj : j < es.length), out.keys j = es[j].1 ∧ out.pointers j = es[j].2 := by
    intro j hj
    have hput := Returned.putAll_cell ⟨returnedKeys, returnedPointers, 0⟩ es hj
    rw [hout, Nat.zero_add] at hput
    exact hput
  refine ⟨?_, fun i j hij hj => ?_, fun key => ?_, fun i hi => ?_, fun i hi => ?_⟩
  · have hset : {key | d key ≠ none ∧ keyStart ≤ key ∧ key ≤ keyEnd} =
        ((es.map Prod.fst).toFinset : Set ℤ) := by
      ext key
      rw [Set.mem_ofPred_eq, ← hkeys, Finset.mem_coe, List.mem_toFinset, List.mem_map]
    have hnodup : (es.map Prod.fst).Nodup :=
      List.pairwise_map.mpr (hsorted.imp fun hlt => hlt.ne)
    rw [hset, Set.ncard_coe_finset, List.toFinset_card_of_nodup hnodup, List.length_map, hnum]
  · rw [hnum] at hj
    rw [(hcell i (hij.trans hj)).1, (hcell j hj).1]
    exact List.pairwise_iff_getElem.mp hsorted i j (hij.trans hj) hj hij
  · rw [← hkeys key, hnum]
    constructor
    · rintro ⟨i, hi, hkey⟩
      rw [(hcell i hi).1] at hkey
      exact ⟨es[i], List.getElem_mem hi, hkey⟩
    · rintro ⟨e, he, rfl⟩
      obtain ⟨i, hi, rfl⟩ := List.getElem_of_mem he
      exact ⟨i, hi, (hcell i hi).1⟩
  · rw [hnum] at hi
    have heB := ((hmem es[i]).mp (List.getElem_mem hi)).1
    rw [(hcell i hi).1, (hcell i hi).2]
    exact ⟨(hb.live heB).2, hb.find_eq heB⟩
  · rw [hnum] at hi
    rw [← hout]
    exact Returned.putAll_of_outside _ es (Or.inr (by rwa [Nat.zero_add]))

/-- After every sequence of calls a query ends, and it is exact unless the leaf that the search for
the start of the range comes to has only smaller keys while there are keys in the range. -/
theorem findRange_exact_iff (M : Malloc) (horder : 3 ≤ order) (nodes : ℕ → Node) (records : ℕ → ℤ)
    (os : List Op) (keyStart keyEnd : ℤ) (returnedKeys : ℕ → ℤ) (returnedPointers : ℕ → ℕ) :
    ∃ t leaf out, run (step M order) (start nodes records) os = some t ∧
      findLeaf t.1 t.2 keyStart = some leaf ∧
      findRange order t.1 t.2 keyStart keyEnd returnedKeys returnedPointers = some out ∧
      (RangeExact t.1 t.2 (lastValue os) keyStart keyEnd returnedKeys returnedPointers out ↔
        (∃ key ∈ keysOf t.1 leaf, keyStart ≤ key) ∨
          ∀ key, keyStart ≤ key → key ≤ keyEnd → lastValue os key = none) := by
  obtain ⟨t, hrun, B, hb, hd⟩ := run_standsFor (M := M) horder nodes records os
  obtain ⟨leaf, hleaf, hout⟩ := hb.findRange_eq keyStart keyEnd returnedKeys returnedPointers
  have hexact := hb.rangeExact hd keyStart keyEnd returnedKeys returnedPointers
  refine ⟨t, leaf, _, hrun, hleaf, hout, ?_⟩
  by_cases hfirst : ∃ key ∈ keysOf t.1 leaf, keyStart ≤ key
  · rw [if_pos hfirst]
    exact iff_of_true hexact (Or.inl hfirst)
  · rw [if_neg hfirst, or_iff_right hfirst]
    constructor
    · intro hempty key hlow hhigh
      by_contra hne
      obtain ⟨i, hi, -⟩ := (hempty.exact key).mpr ⟨hne, hlow, hhigh⟩
      exact absurd hi (Nat.not_lt_zero i)
    · intro hnone
      have hnil : B.filter (inRange keyStart keyEnd) = [] := by
        rw [List.filter_eq_nil_iff]
        intro e he hin
        obtain ⟨hlow, hhigh⟩ := of_decide_eq_true hin
        exact hd.eq_none_iff.mp (hnone e.1 hlow hhigh) e.2 he
      rwa [hnil] at hexact

theorem findRange_exact_iff_three : ∃ t leaf out,
    run (step bump 3) (start (fun _ => blank) fun _ => 0)
      [.insert 1 10, .insert 5 50, .insert 9 90] = some t ∧
    findLeaf t.1 t.2 5 = some leaf ∧
    findRange 3 t.1 t.2 5 7 (fun _ => 0) (fun _ => 0) = some out ∧
    (RangeExact t.1 t.2 (lastValue [.insert 1 10, .insert 5 50, .insert 9 90]) 5 7 (fun _ => 0)
        (fun _ => 0) out ↔
      (∃ key ∈ keysOf t.1 leaf, 5 ≤ key) ∨ ∀ key, 5 ≤ key → key ≤ 7 →
        lastValue [.insert 1 10, .insert 5 50, .insert 9 90] key = none) :=
  findRange_exact_iff bump (le_refl 3) _ _ _ 5 7 _ _

/-- The first leaf has the key 1, the second one 5 and 9: nothing is found from 2 to 9. -/
theorem findRange_stops_early : ∃ t out,
    run (step bump 3) (start (fun _ => blank) fun _ => 0)
      [.insert 1 10, .insert 5 50, .insert 9 90] = some t ∧
    findRange 3 t.1 t.2 2 9 (fun _ => 0) (fun _ => 0) = some out ∧
    ¬ RangeExact t.1 t.2 (lastValue [.insert 1 10, .insert 5 50, .insert 9 90]) 2 9 (fun _ => 0)
      (fun _ => 0) out := by
  have hempty : ((run (step bump 3) (start (fun _ => blank) fun _ => 0)
      [.insert 1 10, .insert 5 50, .insert 9 90]).bind fun t =>
        (findRange 3 t.1 t.2 2 9 (fun _ => 0) fun _ => 0).map Returned.numFound) = some 0 := by
    decide +kernel
  obtain ⟨t, ht, hempty⟩ := Option.bind_eq_some_iff.mp hempty
  obtain ⟨out, hout, hnum⟩ := Option.map_eq_some_iff.mp hempty
  refine ⟨t, out, ht, hout, fun hexact => ?_⟩
  obtain ⟨i, hi, -⟩ := (hexact.exact 5).mpr (by decide)
  rw [hnum] at hi
  exact absurd hi (Nat.not_lt_zero i)

end Results

end Unos.BPlusTree
