import Unos.BPlusTree.Invariant

namespace Unos.BPlusTree

open Unos.Runs Unos.Splits

def Op.key : Op → ℤ
  | .insert key _ => key
  | .delete key => key

def Op.value : Op → Option ℤ
  | .insert _ value => some value
  | .delete _ => none

/-- The value of the last insertion of a key with no deletion of it behind. -/
def lastValue (os : List Op) (key : ℤ) : Option ℤ :=
  (os.reverse.find? fun o => o.key == key).bind Op.value

def assign (d : ℤ → Option ℤ) (o : Op) : ℤ → Option ℤ := Function.update d o.key o.value

/-- The bindings lead to the values of the dictionary. -/
def Represents (h : Heap) (B : List (ℤ × ℕ)) (d : ℤ → Option ℤ) : Prop :=
  ∀ key value, d key = some value ↔ ∃ r, (key, r) ∈ B ∧ h.records r = value

section Facts

variable {M : Malloc} {order root root' r : ℕ} {h h' : Heap} {B B₁ B₂ : List (ℤ × ℕ)}
  {d : ℤ → Option ℤ} {t : Heap × ℕ} {key value : ℤ} {o : Op} {os : List Op}

theorem lastValue_concat (os : List Op) (o : Op) :
    lastValue (os ++ [o]) = assign (lastValue os) o := by
  funext key
  rw [lastValue, List.reverse_append, List.reverse_singleton, List.singleton_append,
    List.find?_cons, assign, Function.update_apply]
  by_cases hkey : o.key = key
  · rw [if_pos hkey.symm, hkey, beq_self_eq_true]
    rfl
  · rw [if_neg (Ne.symm hkey), beq_eq_false_iff_ne.mpr hkey]
    rfl

theorem Holds.key_eq (hb : Holds order h root B) {e e' : ℤ × ℕ} (he : e ∈ B) (he' : e' ∈ B)
    (hrecord : e.2 = e'.2) : e = e' :=
  List.inj_on_of_nodup_map hb.distinct he he' hrecord

theorem Represents.eq_none_iff (hd : Represents h B d) : d key = none ↔ ∀ r, (key, r) ∉ B := by
  constructor
  · intro hnone r hmem
    have hsome := (hd key (h.records r)).mpr ⟨r, hmem, rfl⟩
    rw [hnone] at hsome
    exact absurd hsome (by simp)
  · intro hnone
    cases hkey : d key with
    | none => rfl
    | some value =>
      obtain ⟨r, hmem, -⟩ := (hd key value).mp hkey
      exact absurd hmem (hnone r)

/-- A record with another value. -/
theorem Represents.update (hb : Holds order h root B) (hd : Represents h B d)
    (hmem : (key, r) ∈ B) :
    Represents { h with records := Function.update h.records r value } B
      (Function.update d key (some value)) := by
  intro key' value'
  rw [Function.update_apply]
  by_cases hkey : key' = key
  · rw [if_pos hkey, hkey, Option.some_inj]
    constructor
    · rintro rfl
      exact ⟨r, hmem, Function.update_self _ _ _⟩
    · rintro ⟨r', hmem', hvalue⟩
      obtain rfl := (Prod.mk.inj (hb.unique hmem' hmem rfl)).2
      exact (Function.update_self _ _ _).symm.trans hvalue
  · rw [if_neg hkey, hd key' value']
    -- the other keys have other records
    have hother : ∀ r', (key', r') ∈ B → Function.update h.records r value r' = h.records r' :=
      fun r' hmem' => Function.update_of_ne
        (fun heq => hkey (Prod.mk.inj (hb.key_eq hmem' hmem heq)).1) _ _
    constructor
    · rintro ⟨r', hmem', hvalue⟩
      exact ⟨r', hmem', (hother r' hmem').trans hvalue⟩
    · rintro ⟨r', hmem', hvalue⟩
      exact ⟨r', hmem', (hother r' hmem').symm.trans hvalue⟩

/-- A new key with its record. -/
theorem Represents.insert (hb : Holds order h' root' (B₁ ++ (key, r) :: B₂))
    (hd : Represents h (B₁ ++ B₂) d) (hrecords : h'.records = Function.update h.records r value) :
    Represents h' (B₁ ++ (key, r) :: B₂) (Function.update d key (some value)) := by
  have hnew : (key, r) ∈ B₁ ++ (key, r) :: B₂ := List.mem_append_right _ List.mem_cons_self
  intro key' value'
  rw [Function.update_apply]
  by_cases hkey : key' = key
  · rw [if_pos hkey, hkey, Option.some_inj]
    constructor
    · rintro rfl
      exact ⟨r, hnew, by rw [hrecords, Function.update_self]⟩
    · rintro ⟨r', hmem', hvalue⟩
      obtain rfl := (Prod.mk.inj (hb.unique hmem' hnew rfl)).2
      rw [hrecords, Function.update_self] at hvalue
      exact hvalue
  · rw [if_neg hkey, hd key' value']
    have hother : ∀ r', (key', r') ∈ B₁ ++ B₂ → h'.records r' = h.records r' := fun r' hmem' => by
      have hne : r' ≠ r := fun heq =>
        hkey (Prod.mk.inj (hb.key_eq (mem_middle_of_mem hmem') hnew heq)).1
      rw [hrecords, Function.update_of_ne hne]
    constructor
    · rintro ⟨r', hmem', hvalue⟩
      exact ⟨r', mem_middle_of_mem hmem', (hother r' hmem').trans hvalue⟩
    · rintro ⟨r', hmem', hvalue⟩
      have hold := mem_of_mem_middle hmem' fun heq => hkey (Prod.mk.inj heq).1
      exact ⟨r', hold, (hother r' hold).symm.trans hvalue⟩

/-- A key goes. -/
theorem Represents.erase (hb : Holds order h root (B₁ ++ (key, r) :: B₂))
    (hd : Represents h (B₁ ++ (key, r) :: B₂) d) (hrecords : h'.records = h.records) :
    Represents h' (B₁ ++ B₂) (Function.update d key none) := by
  have hold : (key, r) ∈ B₁ ++ (key, r) :: B₂ := List.mem_append_right _ List.mem_cons_self
  -- the key had one record
  have hnot : ∀ r', (key, r') ∉ B₁ ++ B₂ := fun r' hmem' => by
    have heq := hb.unique (mem_middle_of_mem hmem') hold rfl
    have hdistinct := hb.distinct
    rw [(List.perm_middle.map Prod.snd).nodup_iff, List.map_cons, List.nodup_cons] at hdistinct
    rw [heq] at hmem'
    exact hdistinct.1 (List.mem_map.mpr ⟨(key, r), hmem', rfl⟩)
  intro key' value'
  rw [Function.update_apply, hrecords]
  by_cases hkey : key' = key
  · rw [if_pos hkey, hkey]
    exact iff_of_false (by simp) fun ⟨r', hmem', _⟩ => hnot r' hmem'
  · rw [if_neg hkey, hd key' value']
    constructor
    · rintro ⟨r', hmem', hvalue⟩
      exact ⟨r', mem_of_mem_middle hmem' fun heq => hkey (Prod.mk.inj heq).1, hvalue⟩
    · rintro ⟨r', hmem', hvalue⟩
      exact ⟨r', mem_middle_of_mem hmem', hvalue⟩

def StandsFor (order : ℕ) (t : Heap × ℕ) (d : ℤ → Option ℤ) : Prop :=
  ∃ B, Holds order t.1 t.2 B ∧ Represents t.1 B d

theorem standsFor_start (order : ℕ) (nodes : ℕ → Node) (records : ℕ → ℤ) :
    StandsFor order (start nodes records) fun _ => none :=
  ⟨[], Or.inl ⟨rfl, Finset.notMem_empty 0, rfl⟩, fun _ _ =>
    iff_of_false (by simp) fun ⟨_, hmem, _⟩ => List.not_mem_nil hmem⟩

/-- Each call ends and does on the tree what it does on the dictionary. -/
theorem StandsFor.step (horder : 3 ≤ order) (hs : StandsFor order t d) (o : Op) :
    ∃ t', step M order t o = some t' ∧ StandsFor order t' (assign d o) := by
  obtain ⟨B, hb, hd⟩ := hs
  cases o with
  | insert key value =>
    rcases insert_spec (M := M) horder hb key value
      with ⟨r, hmem, heq⟩ | ⟨-, h', root', B₁, B₂, p, heq, rfl, hb', hrecords⟩
    · refine ⟨_, heq, B, ?_, hd.update hb hmem⟩
      -- the tree itself is the same
      rcases hb with hempty | ⟨k, L, U, hstore, hfill, hB⟩
      · exact Or.inl hempty
      · exact Or.inr ⟨k, L, U, hstore.of_nodes rfl hstore.placed.live
          (fun e he => (hstore.owned e he).1) hstore.placed.zero, hfill, hB⟩
    · exact ⟨_, heq, _, hb', hd.insert hb' hrecords⟩
  | delete key =>
    rcases delete_spec horder hb key
      with ⟨hnone, heq⟩ | ⟨r, B₁, B₂, h', root', rfl, heq, hb', hrecords⟩
    · have hkey : d key = none := hd.eq_none_iff.mpr hnone
      refine ⟨_, heq, B, hb, ?_⟩
      have hsame : assign d (.delete key) = d := by
        rw [assign]
        exact (congrArg _ hkey.symm).trans (Function.update_eq_self key d)
      rw [hsame]
      exact hd
    · exact ⟨_, heq, _, hb', hd.erase hb hrecords⟩

theorem run_standsFor (horder : 3 ≤ order) (nodes : ℕ → Node) (records : ℕ → ℤ) (os : List Op) :
    ∃ t, run (BPlusTree.step M order) (start nodes records) os = some t ∧
      StandsFor order t (lastValue os) := by
  induction os using List.reverseRecOn with
  | nil => exact ⟨_, rfl, standsFor_start order nodes records⟩
  | append_singleton os o ih =>
    obtain ⟨t, hrun, hs⟩ := ih
    obtain ⟨t', hstep, hs'⟩ := hs.step (M := M) horder o
    refine ⟨t', run_concat hrun hstep, ?_⟩
    rw [lastValue_concat]
    exact hs'

end Facts

section Results

variable {order : ℕ}

/-- Every sequence of calls leaves a valid tree. -/
theorem run_valid (M : Malloc) (horder : 3 ≤ order) (nodes : ℕ → Node) (records : ℕ → ℤ)
    (os : List Op) :
    ∃ t, run (step M order) (start nodes records) os = some t ∧ Valid order t := by
  obtain ⟨t, hrun, B, hb, -⟩ := run_standsFor (M := M) horder nodes records os
  refine ⟨t, hrun, ?_⟩
  rcases hb with ⟨hroot, -, -⟩ | ⟨k, L, U, hs, hfill, -⟩
  · exact Or.inl hroot
  · exact Or.inr ⟨k, hs.isTree hfill⟩

/-- A cell of the memory with nothing in it. -/
def blank : Node := ⟨fun _ => 0, fun _ => 0, 0, false, 0⟩

theorem run_valid_three : ∃ t, run (step bump 3) (start (fun _ => blank) fun _ => 0)
    [.insert 5 50, .insert 3 30, .insert 8 80, .delete 3] = some t ∧ Valid 3 t :=
  run_valid bump (le_refl 3) _ _ _

/-- A search finds the record with the last value of the key; an insertion of a key that is there
only writes the value, a deletion of one that is not changes nothing, and the last one leaves no
tree. -/
theorem find_run (M : Malloc) (horder : 3 ≤ order) (nodes : ℕ → Node) (records : ℕ → ℤ)
    (os : List Op) (key : ℤ) :
    ∃ t r leaf, run (step M order) (start nodes records) os = some t ∧
      find t.1 t.2 key = some (r, leaf) ∧
      (r = 0 ↔ lastValue os key = none) ∧ (r ≠ 0 → lastValue os key = some (t.1.records r)) ∧
      (r ≠ 0 → ∀ value, insert M order t.1 t.2 key value =
        some ({ t.1 with records := Function.update t.1.records r value }, t.2)) ∧
      (r = 0 → delete order t.1 t.2 key = some t) ∧
      ((∀ other, other ≠ key → lastValue os other = none) →
        ∃ h, delete order t.1 t.2 key = some (h, 0)) := by
  obtain ⟨⟨h, root⟩, hrun, B, hb, hd⟩ := run_standsFor (M := M) horder nodes records os
  have hlast : (∀ other, other ≠ key → lastValue os other = none) →
      ∃ h', delete order h root key = some (h', 0) := fun hothers => by
    have honly : ∀ e ∈ B, e.1 = key := fun e he => by
      by_contra hne
      exact hd.eq_none_iff.mp (hothers e.1 hne) e.2 he
    rcases delete_spec horder hb key with ⟨hnone, heq⟩ | ⟨r, B₁, B₂, h', root', rfl, heq, hb', -⟩
    · have hnil : B = [] := List.eq_nil_iff_forall_not_mem.mpr fun e he =>
        hnone e.2 (honly e he ▸ he)
      exact ⟨h, by rw [heq, (hb.root_eq_zero_iff horder).mpr hnil]⟩
    · -- whatever is left has the key, but its record went
      have hnil : B₁ ++ B₂ = [] := List.eq_nil_iff_forall_not_mem.mpr fun e he => by
        have hmem : e ∈ B₁ ++ (key, r) :: B₂ := mem_middle_of_mem he
        have hsame := hb.unique hmem (List.mem_append_right _ List.mem_cons_self) (honly e hmem)
        have hdistinct := hb.distinct
        rw [(List.perm_middle.map Prod.snd).nodup_iff, List.map_cons, List.nodup_cons] at hdistinct
        exact hdistinct.1 (List.mem_map.mpr ⟨e, he, congrArg Prod.snd hsame⟩)
      exact ⟨h', by rw [heq, (hb'.root_eq_zero_iff horder).mpr hnil]⟩
  obtain ⟨leaf, ⟨hfind, hnone⟩ | ⟨r, hfind, hmem, hr, -⟩⟩ := hb.find_spec key
  · refine ⟨(h, root), 0, leaf, hrun, hfind, iff_of_true rfl (hd.eq_none_iff.mpr hnone),
      fun h0 => absurd rfl h0, fun h0 => absurd rfl h0, fun _ => ?_, hlast⟩
    rcases delete_spec horder hb key with ⟨-, heq⟩ | ⟨r, B₁, B₂, h', root', rfl, -, -, -⟩
    · exact heq
    · exact absurd (List.mem_append_right _ List.mem_cons_self) (hnone r)
  · have hvalue := (hd key (h.records r)).mpr ⟨r, hmem, rfl⟩
    refine ⟨(h, root), r, leaf, hrun, hfind, iff_of_false hr fun hnone => ?_, fun _ => hvalue,
      fun _ value => ?_, fun h0 => absurd h0 hr, hlast⟩
    · rw [hnone] at hvalue
      exact absurd hvalue (by simp)
    · dsimp only
      rw [insert, hfind]
      exact if_pos hr

theorem find_run_three : ∃ t r leaf, run (step bump 3) (start (fun _ => blank) fun _ => 0)
      [.insert 5 50, .insert 3 30, .delete 5, .insert 3 31] = some t ∧
      find t.1 t.2 3 = some (r, leaf) ∧
      (r = 0 ↔ lastValue [.insert 5 50, .insert 3 30, .delete 5, .insert 3 31] 3 = none) ∧
      (r ≠ 0 → lastValue [.insert 5 50, .insert 3 30, .delete 5, .insert 3 31] 3 =
        some (t.1.records r)) ∧
      (r ≠ 0 → ∀ value, insert bump 3 t.1 t.2 3 value =
        some ({ t.1 with records := Function.update t.1.records r value }, t.2)) ∧
      (r = 0 → delete 3 t.1 t.2 3 = some t) ∧
      ((∀ other, other ≠ 3 →
          lastValue [.insert 5 50, .insert 3 30, .delete 5, .insert 3 31] other = none) →
        ∃ h, delete 3 t.1 t.2 3 = some (h, 0)) :=
  find_run bump (le_refl 3) _ _ _ 3

end Results

end Unos.BPlusTree
