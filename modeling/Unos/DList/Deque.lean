import Unos.DList.Operations

namespace Unos.DList

open Unos.Words Unos.Links Unos.Runs

/-- A call: an operation, or one of the functions that only read. -/
inductive Call
  | change (op : Op)
  | peekFront
  | peekBack
  | size

/-- What a call returns and leaves; `none` is a `NULL` node, or nothing. A node takes 12 bytes,
so that `list_size` is not negative. -/
def listCall (s : State) : Call → Option ℕ × State
  | .change (.insertFront t v) => (some (listInsertFront s t v).1, (listInsertFront s t v).2)
  | .change (.insertBack t v) => (none, listInsertBack s t v)
  | .change (.push t v) => (none, listPush s t v)
  | .change (.enqueue t v) => (none, listEnqueue s t v)
  | .change .removeFront => (some (listRemoveFront s).1, (listRemoveFront s).2)
  | .change .removeBack => (some (listRemoveBack s).1, (listRemoveBack s).2)
  | .change (.removeNode node) => (some (listRemoveNode s node).1, (listRemoveNode s node).2)
  | .change .pop =>
    let r := listPop s
    (if r.1 = 0 then none else some (r.2.val r.1), r.2)
  | .change .dequeue =>
    let r := listDequeue s
    (if r.1 = 0 then none else some (r.2.val r.1), r.2)
  | .peekFront => (some (listPeekFront s), s)
  | .peekBack => (some (listPeekBack s), s)
  | .size => (some (listSize s), s)

def valueOf (e : Option (ℕ × ℕ)) : ℕ := (e.map Prod.snd).getD 0

def dequeCall (q : List (ℕ × ℕ)) : Call → Option ℕ × List (ℕ × ℕ)
  | .change (.insertFront t v) => (some t, (t, v) :: q)
  | .change (.enqueue t v) => (none, (t, v) :: q)
  | .change (.insertBack t v) | .change (.push t v) => (none, q ++ [(t, v)])
  | .change .removeFront => (some (valueOf q.head?), q.tail)
  | .change .removeBack => (some (valueOf q.getLast?), q.dropLast)
  | .change (.removeNode node) =>
    (some (valueOf (q.find? fun e => e.1 = node)), q.eraseP fun e => e.1 = node)
  | .change .pop | .change .dequeue => (q.getLast?.map Prod.snd, q.dropLast)
  | .peekFront => (some (valueOf q.head?), q)
  | .peekBack => (some (valueOf q.getLast?), q)
  | .size => (some q.length, q)

def Possible (q : List (ℕ × ℕ)) : Call → Prop
  | .change (.insertFront t _) | .change (.insertBack t _) | .change (.push t _)
  | .change (.enqueue t _) => t ≠ 0 ∧ t < 4294967296 ∧ t ∉ q.map Prod.fst
  | .change (.removeNode node) => node ∈ q.map Prod.fst
  | _ => True

instance Possible.decidable (q : List (ℕ × ℕ)) : (c : Call) → Decidable (Possible q c)
  | .change (.insertFront _ _) | .change (.insertBack _ _) | .change (.push _ _)
  | .change (.enqueue _ _) => inferInstanceAs (Decidable (_ ∧ _))
  | .change (.removeNode _) => inferInstanceAs (Decidable (_ ∈ _))
  | .change .removeFront | .change .removeBack | .change .pop | .change .dequeue | .peekFront
  | .peekBack | .size => isTrue trivial

/-- The list, the deque, and what the last call returned of each. -/
structure Both where
  list : State
  deque : List (ℕ × ℕ)
  returned : Option ℕ × Option ℕ

def Both.start (prev next val : ℕ → ℕ) : Both := ⟨listCreate prev next val, [], none, none⟩

def bothStep (b : Both) (c : Call) : Option Both :=
  if Possible b.deque c then
    some ⟨(listCall b.list c).2, (dequeCall b.deque c).2, (listCall b.list c).1,
      (dequeCall b.deque c).1⟩
  else none

def Both.Agree (b : Both) : Prop := b.returned.1 = b.returned.2

instance : DecidablePred Both.Agree := fun b =>
  inferInstanceAs (Decidable (b.returned.1 = b.returned.2))

/-- While the list is empty, no call uses an end that a removal left behind. An insertion may
get the node that the other end still points to. -/
def Clear (s : State) : Call → Prop
  | .change (.insertFront t _) | .change (.enqueue t _) => s.size = 0 → s.head = 0 ∨ s.tail = t
  | .change (.insertBack t _) | .change (.push t _) => s.size = 0 → s.head = 0 ∨ s.head = t
  | .change .removeFront | .change .removeBack | .change .pop | .change .dequeue | .peekFront =>
    s.size = 0 → s.head = 0
  | .peekBack => s.size = 0 → s.tail = 0
  | .change (.removeNode _) | .size => True

/-- The list `s` stands for the deque `q`. -/
structure IsDeque (s : State) (q : List (ℕ × ℕ)) : Prop where
  size : s.size = q.length
  nodup : (q.map Prod.fst).Nodup
  addr : ∀ x ∈ q.map Prod.fst, x ≠ 0 ∧ x < 4294967296
  val : ∀ e ∈ q, s.val e.1 = e.2
  forward : q ≠ [] → ∃ z, Path s.next s.head (q.map Prod.fst) z
  backward : q ≠ [] → ∃ z, Path s.prev s.tail (q.map Prod.fst).reverse z

section Facts

variable {s : State} {q : List (ℕ × ℕ)} {e : ℕ × ℕ} {t v : ℕ}

theorem IsDeque.mirror (h : IsDeque s q) : IsDeque s.mirror q.reverse where
  size := by
    rw [List.length_reverse]
    exact h.size
  nodup := by
    rw [List.map_reverse]
    exact List.nodup_reverse.mpr h.nodup
  addr x hx := h.addr x (by rwa [List.map_reverse, List.mem_reverse] at hx)
  val e he := h.val e (List.mem_reverse.mp he)
  forward hne := by
    rw [List.map_reverse]
    exact h.backward fun hq => hne (by rw [hq]; rfl)
  backward hne := by
    rw [List.map_reverse, List.reverse_reverse]
    exact h.forward fun hq => hne (by rw [hq]; rfl)

theorem IsDeque.length_lt (h : IsDeque s q) : q.length < 4294967296 := by
  have hlt := length_lt_of_nodup h.nodup h.addr
  rwa [List.length_map] at hlt

theorem IsDeque.head_eq (h : IsDeque s (e :: q)) : s.head = e.1 := by
  obtain ⟨z, hz⟩ := h.forward (List.cons_ne_nil e q)
  exact hz.1

theorem IsDeque.tail_eq (h : IsDeque s (q ++ [e])) : s.tail = e.1 := by
  have hm := h.mirror
  rw [List.reverse_append, List.reverse_singleton] at hm
  exact hm.head_eq

theorem IsDeque.head_ne_zero (h : IsDeque s q) (hq : q ≠ []) : s.head ≠ 0 := by
  obtain ⟨e, q, rfl⟩ := List.exists_cons_of_ne_nil hq
  rw [h.head_eq]
  exact (h.addr e.1 (by simp)).1

theorem IsDeque.tail_ne_zero (h : IsDeque s q) (hq : q ≠ []) : s.tail ≠ 0 :=
  h.mirror.head_ne_zero (by simpa using hq)

theorem IsDeque.val_update (h : IsDeque s q) (ht : t ∉ q.map Prod.fst) (v : ℕ) :
    ∀ e ∈ q, Function.update (Function.update s.val t 0) t v e.1 = e.2 := by
  intro e he
  have hne : e.1 ≠ t := fun het => ht (het ▸ List.mem_map_of_mem he)
  rw [Function.update_of_ne hne, Function.update_of_ne hne]
  exact h.val e he

theorem IsDeque.size_wrap (h : IsDeque s q) (ht0 : t ≠ 0) (htlt : t < 4294967296)
    (htq : t ∉ q.map Prod.fst) : wrap32 (s.size + 1) = q.length + 1 := by
  have hnodup : (t :: q.map Prod.fst).Nodup := List.nodup_cons.mpr ⟨htq, h.nodup⟩
  have haddr : ∀ x ∈ t :: q.map Prod.fst, x ≠ 0 ∧ x < 4294967296 := by
    intro x hx
    rcases List.mem_cons.mp hx with rfl | hx
    · exact ⟨ht0, htlt⟩
    · exact h.addr x hx
  have hlt := length_lt_of_nodup hnodup haddr
  rw [List.length_cons, List.length_map] at hlt
  rw [h.size]
  exact wrap32_of_lt hlt

end Facts

section Operations

variable {s : State} {q : List (ℕ × ℕ)} {e : ℕ × ℕ} {t v : ℕ}

theorem listInsertFront_fields (s : State) (t v : ℕ) :
    (listInsertFront s t v).2.size = wrap32 (s.size + 1) ∧
      (listInsertFront s t v).2.tail = (if s.head = 0 then t else s.tail) ∧
      (listInsertFront s t v).2.prev = Function.update (Function.update s.prev t 0) s.head t ∧
      (listInsertFront s t v).2.next = Function.update (Function.update s.next t 0) t s.head := by
  by_cases hhead : s.head = 0
  · simp only [listInsertFront, State.setPrev, State.setNext, State.setVal, State.deref,
      State.kcalloc, hhead, if_true, and_self]
  · simp only [listInsertFront, State.setPrev, State.setNext, State.setVal, State.deref,
      State.kcalloc, hhead, if_false, and_self]

theorem IsDeque.insertFront (h : IsDeque s q) (ht : t ≠ 0 ∧ t < 4294967296 ∧ t ∉ q.map Prod.fst)
    (hclear : s.size = 0 → s.head = 0 ∨ s.tail = t) (v : ℕ) :
    IsDeque (listInsertFront s t v).2 ((t, v) :: q) := by
  obtain ⟨ht0, htlt, htq⟩ := ht
  obtain ⟨hsize, htail, hprev, hnext⟩ := listInsertFront_fields s t v
  have hval := listInsertFront_val s t v
  refine ⟨hsize.trans (h.size_wrap ht0 htlt htq), List.nodup_cons.mpr ⟨htq, h.nodup⟩, ?_,
    ?_, fun _ => ?_, fun _ => ?_⟩
  · intro x hx
    rcases List.mem_cons.mp hx with rfl | hx
    · exact ⟨ht0, htlt⟩
    · exact h.addr x hx
  · intro e he
    rw [hval]
    rcases List.mem_cons.mp he with rfl | he
    · exact Function.update_self ..
    · exact h.val_update htq v e he
  · rw [hnext]
    cases q with
    | nil => exact ⟨_, rfl, rfl⟩
    | cons e q =>
      obtain ⟨z, hz⟩ := h.forward (List.cons_ne_nil e q)
      refine ⟨z, rfl, ?_⟩
      rw [Function.update_self]
      exact (hz.update htq 0).update htq s.head
  · rw [hprev, htail, List.map_cons, List.reverse_cons]
    cases q with
    | nil =>
      have hend : (if s.head = 0 then t else s.tail) = t := by
        split_ifs with hhead
        · rfl
        · exact (hclear h.size).resolve_left hhead
      rw [hend]
      exact ⟨_, rfl, rfl⟩
    | cons e q =>
      have hhead := h.head_eq
      obtain ⟨z, hz⟩ := h.backward (List.cons_ne_nil e q)
      rw [if_neg (h.head_ne_zero (List.cons_ne_nil e q))]
      refine ⟨_, path_concat.mpr ⟨?_, rfl⟩⟩
      -- the old first node points to the new one
      rw [List.map_cons, List.reverse_cons] at hz ⊢
      rw [hhead]
      have heq : e.1 ∉ (q.map Prod.fst).reverse := by
        rw [List.mem_reverse]
        exact (List.nodup_cons.mp h.nodup).1
      refine Path.redirect (hz.update ?_ 0) heq t
      rw [List.mem_append, List.mem_reverse, List.mem_singleton]
      rintro (hmem | hte)
      · exact htq (List.mem_cons_of_mem e.1 hmem)
      · exact htq (hte ▸ List.mem_cons_self)

theorem listInsertBack_fields (s : State) (t v : ℕ) :
    (listInsertBack s t v).head = (if s.head = 0 then t else s.head) ∧
      (listInsertBack s t v).tail = t ∧ (listInsertBack s t v).size = wrap32 (s.size + 1) ∧
      (listInsertBack s t v).prev = Function.update (Function.update s.prev t 0) t s.tail ∧
      (listInsertBack s t v).next = (if s.tail = 0 then Function.update s.next t 0
        else Function.update (Function.update s.next t 0) s.tail t) ∧
      (listInsertBack s t v).val = Function.update (Function.update s.val t 0) t v := by
  by_cases hhead : s.head = 0 <;> by_cases htail : s.tail = 0
  all_goals
    simp only [listInsertBack, State.setPrev, State.setNext, State.setVal, State.deref,
      State.kcalloc, hhead, htail, ne_eq, not_true_eq_false, not_false_eq_true, if_true, if_false,
      and_self]

theorem IsDeque.insertBack (h : IsDeque s q) (ht : t ≠ 0 ∧ t < 4294967296 ∧ t ∉ q.map Prod.fst)
    (hclear : s.size = 0 → s.head = 0 ∨ s.head = t) (v : ℕ) :
    IsDeque (listInsertBack s t v) (q ++ [(t, v)]) := by
  obtain ⟨ht0, htlt, htq⟩ := ht
  obtain ⟨hhead, htail, hsize, hprev, hnext, hval⟩ := listInsertBack_fields s t v
  have hnodes : (q ++ [(t, v)]).map Prod.fst = q.map Prod.fst ++ [t] := by simp
  refine ⟨?_, ?_, ?_, ?_, fun _ => ?_, fun _ => ?_⟩
  · rw [hsize, h.size_wrap ht0 htlt htq, List.length_append, List.length_singleton]
  · rw [hnodes, ← List.concat_eq_append]
    exact h.nodup.concat htq
  · intro x hx
    rw [hnodes] at hx
    rcases List.mem_append.mp hx with hx | hx
    · exact h.addr x hx
    · rw [List.mem_singleton.mp hx]
      exact ⟨ht0, htlt⟩
  · intro e he
    rw [hval]
    rcases List.mem_append.mp he with he | he
    · exact h.val_update htq v e he
    · rw [List.mem_singleton.mp he]
      exact Function.update_self ..
  · rw [hnodes, hhead, hnext]
    rcases List.eq_nil_or_concat' q with rfl | ⟨q, e, rfl⟩
    · have hend : (if s.head = 0 then t else s.head) = t := by
        split_ifs with h0
        · rfl
        · exact (hclear h.size).resolve_left h0
      rw [hend]
      exact ⟨_, rfl, rfl⟩
    · have hne : q ++ [e] ≠ [] := by simp
      have htail_eq := h.tail_eq
      obtain ⟨z, hz⟩ := h.forward hne
      rw [if_neg (h.head_ne_zero hne), if_neg (h.tail_ne_zero hne)]
      refine ⟨_, path_concat.mpr ⟨?_, rfl⟩⟩
      -- the old last node points to the new one
      have hlast : (q ++ [e]).map Prod.fst = q.map Prod.fst ++ [e.1] := by simp
      have hnodup := h.nodup
      rw [hlast] at hz hnodup htq ⊢
      rw [htail_eq]
      refine Path.redirect (hz.update htq 0) (fun hmem => ?_) t
      exact (List.nodup_append.mp hnodup).2.2 e.1 hmem e.1 List.mem_cons_self rfl
  · rw [hnodes, htail, hprev, List.reverse_append, List.reverse_singleton]
    rcases List.eq_nil_or_concat' q with rfl | ⟨q, e, rfl⟩
    · exact ⟨_, rfl, rfl⟩
    · obtain ⟨z, hz⟩ := h.backward (by simp)
      have htq' : t ∉ ((q ++ [e]).map Prod.fst).reverse := by rwa [List.mem_reverse]
      refine ⟨z, rfl, ?_⟩
      rw [Function.update_self]
      exact (hz.update htq' 0).update htq' s.tail

theorem listRemoveFront_fields (hhead : s.head ≠ 0) :
    (listRemoveFront s).1 = s.val s.head ∧ (listRemoveFront s).2.head = s.next s.head ∧
      (listRemoveFront s).2.tail = s.tail ∧ (listRemoveFront s).2.size = sub32 s.size 1 ∧
      (listRemoveFront s).2.prev = (if s.next s.head = 0 then s.prev
        else Function.update s.prev (s.next s.head) 0) ∧
      (listRemoveFront s).2.next = s.next := by
  by_cases hnext : s.next s.head = 0
  all_goals
    simp only [listRemoveFront, State.setPrev, State.deref, State.kfree, hhead, hnext, ne_eq,
      not_true_eq_false, not_false_eq_true, if_true, if_false, and_self]

theorem IsDeque.size_sub (h : IsDeque s q) {n : ℕ} (hq : q.length = n + 1) :
    sub32 s.size 1 = n := by
  have hlt := h.length_lt
  rw [h.size, hq] at *
  rw [sub32_of_le (by omega) hlt]
  rfl

theorem IsDeque.removeFront (h : IsDeque s (e :: q)) :
    (listRemoveFront s).1 = e.2 ∧ IsDeque (listRemoveFront s).2 q := by
  have hhead := h.head_eq
  obtain ⟨hret, hhead', htail, hsize, hprev, hnext⟩ :=
    listRemoveFront_fields (h.head_ne_zero (List.cons_ne_nil e q))
  have hval := listRemoveFront_val s
  obtain ⟨z, -, hforward⟩ := h.forward (List.cons_ne_nil e q)
  obtain ⟨y, hbackward⟩ := h.backward (List.cons_ne_nil e q)
  rw [List.map_cons, List.reverse_cons, path_concat] at hbackward
  refine ⟨?_, ⟨?_, (List.nodup_cons.mp h.nodup).2, ?_, ?_, fun _ => ⟨z, ?_⟩, fun hq => ?_⟩⟩
  · rw [hret, hhead]
    exact h.val e List.mem_cons_self
  · rw [hsize]
    exact h.size_sub rfl
  · exact fun x hx => h.addr x (List.mem_cons_of_mem e.1 hx)
  · intro d hd
    rw [hval]
    exact h.val d (List.mem_cons_of_mem e hd)
  · rw [hhead', hnext, hhead]
    exact hforward
  · obtain ⟨d, q, rfl⟩ := List.exists_cons_of_ne_nil hq
    have hd : s.next s.head = d.1 := by
      rw [hhead]
      exact hforward.1
    have hd0 : d.1 ≠ 0 := (h.addr d.1 (by simp)).1
    have hdq : d.1 ∉ (q.map Prod.fst).reverse := by
      rw [List.mem_reverse]
      exact (List.nodup_cons.mp (List.nodup_cons.mp h.nodup).2).1
    rw [htail, hprev, hd, if_neg hd0, List.map_cons, List.reverse_cons]
    rw [List.map_cons, List.reverse_cons] at hbackward
    exact ⟨0, hbackward.1.redirect hdq 0⟩

theorem IsDeque.removeBack (h : IsDeque s (q ++ [e])) :
    (listRemoveBack s).1 = e.2 ∧ IsDeque (listRemoveBack s).2 q := by
  have hne : q ++ [e] ≠ [] := by simp
  have hhead := h.head_ne_zero hne
  have htail := h.tail_ne_zero hne
  have hret : (listRemoveBack s).1 = s.val s.tail := by
    simp only [listRemoveBack, State.deref, if_neg hhead]
  have hm := h.mirror
  rw [List.reverse_append, List.reverse_singleton, List.singleton_append] at hm
  have hfront := hm.removeFront.2.mirror
  rw [List.reverse_reverse] at hfront
  refine ⟨?_, ?_⟩
  · rw [hret, h.tail_eq]
    exact h.val e (by simp)
  · rw [listRemoveBack_eq (iff_of_false hhead htail)]
    exact hfront

theorem IsDeque.pop (h : IsDeque s (q ++ [e])) :
    (listPop s).1 = e.1 ∧ (listPop s).2.val e.1 = e.2 ∧ IsDeque (listPop s).2 q := by
  have hhead := h.head_ne_zero (by simp)
  have hret : (listPop s).1 = s.tail := by rw [listPop, if_neg hhead]
  rw [listPop_eq, listRemoveBack_val]
  exact ⟨hret.trans h.tail_eq, h.val e (by simp), h.removeBack.2⟩

theorem listRemoveNode_fields {x : ℕ} (hhead : s.head ≠ x) (htail : s.tail ≠ x)
    (hnext : x ≠ s.next x) :
    (listRemoveNode s x).1 = s.val x ∧ (listRemoveNode s x).2.head = s.head ∧
      (listRemoveNode s x).2.tail = s.tail ∧ (listRemoveNode s x).2.size = sub32 s.size 1 ∧
      (listRemoveNode s x).2.prev = Function.update s.prev (s.next x) (s.prev x) ∧
      (listRemoveNode s x).2.next = Function.update s.next (s.prev x) (s.next x) := by
  simp only [listRemoveNode, State.setPrev, State.setNext, State.deref, State.kfree, hhead, htail,
    if_false, Function.update_of_ne hnext, and_self]

theorem IsDeque.removeBetween {as bs : List (ℕ × ℕ)} {c d : ℕ × ℕ}
    (h : IsDeque s (as ++ c :: e :: d :: bs)) :
    (listRemoveNode s e.1).1 = e.2 ∧ IsDeque (listRemoveNode s e.1).2 (as ++ c :: d :: bs) := by
  have hne : as ++ c :: e :: d :: bs ≠ [] := by simp
  obtain ⟨z, hforward⟩ := h.forward hne
  obtain ⟨y, hbackward⟩ := h.backward hne
  have hnodup := h.nodup
  have hrev : ((as ++ c :: e :: d :: bs).map Prod.fst).reverse =
      (bs.map Prod.fst).reverse ++ d.1 :: e.1 :: c.1 :: (as.map Prod.fst).reverse := by simp
  rw [hrev] at hbackward
  simp only [List.map_append, List.map_cons] at hforward hnodup
  have hsub : ∀ b ∈ as ++ c :: d :: bs, b ∈ as ++ c :: e :: d :: bs := by
    exact (((List.sublist_cons_self e _).cons_cons c).append_left as).subset
  simp only [List.nodup_append, List.nodup_cons, List.mem_cons, not_or] at hnodup
  obtain ⟨has, ⟨⟨hce, hcd, hcbs⟩, ⟨hed, hebs⟩, hdbs, hbs⟩, hdisj⟩ := hnodup
  have hcas : c.1 ∉ as.map Prod.fst := fun hc => hdisj _ hc _ (.inl rfl) rfl
  have heas : e.1 ∉ as.map Prod.fst := fun he => hdisj _ he _ (.inr (.inl rfl)) rfl
  have hdas : d.1 ∉ as.map Prod.fst := fun hd => hdisj _ hd _ (.inr (.inr (.inl rfl))) rfl
  -- neither end is the node that goes
  have hhead : s.head ≠ e.1 := by
    intro hs
    have hfirst := hforward.head_eq
    cases as with
    | nil => exact hce (hfirst.symm.trans hs)
    | cons a as => exact heas (hs ▸ hfirst ▸ List.mem_cons_self)
  have htail : s.tail ≠ e.1 := by
    intro hs
    have hlast := hbackward.head_eq
    rcases List.eq_nil_or_concat' bs with rfl | ⟨bs, b, rfl⟩
    · exact hed (hs.symm.trans hlast)
    · have hb : s.tail = b.1 := by simpa using hlast
      exact hebs (by simp [← hs, hb])
  have hnx : s.next e.1 = d.1 := by
    rw [path_append_cons] at hforward
    exact hforward.2.2.1
  have hpx : s.prev e.1 = c.1 := by
    rw [path_append_cons] at hbackward
    exact hbackward.2.2.1
  obtain ⟨hret, hhead', htail', hsize, hprev, hnext⟩ :=
    listRemoveNode_fields hhead htail (by rwa [hnx])
  refine ⟨?_, ?_, ?_, ?_, ?_, fun _ => ⟨z, ?_⟩, fun _ => ⟨y, ?_⟩⟩
  · rw [hret]
    exact h.val e (by simp)
  · rw [hsize]
    exact h.size_sub (by simp only [List.length_append, List.length_cons]; omega)
  · refine h.nodup.sublist (List.Sublist.map Prod.fst (List.Sublist.append_left ?_ as))
    exact (List.sublist_cons_self e (d :: bs)).cons_cons c
  · intro x hx
    obtain ⟨b, hb, rfl⟩ := List.mem_map.mp hx
    exact h.addr b.1 (List.mem_map_of_mem (hsub b hb))
  · intro b hb
    rw [listRemoveNode_val]
    exact h.val b (hsub b hb)
  · rw [hhead', hnext, hpx, hnx, ← hnx]
    simp only [List.map_append, List.map_cons]
    apply hforward.bypass hcas
    rw [List.mem_cons, not_or]
    exact ⟨hcd, hcbs⟩
  · rw [htail', hprev, hpx, hnx, ← hpx]
    have hrev' : ((as ++ c :: d :: bs).map Prod.fst).reverse =
        (bs.map Prod.fst).reverse ++ d.1 :: c.1 :: (as.map Prod.fst).reverse := by simp
    rw [hrev']
    apply hbackward.bypass
    · rwa [List.mem_reverse]
    · rw [List.mem_cons, List.mem_reverse, not_or]
      exact ⟨fun hdc => hcd hdc.symm, hdas⟩

/-- Any node of the list can be removed. -/
theorem IsDeque.removeNode {as bs : List (ℕ × ℕ)} (h : IsDeque s (as ++ e :: bs)) :
    (listRemoveNode s e.1).1 = e.2 ∧ IsDeque (listRemoveNode s e.1).2 (as ++ bs) := by
  have hderef : IsDeque (s.deref e.1) (as ++ e :: bs) :=
    ⟨h.size, h.nodup, h.addr, h.val, h.forward, h.backward⟩
  cases as with
  | nil =>
    have hhead : (s.deref e.1).head = e.1 := hderef.head_eq
    rw [listRemoveNode, if_pos hhead]
    exact hderef.removeFront
  | cons a as =>
    have hhead : (s.deref e.1).head ≠ e.1 := by
      rw [hderef.head_eq]
      intro hae
      have hnodup := h.nodup
      rw [List.cons_append, List.map_cons, List.nodup_cons, hae] at hnodup
      exact hnodup.1 (by simp)
    cases bs with
    | nil =>
      have htail : (s.deref e.1).tail = e.1 := hderef.tail_eq
      rw [listRemoveNode, if_neg hhead, if_pos htail, List.append_nil]
      exact hderef.removeBack
    | cons d bs =>
      obtain ⟨as', c, hc⟩ := (List.eq_nil_or_concat' (a :: as)).resolve_left (List.cons_ne_nil a as)
      rw [hc, List.append_assoc] at h ⊢
      exact h.removeBetween

theorem find_and_erase {as : List (ℕ × ℕ)} (bs : List (ℕ × ℕ)) (he : e.1 ∉ as.map Prod.fst) :
    (as ++ e :: bs).find? (fun b => b.1 = e.1) = some e ∧
      (as ++ e :: bs).eraseP (fun b => b.1 = e.1) = as ++ bs := by
  have has : ∀ b ∈ as, ¬ decide (b.1 = e.1) = true := by
    intro b hb hbe
    exact he (of_decide_eq_true hbe ▸ List.mem_map_of_mem hb)
  have hnone : as.find? (fun b => b.1 = e.1) = none := List.find?_eq_none.mpr has
  constructor
  · rw [List.find?_append, hnone]
    simp
  · rw [List.eraseP_append_right _ has]
    simp

theorem IsDeque.peekFront (h : IsDeque s q) (hclear : s.size = 0 → s.head = 0) :
    listPeekFront s = valueOf q.head? := by
  cases q with
  | nil => exact if_pos (hclear h.size)
  | cons e q =>
    rw [listPeekFront, if_neg (h.head_ne_zero (List.cons_ne_nil e q)), h.head_eq]
    exact h.val e List.mem_cons_self

theorem IsDeque.peekBack (h : IsDeque s q) (hclear : s.size = 0 → s.tail = 0) :
    listPeekBack s = valueOf q.getLast? := by
  have hfront := h.mirror.peekFront hclear
  rw [List.head?_reverse] at hfront
  exact hfront

end Operations

/-- One call returns what the deque returns and goes on standing for it. -/
theorem IsDeque.call {s : State} {q : List (ℕ × ℕ)} {c : Call} (h : IsDeque s q)
    (hpos : Possible q c) (hclear : Clear s c) :
    (listCall s c).1 = (dequeCall q c).1 ∧ IsDeque (listCall s c).2 (dequeCall q c).2 := by
  match c with
  | .change (.insertFront t v) => exact ⟨rfl, h.insertFront hpos hclear v⟩
  | .change (.enqueue t v) => exact ⟨rfl, h.insertFront hpos hclear v⟩
  | .change (.insertBack t v) => exact ⟨rfl, h.insertBack hpos hclear v⟩
  | .change (.push t v) => exact ⟨rfl, h.insertBack hpos hclear v⟩
  | .change .removeFront =>
    cases q with
    | nil =>
      have hempty : listRemoveFront s = (0, s) := if_pos (hclear h.size)
      simp only [listCall, hempty]
      exact ⟨rfl, h⟩
    | cons e q =>
      obtain ⟨hret, hrest⟩ := h.removeFront
      exact ⟨congrArg some hret, hrest⟩
  | .change .removeBack =>
    rcases List.eq_nil_or_concat' q with rfl | ⟨q, e, rfl⟩
    · have hempty : listRemoveBack s = (0, s) := if_pos (hclear h.size)
      simp only [listCall, hempty]
      exact ⟨rfl, h⟩
    · obtain ⟨hret, hrest⟩ := h.removeBack
      simp only [listCall, dequeCall, List.getLast?_concat, List.dropLast_concat]
      exact ⟨congrArg some hret, hrest⟩
  | .change (.removeNode node) =>
    obtain ⟨e, he, rfl⟩ := List.mem_map.mp hpos
    obtain ⟨as, bs, rfl⟩ := List.append_of_mem he
    obtain ⟨hret, hrest⟩ := h.removeNode
    have has : e.1 ∉ as.map Prod.fst := by
      intro hmem
      have hnodup := h.nodup
      rw [List.map_append] at hnodup
      exact (List.nodup_append.mp hnodup).2.2 e.1 hmem e.1 (by simp) rfl
    obtain ⟨hfind, herase⟩ := find_and_erase bs has
    simp only [listCall, dequeCall, hfind, herase]
    exact ⟨congrArg some hret, hrest⟩
  | .change .pop | .change .dequeue =>
    rcases List.eq_nil_or_concat' q with rfl | ⟨q, e, rfl⟩
    · have hempty : listPop s = (0, s) := if_pos (hclear h.size)
      simp only [listCall, listDequeue, hempty]
      exact ⟨rfl, h⟩
    · obtain ⟨hret, hval, hrest⟩ := h.pop
      have he0 : e.1 ≠ 0 := (h.addr e.1 (by simp)).1
      simp only [listCall, listDequeue, dequeCall, hret, hval, if_neg he0, List.getLast?_concat,
        List.dropLast_concat]
      exact ⟨rfl, hrest⟩
  | .peekFront => exact ⟨congrArg some (h.peekFront hclear), h⟩
  | .peekBack => exact ⟨congrArg some (h.peekBack hclear), h⟩
  | .size => exact ⟨congrArg some h.size, h⟩

theorem isDeque_listCreate (prev next val : ℕ → ℕ) : IsDeque (listCreate prev next val) [] where
  size := rfl
  nodup := List.nodup_nil
  addr _ hx := absurd hx List.not_mem_nil
  val _ he := absurd he List.not_mem_nil
  forward hne := absurd rfl hne
  backward hne := absurd rfl hne

/-- From `list_create` on, as long as no call on the empty list uses an end that was left
behind, every call returns what it returns on a deque. -/
theorem list_agrees_with_deque (prev next val : ℕ → ℕ) (cs : List Call)
    (hclear : Steps bothStep (fun b c => Clear b.list c) (Both.start prev next val) cs) :
    Always bothStep Both.Agree (Both.start prev next val) cs := by
  refine always_of_steps (I := fun b => IsDeque b.list b.deque ∧ b.Agree) ?_ (fun b hb => hb.2)
    ⟨isDeque_listCreate prev next val, rfl⟩ hclear
  intro b c t hb hc hstep
  rw [bothStep, Option.ite_none_right_eq_some] at hstep
  obtain ⟨hpos, hstep⟩ := hstep
  have hcall := hb.1.call hpos hc
  cases hstep
  exact ⟨hcall.2, hcall.1⟩

instance Clear.decidable (s : State) : (c : Call) → Decidable (Clear s c)
  | .change (.insertFront _ _) | .change (.enqueue _ _) | .change (.insertBack _ _)
  | .change (.push _ _) => inferInstanceAs (Decidable (_ → _ ∨ _))
  | .change .removeFront | .change .removeBack | .change .pop | .change .dequeue | .peekFront
  | .peekBack => inferInstanceAs (Decidable (_ → _))
  | .change (.removeNode _) | .size => isTrue trivial

/-- Two values are enqueued and dequeued, with a third one pushed and popped in between. -/
theorem list_agrees_with_deque_queue :
    Always bothStep Both.Agree (Both.start (fun _ => 0) (fun _ => 0) fun _ => 0)
      [.change (.enqueue 64 1), .change (.enqueue 96 2), .change .dequeue,
        .change (.push 128 3), .change .pop, .peekBack, .size] :=
  list_agrees_with_deque _ _ _ _ (by decide +kernel)

/-- The only node is popped: the head still points to it. -/
theorem push_pop_peekFront_not_deque :
    ¬ Always bothStep Both.Agree (Both.start (fun _ => 0) (fun _ => 0) fun _ => 0)
      [.change (.push 64 7), .change .pop, .peekFront] := by
  decide +kernel

end Unos.DList
