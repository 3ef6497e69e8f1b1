import Unos.Library.Numerals
import Unos.Strings.Model

namespace Unos.Strings

open Unos.ByteMemory Unos.Framebuffer Unos.Numerals

section Loops

variable {m : Mem} {radix : ℕ} {hradix : 1 < radix}

theorem digits_ne_nil (radix : ℕ) (hradix : 1 < radix) (x : ℤ) : digits radix hradix x ≠ [] := by
  rw [digits]
  exact List.cons_ne_nil _ _

theorem digitLoop_eq (m : Mem) (buf i : ℕ) (x : ℤ) :
    digitLoop radix hradix m buf i x =
      (storeBytes m (buf + i) (digits radix hradix x), i + (digits radix hradix x).length) := by
  induction m, i, x using digitLoop.induct radix hradix buf with
  | case1 m i x hx =>
    rw [digitLoop, digits, dif_pos hx, dif_pos hx, storeBytes_cons, storeBytes_nil]
    rfl
  | case2 m i x _ hx ih =>
    rw [digitLoop, digits, dif_neg hx, dif_neg hx, storeBytes_cons, ih, List.length_cons]
    congr 1
    omega

theorem swapLoop_apply (m : Mem) (s e x : ℕ) :
    swapLoop m s e x = if s ≤ x ∧ x ≤ e then m (s + e - x) else m x := by
  induction m, s, e using swapLoop.induct with
  | case1 m s e hse t ih =>
    rw [swapLoop, if_pos hse, ih]
    by_cases hinner : s + 1 ≤ x ∧ x ≤ e - 1
    · rw [if_pos hinner, if_pos (by omega), show s + 1 + (e - 1) - x = s + e - x by omega,
        Function.update_of_ne (by omega), Function.update_of_ne (by omega)]
    · rw [if_neg hinner]
      rcases eq_or_ne x e with rfl | hxe
      · rw [Function.update_self, if_pos (by omega), Nat.add_sub_cancel]
      · rw [Function.update_of_ne hxe]
        rcases eq_or_ne x s with rfl | hxs
        · rw [Function.update_self, if_pos (by omega), Nat.add_sub_cancel_left]
        · rw [Function.update_of_ne hxs, if_neg (by omega)]
  | case2 m s e hse =>
    rw [swapLoop, if_neg hse]
    split_ifs with hx
    · rw [show s + e - x = x by omega]
    · rfl

theorem swapLoop_storeBytes (m : Mem) (a : ℕ) {bs : List (BitVec 8)} (hbs : bs ≠ []) :
    swapLoop (storeBytes m a bs) a (a + (bs.length - 1)) = storeBytes m a bs.reverse := by
  have hlen : 0 < bs.length := List.length_pos_iff.mpr hbs
  funext x
  rw [swapLoop_apply]
  split_ifs with hx
  · obtain ⟨i, rfl⟩ := Nat.exists_eq_add_of_le hx.1
    have hi : i < bs.length := by omega
    rw [show a + (a + (bs.length - 1)) - (a + i) = a + (bs.length - 1 - i) by omega,
      storeBytes_apply m (by omega), storeBytes_apply m (by rwa [List.length_reverse]),
      List.getD_eq_getElem?_getD, List.getD_eq_getElem?_getD, List.getElem?_reverse hi]
  · rw [storeBytes_of_outside (by omega),
      storeBytes_of_outside (by rw [List.length_reverse]; omega)]

theorem uitoa_eq (m : Mem) (val : BitVec 32) (buf : ℕ) :
    uitoa m val buf radix hradix =
      (buf, storeBytes m buf (Framebuffer.uitoa val radix hradix ++ [0])) := by
  rw [uitoa, digitLoop_eq, storeBytes_concat, Framebuffer.uitoa, List.length_reverse]
  simp only [Nat.add_zero, Nat.zero_add, swapLoop_storeBytes _ _ (digits_ne_nil radix hradix _)]

theorem itoa_eq (m : Mem) (val : BitVec 32) (buf : ℕ) :
    itoa m val buf radix hradix =
      (buf, storeBytes m buf (Framebuffer.itoa val radix hradix ++ [0])) := by
  have hne := digits_ne_nil radix hradix val.toInt
  have hlen := List.length_pos_iff.mpr hne
  rw [itoa, Framebuffer.itoa, digitLoop_eq]
  split_ifs with hneg
  · -- the sign is in front of what is reversed
    have hend : buf + (1 + (digits radix hradix val.toInt).length - 1) =
        buf + 1 + ((digits radix hradix val.toInt).length - 1) := by omega
    rw [List.singleton_append, List.cons_append, storeBytes_cons, storeBytes_concat,
      List.length_reverse]
    simp only [hend, swapLoop_storeBytes _ _ hne]
    rw [Nat.add_assoc]
  · rw [List.nil_append, storeBytes_concat, List.length_reverse]
    simp only [Nat.add_zero, Nat.zero_add, swapLoop_storeBytes _ _ hne]

end Loops

/-- The bytes from `a` up to the first zero are `bs`. -/
def StringAt (m : Mem) (a : ℕ) (bs : List (BitVec 8)) : Prop :=
  0 ∉ bs ∧ loadBytes m a (bs.length + 1) = bs ++ [0]

instance (m : Mem) (a : ℕ) (bs : List (BitVec 8)) : Decidable (StringAt m a bs) :=
  inferInstanceAs (Decidable (_ ∧ _))

section Strings

variable {m : Mem} {a : ℕ} {bs cs : List (BitVec 8)}

theorem stringAt_storeBytes (m : Mem) (a : ℕ) (hbs : 0 ∉ bs) :
    StringAt (storeBytes m a (bs ++ [0])) a bs := by
  have hload := loadBytes_storeBytes m a [] (bs ++ [0])
  rw [List.length_append] at hload
  exact ⟨hbs, hload⟩

theorem StringAt.apply_of_lt (h : StringAt m a bs) {i : ℕ} (hi : i < bs.length) :
    m (a + i) = bs[i] := by
  have hget := congrArg (fun l => l[i]?) h.2
  simpa [loadBytes, List.getElem?_append_left hi, hi, Nat.lt_succ_of_lt hi] using hget

theorem StringAt.apply_length (h : StringAt m a bs) : m (a + bs.length) = 0 := by
  have hget := congrArg (fun l => l[bs.length]?) h.2
  simpa [loadBytes] using hget

theorem StringAt.length_le (hb : StringAt m a bs) (hc : StringAt m a cs) :
    cs.length ≤ bs.length := by
  by_contra hlt
  have hi : bs.length < cs.length := Nat.lt_of_not_le hlt
  apply hc.1
  rw [← hb.apply_length, hc.apply_of_lt hi]
  exact List.getElem_mem hi

/-- There is only one string at an address. -/
theorem StringAt.unique (hb : StringAt m a bs) (hc : StringAt m a cs) : bs = cs := by
  have hlen : bs.length = cs.length := Nat.le_antisymm (hc.length_le hb) (hb.length_le hc)
  apply List.ext_getElem hlen
  intro i hi hi'
  rw [← hb.apply_of_lt hi, hc.apply_of_lt hi']

end Strings

def digitValue (c : BitVec 8) : Option ℕ :=
  if byte '0' ≤ c ∧ c ≤ byte '9' then some (c - byte '0').toNat
  else if byte 'a' ≤ c ∧ c ≤ byte 'z' then some (10 + (c - byte 'a').toNat)
  else none

def parse (radix : ℕ) (bs : List (BitVec 8)) : Option ℕ :=
  (bs.mapM digitValue).bind fun ds =>
    if ds ≠ [] ∧ ∀ d ∈ ds, d < radix then some (value radix ds) else none

/-- The shortest string for `n`, without a leading zero. -/
structure IsNumeral (radix n : ℕ) (bs : List (BitVec 8)) : Prop where
  parses : parse radix bs = some n
  leading : bs.head? = some (byte '0') → bs = [byte '0']
  shortest : ∀ cs, parse radix cs = some n → bs.length ≤ cs.length

theorem digitValue_digit {d : ℕ} (hd : d < 36) : digitValue (digit d) = some d := by
  have hall : ∀ d : Fin 36, digitValue (digit (d : ℕ)) = some (d : ℕ) := by decide
  exact hall ⟨d, hd⟩

theorem digit_ne_zero {a : ℤ} (hlow : -10 < a) (hhigh : a < 36) : digit a ≠ 0 := by
  have hall : ∀ k : Fin 45, digit ((k : ℕ) - 9 : ℤ) ≠ 0 := by decide
  have hk := hall ⟨(a + 9).toNat, by omega⟩
  rwa [show (((a + 9).toNat : ℕ) - 9 : ℤ) = a by omega] at hk

theorem mapM_eq_some_iff {α β : Type*} {f : α → Option β} {xs : List α} {ys : List β} :
    xs.mapM f = some ys ↔ xs.map f = ys.map some := by
  induction xs generalizing ys with
  | nil => cases ys <;> simp
  | cons x xs ih =>
    cases ys with
    | nil => simp [Option.bind_eq_some_iff]
    | cons y ys => simp [Option.bind_eq_some_iff, ih]

theorem parse_eq_some_iff {radix n : ℕ} {bs : List (BitVec 8)} :
    parse radix bs = some n ↔ ∃ ds, bs.map digitValue = ds.map some ∧
      (ds ≠ [] ∧ ∀ d ∈ ds, d < radix) ∧ value radix ds = n := by
  simp only [parse, Option.bind_eq_some_iff, mapM_eq_some_iff, Option.ite_none_right_eq_some,
    Option.some.injEq]

section Written

variable {radix : ℕ} {hradix : 1 < radix}

theorem digits_natCast (n : ℕ) :
    digits radix hradix (n : ℤ) = (lowest radix n).map fun d => digit (d : ℕ) := by
  induction n using Nat.strong_induction_on with
  | h n ih =>
    rw [digits, Int.tmod_eq_emod_of_nonneg (Int.natCast_nonneg n),
      Int.tdiv_eq_ediv_of_nonneg (Int.natCast_nonneg n)]
    norm_cast
    rcases Nat.lt_or_ge n radix with hlt | hge
    · rw [lowest_of_lt hlt, dif_pos (Nat.div_eq_of_lt hlt), Nat.mod_eq_of_lt hlt]
      rfl
    · have hdiv : n / radix ≠ 0 := (Nat.div_pos hge (Nat.zero_lt_of_lt hradix)).ne'
      rw [lowest_of_le hradix hge, dif_neg hdiv, List.map_cons,
        ih (n / radix) (Nat.div_lt_self (by omega) hradix)]

theorem isNumeral_digits (h36 : radix ≤ 36) (n : ℕ) :
    IsNumeral radix n (digits radix hradix (n : ℤ)).reverse := by
  have hcanonical := canonical_lowest hradix n
  rw [digits_natCast, ← List.map_reverse]
  have hmap : ((lowest radix n).reverse.map fun d => digit (d : ℕ)).map digitValue =
      (lowest radix n).reverse.map some := by
    rw [List.map_map]
    apply List.map_congr_left
    intro d hd
    exact digitValue_digit ((hcanonical.lt d hd).trans_le h36)
  refine ⟨?_, fun hlead => ?_, fun cs hcs => ?_⟩
  · exact parse_eq_some_iff.mpr
      ⟨_, hmap, ⟨hcanonical.ne_nil, hcanonical.lt⟩, value_lowest radix n⟩
  · have hhead : (lowest radix n).reverse.head? = some 0 := by
      have h := congrArg List.head? hmap
      rw [List.head?_map, hlead, List.head?_map] at h
      cases hfirst : (lowest radix n).reverse.head? with
      | none => simp [hfirst] at h
      | some d =>
        rw [hfirst] at h
        exact (Option.some.inj (Option.some.inj h)) ▸ rfl
    rw [hcanonical.leading hhead]
    rfl
  · obtain ⟨es, hes, ⟨hne, hlt⟩, rfl⟩ := parse_eq_some_iff.mp hcs
    have hlen := congrArg List.length hes
    rw [List.length_map, List.length_map] at hlen
    rw [List.length_map, List.length_reverse, hlen]
    exact length_lowest_le hradix hne hlt

theorem zero_notMem_digits (h36 : radix ≤ 36) (n : ℕ) :
    0 ∉ (digits radix hradix (n : ℤ)).reverse := by
  rw [List.mem_reverse, digits_natCast, List.mem_map]
  rintro ⟨d, hd, hzero⟩
  have hlt := lowest_lt hradix d hd
  exact digit_ne_zero (by omega) (by omega) hzero

/-- Every number is written as its numeral, and nothing else is touched. -/
theorem uitoa_numeral (m : Mem) (val : BitVec 32) (buf radix : ℕ) (hradix : 1 < radix)
    (h36 : radix ≤ 36) : ∃ bs, (uitoa m val buf radix hradix).1 = buf ∧
      StringAt (uitoa m val buf radix hradix).2 buf bs ∧ IsNumeral radix val.toNat bs ∧
      ∀ x, x < buf ∨ buf + bs.length < x → (uitoa m val buf radix hradix).2 x = m x := by
  refine ⟨Framebuffer.uitoa val radix hradix, ?_, ?_, isNumeral_digits h36 val.toNat, ?_⟩
  · rw [uitoa_eq]
  · rw [uitoa_eq]
    exact stringAt_storeBytes m buf (zero_notMem_digits h36 val.toNat)
  · intro x hx
    rw [uitoa_eq]
    apply storeBytes_of_outside
    rw [List.length_append, List.length_singleton]
    omega

theorem uitoa_numeral_hex : ∃ bs, (uitoa (fun _ => 1) 0xBEEF 100 16 (by decide)).1 = 100 ∧
    StringAt (uitoa (fun _ => 1) 0xBEEF 100 16 (by decide)).2 100 bs ∧ IsNumeral 16 0xBEEF bs ∧
    ∀ x, x < 100 ∨ 100 + bs.length < x →
      (uitoa (fun _ => 1) 0xBEEF 100 16 (by decide)).2 x = 1 :=
  uitoa_numeral (fun _ => 1) 0xBEEF 100 16 (by decide) (by decide)

end Written

def parseInt : List (BitVec 8) → Option ℤ
  | [] => none
  | c :: bs =>
    if c = byte '-' then (parse 10 bs).map fun n => -(n : ℤ)
    else (parse 10 (c :: bs)).map fun n => (n : ℤ)

/-- The decimal numeral of `v`; the sign of zero is superfluous too. -/
structure IsDecimal (v : ℤ) (bs : List (BitVec 8)) : Prop where
  parses : parseInt bs = some v
  leading : bs.head? = some (byte '0') → bs = [byte '0']
  signed : bs.head? = some (byte '-') → bs.tail.head? ≠ some (byte '0')

section Signed

variable {m : Mem} {val : BitVec 32} {buf : ℕ} {x : ℤ} {bs : List (BitVec 8)}

theorem digitValue_of_parse {radix n : ℕ} (h : parse radix bs = some n) {c : BitVec 8}
    (hc : c ∈ bs) : digitValue c ≠ none := by
  obtain ⟨ds, hds, -⟩ := parse_eq_some_iff.mp h
  have hmem := List.mem_map_of_mem (f := digitValue) hc
  rw [hds] at hmem
  obtain ⟨d, -, hd⟩ := List.mem_map.mp hmem
  rw [← hd]
  exact Option.some_ne_none d

theorem IsNumeral.isDecimal {n : ℕ} (h : IsNumeral 10 n bs) : IsDecimal n bs := by
  have hsign : bs.head? ≠ some (byte '-') := by
    intro hhead
    exact digitValue_of_parse h.parses (List.mem_of_mem_head? hhead) (by decide)
  refine ⟨?_, h.leading, fun hhead => absurd hhead hsign⟩
  cases bs with
  | nil => exact nomatch h.parses
  | cons c bs =>
    have hc : c ≠ byte '-' := fun hc => hsign (congrArg some hc)
    rw [parseInt, if_neg hc, h.parses]
    rfl

theorem zero_notMem_digits_ten (x : ℤ) : 0 ∉ digits 10 (by decide) x := by
  induction x using digits.induct 10 (by decide) with
  | case1 x ih =>
    have hlow := Int.lt_tmod_of_pos x (b := 10) (by decide)
    have hhigh := Int.tmod_lt_of_pos x (b := 10) (by decide)
    rw [digits, List.mem_cons, not_or]
    refine ⟨(digit_ne_zero hlow (hhigh.trans (by decide))).symm, ?_⟩
    split_ifs with hdiv
    · exact List.not_mem_nil
    · exact ih hdiv

theorem exists_digitValue_none (hx : x < 0) :
    ∃ c ∈ digits 10 (by decide) x, digitValue c = none := by
  induction x using digits.induct 10 (by decide) with
  | case1 x ih =>
    have hlow := Int.lt_tmod_of_pos x (b := ((10 : ℕ) : ℤ)) (by decide)
    have hhigh := Int.tmod_lt_of_pos x (b := ((10 : ℕ) : ℤ)) (by decide)
    have hsum := Int.tmod_add_mul_tdiv x ((10 : ℕ) : ℤ)
    rw [digits]
    by_cases hdiv : x.tdiv ((10 : ℕ) : ℤ) = 0
    · have hall : ∀ k : Fin 9, digitValue (digit ((k : ℕ) - 9 : ℤ)) = none := by decide
      have hk := hall ⟨(x + 9).toNat, by omega⟩
      rw [show (((x + 9).toNat : ℕ) - 9 : ℤ) = x by omega] at hk
      have hmod : x.tmod ((10 : ℕ) : ℤ) = x := by omega
      refine ⟨_, List.mem_cons_self, ?_⟩
      rwa [← hmod] at hk
    · obtain ⟨c, hc, hnone⟩ := ih hdiv (show x.tdiv ((10 : ℕ) : ℤ) < 0 by omega)
      rw [dif_neg hdiv]
      exact ⟨c, List.mem_cons_of_mem _ hc, hnone⟩

theorem itoa_neg (m : Mem) (buf : ℕ) (hneg : val.toInt < 0)
    (h : StringAt (itoa m val buf 10 (by decide)).2 buf bs) : parseInt bs = none := by
  rw [itoa_eq, Framebuffer.itoa, if_pos ⟨hneg, rfl⟩, List.singleton_append] at h
  have hzero : 0 ∉ byte '-' :: (digits 10 (by decide) val.toInt).reverse := by
    rw [List.mem_cons, List.mem_reverse, not_or]
    exact ⟨by decide, zero_notMem_digits_ten val.toInt⟩
  rw [h.unique (stringAt_storeBytes m buf hzero), parseInt, if_pos rfl]
  cases hparse : parse 10 (digits 10 (by decide) val.toInt).reverse with
  | none => rfl
  | some n =>
    obtain ⟨c, hc, hnone⟩ := exists_digitValue_none hneg
    exact absurd hnone (digitValue_of_parse hparse (List.mem_reverse.mpr hc))

theorem itoa_nonneg (m : Mem) (buf : ℕ) (hval : 0 ≤ val.toInt) :
    ∃ bs, StringAt (itoa m val buf 10 (by decide)).2 buf bs ∧ IsDecimal val.toInt bs := by
  obtain ⟨n, hn⟩ := Int.eq_ofNat_of_zero_le hval
  refine ⟨(digits 10 (by decide) (n : ℤ)).reverse, ?_, ?_⟩
  · rw [itoa_eq, Framebuffer.itoa, if_neg (by omega), List.nil_append, hn]
    exact stringAt_storeBytes m buf (zero_notMem_digits (by decide) n)
  · rw [hn]
    exact (isNumeral_digits (by decide) n).isDecimal

/-- The numbers that are written as numerals are those without a sign. -/
theorem itoa_decimal_iff (m : Mem) (val : BitVec 32) (buf : ℕ) :
    (∃ bs, (itoa m val buf 10 (by decide)).1 = buf ∧
        StringAt (itoa m val buf 10 (by decide)).2 buf bs ∧ IsDecimal val.toInt bs) ↔
      0 ≤ val.toInt := by
  constructor
  · rintro ⟨bs, -, hbs, hdecimal⟩
    by_contra hneg
    have hnone := itoa_neg m buf (not_le.mp hneg) hbs
    rw [hdecimal.parses] at hnone
    exact Option.some_ne_none _ hnone
  · intro hval
    obtain ⟨bs, hbs, hdecimal⟩ := itoa_nonneg m buf hval
    exact ⟨bs, by rw [itoa_eq], hbs, hdecimal⟩

/-- Of -10 only the zero is written as a digit. -/
theorem not_itoa_decimal : ¬ ∀ (m : Mem) (val : BitVec 32) (buf : ℕ),
    ∃ bs, (itoa m val buf 10 (by decide)).1 = buf ∧
      StringAt (itoa m val buf 10 (by decide)).2 buf bs ∧ IsDecimal val.toInt bs := by
  intro h
  obtain ⟨bs, -, hbs, hdecimal⟩ := h (fun _ => 0) (-10) 0
  have hnone := itoa_neg (fun _ => 0) 0 (by decide) hbs
  rw [hdecimal.parses] at hnone
  exact Option.some_ne_none _ hnone

example : (itoa (fun _ => 0) (-10) 0 10 (by decide)).2 0 = byte '-' ∧
    (itoa (fun _ => 0) (-10) 0 10 (by decide)).2 1 = byte '/' ∧
    (itoa (fun _ => 0) (-10) 0 10 (by decide)).2 2 = byte '0' := by
  decide +kernel

end Signed

end Unos.Strings
