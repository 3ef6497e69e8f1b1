import Unos.Strings.Model

namespace Unos.Strings

open Unos.Framebuffer

/-- The characters that are written, the number of arguments that are taken, and the number of
characters that are read from the format. -/
structure Scan where
  chars : List (BitVec 8)
  taken : ℕ
  reads : ℕ

def directiveReads (format : List (BitVec 8)) : ℕ :=
  let (c, format) := next format
  let (n, c) := if c = byte '0' then (2, (next format).1) else (1, c)
  if byte '0' ≤ c ∧ c ≤ byte '9' then n + 1 else n

/-- `printf` with all that it reads; every directive takes an argument. -/
def printfScan (memory : BitVec 32 → List (BitVec 8)) (format : List (BitVec 8))
    (arg : ℕ → BitVec 32) : Scan :=
  match format with
  | [] => ⟨[], 0, 1⟩
  | c :: format =>
    if c = 0 then ⟨[], 0, 1⟩
    else if c ≠ byte '%' then
      let s := printfScan memory format arg
      ⟨c :: s.chars, s.taken, s.reads + 1⟩
    else
      let s := printfScan memory (directive format).2 fun k => arg (k + 1)
      ⟨(directive format).1.convert memory (arg 0) ++ s.chars, s.taken + 1,
        s.reads + directiveReads format + 1⟩
  termination_by format.length
  decreasing_by
  · exact Nat.lt_succ_self _
  · exact Nat.lt_succ_of_le (directive_length _)

theorem printfScan_chars (memory : BitVec 32 → List (BitVec 8)) (format : List (BitVec 8))
    (arg : ℕ → BitVec 32) :
    (printfScan memory format arg).chars = printfChars memory format arg := by
  induction format, arg using printfChars.induct with
  | case1 arg => rw [printfScan, printfChars]
  | case2 arg format => rw [printfScan, printfChars, if_pos rfl, if_pos rfl]
  | case3 arg c format hzero hc ih =>
    rw [printfScan, printfChars, if_neg hzero, if_neg hzero, if_pos hc, if_pos hc, ← ih]
  | case4 arg c format hzero hc ih =>
    rw [printfScan, printfChars, if_neg hzero, if_neg hzero, if_neg hc, if_neg hc, ← ih]

inductive Piece
  | literal (c : BitVec 8)
  | percent
  | conversion (d : Directive)
  | truncated

def Piece.isConversion : Piece → Bool
  | .conversion _ => true
  | _ => false

/-- All but `%%` and a specification that the format ends in. -/
def Piece.regular : Piece → Bool
  | .literal _ | .conversion _ => true
  | .percent | .truncated => false

def flag (format : List (BitVec 8)) : Bool × List (BitVec 8) :=
  if format.head? = some (byte '0') then (true, format.tail) else (false, format)

def width : List (BitVec 8) → ℕ × List (BitVec 8)
  | [] => (0, [])
  | c :: format =>
    if byte '0' ≤ c ∧ c ≤ byte '9' then ((c - byte '0').toNat, format) else (0, c :: format)

def specification (format : List (BitVec 8)) : Option (Directive × List (BitVec 8)) :=
  match width (flag format).2 with
  | (_, []) => none
  | (pad, c :: rest) => some (⟨(flag format).1, pad, c⟩, rest)

def IsDigit (c : BitVec 8) : Prop := byte '0' ≤ c ∧ c ≤ byte '9'

theorem flag_cases (format : List (BitVec 8)) :
    (∃ rest, format = byte '0' :: rest ∧ flag format = (true, rest)) ∨
      (format.head? ≠ some (byte '0') ∧ flag format = (false, format)) := by
  by_cases hhead : format.head? = some (byte '0')
  · obtain ⟨rest, rfl⟩ := List.head?_eq_some_iff.mp hhead
    exact Or.inl ⟨rest, rfl, if_pos hhead⟩
  · exact Or.inr ⟨hhead, if_neg hhead⟩

theorem width_cases {format rest : List (BitVec 8)} {pad : ℕ} {c : BitVec 8}
    (h : width format = (pad, c :: rest)) :
    (format = c :: rest ∧ pad = 0 ∧ ¬ IsDigit c) ∨
      ∃ n, format = n :: c :: rest ∧ pad = (n - byte '0').toNat ∧ IsDigit n := by
  cases format with
  | nil => exact nomatch h
  | cons n format =>
    rw [width] at h
    split_ifs at h with hdigit
    · cases h
      exact Or.inr ⟨n, rfl, rfl, hdigit⟩
    · cases h
      exact Or.inl ⟨rfl, rfl, hdigit⟩

theorem specification_cases {format rest : List (BitVec 8)} {d : Directive}
    (h : specification format = some (d, rest)) :
    (∃ c, format = c :: rest ∧ d = ⟨false, 0, c⟩ ∧ c ≠ byte '0' ∧ ¬ IsDigit c) ∨
    (∃ c, format = byte '0' :: c :: rest ∧ d = ⟨true, 0, c⟩ ∧ ¬ IsDigit c) ∨
    (∃ n c, format = n :: c :: rest ∧ d = ⟨false, (n - byte '0').toNat, c⟩ ∧ n ≠ byte '0' ∧
      IsDigit n) ∨
    ∃ n c, format = byte '0' :: n :: c :: rest ∧ d = ⟨true, (n - byte '0').toNat, c⟩ ∧
      IsDigit n := by
  unfold specification at h
  split at h
  · exact nomatch h
  · next pad c rest' hwidth =>
    cases h
    rcases flag_cases format with ⟨tail, rfl, hflag⟩ | ⟨hhead, hflag⟩
    · rw [hflag] at hwidth ⊢
      rcases width_cases hwidth with ⟨rfl, rfl, hc⟩ | ⟨n, rfl, rfl, hn⟩
      · exact Or.inr (Or.inl ⟨c, rfl, rfl, hc⟩)
      · exact Or.inr (Or.inr (Or.inr ⟨n, c, rfl, rfl, hn⟩))
    · rw [hflag] at hwidth ⊢
      rcases width_cases hwidth with ⟨rfl, rfl, hc⟩ | ⟨n, rfl, rfl, hn⟩
      · exact Or.inl ⟨c, rfl, rfl, fun hzero => hhead (congrArg some hzero), hc⟩
      · exact Or.inr (Or.inr
          (Or.inl ⟨n, c, rfl, rfl, fun hzero => hhead (congrArg some hzero), hn⟩))

theorem specification_length {format rest : List (BitVec 8)} {d : Directive}
    (h : specification format = some (d, rest)) : rest.length < format.length := by
  rcases specification_cases h with
    ⟨c, rfl, -⟩ | ⟨c, rfl, -⟩ | ⟨n, c, rfl, -⟩ | ⟨n, c, rfl, -⟩
  all_goals
    simp only [List.length_cons]
    omega

def pieces : List (BitVec 8) → List Piece
  | [] => []
  | c :: format =>
    if c ≠ byte '%' then .literal c :: pieces format
    else if format.head? = some (byte '%') then .percent :: pieces format.tail
    else
      match _h : specification format with
      | none => [.truncated]
      | some (d, rest) => .conversion d :: pieces rest
  termination_by format => format.length
  decreasing_by
  · exact Nat.lt_succ_self _
  · exact Nat.lt_succ_of_le (List.tail_sublist format).length_le
  · exact (specification_length _h).trans (Nat.lt_succ_self _)

/-- Literals are written as they are, in their order. -/
def Writes : List Piece → List (BitVec 8) → Prop
  | [], out => out = []
  | .literal c :: ps, out => ∃ rest, out = c :: rest ∧ Writes ps rest
  | _ :: ps, out => ∃ block rest, out = block ++ rest ∧ Writes ps rest

/-- The scan stays inside the format, takes an argument for each conversion and none for anything
else, and writes the literals. -/
structure Proper (format : CString) (s : Scan) : Prop where
  reads : s.reads ≤ format.bytes.length + 1
  taken : s.taken = (pieces format.bytes).countP Piece.isConversion
  writes : Writes (pieces format.bytes) s.chars

section Facts

variable {format rest after : List (BitVec 8)} {d : Directive}

theorem directive_percent (format : List (BitVec 8)) :
    directive (byte '%' :: format) = (⟨false, 0, byte '%'⟩, format) := rfl

theorem directive_of_specification (h : specification format = some (d, rest))
    (after : List (BitVec 8)) :
    directive (format ++ after) = (d, rest ++ after) ∧
      directiveReads (format ++ after) + rest.length = format.length := by
  rcases specification_cases h with ⟨c, rfl, rfl, hc, hdigit⟩ | ⟨c, rfl, rfl, hdigit⟩ |
    ⟨n, c, rfl, rfl, hn, hdigit⟩ | ⟨n, c, rfl, rfl, hdigit⟩
  · have hnot : ¬ (byte '0' ≤ c ∧ c ≤ byte '9') := hdigit
    simp [directive, directiveReads, next, hc, hnot]
    omega
  · have hnot : ¬ (byte '0' ≤ c ∧ c ≤ byte '9') := hdigit
    simp [directive, directiveReads, next, hnot]
    omega
  · simp [directive, directiveReads, next, hn, hdigit.1, hdigit.2]
    omega
  · simp [directive, directiveReads, next, hdigit.1, hdigit.2]
    omega

theorem specification_suffix (h : specification format = some (d, rest)) : rest <:+ format := by
  rcases specification_cases h with
    ⟨c, rfl, -⟩ | ⟨c, rfl, -⟩ | ⟨n, c, rfl, -⟩ | ⟨n, c, rfl, -⟩
  · exact List.suffix_cons c rest
  · exact ⟨[byte '0', c], rfl⟩
  · exact ⟨[n, c], rfl⟩
  · exact ⟨[byte '0', n, c], rfl⟩

end Facts

section Pieces

variable {memory : BitVec 32 → List (BitVec 8)} {format after : List (BitVec 8)} {c : BitVec 8}

theorem printfScan_literal (hzero : c ≠ 0) (hc : c ≠ byte '%') (arg : ℕ → BitVec 32) :
    printfScan memory (c :: format) arg =
      ⟨c :: (printfScan memory format arg).chars, (printfScan memory format arg).taken,
        (printfScan memory format arg).reads + 1⟩ := by
  rw [printfScan, if_neg hzero, if_pos hc]

theorem printfScan_directive (arg : ℕ → BitVec 32) :
    printfScan memory (byte '%' :: format) arg =
      ⟨(directive format).1.convert memory (arg 0) ++
          (printfScan memory (directive format).2 fun k => arg (k + 1)).chars,
        (printfScan memory (directive format).2 fun k => arg (k + 1)).taken + 1,
        (printfScan memory (directive format).2 fun k => arg (k + 1)).reads +
          directiveReads format + 1⟩ := by
  rw [printfScan, if_neg (by decide), if_neg (not_not.mpr rfl)]

theorem pieces_literal (hc : c ≠ byte '%') :
    pieces (c :: format) = .literal c :: pieces format := by
  rw [pieces, if_pos hc]

theorem pieces_percent (format : List (BitVec 8)) :
    pieces (byte '%' :: byte '%' :: format) = .percent :: pieces format := by
  rw [pieces, if_neg (not_not.mpr rfl), if_pos List.head?_cons, List.tail_cons]

theorem pieces_truncated (hpercent : format.head? ≠ some (byte '%'))
    (hspec : specification format = none) : pieces (byte '%' :: format) = [.truncated] := by
  rw [pieces, if_neg (not_not.mpr rfl), if_neg hpercent]
  split
  · rfl
  · next hsome => exact nomatch hspec.symm.trans hsome

theorem pieces_conversion {rest : List (BitVec 8)} {d : Directive}
    (hpercent : format.head? ≠ some (byte '%')) (hspec : specification format = some (d, rest)) :
    pieces (byte '%' :: format) = .conversion d :: pieces rest := by
  rw [pieces, if_neg (not_not.mpr rfl), if_neg hpercent]
  split
  · next hnone => exact nomatch hspec.symm.trans hnone
  · next hsome =>
    cases hspec.symm.trans hsome
    rfl

theorem countP_le_taken (memory : BitVec 32 → List (BitVec 8)) (hzero : 0 ∉ format)
    (after : List (BitVec 8)) (arg : ℕ → BitVec 32) :
    (pieces format).countP Piece.isConversion +
        (pieces format).countP (fun p => !p.regular) ≤
      (printfScan memory (format ++ 0 :: after) arg).taken := by
  induction format using pieces.induct generalizing arg with
  | case1 =>
    rw [pieces]
    exact Nat.zero_le _
  | case2 c format hc ih =>
    rw [List.mem_cons, not_or] at hzero
    rw [pieces_literal hc, List.cons_append, printfScan_literal (Ne.symm hzero.1) hc]
    exact ih hzero.2 arg
  | case3 c format hc hpercent ih =>
    obtain rfl := not_not.mp hc
    obtain ⟨rest, rfl⟩ := List.head?_eq_some_iff.mp hpercent
    have hrest : 0 ∉ rest := fun h => hzero (List.mem_cons_of_mem _ (List.mem_cons_of_mem _ h))
    have hle := ih hrest fun k => arg (k + 1)
    rw [pieces_percent, List.cons_append, printfScan_directive, List.cons_append, directive_percent]
    rw [List.countP_cons_of_neg Bool.false_ne_true, List.countP_cons_of_pos rfl]
    exact Nat.succ_le_succ hle
  | case4 c format hc hpercent hspec =>
    obtain rfl := not_not.mp hc
    rw [pieces_truncated hpercent hspec, List.cons_append, printfScan_directive]
    exact Nat.le_add_left 1 _
  | case5 c format hc hpercent d rest hspec ih =>
    obtain rfl := not_not.mp hc
    have hrest : 0 ∉ rest := fun h =>
      hzero (List.mem_cons_of_mem _ ((specification_suffix hspec).subset h))
    have hle := ih hrest fun k => arg (k + 1)
    rw [pieces_conversion hpercent hspec, List.cons_append, printfScan_directive,
      (directive_of_specification hspec _).1, List.countP_cons_of_pos rfl,
      List.countP_cons_of_neg Bool.false_ne_true]
    dsimp only
    omega

theorem printfScan_regular (memory : BitVec 32 → List (BitVec 8)) (hzero : 0 ∉ format)
    (hregular : (pieces format).all Piece.regular) (after : List (BitVec 8))
    (arg : ℕ → BitVec 32) :
    (printfScan memory (format ++ 0 :: after) arg).reads = format.length + 1 ∧
      (printfScan memory (format ++ 0 :: after) arg).taken =
        (pieces format).countP Piece.isConversion ∧
      Writes (pieces format) (printfScan memory (format ++ 0 :: after) arg).chars := by
  induction format using pieces.induct generalizing arg with
  | case1 =>
    rw [List.nil_append, printfScan, if_pos rfl, pieces]
    exact ⟨rfl, rfl, rfl⟩
  | case2 c format hc ih =>
    rw [List.mem_cons, not_or] at hzero
    rw [pieces_literal hc] at hregular ⊢
    rw [List.cons_append, printfScan_literal (Ne.symm hzero.1) hc]
    obtain ⟨hreads, htaken, hwrites⟩ := ih hzero.2 hregular arg
    exact ⟨congrArg (· + 1) hreads, htaken, _, rfl, hwrites⟩
  | case3 c format hc hpercent ih =>
    obtain rfl := not_not.mp hc
    obtain ⟨rest, rfl⟩ := List.head?_eq_some_iff.mp hpercent
    rw [pieces_percent] at hregular
    exact nomatch hregular
  | case4 c format hc hpercent hspec =>
    obtain rfl := not_not.mp hc
    rw [pieces_truncated hpercent hspec] at hregular
    exact nomatch hregular
  | case5 c format hc hpercent d rest hspec ih =>
    obtain rfl := not_not.mp hc
    have hrest : 0 ∉ rest := fun h =>
      hzero (List.mem_cons_of_mem _ ((specification_suffix hspec).subset h))
    obtain ⟨hdirective, hlength⟩ := directive_of_specification hspec (0 :: after)
    rw [pieces_conversion hpercent hspec] at hregular ⊢
    rw [List.cons_append, printfScan_directive, hdirective, List.countP_cons_of_pos rfl]
    obtain ⟨hreads, htaken, hwrites⟩ := ih hrest hregular fun k => arg (k + 1)
    refine ⟨?_, congrArg (· + 1) htaken, _, _, rfl, hwrites⟩
    rw [List.length_cons]
    dsimp only
    omega

/-- The scan writes what `printf` does, and it is proper for the formats of literals and complete
conversions. -/
theorem printfScan_proper_iff (memory : BitVec 32 → List (BitVec 8)) (format : CString)
    (after : List (BitVec 8)) (arg : ℕ → BitVec 32) :
    (printfScan memory (format.object ++ after) arg).chars =
        printfChars memory (format.object ++ after) arg ∧
      (Proper format (printfScan memory (format.object ++ after) arg) ↔
        ∀ p ∈ pieces format.bytes, p.regular = true) := by
  refine ⟨printfScan_chars memory _ arg, ?_⟩
  rw [CString.object, List.append_assoc, List.singleton_append]
  constructor
  · intro h
    have hle := countP_le_taken memory format.nonzero after arg
    rw [h.taken] at hle
    have hnone : (pieces format.bytes).countP (fun p => !p.regular) = 0 := by omega
    intro p hp
    simpa using List.countP_eq_zero.mp hnone p hp
  · intro h
    obtain ⟨hreads, htaken, hwrites⟩ :=
      printfScan_regular memory format.nonzero (List.all_eq_true.mpr h) after arg
    exact ⟨hreads.le, htaken, hwrites⟩

/-- Behind a percent sign at the end, the scan takes the terminator for a conversion character and
reads on. -/
theorem not_printfScan_proper : ¬ ∀ (memory : BitVec 32 → List (BitVec 8)) (format : CString)
    (after : List (BitVec 8)) (arg : ℕ → BitVec 32),
    Proper format (printfScan memory (format.object ++ after) arg) := by
  intro h
  have hreads := (h (fun _ => []) ⟨[byte '%'], by decide, by decide⟩ [] fun _ => 0).reads
  exact absurd hreads (by decide +kernel)

example : (printfScan (fun _ => []) ("100%%".toList.map byte ++ [0]) fun _ => 0).taken = 1 := by
  decide +kernel

end Pieces

end Unos.Strings
