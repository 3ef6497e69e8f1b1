import Mathlib.Tactic.Common
import Unos.Framebuffer.Model
import Unos.Library.Runs

namespace Unos.Framebuffer

open Unos.Runs Unos.Words

/-- The column of the cursor and the indices that were passed to `fb_write_cell` are on the
screen. -/
structure OnScreen (s : Console) : Prop where
  column : s.fbPosX < fbWidth
  cells : ∀ i ∈ s.cells, 0 ≤ i ∧ i < fbWidth * fbHeight

/-- The cursor is in one of the rows of the screen, or so far below them that the 16 bits of the
position have wrapped onto a cell of the screen again. -/
def Console.InRows (s : Console) : Prop :=
  s.fbPosY < fbHeight ∨
    819 ≤ s.fbPosY ∧ (s.fbPosX + s.fbPosY * fbWidth) % 65536 < fbWidth * fbHeight

def HasRoom (s : Console) : Action → Prop
  | .scroll => True
  | .writeChar c =>
    if c = byte '\n' ∨ c = byte '\r' then True
    else if c = byte '\t' then s.fbPosX + 4 ≤ fbWidth
    else s.InRows

def actStep (s : Console) (a : Action) : Option Console := some (act s a)

instance (s : Console) : Decidable s.InRows := inferInstanceAs (Decidable (_ ∨ _ ∧ _))

instance (s : Console) : (a : Action) → Decidable (HasRoom s a)
  | .scroll => isTrue trivial
  | .writeChar _ => inferInstanceAs (Decidable (ite _ _ _))

variable {s : Console} {c : BitVec 8}

theorem toInt_onScreen_iff (n : ℕ) :
    (0 ≤ (BitVec.ofNat 16 n).toInt ∧ (BitVec.ofNat 16 n).toInt < fbWidth * fbHeight) ↔
      n % 65536 < fbWidth * fbHeight := by
  have hval : (BitVec.ofNat 16 n).toNat = n % 65536 := BitVec.toNat_ofNat n 16
  rw [BitVec.toInt_eq_toNat_cond, hval]
  unfold fbWidth fbHeight
  split_ifs <;> omega

theorem Console.inRows_iff (hx : s.fbPosX < fbWidth) :
    s.InRows ↔ (s.fbPosX + s.fbPosY * fbWidth) % 65536 < fbWidth * fbHeight := by
  unfold Console.InRows
  unfold fbWidth at hx
  unfold fbWidth fbHeight
  by_cases hfar : 819 ≤ s.fbPosY
  · rw [or_iff_right (by omega), and_iff_right hfar]
  · have hmod : (s.fbPosX + s.fbPosY * 80) % 65536 = s.fbPosX + s.fbPosY * 80 :=
      Nat.mod_eq_of_lt (by omega)
    rw [hmod]
    omega

@[simp] theorem fbWriteCell_cells (s : Console) (i : BitVec 16) (c : BitVec 8) :
    (fbWriteCell s i c).cells = s.cells ++ [i.toInt] := rfl

@[simp] theorem wrapLine_cells (s : Console) : (wrapLine s).cells = s.cells := by
  unfold wrapLine
  split_ifs <;> rfl

theorem wrapLine_column_iff : (wrapLine s).fbPosX < fbWidth ↔ s.fbPosX ≤ fbWidth := by
  unfold wrapLine
  split_ifs with hx
  · exact iff_of_true (Nat.zero_lt_succ 79) hx.le
  · exact ⟨Nat.le_of_lt, fun hle => lt_of_le_of_ne hle hx⟩

theorem OnScreen.newline (h : OnScreen s) (hc : c = byte '\n' ∨ c = byte '\r') :
    OnScreen (fbWriteChar s c) := by
  rw [fbWriteChar, if_pos hc]
  constructor
  · rw [wrapLine_column_iff]
    exact Nat.zero_le fbWidth
  · rw [wrapLine_cells]
    exact h.cells

theorem OnScreen.tab_iff (h : OnScreen s) (hc : ¬ (c = byte '\n' ∨ c = byte '\r'))
    (htab : c = byte '\t') : OnScreen (fbWriteChar s c) ↔ s.fbPosX + 4 ≤ fbWidth := by
  have hx := h.column
  have hword : wrap32 (s.fbPosX + 4) = s.fbPosX + 4 := by
    apply wrap32_of_lt
    unfold fbWidth at hx
    omega
  rw [fbWriteChar, if_neg hc, if_pos htab, hword]
  constructor
  · intro hafter
    exact wrapLine_column_iff.mp hafter.column
  · intro hroom
    constructor
    · exact wrapLine_column_iff.mpr hroom
    · rw [wrapLine_cells]
      exact h.cells

theorem OnScreen.printable_iff (h : OnScreen s) (hc : ¬ (c = byte '\n' ∨ c = byte '\r'))
    (htab : c ≠ byte '\t') : OnScreen (fbWriteChar s c) ↔ s.InRows := by
  have hx := h.column
  have hcells : (fbWriteChar s c).cells = s.cells ++ [s.pos.toInt] := by
    rw [fbWriteChar, if_neg hc, if_neg htab, wrapLine_cells]
    rfl
  have hcolumn : (fbWriteChar s c).fbPosX < fbWidth := by
    have hword : wrap32 (s.fbPosX + 1) = s.fbPosX + 1 := by
      apply wrap32_of_lt
      unfold fbWidth at hx
      omega
    rw [fbWriteChar, if_neg hc, if_neg htab, wrapLine_column_iff]
    show wrap32 (s.fbPosX + 1) ≤ fbWidth
    rw [hword]
    exact hx
  rw [Console.inRows_iff hx, ← toInt_onScreen_iff]
  constructor
  · intro hafter
    apply hafter.cells
    rw [hcells]
    exact List.mem_append_right s.cells (List.mem_singleton_self _)
  · intro hindex
    refine ⟨hcolumn, fun i hi => ?_⟩
    rw [hcells, List.mem_append, List.mem_singleton] at hi
    cases hi with
    | inl hbefore => exact h.cells i hbefore
    | inr hlast =>
      rw [hlast]
      exact hindex

theorem OnScreen.scroll (h : OnScreen s) : OnScreen (scroll s) := by
  unfold Framebuffer.scroll
  dsimp only
  split_ifs
  · exact h
  · exact ⟨h.column, h.cells⟩

theorem OnScreen.act_iff (h : OnScreen s) (a : Action) : OnScreen (act s a) ↔ HasRoom s a := by
  cases a with
  | scroll => exact iff_of_true h.scroll trivial
  | writeChar c =>
    rw [act, HasRoom]
    split_ifs with hc htab
    · exact iff_of_true (h.newline hc) trivial
    · exact h.tab_iff hc htab
    · exact h.printable_iff hc htab

theorem fbClear_loop (s : Console) (n : ℕ) :
    let t := (List.range n).foldl (fun s i => fbWriteCell s (BitVec.ofNat 16 i) (byte ' ')) s
    t.fbPosX = s.fbPosX ∧ t.fbPosY = s.fbPosY ∧
      t.cells = s.cells ++ (List.range n).map fun i => (BitVec.ofNat 16 i).toInt := by
  induction n with
  | zero => exact ⟨rfl, rfl, (List.append_nil _).symm⟩
  | succ n ih =>
    obtain ⟨hx, hy, hcells⟩ := ih
    dsimp only at hx hy hcells ⊢
    rw [List.range_succ, List.foldl_append, List.foldl_cons, List.foldl_nil]
    refine ⟨hx, hy, ?_⟩
    rw [fbWriteCell_cells, hcells, List.map_append, List.append_assoc]
    rfl

theorem fbClear_onScreen (hs : s.cells = []) : OnScreen (fbClear s) := by
  obtain ⟨hx, -, hcells⟩ := fbClear_loop { s with fbPosX := 0, fbPosY := 0 } (fbWidth * fbHeight)
  constructor
  · show Console.fbPosX (List.foldl _ _ _) < fbWidth
    rw [hx]
    exact Nat.zero_lt_succ 79
  · intro i hi
    unfold fbClear at hi
    dsimp only at hi hcells
    rw [hcells, hs, List.nil_append, List.mem_map] at hi
    obtain ⟨n, hn, rfl⟩ := hi
    rw [toInt_onScreen_iff]
    exact (Nat.mod_le n 65536).trans_lt (List.mem_range.mp hn)

theorem always_onScreen_iff (h : OnScreen s) (as : List Action) :
    Always actStep OnScreen s as ↔ Steps actStep HasRoom s as := by
  apply always_iff_steps (I := fun _ => True) (fun _ _ _ _ _ _ _ => trivial) ?_ trivial h as
  intro s a t _ h hstep
  rw [← Option.some.inj hstep]
  exact h.act_iff a

/-- After `fb_clear`, the calls keep to the screen exactly when every tab starts in a column with
four more, and every other character but a line break is written in a row of the screen. -/
theorem console_onScreen_iff (s : Console) (calls : List Call) :
    Always actStep OnScreen (fbClear { s with cells := [] }) (calls.flatMap Call.actions) ↔
      Steps actStep HasRoom (fbClear { s with cells := [] }) (calls.flatMap Call.actions) :=
  always_onScreen_iff (fbClear_onScreen rfl) _

/-- A string of 25 line feeds and one more character, and one of a character and 20 tabs. -/
theorem console_not_onScreen :
    ¬ Always actStep OnScreen (fbClear ⟨0, 0, fbWhite, fbBlack, fun _ => 0, 0, []⟩)
        ([Call.fbWriteStr (List.replicate 25 (byte '\n') ++ [byte 'a'])].flatMap Call.actions) ∧
      ¬ Always actStep OnScreen (fbClear ⟨0, 0, fbWhite, fbBlack, fun _ => 0, 0, []⟩)
        ([Call.fbWriteStr (byte 'a' :: List.replicate 20 (byte '\t'))].flatMap Call.actions) := by
  constructor
  · rw [always_onScreen_iff (fbClear_onScreen rfl)]
    decide +kernel
  · rw [always_onScreen_iff (fbClear_onScreen rfl)]
    decide +kernel

end Unos.Framebuffer
