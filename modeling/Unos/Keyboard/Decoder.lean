import Mathlib.Algebra.Ring.Parity
import Mathlib.Data.List.Induction
import Unos.Keyboard.Model

namespace Unos.Keyboard

open Unos.Framebuffer Unos.Runs

/-- The key, whether the prefix `0xE0` is in front of it, and whether it is pressed. -/
structure Event where
  code : ℕ
  prefixed : Bool
  make : Bool

def event (previous b : BitVec 8) : Event := ⟨b.toNat % 128, previous = 0xE0, b.toNat < 128⟩

def eventsFrom : BitVec 8 → List (BitVec 8) → List Event
  | _, [] => []
  | previous, b :: bytes =>
    (if b = 0xE0 then [] else [event previous b]) ++ eventsFrom b bytes

def events (bytes : List (BitVec 8)) : List Event := eventsFrom 0 bytes

/-- The last event of the key, with or without the prefix, was a make code. -/
def held (es : List Event) (code : ℕ) (prefixed : Bool) : Bool :=
  match (es.filter fun e => e.code = code ∧ e.prefixed = prefixed).getLast? with
  | some e => e.make
  | none => false

def capsMakes (es : List Event) : ℕ := es.countP fun e => e.code = keyCapslock ∧ e.make

def shiftHeld (es : List Event) : Bool := held es keyShiftL false || held es keyShiftR false

def upperCase (es : List Event) : Bool := decide (Odd (capsMakes es)) ^^ shiftHeld es

def letterKeys : List (ℕ × Char) :=
  (List.range' 0x10 10).zip "qwertyuiop".toList ++ (List.range' 0x1E 9).zip "asdfghjkl".toList ++
    (List.range' 0x2C 7).zip "zxcvbnm".toList

section Events

variable {bytes : List (BitVec 8)} {es : List Event} {e : Event} {code : ℕ} {prefixed : Bool}

theorem eventsFrom_concat (previous b : BitVec 8) : eventsFrom previous (bytes ++ [b]) =
    eventsFrom previous bytes ++
      if b = 0xE0 then [] else [event (bytes.getLast?.getD previous) b] := by
  induction bytes generalizing previous with
  | nil => exact List.append_nil _
  | cons c bytes ih =>
    rw [List.cons_append, eventsFrom, eventsFrom, ih, List.append_assoc, List.getLast?_cons,
      Option.getD_some]

theorem events_concat (bytes : List (BitVec 8)) (b : BitVec 8) : events (bytes ++ [b]) =
    events bytes ++ if b = 0xE0 then [] else [event (bytes.getLast?.getD 0) b] :=
  eventsFrom_concat 0 b

theorem held_concat (es : List Event) (e : Event) (code : ℕ) (prefixed : Bool) :
    held (es ++ [e]) code prefixed =
      if e.code = code ∧ e.prefixed = prefixed then e.make else held es code prefixed := by
  unfold held
  rw [List.filter_append]
  split_ifs with he
  · rw [List.filter_cons_of_pos (by simpa using he), List.filter_nil, List.getLast?_concat]
  · rw [List.filter_cons_of_neg (by simpa using he), List.filter_nil, List.append_nil]

theorem capsMakes_concat (es : List Event) (e : Event) : capsMakes (es ++ [e]) =
    capsMakes es + if e.code = keyCapslock ∧ e.make then 1 else 0 := by
  rw [capsMakes, List.countP_append, List.countP_cons, List.countP_nil, Nat.zero_add]
  simp only [decide_eq_true_eq]
  rfl

end Events

section Bytes

theorem prefix_lost : ∀ c : BitVec 8, (c.setWidth 32 ||| 0xE000).setWidth 8 = c := by
  decide +kernel

theorem makecode_eq : ∀ c : BitVec 8, (c &&& 0x7F).toNat = c.toNat % 128 := by
  decide +kernel

theorem break_iff : ∀ c : BitVec 8, c &&& 0x80 ≠ 0 ↔ 128 ≤ c.toNat := by
  decide +kernel

def column (prefixed : Bool) : ℕ := if prefixed then 3 else 2

theorem keyboardCb_eq (s : State) {c : BitVec 8} (hc : c ≠ 0xE0) : keyboardCb s c =
    if keyPrintScreen < c.toNat % 128 then some { s with extcode := false }
    else if 128 ≤ c.toNat then
      { s with extcode := false }.setChar (c.toNat % 128) (column s.extcode) (flag false)
    else press { s with extcode := false } (c.toNat % 128) (column s.extcode) := by
  have hcode : (if s.extcode then (c.setWidth 32 ||| 0xE000).setWidth 8 else c) = c := by
    rw [prefix_lost, ite_self]
  have hprint : ¬ c.toNat % 128 = codePrintScreenDown := by
    rw [codePrintScreenDown]
    omega
  simp only [keyboardCb, if_neg hc, hcode, makecode_eq, if_neg hprint, break_iff]
  rfl

end Bytes

def Table (keymap : List (List (BitVec 8))) (es : List Event) : Prop :=
  ∀ k c, keyChars[k]? = some c →
    keymap[k]? = some [c.1, c.2, flag (held es k false), flag (held es k true)]

section Table

variable {s : State} {es : List Event} {k : ℕ} {c : BitVec 8 × BitVec 8} {prefixed make : Bool}

theorem exists_keyChars (hk : k ≤ keyPrintScreen) : ∃ c, keyChars[k]? = some c :=
  ⟨_, List.getElem?_eq_getElem (Nat.lt_of_le_of_lt hk (by decide))⟩

theorem Table.char_chars (h : Table s.keymap es) (hk : keyChars[k]? = some c) (b : Bool) :
    s.char k b.toNat = some (if b then c.2 else c.1) := by
  rw [State.char, h k c hk]
  cases b <;> rfl

theorem Table.char_column (h : Table s.keymap es) (hk : keyChars[k]? = some c)
    (prefixed : Bool) : s.char k (column prefixed) = some (flag (held es k prefixed)) := by
  rw [State.char, h k c hk]
  cases prefixed <;> rfl

theorem Table.setChar (h : Table s.keymap es) (hk : keyChars[k]? = some c)
    (prefixed make : Bool) : ∃ m, s.setChar k (column prefixed) (flag make) =
      some { s with keymap := m } ∧ Table m (es ++ [⟨k, prefixed, make⟩]) := by
  have hrow := h k c hk
  obtain ⟨hlt, -⟩ := List.getElem?_eq_some_iff.mp hrow
  have hcolumn : column prefixed < 4 := by cases prefixed <;> decide
  refine ⟨s.keymap.set k ([c.1, c.2, flag (held es k false), flag (held es k true)].set
    (column prefixed) (flag make)), ?_, fun i d hi => ?_⟩
  · rw [State.setChar, hrow, Option.bind_some, if_pos (by exact hcolumn)]
  · rcases eq_or_ne k i with rfl | hne
    · cases hk.symm.trans hi
      rw [List.getElem?_set_self hlt, held_concat, held_concat]
      cases prefixed <;> simp [column]
    · rw [List.getElem?_set_ne hne, h i d hi, held_concat, held_concat]
      simp only [hne, false_and, if_false]

theorem Table.shiftState (h : Table s.keymap es) : shiftState s = some (shiftHeld es) := by
  have hleft := h.char_column (k := keyShiftL) rfl false
  have hright := h.char_column (k := keyShiftR) rfl false
  rw [Keyboard.shiftState, shiftHeld, show (2 : ℕ) = column false from rfl, hleft, hright]
  cases held es keyShiftL false <;> cases held es keyShiftR false <;> rfl

end Table

section Press

variable {s : State} {es : List Event} {k : ℕ} {c : BitVec 8 × BitVec 8} {prefixed : Bool}

theorem toggle_fields (s : State) (k : ℕ) : (s.toggle k).keymap = s.keymap ∧
    (s.toggle k).extcode = s.extcode ∧ (s.toggle k).written = s.written ∧
    (s.toggle k).capslock = (s.capslock != decide (k = keyCapslock)) := by
  unfold State.toggle
  split_ifs with hnum hcaps hscr
  · simp [hnum, keyNumlock, keyCapslock]
  · simp [hcaps]
  · simp [hcaps]
  · simp [hcaps]

/-- The character that a pressed key writes, if it has one. -/
def typed (es : List Event) (capslock : Bool) (k : ℕ) (c : BitVec 8 × BitVec 8)
    (prefixed : Bool) : List (BitVec 8) :=
  let shift := (capslock && isLower c.1) != shiftHeld es
  let ch := if (prefixed ∧ k ≠ keySlash) ∨ shift then c.2 else c.1
  if ch = inv then [] else [ch]

theorem Table.capsShift (h : Table s.keymap es) (hk : keyChars[k]? = some c) :
    capsShift s k = some (s.capslock && isLower c.1) := by
  have hchar : s.char k 0 = some c.1 := h.char_chars hk false
  rw [Keyboard.capsShift, hchar]
  cases s.capslock <;> rfl

theorem Table.writeKey (h : Table s.keymap es) (hk : keyChars[k]? = some c) (prefixed : Bool) :
    writeKey s k (column prefixed) =
      some { s with written := s.written ++ typed es s.capslock k c prefixed } := by
  have hshift : (if shiftHeld es then !(s.capslock && isLower c.1)
      else s.capslock && isLower c.1) = ((s.capslock && isLower c.1) != shiftHeld es) := by
    cases shiftHeld es <;> simp
  have hcolumn : column prefixed = 3 ↔ prefixed = true := by cases prefixed <;> decide
  have hindex : ∀ shift : Bool, (if column prefixed = 3 ∧ k ≠ keySlash then 1 else shift.toNat) =
      (decide (prefixed = true ∧ k ≠ keySlash) || shift).toNat := by
    intro shift
    simp only [hcolumn]
    split_ifs with hext
    · rw [decide_eq_true hext, Bool.true_or]
      rfl
    · rw [decide_eq_false hext, Bool.false_or]
  simp only [Keyboard.writeKey, h.capsShift hk, h.shiftState, Option.bind_some, hshift, hindex,
    h.char_chars hk, typed, Bool.or_eq_true, decide_eq_true_eq]
  split_ifs <;> simp

theorem Table.press (h : Table s.keymap es) (hk : keyChars[k]? = some c) (prefixed : Bool) :
    ∃ t, press s k (column prefixed) = some t ∧
      Table t.keymap (es ++ [⟨k, prefixed, true⟩]) ∧ t.extcode = s.extcode ∧
      t.capslock = (s.capslock != decide (k = keyCapslock)) ∧
      t.written = s.written ++ typed (es ++ [⟨k, prefixed, true⟩]) t.capslock k c prefixed := by
  obtain ⟨m, hset, htable⟩ := h.setChar hk prefixed true
  obtain ⟨hkeymap, hextcode, hwritten, hcapslock⟩ := toggle_fields { s with keymap := m } k
  have htoggled : Table (State.toggle { s with keymap := m } k).keymap
      (es ++ [⟨k, prefixed, true⟩]) := by
    rw [hkeymap]
    exact htable
  rw [Keyboard.press, hset]
  refine ⟨_, htoggled.writeKey hk prefixed, htoggled, hextcode, hcapslock, ?_⟩
  exact congrArg (· ++ _) hwritten

end Press

/-- What the decoder knows after `bytes`. -/
structure Decodes (s : State) (bytes : List (BitVec 8)) : Prop where
  table : Table s.keymap (events bytes)
  extcode : s.extcode = decide (bytes.getLast?.getD 0 = 0xE0)
  capslock : s.capslock = decide (Odd (capsMakes (events bytes)))

section Runs

variable {s : State} {bytes : List (BitVec 8)} {b : BitVec 8} {k : ℕ} {c : Char}

theorem Table.ignore {keymap : List (List (BitVec 8))} {es : List Event} {e : Event}
    (h : Table keymap es) (he : keyPrintScreen < e.code) : Table keymap (es ++ [e]) := by
  intro k c hk
  obtain ⟨hlt, -⟩ := List.getElem?_eq_some_iff.mp hk
  have hle : k ≤ keyPrintScreen := Nat.le_of_lt_succ (Nat.lt_of_lt_of_le hlt (by decide))
  have hne : e.code ≠ k := by omega
  rw [h k c hk, held_concat, held_concat, if_neg fun hek => hne hek.1,
    if_neg fun hek => hne hek.1]

theorem Decodes.events_concat (h : Decodes s bytes) (hb : b ≠ 0xE0) :
    events (bytes ++ [b]) = events bytes ++ [⟨b.toNat % 128, s.extcode, b.toNat < 128⟩] := by
  rw [Keyboard.events_concat, if_neg hb, event, h.extcode]

theorem decodes_start : Decodes start [] := by
  refine ⟨fun k c hk => ?_, rfl, by decide⟩
  rw [start, List.getElem?_map, hk]
  rfl

/-- One byte. -/
theorem Decodes.step (h : Decodes s bytes) (b : BitVec 8) :
    ∃ t, keyboardCb s b = some t ∧ Decodes t (bytes ++ [b]) := by
  by_cases hb : b = 0xE0
  · have hevents : events (bytes ++ [b]) = events bytes := by
      rw [Keyboard.events_concat, if_pos hb, List.append_nil]
    refine ⟨{ s with extcode := true }, if_pos hb, ?_, ?_, ?_⟩
    · rw [hevents]
      exact h.table
    · rw [List.getLast?_concat, Option.getD_some, decide_eq_true hb]
    · rw [hevents]
      exact h.capslock
  · have hlast : decide ((bytes ++ [b]).getLast?.getD 0 = 0xE0) = false := by
      rw [List.getLast?_concat, Option.getD_some, decide_eq_false hb]
    have hevents := h.events_concat hb
    have htable : Table ({ s with extcode := false } : State).keymap (events bytes) := h.table
    rw [keyboardCb_eq s hb]
    split_ifs with hinvalid hbreak
    · refine ⟨_, rfl, ?_, hlast.symm, ?_⟩
      · rw [hevents]
        exact htable.ignore hinvalid
      · have hcaps : ¬ (b.toNat % 128 = keyCapslock ∧ (decide (b.toNat < 128)) = true) := by
          rintro ⟨hcode, -⟩
          rw [hcode] at hinvalid
          exact absurd hinvalid (by decide)
        rw [hevents, capsMakes_concat, if_neg hcaps]
        exact h.capslock
    · obtain ⟨d, hd⟩ := exists_keyChars (Nat.le_of_not_lt hinvalid)
      obtain ⟨m, hset, hm⟩ := htable.setChar hd s.extcode false
      have hmake : decide (b.toNat < 128) = false := decide_eq_false (Nat.not_lt_of_le hbreak)
      rw [hmake] at hevents
      refine ⟨_, hset, ?_, hlast.symm, ?_⟩
      · rw [hevents]
        exact hm
      · rw [hevents, capsMakes_concat, if_neg fun hcaps => nomatch hcaps.2]
        exact h.capslock
    · obtain ⟨d, hd⟩ := exists_keyChars (Nat.le_of_not_lt hinvalid)
      obtain ⟨t, hpress, ht, hextcode, hcapslock, -⟩ := htable.press hd s.extcode
      have hmake : decide (b.toNat < 128) = true := decide_eq_true (Nat.lt_of_not_le hbreak)
      rw [hmake] at hevents
      refine ⟨t, hpress, ?_, ?_, ?_⟩
      · rw [hevents]
        exact ht
      · rw [hextcode, hlast]
      · rw [hcapslock, hevents, capsMakes_concat]
        dsimp only
        rw [h.capslock]
        by_cases hcode : b.toNat % 128 = keyCapslock
        · rw [if_pos ⟨hcode, rfl⟩, decide_eq_true hcode]
          simp only [Nat.odd_add_one, decide_not, Bool.bne_true]
        · rw [if_neg fun hcaps => hcode hcaps.1, decide_eq_false hcode]
          simp

theorem run_decodes (bytes : List (BitVec 8)) :
    ∃ s, run keyboardCb start bytes = some s ∧ Decodes s bytes := by
  induction bytes using List.reverseRecOn with
  | nil => exact ⟨start, rfl, decodes_start⟩
  | append_singleton bytes b ih =>
    obtain ⟨s, hs, hdecodes⟩ := ih
    obtain ⟨t, ht, hnext⟩ := hdecodes.step b
    exact ⟨t, run_concat hs ht, hnext⟩

theorem letterKeys_rows : ∀ key ∈ letterKeys, key.1 ≤ keyPrintScreen ∧
    keyChars[key.1]? = some (byte key.2, byte key.2.toUpper) ∧
    isLower (byte key.2) = true ∧ byte key.2 ≠ inv ∧ byte key.2.toUpper ≠ inv ∧
    key.1 ≠ keyShiftL ∧ key.1 ≠ keyShiftR ∧ key.1 ≠ keyCapslock := by
  decide +kernel

theorem Decodes.letter (h : Decodes s bytes) (hkey : (k, c) ∈ letterKeys)
    (hbytes : bytes.getLast? ≠ some 0xE0) : ∃ t, keyboardCb s (BitVec.ofNat 8 k) = some t ∧
      t.written = s.written ++ [byte (if upperCase (events bytes) then c.toUpper else c)] := by
  obtain ⟨hk, hrow, hlower, hchar, hupper, hleft, hright, hcaps⟩ := letterKeys_rows _ hkey
  dsimp only at hk hrow hlower hchar hupper hleft hright hcaps
  have hlt : k < 128 := Nat.lt_of_le_of_lt hk (by decide)
  have hcode : (BitVec.ofNat 8 k).toNat = k := Nat.mod_eq_of_lt (by omega)
  have hb : BitVec.ofNat 8 k ≠ 0xE0 := by
    intro hb
    rw [hb] at hcode
    exact absurd hlt (hcode ▸ by decide)
  have hext : s.extcode = false := by
    rw [h.extcode]
    apply decide_eq_false
    cases hlast : bytes.getLast? with
    | none => decide
    | some b => exact fun hb => hbytes (hlast.trans (congrArg some hb))
  have htable : Table ({ s with extcode := false } : State).keymap (events bytes) := h.table
  obtain ⟨t, hpress, -, -, hcapslock, hwritten⟩ := htable.press hrow false
  have hshift : shiftHeld (events bytes ++ [⟨k, false, true⟩]) = shiftHeld (events bytes) := by
    rw [shiftHeld, held_concat, held_concat, if_neg fun he => hleft he.1,
      if_neg fun he => hright he.1, shiftHeld]
  refine ⟨t, ?_, ?_⟩
  · rw [keyboardCb_eq s hb, hcode, Nat.mod_eq_of_lt hlt, if_neg (Nat.not_lt_of_le hk),
      if_neg (Nat.not_le_of_lt hlt), hext]
    exact hpress
  · have hcase : ((t.capslock && isLower (byte c)) != shiftHeld (events bytes)) =
        upperCase (events bytes) := by
      rw [hcapslock, decide_eq_false hcaps, hlower, Bool.and_true, Bool.bne_false, upperCase,
        ← h.capslock]
    rw [hwritten, typed, hshift, hcase]
    cases upperCase (events bytes)
    · simp [hchar]
    · simp [hupper]

end Runs

/-- After any bytes, no access was outside of the table, each key is marked as pressed when its last
event was a make code, and a letter is written in upper case when either CapsLock or Shift says
so. -/
theorem keyboard_spec (bytes : List (BitVec 8)) : ∃ s, run keyboardCb start bytes = some s ∧
    (∀ k ≤ keyPrintScreen, s.char k 2 = some (flag (held (events bytes) k false)) ∧
      s.char k 3 = some (flag (held (events bytes) k true))) ∧
    ∀ k c, (k, c) ∈ letterKeys → bytes.getLast? ≠ some 0xE0 →
      ∃ t, run keyboardCb start (bytes ++ [BitVec.ofNat 8 k]) = some t ∧
        t.written = s.written ++
          [byte (if upperCase (events bytes) then c.toUpper else c)] := by
  obtain ⟨s, hs, hdecodes⟩ := run_decodes bytes
  refine ⟨s, hs, fun k hk => ?_, fun k c hkey hbytes => ?_⟩
  · obtain ⟨c, hc⟩ := exists_keyChars hk
    exact ⟨hdecodes.table.char_column hc false, hdecodes.table.char_column hc true⟩
  · obtain ⟨t, ht, hwritten⟩ := hdecodes.letter hkey hbytes
    exact ⟨t, run_concat hs ht, hwritten⟩

-- CapsLock, then `a` without and with Shift, and `a` behind a prefix
example : (run keyboardCb start [0x3A, 0xBA, 0x1E, 0x2A, 0x1E, 0xE0, 0x1E]).map State.written =
    some ("AaA".toList.map byte) := by
  decide +kernel

end Unos.Keyboard
