import Unos.Library.Runs
import Unos.Framebuffer.Model

namespace Unos.Keyboard

open Unos.Framebuffer

/-- `INV`. -/
def inv : BitVec 8 := 0

def codePrintScreenDown : ℕ := 0xB7

def keyShiftL : ℕ := 0x2A
def keySlash : ℕ := 0x35
def keyShiftR : ℕ := 0x36
def keyCapslock : ℕ := 0x3A
def keyNumlock : ℕ := 0x45
def keyScrlock : ℕ := 0x46
def keyPrintScreen : ℕ := 0x5F

/-- The characters of a row, without and with Shift. -/
def row (c shifted : Char) : BitVec 8 × BitVec 8 := (byte c, byte shifted)

def padRow (c : Char) : BitVec 8 × BitVec 8 := (byte c, inv)

def noRow : BitVec 8 × BitVec 8 := (inv, inv)

/-- The first two columns of `keymap`. -/
def keyChars : List (BitVec 8 × BitVec 8) :=
  [noRow, (0x1B, 0x1B), row '1' '!', row '2' '@', row '3' '#', row '4' '$', row '5' '%',
    row '6' '^', row '7' '&', row '8' '*', row '9' '(', row '0' ')', row '-' '_', row '=' '+',
    (0x08, 0x08), (0x09, 0x09),
    -- 0x10
    row 'q' 'Q', row 'w' 'W', row 'e' 'E', row 'r' 'R', row 't' 'T', row 'y' 'Y', row 'u' 'U',
    row 'i' 'I', row 'o' 'O', row 'p' 'P', (0x5B, 0x7B), (0x5D, 0x7D), (0x0A, 0x0A), noRow,
    row 'a' 'A', row 's' 'S',
    -- 0x20
    row 'd' 'D', row 'f' 'F', row 'g' 'G', row 'h' 'H', row 'j' 'J', row 'k' 'K', row 'l' 'L',
    row ';' ':', (0x27, 0x22), (0x60, 0x7E), noRow, (0x5C, 0x7C), row 'z' 'Z', row 'x' 'X',
    row 'c' 'C', row 'v' 'V',
    -- 0x30
    row 'b' 'B', row 'n' 'N', row 'm' 'M', row ',' '<', row '.' '>', row '/' '?', noRow,
    row '*' '*', noRow, row ' ' ' ', noRow, noRow, noRow, noRow, noRow, noRow,
    -- 0x40
    noRow, noRow, noRow, noRow, noRow, noRow, noRow, padRow '7', padRow '8', padRow '9',
    row '-' '-', padRow '4', padRow '5', padRow '6', row '+' '+', padRow '1',
    -- 0x50
    padRow '2', padRow '3', padRow '0', (0x2E, 0x7F), noRow, noRow, noRow, noRow, noRow, noRow,
    noRow, noRow, noRow, noRow, noRow, noRow]

/-- The variables of the decoder in `keyboard.c`, and the characters that `fb_write_char` was called
with. An access outside of `keymap` ends the run. -/
structure State where
  keymap : List (List (BitVec 8))
  capslock : Bool
  scrlock : Bool
  numlock : Bool
  extcode : Bool
  written : List (BitVec 8)

/-- All keys are up, and the other variables are zero. -/
def start : State where
  keymap := keyChars.map fun (c, shifted) => [c, shifted, 0, 0]
  capslock := false
  scrlock := false
  numlock := false
  extcode := false
  written := []

/-- `keymap[i][j]`. -/
def State.char (s : State) (i j : ℕ) : Option (BitVec 8) := s.keymap[i]?.bind fun r => r[j]?

/-- `true` and `false` as a `char`. -/
def flag (b : Bool) : BitVec 8 := if b then 1 else 0

def State.setChar (s : State) (i j : ℕ) (c : BitVec 8) : Option State :=
  s.keymap[i]?.bind fun r =>
    if j < r.length then some { s with keymap := s.keymap.set i (r.set j c) } else none

/-- `shift_state`. -/
def shiftState (s : State) : Option Bool :=
  (s.char keyShiftL 2).bind fun l =>
    if l ≠ 0 then some true else (s.char keyShiftR 2).map fun r => r ≠ 0

def isLower (c : BitVec 8) : Bool := (byte 'a').toInt ≤ c.toInt ∧ c.toInt ≤ (byte 'z').toInt

def State.toggle (s : State) (makecode : ℕ) : State :=
  if makecode = keyNumlock then { s with numlock := !s.numlock }
  else if makecode = keyCapslock then { s with capslock := !s.capslock }
  else if makecode = keyScrlock then { s with scrlock := !s.scrlock }
  else s

/-- The first test on `shift`. -/
def capsShift (s : State) (makecode : ℕ) : Option Bool :=
  if s.capslock then (s.char makecode 0).map isLower else some false

/-- The end of the handler, from `shift` on. -/
def writeKey (s : State) (makecode ext : ℕ) : Option State :=
  (capsShift s makecode).bind fun shift =>
    (shiftState s).bind fun down =>
      let shift := if down then !shift else shift
      (s.char makecode (if ext = 3 ∧ makecode ≠ keySlash then 1 else shift.toNat)).bind fun ch =>
        if ch = inv then some s else some { s with written := s.written ++ [ch] }

/-- What follows the test for a break code. -/
def press (s : State) (makecode ext : ℕ) : Option State :=
  (s.setChar makecode ext (flag true)).bind fun s => writeKey (s.toggle makecode) makecode ext

/-- `scancode` is an `unsigned char`, so that the prefix does not fit. -/
def keyboardCb (s : State) (scancode : BitVec 8) : Option State :=
  if scancode = 0xE0 then some { s with extcode := true }
  else
    let ext := if s.extcode then 3 else 2
    let scancode := if s.extcode then (scancode.setWidth 32 ||| 0xE000).setWidth 8 else scancode
    let s := { s with extcode := false }
    let makecode := (scancode &&& 0x7F).toNat
    let makecode := if makecode = codePrintScreenDown then keyPrintScreen else makecode
    if keyPrintScreen < makecode then some s
    else if scancode &&& 0x80 ≠ 0 then s.setChar makecode ext (flag false)
    else press s makecode ext

end Unos.Keyboard
