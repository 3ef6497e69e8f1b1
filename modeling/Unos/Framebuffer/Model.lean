import Mathlib.Logic.Function.Basic
import Unos.Library.Words

namespace Unos.Framebuffer

open Unos.Words

/-- `FB_WIDTH`. -/
def fbWidth : ℕ := 80

/-- `FB_HEIGHT`. -/
def fbHeight : ℕ := 25

def fbBlack : BitVec 8 := 0
def fbWhite : BitVec 8 := 15

def byte (c : Char) : BitVec 8 := BitVec.ofNat 8 c.toNat

/-- The bytes by their offset from `framebuffer_addr`, the position that the registers of the
hardware cursor hold, and the indices that `fb_write_cell` was called with. -/
structure Console where
  fbPosX : ℕ
  fbPosY : ℕ
  currentFg : BitVec 8
  currentBg : BitVec 8
  framebuffer : ℤ → BitVec 8
  cursor : BitVec 16
  cells : List ℤ

def fbGetTextAttr (foreground background : BitVec 8) : BitVec 8 :=
  (background <<< 4) ||| (foreground &&& 0x0F)

def fbGetTextValue (c foreground background : BitVec 8) : BitVec 16 :=
  c.setWidth 16 ||| ((fbGetTextAttr foreground background).setWidth 16 <<< 8)

/-- `i` is an `int16_t`. -/
def fbWriteCell (s : Console) (i : BitVec 16) (c : BitVec 8) : Console :=
  let fb := Function.update s.framebuffer (i.toInt * 2) c
  let attr := ((s.currentBg &&& 0x0f) <<< 4) ||| (s.currentFg &&& 0x0f)
  { s with
    framebuffer := Function.update fb (i.toInt * 2 + 1) attr
    cells := s.cells ++ [i.toInt] }

def fbMoveCursor (s : Console) (pos : BitVec 16) : Console := { s with cursor := pos }

/-- The `uint16_t` that `fb_write_char` computes. -/
def Console.pos (s : Console) : BitVec 16 := BitVec.ofNat 16 (s.fbPosX + s.fbPosY * fbWidth)

def wrapLine (s : Console) : Console :=
  if s.fbPosX = fbWidth then { s with fbPosX := 0, fbPosY := wrap32 (s.fbPosY + 1) } else s

def fbWriteChar (s : Console) (c : BitVec 8) : Console :=
  if c = byte '\n' ∨ c = byte '\r' then
    let s := { s with fbPosX := 0, fbPosY := wrap32 (s.fbPosY + 1) }
    wrapLine (fbMoveCursor s s.pos)
  else if c = byte '\t' then
    let s := { s with fbPosX := wrap32 (s.fbPosX + 4) }
    wrapLine (fbMoveCursor s s.pos)
  else
    let t := fbMoveCursor (fbWriteCell s s.pos c) (s.pos + 1)
    wrapLine { t with fbPosX := wrap32 (t.fbPosX + 1) }

def fbClear (s : Console) : Console :=
  let s := { s with fbPosX := 0, fbPosY := 0 }
  (List.range (fbWidth * fbHeight)).foldl
    (fun s i => fbWriteCell s (BitVec.ofNat 16 i) (byte ' ')) s

def memcpy (m : ℤ → BitVec 8) (dst src : ℤ) (n : ℕ) : ℤ → BitVec 8 :=
  (List.range n).foldl (fun m (i : ℕ) => Function.update m (dst + i) (m (src + i))) m

def memsetw (m : ℤ → BitVec 8) (dest : ℤ) (val : BitVec 16) (count : ℕ) : ℤ → BitVec 8 :=
  (List.range count).foldl (fun m (i : ℕ) => Function.update
    (Function.update m (dest + 2 * i) (val.setWidth 8)) (dest + 2 * i + 1)
    ((val >>> 8).setWidth 8)) m

def scroll (s : Console) : Console :=
  let start := fbWidth * 2
  let size := wrap32 (s.fbPosY * fbWidth * 2)
  if s.fbPosY < fbHeight then s
  else
    let fb := memcpy s.framebuffer 0 start size
    { s with
      framebuffer := memsetw fb size (fbGetTextValue (byte ' ') fbWhite fbBlack) fbWidth
      fbPosY := sub32 s.fbPosY 1 }

def digit (a : ℤ) : BitVec 8 :=
  if a < 10 then BitVec.ofInt 8 (a + 48) else BitVec.ofInt 8 (a + 97 - 10)

theorem natAbs_tdiv_lt {x : ℤ} {radix : ℕ} (hradix : 1 < radix) (hx : x.tdiv radix ≠ 0) :
    (x.tdiv radix).natAbs < x.natAbs := by
  rw [Int.natAbs_tdiv, Int.natAbs_natCast]
  apply Nat.div_lt_self ?_ hradix
  rw [Int.natAbs_pos]
  intro hzero
  rw [hzero, Int.zero_tdiv] at hx
  exact hx rfl

/-- The loop of `itoa` and `uitoa`, which puts the lowest digit first. -/
def digits (radix : ℕ) (hradix : 1 < radix) (x : ℤ) : List (BitVec 8) :=
  digit (x.tmod radix) ::
    if _hx : x.tdiv radix = 0 then [] else digits radix hradix (x.tdiv radix)
  termination_by x.natAbs
  decreasing_by exact natAbs_tdiv_lt hradix _hx

/-- The digits of a negative number are computed from the number itself. -/
def itoa (val : BitVec 32) (radix : ℕ) (hradix : 1 < radix) : List (BitVec 8) :=
  (if val.toInt < 0 ∧ radix = 10 then [byte '-'] else []) ++ (digits radix hradix val.toInt).reverse

def uitoa (val : BitVec 32) (radix : ℕ) (hradix : 1 < radix) : List (BitVec 8) :=
  (digits radix hradix val.toNat).reverse

def cString (buf : List (BitVec 8)) : List (BitVec 8) := buf.takeWhile fun c => c ≠ 0

/-- `*format++`; a list ends where memory does, and zero stands for what is read there. -/
def next : List (BitVec 8) → BitVec 8 × List (BitVec 8)
  | [] => (0, [])
  | c :: format => (c, format)

/-- What follows a percent sign. -/
structure Directive where
  pad0 : Bool
  pad : ℕ
  c : BitVec 8

/-- A leading zero and one digit for the width are optional. -/
def directive (format : List (BitVec 8)) : Directive × List (BitVec 8) :=
  let (c, format) := next format
  let (pad0, c, format) := if c = byte '0' then (true, next format) else (false, c, format)
  let (pad, c, format) :=
    if byte '0' ≤ c ∧ c ≤ byte '9' then ((c - byte '0').toNat, next format) else (0, c, format)
  (⟨pad0, pad, c⟩, format)

/-- The label `string`. -/
def Directive.string (d : Directive) (p : List (BitVec 8)) : List (BitVec 8) :=
  List.replicate (d.pad - p.length) (if d.pad0 then byte '0' else byte ' ') ++ p

/-- The characters for the word `arg`; `memory` gives the bytes from an address on. -/
def Directive.convert (memory : BitVec 32 → List (BitVec 8)) (d : Directive) (arg : BitVec 32) :
    List (BitVec 8) :=
  if d.c = byte 'd' ∨ d.c = byte 'i' ∨ d.c = byte 'u' then d.string (itoa arg 10 (by decide))
  else if d.c = byte 'x' then d.string (uitoa arg 16 (by decide))
  else if d.c = byte 's' then
    d.string (if arg = 0 then "(null)".toList.map byte else cString (memory arg))
  else [arg.setWidth 8]

theorem next_length (format : List (BitVec 8)) : (next format).2.length ≤ format.length := by
  cases format with
  | nil => exact Nat.le_refl 0
  | cons c format => exact Nat.le_succ format.length

theorem directive_length (format : List (BitVec 8)) :
    (directive format).2.length ≤ format.length := by
  have h1 := next_length format
  have h2 := next_length (next format).2
  have h3 := next_length (next (next format).2).2
  unfold directive
  dsimp only
  split_ifs
  · exact h3.trans (h2.trans h1)
  · exact h2.trans h1
  · exact h2.trans h1
  · exact h1

/-- The characters that `printf` writes; every directive takes one word. A string is the bytes of
memory from its address on. -/
def printfChars (memory : BitVec 32 → List (BitVec 8)) (format : List (BitVec 8))
    (arg : ℕ → BitVec 32) : List (BitVec 8) :=
  match format with
  | [] => []
  | c :: format =>
    if c = 0 then []
    else if c ≠ byte '%' then c :: printfChars memory format arg
    else
      (directive format).1.convert memory (arg 0) ++
        printfChars memory (directive format).2 fun k => arg (k + 1)
  termination_by format.length
  decreasing_by
  · exact Nat.lt_succ_self _
  · exact Nat.lt_succ_of_le (directive_length _)

/-- What a call asks of the screen. `printf` does not look at it. -/
inductive Action
  | scroll
  | writeChar (c : BitVec 8)
  deriving DecidableEq

def act (s : Console) : Action → Console
  | .scroll => scroll s
  | .writeChar c => fbWriteChar s c

def printf (memory : BitVec 32 → List (BitVec 8)) (format : List (BitVec 8))
    (arg : ℕ → BitVec 32) : List Action :=
  .scroll :: (printfChars memory format arg).map .writeChar

def fbWriteStr (buf : List (BitVec 8)) : List Action := (cString buf).map .writeChar

/-- A call, with what it finds in memory. -/
inductive Call
  | printf (memory : BitVec 32 → List (BitVec 8)) (format : List (BitVec 8)) (arg : ℕ → BitVec 32)
  | fbWriteStr (buf : List (BitVec 8))
  | fbWriteChar (c : BitVec 8)

def Call.actions : Call → List Action
  | .printf memory format arg => Framebuffer.printf memory format arg
  | .fbWriteStr buf => Framebuffer.fbWriteStr buf
  | .fbWriteChar c => [.writeChar c]

example : printfChars (fun _ => []) ("0x%04x%d".toList.map byte) (fun k => [0x2a, 7].getD k 0) =
    "0x002a7".toList.map byte := by
  decide +kernel

end Unos.Framebuffer
