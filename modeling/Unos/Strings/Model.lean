import Unos.Library.ByteMemory
import Unos.Framebuffer.Model

namespace Unos.Strings

open Unos.ByteMemory Unos.Words Unos.Framebuffer

/-- The loop that stores the digits, and the index behind the last one. -/
def digitLoop (radix : ℕ) (hradix : 1 < radix) (m : Mem) (buf i : ℕ) (x : ℤ) : Mem × ℕ :=
  let m := Function.update m (buf + i) (digit (x.tmod radix))
  if _hx : x.tdiv radix = 0 then (m, i + 1)
  else digitLoop radix hradix m buf (i + 1) (x.tdiv radix)
  termination_by x.natAbs
  decreasing_by exact natAbs_tdiv_lt hradix _hx

/-- The loop that exchanges `*s` and `*e`. -/
def swapLoop (m : Mem) (s e : ℕ) : Mem :=
  if s < e then
    let t := m s
    swapLoop (Function.update (Function.update m s (m e)) e t) (s + 1) (e - 1)
  else m
  termination_by e - s

/-- The pointer that is returned, and the memory. -/
def itoa (m : Mem) (val : BitVec 32) (buf radix : ℕ) (hradix : 1 < radix) : ℕ × Mem :=
  let start := if val.toInt < 0 ∧ radix = 10 then 1 else 0
  let m := if val.toInt < 0 ∧ radix = 10 then Function.update m buf (byte '-') else m
  let (m, i) := digitLoop radix hradix m buf start val.toInt
  let m := swapLoop m (buf + start) (buf + (i - 1))
  (buf, Function.update m (buf + i) 0)

def uitoa (m : Mem) (val : BitVec 32) (buf radix : ℕ) (hradix : 1 < radix) : ℕ × Mem :=
  let start := 0
  let (m, i) := digitLoop radix hradix m buf start val.toNat
  let m := swapLoop m (buf + start) (buf + (i - 1))
  (buf, Function.update m (buf + i) 0)

/-- The two regions do not wrap around the end of the address space. -/
def memmove (m : Mem) (dst src len : ℕ) : ℕ × Mem :=
  (dst, (List.range len).foldl (fun m i => Function.update m (dst + i) (m (src + i))) m)

/-- A string fits in the address space with its terminator. -/
structure CString where
  bytes : List (BitVec 8)
  nonzero : 0 ∉ bytes
  fits : bytes.length < 4294967296

/-- The bytes from the first one to the terminator. -/
def CString.object (s : CString) : List (BitVec 8) := s.bytes ++ [0]

/-- A pointer is the bytes from it to the end of its object; what is read behind that end is `none`.
`i` is an `unsigned int`. -/
def strlen : List (BitVec 8) → Option ℕ
  | [] => none
  | c :: buf => if c ≠ 0 then (strlen buf).map fun i => wrap32 (i + 1) else some 0

/-- `c` counts down as a 32-bit word. -/
def strncmp : List (BitVec 8) → List (BitVec 8) → ℕ → Option ℤ
  | _, _, 0 => some 0
  | a :: s1, b :: s2, c =>
    let result := a.toInt - b.toInt
    if result ≠ 0 ∨ a = 0 then some result else strncmp s1 s2 (sub32 c 1)
  | _, _, _ => none

/-- The two loops of `strstr`. The pointer that a turn starts from is `in - 1` at its end. -/
def searchLoop (c : BitVec 8) (str : List (BitVec 8)) (len : ℕ) :
    List (BitVec 8) → Option (Option (List (BitVec 8)))
  | [] => none
  | sc :: s =>
    if sc = 0 then some none
    else if sc ≠ c then searchLoop c str len s
    else
      (strncmp s str len).bind fun result =>
        if result ≠ 0 then searchLoop c str len s else some (some (sc :: s))

/-- `some none` is the pointer `NULL`. -/
def strstr (s : List (BitVec 8)) : List (BitVec 8) → Option (Option (List (BitVec 8)))
  | [] => none
  | c :: str =>
    if c = 0 then some (some s) else (strlen str).bind fun len => searchLoop c str len s

example : strstr ("aabaabaaa".toList.map byte ++ [0]) ("aabaaa".toList.map byte ++ [0]) =
    some (some ("aabaaa".toList.map byte ++ [0])) := by
  decide +kernel

end Unos.Strings
