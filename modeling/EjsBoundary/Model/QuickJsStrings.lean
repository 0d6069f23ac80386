import EjsBoundary.Model.QuickJsJson

/-!
# `EjsBoundary.Model.QuickJsStrings`: strings in and out of QuickJS

`JS_NewStringLen` and `JS_ToCStringLen2` of `quickjs.c`, with `unicode_to_utf8` and
`unicode_from_utf8` of `cutils.c`. Each makes a string for any input: bytes that are not UTF-8
become U+FFFD, and a surrogate that is not one of a pair is written as three bytes.

QuickJS keeps a string with 8 bits for each code unit when all of them fit, else with 16
(`is_wide_char`). A string too long for QuickJS is left out, as is running out of memory.
-/

set_option autoImplicit false

namespace EjsBoundary.Model

open EjsBoundary.Lib

/-- `unicode_to_utf8`. The bits that are or-ed together never overlap. -/
def unicodeToUtf8 (c : Nat) : Bytes :=
  let tail (shift : Nat) : UInt8 := .ofNat (0x80 + c / 2 ^ shift % 0x40)
  if c < 0x80 then [.ofNat c]
  else if c < 0x800 then [.ofNat (0xC0 + c / 2 ^ 6), tail 0]
  else if c < 0x10000 then [.ofNat (0xE0 + c / 2 ^ 12), tail 6, tail 0]
  else if c < 0x200000 then [.ofNat (0xF0 + c / 2 ^ 18), tail 12, tail 6, tail 0]
  else if c < 0x4000000 then [.ofNat (0xF8 + c / 2 ^ 24), tail 18, tail 12, tail 6, tail 0]
  else if c < 0x80000000 then
    [.ofNat (0xFC + c / 2 ^ 30), tail 24, tail 18, tail 12, tail 6, tail 0]
  else []

/-- How many bytes follow a first byte, the bits of the code point that are in it, and the least
code point that may be written so: the `switch` and the two tables of `unicode_from_utf8`. -/
def leadByte (c : Nat) : Option (Nat × Nat × Nat) :=
  if 0xC0 ≤ c ∧ c ≤ 0xDF then some (1, c % 0x20, 0x80)
  else if 0xE0 ≤ c ∧ c ≤ 0xEF then some (2, c % 0x10, 0x800)
  else if 0xF0 ≤ c ∧ c ≤ 0xF7 then some (3, c % 0x08, 0x10000)
  else if 0xF8 ≤ c ∧ c ≤ 0xFB then some (4, c % 0x04, 0x200000)
  else if 0xFC ≤ c ∧ c ≤ 0xFD then some (5, c % 0x02, 0x4000000)
  else none

/-- A byte that only follows others. -/
def isContinuation (b : UInt8) : Bool := 0x80 ≤ b.toNat && b.toNat < 0xC0

/-- The loop over the following bytes. -/
def readContinuation : Nat → Nat → Bytes → Option (Nat × Bytes)
  | 0, c, s => some (c, s)
  | _ + 1, _, [] => none
  | l + 1, c, b :: s =>
    if isContinuation b then readContinuation l (c * 0x40 + b.toNat % 0x40) s else none

/-- `unicode_from_utf8`: the code point at the front and what follows it. -/
def unicodeFromUtf8 : Bytes → Option (Nat × Bytes)
  | [] => none
  | b :: s =>
    if b.toNat < 0x80 then some (b.toNat, s)
    else do
      let (l, bits, least) ← leadByte b.toNat
      let (c, rest) ← readContinuation l bits s
      if c < least then none else some (c, rest)

/-- What `JS_NewStringLen` passes over when there is no code point at the front. -/
def skipInvalid (s : Bytes) : Bytes :=
  ((s.dropWhile isContinuation).drop 1).dropWhile isContinuation

/-- The code units of a code point. -/
def codeUnits (c : Nat) : JsString :=
  if c < 0x10000 then [.ofNat c] else [Utf16.high c, Utf16.low c]

/-- One turn of the loop of `JS_NewStringLen`: the code units it writes, and the rest. -/
def newStringTurn (s : Bytes) : JsString × Bytes :=
  match unicodeFromUtf8 s with
  | some (c, rest) => if c ≤ 0x10FFFF then (codeUnits c, rest) else ([0xFFFD], skipInvalid s)
  | none => ([0xFFFD], skipInvalid s)

/-- The loop of `JS_NewStringLen`, with at most so many turns. -/
def newStringFrom : Nat → Bytes → JsString
  | 0, _ => []
  | n + 1, s => if s = [] then [] else (newStringTurn s).1 ++ newStringFrom n (newStringTurn s).2

/-- `JS_NewStringLen`. A turn passes over at least one byte. -/
def newStringLen (s : Bytes) : JsString := newStringFrom s.length s

/-- The code point at the front of a wide string, and the rest. -/
def frontCodePoint : JsString → Nat × JsString
  | [] => (0, [])
  | [c] => (c.toNat, [])
  | c :: c1 :: rest =>
    if Utf16.isHigh c && Utf16.isLow c1 then (Utf16.pairValue c c1, rest) else (c.toNat, c1 :: rest)

/-- The loop of `JS_ToCStringLen2` over a string with 16 bits for each code unit. -/
def wideToUtf8 : Nat → JsString → Bytes
  | 0, _ => []
  | n + 1, s =>
    if s = [] then [] else unicodeToUtf8 (frontCodePoint s).1 ++ wideToUtf8 n (frontCodePoint s).2

/-- The loop over a string with 8 bits for each code unit. -/
def narrowToUtf8 : Bytes → Bytes
  | [] => []
  | c :: s =>
    if c.toNat < 0x80 then c :: narrowToUtf8 s
    else .ofNat (0xC0 + c.toNat / 0x40) :: .ofNat (0x80 + c.toNat % 0x40) :: narrowToUtf8 s

/-- A string as QuickJS keeps it. -/
inductive JsStringRep where
  | narrow (str8 : Bytes)
  | wide (str16 : JsString)

/-- The code units of a string. -/
def JsStringRep.units : JsStringRep → JsString
  | .narrow s => s.map fun c => .ofNat c.toNat
  | .wide s => s

/-- `JS_ToCStringLen2`, without the option `cesu8`. -/
def toCStringLen2 : JsStringRep → Bytes
  | .narrow s => narrowToUtf8 s
  | .wide s => wideToUtf8 s.length s

end EjsBoundary.Model
