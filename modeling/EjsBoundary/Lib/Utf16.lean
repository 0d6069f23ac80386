import EjsBoundary.Lib.Utf8

/-!
# `EjsBoundary.Lib.Utf16`: JavaScript strings

A JavaScript string is a list of 16-bit code units. `encode` is the UTF-16 form of a text, and
`toUtf8` is the way back to bytes. It is defined on every list of code units: a surrogate that is
not one of a pair is kept, as three bytes. `toUtf8_encode` says that a text comes back as its
UTF-8 form.
-/

set_option autoImplicit false

namespace EjsBoundary.Lib

/-- A JavaScript string. -/
abbrev JsString := List UInt16

namespace Utf16

/-- The first surrogate of a code point above the first plane. -/
def high (n : Nat) : UInt16 := UInt16.ofNat (0xD800 + (n - 0x10000) / 0x400)

/-- The second one. -/
def low (n : Nat) : UInt16 := UInt16.ofNat (0xDC00 + (n - 0x10000) % 0x400)

/-- The code units of a character. -/
def encodeChar (c : Char) : JsString :=
  if c.toNat < 0x10000 then [UInt16.ofNat c.toNat] else [high c.toNat, low c.toNat]

/-- The UTF-16 form of a text. -/
def encode (text : List Char) : JsString := text.flatMap encodeChar

def isHigh (u : UInt16) : Bool := 0xD800 ≤ u.toNat && u.toNat < 0xDC00

def isLow (u : UInt16) : Bool := 0xDC00 ≤ u.toNat && u.toNat < 0xE000

/-- The code point of a surrogate pair. -/
def pairValue (hi lo : UInt16) : Nat := 0x10000 + (hi.toNat - 0xD800) * 0x400 + (lo.toNat - 0xDC00)

/-- The bytes of a code point, that of a lone surrogate included. -/
def codePointBytes (n : Nat) : Bytes :=
  if n.isValidChar then String.utf8EncodeChar (Char.ofNat n)
  else [UInt8.ofNat (0xE0 + n / 0x1000), UInt8.ofNat (0x80 + n / 0x40 % 0x40),
    UInt8.ofNat (0x80 + n % 0x40)]

/-- The UTF-8 form of a JavaScript string. -/
def toUtf8 : JsString → Bytes
  | [] => []
  | [u] => codePointBytes u.toNat
  | hi :: lo :: rest =>
    if isHigh hi && isLow lo then codePointBytes (pairValue hi lo) ++ toUtf8 rest
    else codePointBytes hi.toNat ++ toUtf8 (lo :: rest)

/-- A unit that begins no pair is a code point of its own. -/
theorem toUtf8_of_not_high {u : UInt16} (h : isHigh u = false) (rest : JsString) :
    toUtf8 (u :: rest) = codePointBytes u.toNat ++ toUtf8 rest := by
  cases rest with
  | nil => exact (List.append_nil _).symm
  | cons lo rest => rw [toUtf8, h, Bool.false_and, if_neg Bool.false_ne_true]

/-- The bytes of a character are its UTF-8 encoding. -/
theorem codePointBytes_toNat (c : Char) : codePointBytes c.toNat = String.utf8EncodeChar c := by
  have hvalid : c.toNat.isValidChar := c.valid
  rw [codePointBytes, if_pos hvalid, Char.ofNat_toNat]

/-- The surrogates of a code point are a pair, and its value is the code point. -/
theorem high_low {n : Nat} (hge : 0x10000 ≤ n) (hlt : n < 0x110000) :
    (isHigh (high n) && isLow (low n)) = true ∧ pairValue (high n) (low n) = n := by
  have hhigh : (high n).toNat = 0xD800 + (n - 0x10000) / 0x400 := by
    refine UInt16.toNat_ofNat_of_lt ?_
    show _ < 65536
    omega
  have hlow : (low n).toNat = 0xDC00 + (n - 0x10000) % 0x400 := by
    refine UInt16.toNat_ofNat_of_lt ?_
    show _ < 65536
    omega
  refine ⟨?_, ?_⟩
  · rw [isHigh, isLow, hhigh, hlow]
    simp only [Bool.and_eq_true, decide_eq_true_eq]
    omega
  · unfold pairValue
    omega

/-- One character at the front. -/
theorem toUtf8_encodeChar (c : Char) (rest : JsString) :
    toUtf8 (encodeChar c ++ rest) = String.utf8EncodeChar c ++ toUtf8 rest := by
  have hvalid : c.toNat < 0xD800 ∨ (0xDFFF < c.toNat ∧ c.toNat < 0x110000) := c.valid
  unfold encodeChar
  split
  · rename_i hsmall
    have hunit : (UInt16.ofNat c.toNat).toNat = c.toNat := UInt16.toNat_ofNat_of_lt hsmall
    have hnot : isHigh (UInt16.ofNat c.toNat) = false := by
      rw [isHigh, hunit, Bool.and_eq_false_iff, decide_eq_false_iff_not, decide_eq_false_iff_not]
      omega
    rw [List.singleton_append, toUtf8_of_not_high hnot, hunit, codePointBytes_toNat]
  · rename_i hlarge
    -- A character above the first plane is a pair of surrogates, and they say which.
    have hpair := high_low (n := c.toNat) (by omega) (by omega)
    show toUtf8 (_ :: _ :: rest) = _
    rw [toUtf8, if_pos hpair.1, hpair.2, codePointBytes_toNat]

/-- A text comes back as its UTF-8 form. -/
theorem toUtf8_encode (text : List Char) : toUtf8 (encode text) = Utf8.encode text := by
  induction text with
  | nil => rfl
  | cons c text ih =>
    show toUtf8 (encodeChar c ++ encode text) = String.utf8EncodeChar c ++ Utf8.encode text
    rw [toUtf8_encodeChar, ih]

end Utf16

end EjsBoundary.Lib
