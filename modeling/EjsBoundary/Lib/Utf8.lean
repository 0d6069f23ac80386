import EjsBoundary.Lib.Bytes

/-!
# `EjsBoundary.Lib.Utf8`: UTF-8 and NUL-terminated strings

The encoding and the strict decoding are Lean's own (`String.utf8EncodeChar` and
`ByteArray.utf8Decode?`), read as functions on byte strings. `cString` is what is left of a
byte string behind a `char *`: the bytes before the first NUL.

`cString_encode` connects the two. The byte NUL occurs in an encoding only as the code point
NUL, so cutting the bytes at the first NUL is cutting the text there, and what is left is
valid UTF-8 again.
-/

set_option autoImplicit false

namespace EjsBoundary.Lib

namespace Utf8

/-- The UTF-8 encoding of a text. -/
def encode (text : List Char) : Bytes := text.flatMap String.utf8EncodeChar

/-- The text a byte string encodes, `none` when it is not valid UTF-8. -/
def decode? (s : Bytes) : Option (List Char) := s.toByteArray.utf8Decode?.map Array.toList

/-- What is encoded decodes to itself. -/
theorem decode?_encode (text : List Char) : decode? (encode text) = some text := by
  have h : (encode text).toByteArray = text.utf8Encode := rfl
  rw [decode?, h, List.utf8Decode?_utf8Encode]
  rfl

/-- Two texts with the same bytes are the same. -/
theorem encode_injective : Function.Injective encode := by
  intro a b h
  have hdecode := decode?_encode a
  rw [h, decode?_encode] at hdecode
  exact (Option.some.inj hdecode).symm

/-- A source literal is the encoding of its text. -/
theorem lit_eq_encode (s : String) : lit s = encode s.toList := by
  have hdata := congrArg (fun b : ByteArray => b.data.toList) (String.utf8Encode_toList (b := s))
  simpa [List.utf8Encode, encode, lit] using hdata.symm

/-- What decodes is an encoding. -/
theorem exists_encode_of_isSome {s : Bytes} (h : (decode? s).isSome = true) :
    ∃ text, encode text = s := by
  rw [decode?, Option.isSome_map] at h
  obtain ⟨text, htext⟩ := ByteArray.isSome_utf8Decode?_iff.mp h
  refine ⟨text, ?_⟩
  have hdata := congrArg (fun b : ByteArray => b.data.toList) htext
  simpa [List.utf8Encode, encode] using hdata.symm

/-- No byte of an encoded character is NUL, except for the character NUL. -/
theorem zero_mem_utf8EncodeChar_iff (c : Char) :
    (0 : UInt8) ∈ String.utf8EncodeChar c ↔ c = Char.ofNat 0 := by
  -- A lead byte and a continuation byte have their high bit set.
  have hbits : ∀ x : UInt8, x ||| 0x80 ≠ 0 ∧ x ||| 0xC0 ≠ 0 ∧ x ||| 0xE0 ≠ 0 ∧ x ||| 0xF0 ≠ 0 :=
    forall_byte (p := fun x => x ||| 0x80 ≠ 0 ∧ x ||| 0xC0 ≠ 0 ∧ x ||| 0xE0 ≠ 0 ∧ x ||| 0xF0 ≠ 0)
      (by decide)
  have hle := c.utf8Size_le_four
  have hpos := c.utf8Size_pos
  by_cases h1 : c.utf8Size = 1
  · have hval : c.val.toNat ≤ 127 := UInt32.le_iff_toNat_le.mp (Char.utf8Size_eq_one_iff.mp h1)
    rw [String.utf8EncodeChar_eq_singleton h1, List.mem_singleton]
    constructor
    · intro h
      have hmod : c.val.toNat % 256 = 0 := by
        rw [← UInt32.toNat_toUInt8, ← h]
        rfl
      have hnat : c.toNat = 0 := by
        show c.val.toNat = 0
        omega
      rw [← Char.ofNat_toNat c, hnat]
    · rintro rfl
      rfl
  · have hzero : (0 : UInt8) ∉ String.utf8EncodeChar c := by
      rcases (by omega : c.utf8Size = 2 ∨ c.utf8Size = 3 ∨ c.utf8Size = 4) with h | h | h
      · rw [String.utf8EncodeChar_eq_cons_cons h]
        simp [Ne.symm (hbits _).1, Ne.symm (hbits _).2.1]
      · rw [String.utf8EncodeChar_eq_cons_cons_cons h]
        simp [Ne.symm (hbits _).1, Ne.symm (hbits _).2.2.1]
      · rw [String.utf8EncodeChar_eq_cons_cons_cons_cons h]
        simp [Ne.symm (hbits _).1, Ne.symm (hbits _).2.2.2]
    refine iff_of_false hzero ?_
    rintro rfl
    exact h1 rfl

end Utf8

/-- The bytes a `char *` to `s` shows. -/
def cString (s : Bytes) : Bytes := s.takeWhile (· ≠ 0)

/-- A byte string passes through a `char *` whole exactly when it holds no NUL. -/
theorem cString_eq_self_iff (s : Bytes) : cString s = s ↔ (0 : UInt8) ∉ s := by
  unfold cString
  rw [List.takeWhile_eq_self_iff]
  constructor
  · intro h hmem
    simpa using h 0 hmem
  · intro h x hx
    simp only [ne_eq, decide_eq_true_eq]
    rintro rfl
    exact h hx

/-- A `char *` to an encoded text shows the encoding of the text before its first NUL. -/
theorem cString_encode (text : List Char) :
    cString (Utf8.encode text) = Utf8.encode (text.takeWhile (· ≠ Char.ofNat 0)) := by
  unfold cString Utf8.encode
  induction text with
  | nil => rfl
  | cons c text ih =>
    rw [List.flatMap_cons]
    by_cases hc : c = Char.ofNat 0
    · subst hc
      rfl
    · have hbytes : ∀ x ∈ String.utf8EncodeChar c, decide (x ≠ 0) = true := by
        intro x hx
        simp only [ne_eq, decide_eq_true_eq]
        rintro rfl
        exact hc ((Utf8.zero_mem_utf8EncodeChar_iff c).mp hx)
      rw [List.takeWhile_append_of_pos hbytes, ih, List.takeWhile_cons_of_pos (by simpa using hc),
        List.flatMap_cons]

/-- The byte NUL occurs in an encoding exactly when the text holds the character NUL. -/
theorem zero_mem_encode_iff (text : List Char) :
    (0 : UInt8) ∈ Utf8.encode text ↔ Char.ofNat 0 ∈ text := by
  unfold Utf8.encode
  rw [List.mem_flatMap]
  constructor
  · rintro ⟨c, hc, hzero⟩
    exact (Utf8.zero_mem_utf8EncodeChar_iff c).mp hzero ▸ hc
  · intro h
    exact ⟨_, h, (Utf8.zero_mem_utf8EncodeChar_iff _).mpr rfl⟩

end EjsBoundary.Lib
