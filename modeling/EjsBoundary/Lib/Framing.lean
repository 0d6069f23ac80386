import EjsBoundary.Lib.HttpMessage
import EjsBoundary.Lib.Utf8

/-!
# `EjsBoundary.Lib.Framing`: the requests of a connection

A connection is a stream of bytes, and a server has to know where a request on it ends. `readNext`
reads one: the head as `HttpRequest.parse` reads it, then as many bytes of body as `Content-Length`
says, none without it. The rest of the stream is what comes after the request. Two lengths, a length
that is no number, or a transfer coding are refused.

`readNext_eq_some_iff` says what is read: the text of a valid request that is framed by its own
headers.
-/

set_option autoImplicit false

namespace EjsBoundary.Lib

/-! ### Decimal numbers -/

def isDecimal (c : UInt8) : Bool := 0x30 ≤ c && c ≤ 0x39

/-- The number that one or more decimal digits write. -/
def decimal? (s : Bytes) : Option Nat :=
  if s ≠ [] ∧ s.all isDecimal then some (s.foldl (fun n c => 10 * n + (c.toNat - 0x30)) 0) else none

/-- A digit is one byte. -/
theorem utf8EncodeChar_digit {c : Char} (h : c.isDigit = true) :
    String.utf8EncodeChar c = [c.val.toUInt8] ∧ c.val.toUInt8.toNat = c.toNat ∧
      isDecimal c.val.toUInt8 = true := by
  have hle : 0x30 ≤ c.toNat ∧ c.toNat ≤ 0x39 := by
    simpa [Char.isDigit, UInt32.le_iff_toNat_le] using h
  have hsize : c.utf8Size = 1 := by
    rw [Char.utf8Size_eq_one_iff, UInt32.le_iff_toNat_le]
    show c.toNat ≤ 127
    omega
  have hnat : c.val.toUInt8.toNat = c.toNat := by
    rw [UInt32.toNat_toUInt8]
    show c.toNat % 256 = c.toNat
    omega
  refine ⟨String.utf8EncodeChar_eq_singleton hsize, hnat, ?_⟩
  rw [isDecimal, Bool.and_eq_true, decide_eq_true_iff, decide_eq_true_iff, UInt8.le_iff_toNat_le,
    UInt8.le_iff_toNat_le, hnat]
  exact hle

/-- The digits of a number are read as the number. -/
theorem foldl_encode_digits {text : List Char} (h : ∀ c ∈ text, c.isDigit = true) (n : Nat) :
    (Utf8.encode text).foldl (fun n c => 10 * n + (c.toNat - 0x30)) n =
      Nat.ofDigitChars 10 text n := by
  induction text generalizing n with
  | nil => rfl
  | cons c text ih =>
    obtain ⟨hone, hnat, -⟩ := utf8EncodeChar_digit (h c List.mem_cons_self)
    rw [Utf8.encode, List.flatMap_cons, hone, Nat.ofDigitChars_cons, ← ih (fun d hd =>
      h d (List.mem_cons_of_mem c hd)), ← hnat]
    rfl

/-- The bytes of a text of digits are digits. -/
theorem isDecimal_of_mem_encode {text : List Char} (h : ∀ c ∈ text, c.isDigit = true) :
    ∀ x ∈ Utf8.encode text, isDecimal x = true := by
  intro x hx
  obtain ⟨c, hc, hxc⟩ := List.mem_flatMap.mp hx
  obtain ⟨hone, -, hdecimal⟩ := utf8EncodeChar_digit (h c hc)
  rw [hone, List.mem_singleton] at hxc
  rw [hxc]
  exact hdecimal

/-- The bytes of a number are those of its decimal digits. -/
theorem lit_toString (n : Nat) : lit (toString n) = Utf8.encode (Nat.toDigits 10 n) := by
  rw [Utf8.lit_eq_encode, Nat.toString_eq_ofList_toDigits, String.toList_ofList]

/-- The decimal digits of a number are digits. -/
theorem isDigit_toDigits (n : Nat) : ∀ c ∈ Nat.toDigits 10 n, c.isDigit = true :=
  fun _ hc => Nat.isDigit_of_mem_toDigits (by decide) (by decide) hc

/-- What is written of a number is read as the number. -/
theorem decimal?_toString (n : Nat) : decimal? (lit (toString n)) = some n := by
  have hdigits := isDigit_toDigits n
  have hne : Utf8.encode (Nat.toDigits 10 n) ≠ [] := by
    intro hnil
    exact Nat.toDigits_ne_nil (Utf8.encode_injective (show _ = Utf8.encode [] from hnil))
  rw [lit_toString, decimal?, if_pos ⟨hne, List.all_eq_true.mpr (isDecimal_of_mem_encode hdigits)⟩,
    foldl_encode_digits hdigits, Nat.ofDigitChars_ten_toDigits]

/-! ### Reading one request off a stream -/

namespace HttpRequest

/-- The values of the headers with a name, which is given in lower case. -/
def valuesOf (name : Bytes) (headers : List (Bytes × Bytes)) : List Bytes :=
  (headers.filter fun field => field.1.map toLower = name).map Prod.snd

/-- How long the headers say the body is. -/
def bodyLength? (headers : List (Bytes × Bytes)) : Option Nat :=
  if valuesOf (lit "transfer-encoding") headers ≠ [] then none
  else
    match valuesOf (lit "content-length") headers with
    | [] => some 0
    | [value] => decimal? (strip value)
    | _ => none

/-- The first request of a stream, and what comes after it. -/
def readNext (s : Bytes) : Option (HttpRequest × Bytes) := do
  -- To `parse` all that follows the head is the body.
  let r ← parse s
  let n ← bodyLength? r.headers
  if n ≤ r.body.length then return ({ r with body := r.body.take n }, r.body.drop n)
  else none

/-- Bytes behind a request read as more of its body. -/
theorem render_append (r : HttpRequest) (later : Bytes) :
    r.render ++ later = { r with body := r.body ++ later }.render := by
  simp only [render, List.append_assoc, List.cons_append]

/-- What is read is the text of a valid request that is as long as its headers say. -/
theorem readNext_eq_some_iff {s later : Bytes} {r : HttpRequest} :
    readNext s = some (r, later) ↔
      r.Valid ∧ bodyLength? r.headers = some r.body.length ∧ s = r.render ++ later := by
  unfold readNext
  simp only [Option.bind_eq_bind, Option.bind_eq_some_iff]
  constructor
  · rintro ⟨whole, hparse, n, hlength, hread⟩
    obtain ⟨hvalid, rfl⟩ := parse_eq_some_iff.mp hparse
    split at hread
    · rename_i hle
      cases hread
      -- No condition on a valid request speaks of its body.
      refine ⟨⟨hvalid.1, hvalid.2, hvalid.3, hvalid.4, hvalid.5⟩, ?_, ?_⟩
      · rw [hlength, List.length_take, Nat.min_eq_left hle]
      · rw [render_append, List.take_append_drop]
    · cases hread
  · rintro ⟨hvalid, hlength, rfl⟩
    refine ⟨{ r with body := r.body ++ later }, ?_, r.body.length, hlength, ?_⟩
    · rw [render_append]
      exact parse_eq_some_iff.mpr
        ⟨⟨hvalid.1, hvalid.2, hvalid.3, hvalid.4, hvalid.5⟩, rfl⟩
    · rw [if_pos (by simp), List.take_left, List.drop_left]
      rfl

end HttpRequest

end EjsBoundary.Lib
