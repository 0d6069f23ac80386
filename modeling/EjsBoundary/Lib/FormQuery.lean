import EjsBoundary.Lib.StringMap

/-!
# `EjsBoundary.Lib.FormQuery`: the standard reading of a query string

What a server reads in a query: pieces separated by `&`, empty pieces ignored, each piece
cut at its first `=`, `+` and `%XX` decoded exactly once in key and value, the last of
several pieces with one key in force. `read` is that reading as a function from keys to
values. It names no program, and a component that rewrites queries is measured against it.

`decode` and `percentDecode` are written over a byte classifier, not over positions, so the
reading does not share the loop of any implementation. The second one leaves `+` alone;
`decode_eq_percentDecode` says that this is the only difference. `Encoded` is the form of a
query in which both readings agree: unreserved bytes, upper case escapes and the two
separators.
-/

set_option autoImplicit false

namespace EjsBoundary.Lib.FormQuery

open EjsBoundary.Lib

/-- The value of a hexadecimal digit. -/
def hexDigit? (c : UInt8) : Option Nat :=
  let n := c.toNat
  if 48 ≤ n ∧ n ≤ 57 then some (n - 48)
  else if 65 ≤ n ∧ n ≤ 70 then some (n - 55)
  else if 97 ≤ n ∧ n ≤ 102 then some (n - 87)
  else none

/-- The byte an escape at the head of the text stands for. -/
def escape? : Bytes → Option UInt8
  | 0x25 :: h :: l :: _ => do
    let hi ← hexDigit? h
    let lo ← hexDigit? l
    pure (UInt8.ofNat (16 * hi + lo))
  | _ => none

/-- One decoding pass with `+` read as a space. `skip` counts the bytes of an escape that
are still to be passed over. -/
def decodeFrom : (skip : Nat) → Bytes → Bytes
  | _, [] => []
  | skip + 1, _ :: rest => decodeFrom skip rest
  | 0, c :: rest =>
    match escape? (c :: rest) with
    | some b => b :: decodeFrom 2 rest
    | none => (if c = 0x2B then 0x20 else c) :: decodeFrom 0 rest

/-- The decoding of a key or a value. -/
def decode (s : Bytes) : Bytes := decodeFrom 0 s

/-- Key and value of a piece. -/
def pair (piece : Bytes) : Bytes × Bytes :=
  (decode (piece.takeWhile (· ≠ 0x3D)), decode ((piece.dropWhile (· ≠ 0x3D)).drop 1))

/-- The pieces that count. -/
def pieces (qs : Bytes) : List Bytes := (qs.splitOn 0x26).filter (fun p => !p.isEmpty)

/-- The value a server reads under a key: that of the last piece with this key. -/
def read (qs key : Bytes) : Option Bytes := ((pieces qs).map pair).reverse.lookup key

/-- The reading of a whole URL: its query is what follows the first `?`. -/
def readUrl (url key : Bytes) : Option Bytes := read ((url.dropWhile (· ≠ 0x3F)).drop 1) key

/-! ### Percent-decoding alone -/

/-- One decoding pass over the escapes, `+` being a byte like any other. -/
def percentDecodeFrom : (skip : Nat) → Bytes → Bytes
  | _, [] => []
  | skip + 1, _ :: rest => percentDecodeFrom skip rest
  | 0, c :: rest =>
    match escape? (c :: rest) with
    | some b => b :: percentDecodeFrom 2 rest
    | none => c :: percentDecodeFrom 0 rest

/-- Percent-decoding, once. -/
def percentDecode (s : Bytes) : Bytes := percentDecodeFrom 0 s

/-- The segments of a query, each cut at its first `=` and percent-decoded once, in the order
they stand in. -/
def entries (qs : Bytes) : List (Bytes × Bytes) :=
  (qs.splitOn 0x26).map fun piece =>
    (percentDecode (piece.takeWhile (· ≠ 0x3D)),
      percentDecode ((piece.dropWhile (· ≠ 0x3D)).drop 1))

/-- Without a plus sign the form decoding is the percent decoding. -/
theorem decodeFrom_eq_percentDecodeFrom (s : Bytes) (h : (0x2B : UInt8) ∉ s) (skip : Nat) :
    decodeFrom skip s = percentDecodeFrom skip s := by
  induction s generalizing skip with
  | nil => cases skip <;> rfl
  | cons c s ih =>
    have hs : (0x2B : UInt8) ∉ s := fun hmem => h (List.mem_cons_of_mem c hmem)
    have hc : c ≠ 0x2B := fun heq => h (heq ▸ List.mem_cons_self)
    cases skip with
    | succ skip => exact ih hs skip
    | zero =>
      rw [decodeFrom, percentDecodeFrom]
      cases escape? (c :: s) with
      | none => simp only [if_neg hc, ih hs]
      | some b => simp only [ih hs]

/-- A text without `+` is decoded alike by both. -/
theorem decode_eq_percentDecode {s : Bytes} (h : (0x2B : UInt8) ∉ s) :
    decode s = percentDecode s :=
  decodeFrom_eq_percentDecodeFrom s h 0

/-! ### The encoded form -/

/-- The unreserved bytes: letters, digits and four marks. -/
def Unreserved (c : UInt8) : Prop :=
  (65 ≤ c.toNat ∧ c.toNat ≤ 90) ∨ (97 ≤ c.toNat ∧ c.toNat ≤ 122) ∨
    (48 ≤ c.toNat ∧ c.toNat ≤ 57) ∨ c ∈ [0x2D, 0x2E, 0x5F, 0x7E]

instance : DecidablePred Unreserved := fun c => by unfold Unreserved; infer_instance

/-- An upper case hexadecimal digit. -/
def UpperHex (c : UInt8) : Prop :=
  (48 ≤ c.toNat ∧ c.toNat ≤ 57) ∨ (65 ≤ c.toNat ∧ c.toNat ≤ 70)

instance : DecidablePred UpperHex := fun c => by unfold UpperHex; infer_instance

/-- A query of unreserved bytes, `%XX` with upper case digits, `&` and `=`. -/
inductive Encoded : Bytes → Prop
  | nil : Encoded []
  | plain {c : UInt8} {s : Bytes} : Unreserved c → Encoded s → Encoded (c :: s)
  | escape {h l : UInt8} {s : Bytes} :
      UpperHex h → UpperHex l → Encoded s → Encoded (0x25 :: h :: l :: s)
  | separator {c : UInt8} {s : Bytes} : c = 0x26 ∨ c = 0x3D → Encoded s → Encoded (c :: s)

/-- Encoded texts join to an encoded text. -/
theorem Encoded.append {a b : Bytes} (ha : Encoded a) (hb : Encoded b) : Encoded (a ++ b) := by
  induction ha with
  | nil => exact hb
  | plain hc _ ih => exact .plain hc ih
  | escape hh hl _ ih => exact .escape hh hl ih
  | separator hc _ ih => exact .separator hc ih

end EjsBoundary.Lib.FormQuery
