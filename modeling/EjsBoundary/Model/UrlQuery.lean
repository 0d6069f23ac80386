import EjsBoundary.Lib.StringMap

/-!
# `EjsBoundary.Model.UrlQuery`: reading and rewriting a URL query

The model of `url_query_utils.cpp`. A URL is a byte string; the query is what follows the
first `?`. `parseQueryString` decodes every key and value **twice**
(`safeDoubleDecode`), `setOrReplaceQueryParam` writes every key and value back encoded
**once**. Both facts are the source's; the laws that do and do not follow from them are in
`EjsBoundary.Proofs.UrlQuery`.

`std::map<std::string, std::string>` is `Std.ExtTreeMap Bytes Bytes`: `std::string`
compares bytes as unsigned characters, and `compare` on `List UInt8` is the same
lexicographic order.
-/

set_option autoImplicit false

namespace EjsBoundary.Model

open EjsBoundary.Lib

/-- `std::map<std::string, std::string>`. -/
abbrev Params := Std.ExtTreeMap Bytes Bytes

/-- `hexval`: the value of a hexadecimal digit of either case, `none` for the source's
`-1`. A byte from 0x80 up is a negative `char` in the source and fails every test there
too. -/
def hexval (c : UInt8) : Option UInt8 :=
  if 0x30 ≤ c ∧ c ≤ 0x39 then some (c - 0x30)
  else if 0x61 ≤ c ∧ c ≤ 0x66 then some (c - 0x61 + 10)
  else if 0x41 ≤ c ∧ c ≤ 0x46 then some (c - 0x41 + 10)
  else none

/-- What `decode_once` writes for a byte that starts no escape: `+` becomes a space. -/
def plusToSpace (c : UInt8) : UInt8 := if c = 0x2B then 0x20 else c

/-- `decode_once`: the loop over the positions of the string. An escape needs two more
bytes (`i + 2 < s.size()`), both hexadecimal; otherwise the `%` is copied and the loop goes
on at the very next byte. -/
def decodeOnce : Bytes → Bytes
  | [] => []
  | [c] => [plusToSpace c]
  | [c, d] => [plusToSpace c, plusToSpace d]
  | c :: h :: l :: rest =>
    if c = 0x25 then
      match hexval h, hexval l with
      | some hi, some lo => ((hi <<< 4) ||| lo) :: decodeOnce rest
      | _, _ => plusToSpace c :: decodeOnce (h :: l :: rest)
    else plusToSpace c :: decodeOnce (h :: l :: rest)

/-- `safe_double_decode`: two passes. `decode_once` does not throw, so the two `catch`
blocks are never entered. -/
def safeDoubleDecode (input : Bytes) : Bytes := decodeOnce (decodeOnce input)

/-- The key and value of one `&`-separated part: cut at the first `=`, both sides decoded
by `decode`. A part without `=` is a key with the empty value. -/
def parsePart (decode : Bytes → Bytes) (part : Bytes) : Bytes × Bytes :=
  match findByte 0x3D part with
  | none => (decode part, [])
  | some eq => (decode (part.take eq), decode (part.drop (eq + 1)))

/-- `parse_query_string`: one assignment `out[key] = value` for each part the `getline`
loop visits. -/
def parseQueryString (qs : Bytes) : Params :=
  ofEntries ((getlines 0x26 qs).map (parsePart safeDoubleDecode))

/-- The text after the first `?`, when there is one. -/
def queryOf (url : Bytes) : Option Bytes :=
  (findByte 0x3F url).map fun qpos => url.drop (qpos + 1)

/-- The text before the first `?`, or all of it. -/
def baseOf (url : Bytes) : Bytes :=
  match findByte 0x3F url with
  | none => url
  | some qpos => url.take qpos

/-- `query_param_from_url`. -/
def queryParamFromUrl (url key : Bytes) : Option Bytes :=
  match queryOf url with
  | none => none
  | some qs => (parseQueryString qs)[key]?

/-- The bytes `urlencode` writes as they are. -/
def isUnreserved (c : UInt8) : Bool :=
  (0x41 ≤ c && c ≤ 0x5A) || (0x61 ≤ c && c ≤ 0x7A) || (0x30 ≤ c && c ≤ 0x39) ||
    c == 0x2D || c == 0x5F || c == 0x2E || c == 0x7E

/-- One digit of `std::hex << std::uppercase`. -/
def hexUpper (n : UInt8) : UInt8 := if n < 10 then 0x30 + n else 0x41 + (n - 10)

/-- What `urlencode` writes for one byte. -/
def urlencodeByte (c : UInt8) : Bytes :=
  if isUnreserved c then [c] else [0x25, hexUpper (c >>> 4), hexUpper (c &&& 0x0F)]

/-- `urlencode`: unreserved bytes as they are, every other byte as `%` and its two upper
case digits. -/
def urlencode (s : Bytes) : Bytes := s.flatMap urlencodeByte

/-- One `key=value` piece of the rewritten query. -/
def encodePair (kv : Bytes × Bytes) : Bytes := urlencode kv.1 ++ 0x3D :: urlencode kv.2

/-- The loop over `params` that writes the pieces in key order with `&` between them. -/
def writeParams (params : Params) : Bytes := [0x26].intercalate (params.toList.map encodePair)

/-- The parameters of the query a URL carries, none when it has no query. -/
def paramsOf (url : Bytes) : Params := parseQueryString ((queryOf url).getD [])

/-- `set_or_replace_query_param`. -/
def setOrReplaceQueryParam (url key value : Bytes) : Bytes :=
  baseOf url ++ 0x3F :: writeParams ((paramsOf url).insert key value)

end EjsBoundary.Model
