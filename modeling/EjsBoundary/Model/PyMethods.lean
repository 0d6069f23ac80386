import EjsBoundary.Lib.Utf8
import EjsBoundary.Model.Types

/-!
# `EjsBoundary.Model.PyMethods`: the conversions at the Python boundary

The model of `py_requests_to_cpp` and `responses_to_py` in `solver_boundary_py_methods.cpp`,
with the values of the Python objects and without their reference counts. A function that
returns `false` or `nullptr` is `none` here.

Both directions go through `const char *`. `PyUnicode_AsUTF8` gives a pointer into the UTF-8
form of the whole string, and the assignment to `std::string` stops at the first NUL;
`PyUnicode_FromString` is given `c_str()` and stops there too.
-/

set_option autoImplicit false

namespace EjsBoundary.Model

open EjsBoundary.Lib

/-! ### Python values -/

abbrev CodePoint := Fin 0x110000

/-- A Python `str`: any sequence of code points, surrogates included. -/
abbrev PyStr := List CodePoint

/-- A Python object, as far as the two functions look at it. `sequence` is any other object
with the sequence protocol, which may fail to give its length or an item. -/
inductive PyObject where
  | str (s : PyStr)
  | bool (b : Bool)
  | dict (entries : List (PyStr × PyObject))
  | list (items : List PyObject)
  | sequence (size : Option Nat) (item : Nat → Option PyObject)
  | other

/-- The character of a code point that is not a surrogate. -/
def charOf? (c : CodePoint) : Option Char :=
  if c.val.isValidChar then some (Char.ofNat c.val) else none

def codePointOf (c : Char) : CodePoint := ⟨c.toNat, by
  rcases c.valid with h | h
  · exact Nat.lt_trans h (by decide)
  · exact h.2⟩

/-- The `str` of a source literal. -/
def pyStr (s : String) : PyStr := s.toList.map codePointOf

/-- `PyUnicode_AsUTF8`: it fails on a string with a surrogate. -/
def pyUnicodeAsUTF8 (s : PyStr) : Option Bytes := (s.mapM charOf?).map Utf8.encode

/-- `PyUnicode_FromString` on `s.c_str()`: it fails on bytes that are not UTF-8. -/
def pyUnicodeFromString (s : Bytes) : Option PyStr :=
  (Utf8.decode? (cString s)).map fun text => text.map codePointOf

namespace PyObject

/-- `PySequence_Check` and `PySequence_Size`. -/
def size : PyObject → Option Nat
  | .str s => some s.length
  | .list items => some items.length
  | .sequence size _ => size
  | _ => none

/-- `PySequence_GetItem`. -/
def item : PyObject → Nat → Option PyObject
  | .str s, i => s[i]?.map fun c => .str [c]
  | .list items, i => items[i]?
  | .sequence _ item, i => item i
  | _, _ => none

/-- `PyDict_Check` and `PyDict_GetItemString`. -/
def getItemString (key : String) : PyObject → Option PyObject
  | .dict entries => entries.lookup (pyStr key)
  | _ => none

/-- `PyUnicode_Check`, with the string. -/
def unicode? : PyObject → Option PyStr
  | .str s => some s
  | _ => none

end PyObject

/-! ### The two conversions -/

/-- The strings under `type` and `challenge`, when the item is a dict that has both. -/
def requestStrings (item : PyObject) : Option (PyStr × PyStr) := do
  let type ← (← item.getItemString "type").unicode?
  let challenge ← (← item.getItemString "challenge").unicode?
  return (type, challenge)

/-- One turn of the loop of `py_requests_to_cpp`. -/
def readRequest (item : PyObject) : Option SolverRequest := do
  let (type, challenge) ← requestStrings item
  let typeC ← pyUnicodeAsUTF8 type
  let challengeC ← pyUnicodeAsUTF8 challenge
  return { type := cString typeC, challenge := cString challengeC }

/-- `py_requests_to_cpp`. -/
def pyRequestsToCpp (obj : PyObject) : Option (List SolverRequest) := do
  let n ← obj.size
  (List.range n).mapM fun i => do readRequest (← obj.item i)

/-- One turn of the loop of `responses_to_py`. -/
def responseToPy (r : SolverResponse) : Option PyObject := do
  let type ← pyUnicodeFromString r.type
  let data ← pyUnicodeFromString r.data
  let error ← pyUnicodeFromString r.error
  return .dict [(pyStr "type", .str type), (pyStr "ok", .bool r.ok), (pyStr "data", .str data),
    (pyStr "error", .str error)]

/-- `responses_to_py`. -/
def responsesToPy (responses : List SolverResponse) : Option PyObject := do
  let items ← responses.mapM responseToPy
  return .list items

end EjsBoundary.Model
