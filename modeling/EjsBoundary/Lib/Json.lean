import EjsBoundary.Lib.Bytes

/-!
# `EjsBoundary.Lib.Json`: JSON values and their checked accessors

The part of a `Json::Value` a reader of untrusted JSON relies on. Access is checked at run
time: asking a number for a member, or an array for its text, throws. So every accessor
returns in `Except`, with the text of the exception on the left.

An object is the list of its members in key order, as the underlying `std::map` iterates
over them.
-/

set_option autoImplicit false

namespace EjsBoundary.Lib

/-- An IEEE 754 double, by its bit pattern. -/
structure Double where
  bits : UInt64
  deriving DecidableEq

/-- A JSON value. Integers keep the signed or unsigned 64-bit type they were made with. -/
inductive Json where
  | null
  | bool (b : Bool)
  | int (i : Int)
  | uint (n : Nat)
  | real (d : Double)
  | string (s : Bytes)
  | array (elems : List Json)
  | object (members : List (Bytes × Json))

namespace Json

/-- `isArray`, with the elements. -/
def elems? : Json → Option (List Json)
  | .array elems => some elems
  | _ => none

/-- `isString`, with the text. -/
def string? : Json → Option Bytes
  | .string s => some s
  | _ => none

/-- The member under `key`. Null has no members; any other value that is not an object
throws. -/
def find (v : Json) (key : Bytes) : Except Bytes (Option Json) :=
  match v with
  | .null => .ok none
  | .object members => .ok (members.lookup key)
  | _ => .error (lit "in Json::Value::find(begin, end): requires objectValue or nullValue")

/-- `get(key, defaultValue)`. -/
def get (v : Json) (key : Bytes) (defaultValue : Json) : Except Bytes Json :=
  (v.find key).map (·.getD defaultValue)

/-- `operator[](key) const`: a missing member reads as null. -/
def index (v : Json) (key : Bytes) : Except Bytes Json := v.get key .null

/-- `asString`. The text of a double is left to `showReal`. -/
def asString (showReal : Double → Bytes) : Json → Except Bytes Bytes
  | .null => .ok []
  | .string s => .ok s
  | .bool b => .ok (lit (if b then "true" else "false"))
  | .int i => .ok (lit (toString i))
  | .uint n => .ok (lit (toString n))
  | .real d => .ok (showReal d)
  | .array _ => .error (lit "Type is not convertible to string")
  | .object _ => .error (lit "Type is not convertible to string")

/-- The values `find` accepts. -/
def HasMembers : Json → Prop
  | .null => True
  | .object _ => True
  | _ => False

/-- The values `asString` accepts. -/
def HasText : Json → Prop
  | .array _ => False
  | .object _ => False
  | _ => True

/-- The member under `key`, for the values `find` accepts. -/
def member (v : Json) (key : Bytes) : Option Json :=
  match v with
  | .object members => members.lookup key
  | _ => none

/-- On a value with members `get` gives the member, or the default. -/
theorem get_eq_ok {v : Json} (h : v.HasMembers) (key : Bytes) (d : Json) :
    v.get key d = .ok ((v.member key).getD d) := by
  cases v <;> first | rfl | exact absurd h id

/-- On a value without members `get` throws. -/
theorem get_eq_error {v : Json} (h : ¬ v.HasMembers) (key : Bytes) (d : Json) :
    ∃ e, v.get key d = .error e := by
  cases v <;> first | exact ⟨_, rfl⟩ | exact absurd trivial h

/-- On a value with a text `asString` gives one. -/
theorem asString_eq_ok {v : Json} (h : v.HasText) (showReal : Double → Bytes) :
    ∃ s, v.asString showReal = .ok s := by
  cases v <;> first | exact ⟨_, rfl⟩ | exact absurd h id

/-- On a value without a text `asString` throws. -/
theorem asString_eq_error {v : Json} (h : ¬ v.HasText) (showReal : Double → Bytes) :
    ∃ e, v.asString showReal = .error e := by
  cases v <;> first | exact ⟨_, rfl⟩ | exact absurd trivial h

end Json

end EjsBoundary.Lib
