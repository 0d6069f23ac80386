import EjsBoundary.Lib.Binary64

/-!
# `EjsBoundary.Lib.JsonNumber`: the numbers of JSON values

The tests and conversions of `Json::Value` for numbers. They go by the number and not by the type
it was made with: `isInt` holds of every number that is an integer of 32 bits, so several of them
hold of one value.

`Json.meaning` is what a value says when its numbers are numbers: an integer and a real of equal
value mean the same.
-/

set_option autoImplicit false

namespace EjsBoundary.Lib

namespace Json

/-- The integer that a number is, if it is one. -/
def integer? : Json → Option Int
  | .int i => some i
  | .uint n => some n
  | .real d => d.integer?
  | _ => none

/-- The number is an integer from `lo` up to, and without, `hi`. -/
def isIntegerIn (lo hi : Int) (v : Json) : Bool :=
  v.integer?.any fun i => lo ≤ i && i < hi

def isInt : Json → Bool := isIntegerIn (-2 ^ 31) (2 ^ 31)

def isUInt : Json → Bool := isIntegerIn 0 (2 ^ 32)

def isInt64 : Json → Bool := isIntegerIn (-2 ^ 63) (2 ^ 63)

def isUInt64 : Json → Bool := isIntegerIn 0 (2 ^ 64)

/-- `asInt`, of a value for which `isInt` holds. -/
def asInt (v : Json) : Int := v.integer?.getD 0

/-- `asUInt`, of a value for which `isUInt` holds. -/
def asUInt (v : Json) : Nat := (v.integer?.getD 0).toNat

/-- `asDouble`, of a number. -/
def asDouble : Json → Double
  | .int i => Double.ofInt i
  | .uint n => Double.ofInt n
  | .real d => d
  | _ => Double.ofInt 0

/-- What a value says. A double that is no number stays the double it is. -/
inductive Meaning where
  | null
  | bool (b : Bool)
  | number (q : ℚ)
  | notANumber (d : Double)
  | string (s : Bytes)
  | array (elems : List Meaning)
  | object (members : List (Bytes × Meaning))

mutual

def meaning : Json → Meaning
  | .null => .null
  | .bool b => .bool b
  | .int i => .number i
  | .uint n => .number n
  | .real d =>
    match d.value with
    | some q => .number q
    | none => .notANumber d
  | .string s => .string s
  | .array elems => .array (meaningElems elems)
  | .object members => .object (meaningMembers members)

def meaningElems : List Json → List Meaning
  | [] => []
  | v :: vs => meaning v :: meaningElems vs

def meaningMembers : List (Bytes × Json) → List (Bytes × Meaning)
  | [] => []
  | m :: ms => meaningMember m :: meaningMembers ms

def meaningMember : Bytes × Json → Bytes × Meaning
  | (key, v) => (key, meaning v)

end

/-- The elements of an array are taken one by one. -/
theorem meaningElems_eq (elems : List Json) : meaningElems elems = elems.map meaning := by
  induction elems with
  | nil => rfl
  | cons v vs ih => rw [meaningElems, ih, List.map_cons]

/-- So are the members of an object. The keys stay. -/
theorem meaningMembers_eq (members : List (Bytes × Json)) :
    meaningMembers members = members.map fun m => (m.1, meaning m.2) := by
  induction members with
  | nil => rfl
  | cons m ms ih =>
    obtain ⟨key, v⟩ := m
    rw [meaningMembers, meaningMember, ih, List.map_cons]

end Json

end EjsBoundary.Lib
