import EjsBoundary.Lib.Json
import EjsBoundary.Lib.Utf16
import Mathlib.Data.List.Nodup

/-!
# `EjsBoundary.Lib.EcmaScript`: JavaScript values and own properties

The values that data is made of, as ECMAScript has them. An object is the list of its own
properties in the order they were created in. `setProperty` is an assignment: a property that is
there keeps its place, a new one comes last. `ownProperties` is the order a program sees: the keys
that are array indices come first, by their number.

Objects that are made of data have no getters, and their prototype is the unmodified
`Object.prototype`. Of its properties only `__proto__` is not a data property: an assignment to it
changes the prototype and makes no own property.
-/

set_option autoImplicit false

namespace EjsBoundary.Lib

variable {α β : Type}

/-! ### Keys -/

/-- The value of a decimal digit. -/
def jsDigit? (u : UInt16) : Option Nat :=
  if 0x30 ≤ u.toNat ∧ u.toNat ≤ 0x39 then some (u.toNat - 0x30) else none

/-- The number of a key that is an array index: the decimal form, without leading zeros, of a
number below 2^32 - 1. -/
def arrayIndex? (key : JsString) : Option Nat :=
  match key.mapM jsDigit? with
  | none | some [] => none
  | some (d :: ds) =>
    if d = 0 ∧ ds ≠ [] then none
    else
      let n := (d :: ds).foldl (fun acc d => 10 * acc + d) 0
      if n < 2 ^ 32 - 1 then some n else none

/-- `__proto__`. -/
def protoKey : JsString := Utf16.encode "__proto__".toList

/-! ### Own properties -/

/-- An assignment to a property. -/
def setProperty (props : List (JsString × α)) (key : JsString) (v : α) : List (JsString × α) :=
  if key = protoKey then props
  else if key ∈ props.map Prod.fst then props.map fun p => if p.1 = key then (key, v) else p
  else props ++ [(key, v)]

/-- The own properties in the order of `[[OwnPropertyKeys]]`. -/
def ownProperties (props : List (JsString × α)) : List (JsString × α) :=
  (props.filter fun p => (arrayIndex? p.1).isSome).mergeSort
      (fun p q => (arrayIndex? p.1).getD 0 ≤ (arrayIndex? q.1).getD 0) ++
    props.filter fun p => !(arrayIndex? p.1).isSome

/-- The order is one of the same properties. -/
theorem ownProperties_perm (props : List (JsString × α)) : (ownProperties props).Perm props :=
  ((List.mergeSort_perm _ _).append_right _).trans (List.filter_append_perm _ props)

/-- The order depends on the keys only. -/
theorem ownProperties_map (f : α → β) (props : List (JsString × α)) :
    ownProperties (props.map fun p => (p.1, f p.2)) =
      (ownProperties props).map fun p => (p.1, f p.2) := by
  unfold ownProperties
  rw [List.filter_map, List.filter_map, List.map_append]
  congr 1
  symm
  apply List.map_mergeSort
  intro a _ b _
  rfl

/-- Assignments to different keys make one property each, in their order. -/
theorem foldl_setProperty {l : List (JsString × α)} (hnodup : (l.map Prod.fst).Nodup)
    (hproto : protoKey ∉ l.map Prod.fst) :
    l.foldl (fun props p => setProperty props p.1 p.2) [] = l := by
  suffices h : ∀ front : List (JsString × α), ((front ++ l).map Prod.fst).Nodup →
      l.foldl (fun props p => setProperty props p.1 p.2) front = front ++ l from h [] hnodup
  clear hnodup
  induction l with
  | nil => exact fun front _ => (List.append_nil front).symm
  | cons p l ih =>
    intro front hnodup
    rw [List.map_cons, List.mem_cons, not_or] at hproto
    have hnew : p.1 ∉ front.map Prod.fst := by
      rw [List.map_append, List.map_cons, List.nodup_append'] at hnodup
      exact fun hmem => hnodup.2.2 hmem List.mem_cons_self
    have hset : setProperty front p.1 p.2 = front ++ [p] := by
      rw [setProperty, if_neg (Ne.symm hproto.1), if_neg hnew]
    have hrest := ih hproto.2 (front ++ [p]) (by rwa [List.append_assoc, List.singleton_append])
    rw [List.foldl_cons, hset, hrest, List.append_assoc, List.singleton_append]

/-! ### Values -/

/-- A JavaScript value. Numbers are 32-bit integers or doubles, as engines keep them; `other` is
what is not data, such as a symbol. -/
inductive JsValue where
  | undefined
  | null
  | bool (b : Bool)
  | int (i : Int)
  | float64 (d : Double)
  | string (s : JsString)
  | array (elems : List JsValue)
  | object (props : List (JsString × JsValue))
  | other

end EjsBoundary.Lib
