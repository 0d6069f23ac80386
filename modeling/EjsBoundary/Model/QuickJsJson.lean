import EjsBoundary.Lib.EcmaScript
import EjsBoundary.Lib.JsonNumber
import EjsBoundary.Lib.StringMap
import EjsBoundary.Model.Types

/-!
# `EjsBoundary.Model.QuickJsJson`: JSON to JavaScript and back

`json_to_js_qjs` and `js_to_json_qjs` of `quickjs_json_utils.cpp`, and what they use of QuickJS.
Both directions go through `const char *`, so a text is cut at its first NUL. `repair` is what
`JS_NewString` makes of bytes that are not UTF-8; nothing depends on it.

The values that a conversion makes are new and are shared with nothing, so a tree stands for them.
No call fails: the functions do not look at the results of the calls, and a call fails only when
memory runs out.
-/

set_option autoImplicit false

namespace EjsBoundary.Model

open EjsBoundary.Lib

/-! ### QuickJS -/

/-- `JS_NewInt32`. -/
def newInt32 (i : Int) : JsValue := .int i

/-- `JS_NewUint32`. -/
def newUint32 (n : Nat) : JsValue :=
  if n ≤ 0x7FFFFFFF then newInt32 n else .float64 (Double.ofInt n)

/-- `JS_NewFloat64`: a double that is a 32-bit integer, and not -0, is kept as an integer. -/
def newFloat64 (d : Double) : JsValue :=
  match d.integer? with
  | some i => if -2 ^ 31 ≤ i ∧ i < 2 ^ 31 ∧ Double.ofInt i = d then .int i else .float64 d
  | none => .float64 d

/-- `JS_NewString` of a text behind a `char *`. -/
def newString (repair : Bytes → JsString) (s : Bytes) : JsString :=
  match Utf8.decode? (cString s) with
  | some text => Utf16.encode text
  | none => repair (cString s)

/-- `JS_ToCString`, as the `char *` shows it. -/
def toCString (s : JsString) : Bytes := cString (Utf16.toUtf8 s)

/-! ### `json_to_js_qjs` -/

/-- The tests for numbers, in the order of the source. -/
def numberToJs (v : Json) : JsValue :=
  if v.isInt then newInt32 v.asInt
  else if v.isUInt then newUint32 v.asUInt
  else if v.isInt64 || v.isUInt64 then newFloat64 v.asDouble
  else newFloat64 v.asDouble

section
variable (repair : Bytes → JsString)

mutual

/-- `json_to_js_qjs`. -/
def jsonToJsQjs : Json → JsValue
  | .null => .null
  | .bool b => .bool b
  | .int i => numberToJs (.int i)
  | .uint n => numberToJs (.uint n)
  | .real d => numberToJs (.real d)
  | .string s => .string (newString repair s)
  | .array elems => .array (jsonToJsElems elems)
  | .object members =>
    -- `JS_SetPropertyStr` for one member after the other
    .object ((jsonToJsMembers members).foldl (fun props p => setProperty props p.1 p.2) [])

def jsonToJsElems : List Json → List JsValue
  | [] => []
  | v :: vs => jsonToJsQjs v :: jsonToJsElems vs

def jsonToJsMembers : List (Bytes × Json) → List (JsString × JsValue)
  | [] => []
  | m :: ms => jsonToJsMember m :: jsonToJsMembers ms

def jsonToJsMember : Bytes × Json → JsString × JsValue
  | (name, v) => (newString repair name, jsonToJsQjs v)

end

end

/-! ### `js_to_json_qjs` -/

mutual

/-- `js_to_json_qjs`. -/
def jsToJsonQjs : JsValue → Json
  | .undefined => .null
  | .null => .null
  | .bool b => .bool b
  -- `JS_ToFloat64`
  | .int i => .real (Double.ofInt i)
  | .float64 d => .real d
  | .string s => .string (toCString s)
  | .array elems => .array (jsToJsonElems elems)
  | .object props =>
    -- `obj[key.get()] = …` for one own property after the other
    .object ((ofEntries ((ownProperties (jsToJsonProps props)).map
      fun p => (toCString p.1, p.2))).toList)
  | .other => .null

def jsToJsonElems : List JsValue → List Json
  | [] => []
  | v :: vs => jsToJsonQjs v :: jsToJsonElems vs

def jsToJsonProps : List (JsString × JsValue) → List (JsString × Json)
  | [] => []
  | p :: ps => jsToJsonProp p :: jsToJsonProps ps

def jsToJsonProp : JsString × JsValue → JsString × Json
  | (key, v) => (key, jsToJsonQjs v)

end

end EjsBoundary.Model
