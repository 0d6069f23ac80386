import EjsBoundary.Lib.Ownership
import EjsBoundary.Model.QuickJsJson
import EjsBoundary.Model.SolverEngine

/-!
# `EjsBoundary.Model.QuickJsHandles`: the handles of an engine

The life of a `SolverEngine` with every QuickJS handle it has: the runtime and the context, the
values, C strings and atoms that the owners of `quickjs_raii.h` hold, and the array of
`JS_GetOwnPropertyNames`. The constructor, `eval_script`, `solve`, the two conversions of
`quickjs_json_utils.cpp` and the destructor are modelled call by call. What each call returns is
an input. The values that are computed are in `EjsBoundary.Model.SolverEngine` and
`EjsBoundary.Model.QuickJsJson`.

A reply need not be a tree: an array can contain itself, and a getter can make a new object every
time. So a reply is what the calls return along every path, and the paths may go on without end.
`js_to_json_qjs` descends by calling itself. How many such calls the native stack has room for is
an input too. When there is no room left, the process dies, and the engine neither returns nor
throws.

An owner is a scope: it frees its handle however the scope ends. Every call is given the context,
so it uses it; `JS_FreeValue` and its siblings do too. `JS_SetPropertyUint32` and
`JS_SetPropertyStr` take the reference over that they are given, and so end it for the program.
-/

set_option autoImplicit false

namespace EjsBoundary.Model

open EjsBoundary.Lib

/-! ### Handles and calls -/

/-- What a handle is for, under the name it has in the source. -/
inductive JsKind where
  | script
  | exc
  | msg
  | global
  | jscFunc
  | built
  | ret
  | text
  | lenv
  | elem (i : Nat)
  | props
  | atom (i : Nat)
  | key (i : Nat)
  | pv (i : Nat)
  deriving DecidableEq

/-- A handle. The place says which call it belongs to and where in the value that is converted. -/
inductive JsRef where
  | runtime
  | context
  | of (place : List Nat) (kind : JsKind)
  deriving DecidableEq

/-- What the calls of `js_to_json_qjs` return for one value, without those for the values in it. -/
inductive JsNode where
  /-- `null` or `undefined`. -/
  | null
  | bool (b : Bool)
  /-- A number, with what `JS_ToFloat64` gives. -/
  | number (value : Option Double)
  /-- A string, with what `JS_ToCString` gives. -/
  | string (text : Option Bytes)
  /-- An array, with its length. -/
  | array (length : Nat)
  /-- An object whose property names cannot be listed. -/
  | unlisted
  /-- An object, with the text of each property name. -/
  | object (keys : List (Option Bytes))
  | other

/-- What the calls return for a value and, along every path of numbers, for the values in it. -/
def JsSeen := List Nat → JsNode

/-- Element or property number `i`. -/
def JsSeen.child (seen : JsSeen) (i : Nat) : JsSeen := fun path => seen (i :: path)

/-- What the calls of the constructor return. -/
structure EngineCalls where
  /-- Whether `JS_NewRuntime` gives a runtime. -/
  newRuntime : Bool
  /-- Whether `JS_NewContext` gives a context. -/
  newContext : Bool
  /-- The exception of a script that throws, with what `JS_ToCString` gives for it. -/
  evalThrows : Nat → Option (Option Bytes)

/-- What the calls of `solve` return. -/
structure SolveCalls where
  /-- `JS_IsFunction`. -/
  isFunction : Bool
  /-- What `JS_Call` gives: an exception, as for a script, or a value. -/
  reply : Except (Option Bytes) JsSeen

/-- A function that calls QuickJS. -/
abbrev JsProg := Prog JsRef Unit Bytes

/-- A call that is given the context and these handles. -/
def apiCall : List JsRef → JsProg Unit
  | [] => Prog.emit (.use .context)
  | r :: rest => do
    Prog.emit (.use r)
    apiCall rest

section
variable {α : Type}

/-- The scope of an owner. Its destructor is `JS_FreeValue`, `JS_FreeCString` or `JS_FreeAtom`. -/
def inScope (r : JsRef) (body : JsProg α) : JsProg α :=
  Prog.finallyDo body do
    apiCall []
    Prog.emit (.release r)

/-- The scope of an owner of a new handle. -/
def owned (r : JsRef) (body : JsProg α) : JsProg α := do
  Prog.emit (.acquire r)
  inScope r body

/-- The scope of a `JsCStringView`, which may be null; the body is given the text it shows. -/
def ownedText (r : JsRef) (text : Option Bytes) (body : Option Bytes → JsProg α) : JsProg α :=
  match text with
  | none => body none
  | some t => owned r (body (some (cString t)))

end

/-- `get_quickjs_exception`. -/
def getQuickjsException (place : List Nat) (text : Option Bytes) : JsProg Bytes := do
  -- `JS_GetException`
  apiCall []
  owned (.of place .exc) do
    -- `JS_ToCString(ctx, exc.get())`
    apiCall [.of place .exc]
    ownedText (.of place .msg) text fun msg =>
      match msg with
      | none => return lit "QuickJS exception"
      | some msg => do
        Prog.emit (.use (.of place .msg))
        return msg

/-! ### `json_to_js_qjs` -/

/-- `JS_SetPropertyUint32` or `JS_SetPropertyStr`, which takes the value over. -/
def setPropertyCall (container value : JsRef) : JsProg Unit := do
  apiCall [container, value]
  Prog.emit (.release value)

mutual

/-- `json_to_js_qjs`: a new reference. -/
def jsonToJsCalls (place : List Nat) : Json → JsProg JsRef
  | .array elems => do
    apiCall []
    Prog.emit (.acquire (.of place .built))
    setElems place 0 elems
    return .of place .built
  | .object members => do
    apiCall []
    Prog.emit (.acquire (.of place .built))
    setMembers place 0 members
    return .of place .built
  | .null | .bool _ | .int _ | .uint _ | .real _ | .string _ => do
    apiCall []
    Prog.emit (.acquire (.of place .built))
    return .of place .built

/-- The loop of `JS_SetPropertyUint32`, from element `i` on. -/
def setElems (place : List Nat) (i : Nat) : List Json → JsProg Unit
  | [] => pure ()
  | v :: vs => do
    let value ← jsonToJsCalls (place ++ [i]) v
    setPropertyCall (.of place .built) value
    setElems place (i + 1) vs

/-- The loop of `JS_SetPropertyStr`. -/
def setMembers (place : List Nat) (i : Nat) : List (Bytes × Json) → JsProg Unit
  | [] => pure ()
  | m :: ms => do
    let value ← memberToJsCalls (place ++ [i]) m
    setPropertyCall (.of place .built) value
    setMembers place (i + 1) ms

def memberToJsCalls (place : List Nat) : Bytes × Json → JsProg JsRef
  | (_, v) => jsonToJsCalls place v

end

/-! ### `js_to_json_qjs` -/

/-- The atoms that `JS_GetOwnPropertyNames` gives with its array. -/
def acquireAtoms (place : List Nat) : Nat → Nat → JsProg Unit
  | _, 0 => pure ()
  | i, n + 1 => do
    Prog.emit (.acquire (.of place (.atom i)))
    acquireAtoms place (i + 1) n

section
variable (convert : JsRef → List Nat → JsSeen → JsProg Json) (val : JsRef) (place : List Nat)
  (seen : JsSeen)

/-- The loop over the elements, from element `i` on. -/
def jsToJsonElemsCalls (i : Nat) : Nat → JsProg (List Json)
  | 0 => return []
  | n + 1 => do
    -- `JS_GetPropertyUint32(ctx, val, i)`
    apiCall [val]
    let x ← owned (.of place (.elem i)) (convert (.of place (.elem i)) (place ++ [i]) (seen.child i))
    let xs ← jsToJsonElemsCalls (i + 1) n
    return x :: xs

/-- One turn of the loop over the properties, inside the scope of its atom. -/
def jsToJsonPropCalls (i : Nat) (key : Option Bytes) : JsProg (Option (Bytes × Json)) := do
  -- `JS_AtomToCString(ctx, atom.get())`
  apiCall [.of place (.atom i)]
  ownedText (.of place (.key i)) key fun key => do
    -- `JS_GetProperty(ctx, val, atom.get())`
    apiCall [val, .of place (.atom i)]
    owned (.of place (.pv i)) do
      match key with
      | none => return none
      | some key =>
        let x ← convert (.of place (.pv i)) (place ++ [i]) (seen.child i)
        Prog.emit (.use (.of place (.key i)))
        return some (key, x)

/-- The loop over the properties, from property `i` on: the assignments to `obj`. -/
def jsToJsonPropsCalls (i : Nat) : List (Option Bytes) → JsProg (List (Bytes × Json))
  | [] => return []
  | key :: keys => do
    -- `props[i].atom`
    Prog.emit (.use (.of place .props))
    let entry ← inScope (.of place (.atom i)) (jsToJsonPropCalls convert val place seen i key)
    let entries ← jsToJsonPropsCalls (i + 1) keys
    return entry.toList ++ entries

end

/-- `js_to_json_qjs` of a value that is borrowed, with room for this many calls of itself. -/
def jsToJsonCalls : Nat → JsRef → List Nat → JsSeen → JsProg Json
  | 0, _, _, _ => Prog.never
  | stack + 1, val, place, seen =>
    match seen [] with
    | .null => return .null
    | .bool b => do
      apiCall [val]
      return .bool b
    | .number value => do
      apiCall [val]
      match value with
      | some d => return .real d
      -- None of the tests below it holds of a number.
      | none => return .null
    | .string text => do
      apiCall [val]
      ownedText (.of place .text) text fun s =>
        match s with
        | none => return .null
        | some s => do
          Prog.emit (.use (.of place .text))
          return .string s
    | .array length => do
      apiCall [val]
      -- `lenv` lives to the end of the block.
      owned (.of place .lenv) do
        apiCall [.of place .lenv]
        let out ← jsToJsonElemsCalls (jsToJsonCalls stack) val place seen 0 length
        return .array out
    | .unlisted => do
      apiCall [val]
      return .object []
    | .object keys => do
      apiCall [val]
      Prog.emit (.acquire (.of place .props))
      acquireAtoms place 0 keys.length
      let entries ← jsToJsonPropsCalls (jsToJsonCalls stack) val place seen 0 keys
      -- `js_free(ctx, props)`
      apiCall []
      Prog.emit (.release (.of place .props))
      return .object (ofEntries entries).toList
    | .other => return .null

/-! ### The engine -/

/-- `eval_script`, for script `i`. -/
def evalScriptCalls (throws : Option (Option Bytes)) (i : Nat) : JsProg Unit := do
  apiCall []
  owned (.of [0, i] .script) do
    match throws with
    | none => return ()
    | some text =>
      let what ← getQuickjsException [0, i] text
      Prog.throw what

/-- The scripts with these numbers, one after the other. -/
def evalScripts (calls : EngineCalls) : List Nat → JsProg Unit
  | [] => pure ()
  | i :: rest => do
    evalScriptCalls (calls.evalThrows i) i
    evalScripts calls rest

/-- The constructor, once its members are there. The scripts are meriyah, astring, lib and
core. -/
def constructorBody (calls : EngineCalls) : JsProg Unit :=
  if !calls.newRuntime then Prog.throw (lit "JS_NewRuntime fehlgeschlagen")
  else if !calls.newContext then Prog.throw (lit "JS_NewContext fehlgeschlagen")
  else evalScripts calls [0, 1, 2, 3]

/-- `if (b) …`. -/
def ifSet (b : Bool) (p : JsProg Unit) : JsProg Unit :=
  if b then p else pure ()

/-- The members of an engine go in reverse order: `ctx_`, then `rt_`. -/
def destroyMembers (calls : EngineCalls) : JsProg Unit := do
  ifSet calls.newContext do
    Prog.emit (.use .runtime)
    Prog.emit (.release .context)
  ifSet calls.newRuntime (Prog.emit (.release .runtime))

/-- The end of `SolverEngine::solve`, from the call of `jsc` on. -/
def readReply (stack : Nat) (showReal : Double → Bytes) (k : Nat) (requests : List SolverRequest) :
    Except (Option Bytes) JsSeen → JsProg (List SolverResponse)
  | .error text => do
    let what ← getQuickjsException [k + 1] text
    Prog.throw what
  | .ok seen => do
    let retJson ← jsToJsonCalls stack (.of [k + 1] .ret) [k + 1, 1] seen
    match solveReply showReal requests retJson with
    | .error what => Prog.throw what
    | .ok responses => return responses

section
variable (stack : Nat) (showReal : Double → Bytes) (playerCode : Bytes)

/-- `SolverEngine::solve`, the call number `k` of the engine. -/
def solveCalls (k : Nat) (requests : List SolverRequest) (calls : SolveCalls) :
    JsProg (List SolverResponse) := do
  let global : JsRef := .of [k + 1] .global
  let jscFunc : JsRef := .of [k + 1] .jscFunc
  apiCall []
  owned global do
    apiCall [global]
    owned jscFunc do
      apiCall [jscFunc]
      if !calls.isFunction then Prog.throw (lit "jsc ist keine Funktion")
      else
        let arg ← jsonToJsCalls [k + 1, 0] (requestJson playerCode requests)
        inScope arg do
          apiCall [jscFunc, arg]
          owned (.of [k + 1] .ret) (readReply stack showReal k requests calls.reply)

/-- The calls of `solve` that an engine gets, from number `k` on. An exception is seen by the
caller of `solve`; the engine is used again. -/
def solveAll (k : Nat) : List (List SolverRequest × SolveCalls) →
    JsProg (List (Except Bytes (List SolverResponse)))
  | [] => return []
  | c :: cs => do
    let result ← Prog.attempt (solveCalls stack showReal playerCode k c.1 c.2)
    let results ← solveAll (k + 1) cs
    return result :: results

/-- The life of an engine: the constructor, calls of `solve`, and the destructor. When the
constructor throws, the members are destroyed all the same. -/
def engineLife (calls : EngineCalls) (solves : List (List SolverRequest × SolveCalls)) :
    JsProg (List (Except Bytes (List SolverResponse))) := do
  ifSet calls.newRuntime (Prog.emit (.acquire .runtime))
  -- `ctx_(JS_NewContext(rt_.get()))` comes before the test of `rt_`.
  Prog.emit (.use .runtime)
  ifSet calls.newContext (Prog.emit (.acquire .context))
  Prog.finallyDo (do
      constructorBody calls
      solveAll stack showReal playerCode 0 solves)
    (destroyMembers calls)

end

end EjsBoundary.Model
