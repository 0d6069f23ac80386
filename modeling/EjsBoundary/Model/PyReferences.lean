import EjsBoundary.Lib.Ownership
import EjsBoundary.Model.PyMethods

/-!
# `EjsBoundary.Model.PyReferences`: the references of the Python methods

`py_requests_to_cpp`, `responses_to_py` and the two methods of `solver_boundary_py_methods.cpp`,
now with the references they own and the error indicator of Python. What each call of the C-API
returns is an input, `PyCalls`. The values that cross the boundary are in
`EjsBoundary.Model.PyMethods`.

A call that returns a new reference acquires it, `Py_DECREF` releases it and `PyList_SET_ITEM`
gives it to the list. A borrowed reference is a use of the object that it is borrowed from. A call
that fails sets the error indicator, and no call clears it; `PyDict_GetItemString` is the one that
can give `NULL` and set nothing.
-/

set_option autoImplicit false

namespace EjsBoundary.Model

open EjsBoundary.Lib

/-! ### References and calls -/

/-- The keys of a response dict. -/
inductive ResponseField where
  | type
  | ok
  | data
  | error
  deriving DecidableEq

/-- A reference, by the call that made it: `item`, `list`, `d` and the four values of turn `i`. -/
inductive PyRef where
  | item (i : Nat)
  | list
  | dict (i : Nat)
  | field (i : Nat) (key : ResponseField)
  deriving DecidableEq

/-- A Python exception: that of a call that failed, or one that the methods set. -/
inductive PyErr where
  | ofCall
  | typeError (text : Bytes)
  | runtimeError (text : Bytes)
  deriving DecidableEq

/-- The error indicator, and the slots of the list that is built. -/
structure PyState where
  raised : Option PyErr := none
  slots : List (Option PyRef) := []

/-- A C++ exception: one with a `what()`, or any other. -/
inductive CppException where
  | std (what : Bytes)
  | other

/-- What the calls of one turn of `py_requests_to_cpp` return. -/
structure ItemCalls where
  /-- Whether `PySequence_GetItem` gives an item. -/
  getItem : Bool
  /-- `PyDict_Check`. -/
  isDict : Bool
  /-- Whether `PyDict_GetItemString` finds the two keys. -/
  hasType : Bool
  hasChallenge : Bool
  /-- `PyUnicode_Check` of the two values. -/
  typeIsStr : Bool
  challengeIsStr : Bool
  /-- `PyUnicode_AsUTF8` of the two values. -/
  typeUtf8 : Option Bytes
  challengeUtf8 : Option Bytes

/-- What `PyArg_ParseTupleAndKeywords` reads: `player_path` or `watch_url`, and the paths that are
given. `requests` is the object the other calls are about. -/
structure PyArgs where
  first : Bytes
  solverDir : Option Bytes
  meriyahPath : Option Bytes
  astringPath : Option Bytes

/-- What the calls of a method return. -/
structure PyCalls where
  /-- The arguments, `none` when they cannot be parsed. -/
  parsed : Option PyArgs
  /-- `PySequence_Check`. -/
  isSequence : Bool
  /-- `PySequence_Size`. -/
  size : Int
  /-- The exception of `reserve`, when the size is too large for a vector. -/
  reserveThrows : Option Bytes
  item : Nat → ItemCalls
  /-- Whether `PyList_New` gives a list. -/
  listNew : Bool
  /-- Whether `PyDict_New` gives a dict. -/
  dictNew : Nat → Bool
  /-- Whether `PyUnicode_FromString` makes a string of a text. -/
  fromString : Nat → ResponseField → Bytes → Bool
  /-- Whether `PyBool_FromLong` gives an object. -/
  fromLong : Nat → Bool → Bool
  /-- Whether `PyDict_SetItemString` returns 0. -/
  setItemString : Nat → ResponseField → Bool
  /-- Whether `PyErr_SetString` can make its text; if not, it leaves the exception of that. -/
  setString : Bool

/-- A function that calls Python. -/
abbrev PyProg := Prog PyRef PyState CppException

/-- A call that failed sets the error indicator. -/
def fail : PyProg Unit := Prog.assign fun s => { s with raised := some .ofCall }

/-- A call that returns a new reference, or `NULL`. -/
def newRef (r : PyRef) (succeeds : Bool) : PyProg (Option PyRef) :=
  if succeeds then do
    Prog.emit (.acquire r)
    return some r
  else do
    fail
    return none

/-- `Py_DECREF`. -/
def decref (r : PyRef) : PyProg Unit := Prog.emit (.release r)

/-- `Py_XDECREF`. -/
def xdecref (o : Option PyRef) : PyProg Unit :=
  match o with
  | none => pure ()
  | some r => decref r

/-- `PyErr_SetString`. -/
def errSetString (calls : PyCalls) (err : PyErr) : PyProg Unit :=
  Prog.assign fun s => { s with raised := some (if calls.setString then err else .ofCall) }

/-! ### `py_requests_to_cpp` -/

/-- `PyUnicode_AsUTF8` of a value that is borrowed from an item. -/
def asUTF8 (item : PyRef) (utf8 : Option Bytes) : PyProg (Option Bytes) := do
  Prog.emit (.use item)
  match utf8 with
  | none =>
    fail
    return none
  | some text => return some text

/-- One turn of the loop; `none` is `return false`. -/
def readItem (calls : PyCalls) (i : Nat) : PyProg (Option SolverRequest) := do
  let o := calls.item i
  match ← newRef (.item i) o.getItem with
  | none => return none
  | some item =>
    -- `PyDict_Check(item)`
    Prog.emit (.use item)
    if !o.isDict then
      decref item
      return none
    else
      -- `PyDict_GetItemString(item, …)`
      Prog.emit (.use item)
      Prog.emit (.use item)
      if !o.hasType || !o.hasChallenge || !o.typeIsStr || !o.challengeIsStr then
        decref item
        return none
      else
        let typeC ← asUTF8 item o.typeUtf8
        let challengeC ← asUTF8 item o.challengeUtf8
        match typeC, challengeC with
        | some type, some challenge =>
          -- The two texts are copied before the item goes.
          Prog.emit (.use item)
          decref item
          return some { type := cString type, challenge := cString challenge }
        | _, _ =>
          decref item
          return none

/-- The loop, at item `i` with so many to go. -/
def readItems (calls : PyCalls) : Nat → Nat → List SolverRequest →
    PyProg (Option (List SolverRequest))
  | 0, _, out => pure (some out)
  | n + 1, i, out => do
    match ← readItem calls i with
    | none => return none
    | some req => readItems calls n (i + 1) (out ++ [req])

/-- `py_requests_to_cpp`; `none` is `false`. -/
def pyRequestsToCppCalls (calls : PyCalls) : PyProg (Option (List SolverRequest)) := do
  if !calls.isSequence then return none
  else if calls.size < 0 then
    fail
    return none
  else
    match calls.reserveThrows with
    | some what => Prog.throw (.std what)
    | none => readItems calls calls.size.toNat 0 []

/-! ### `responses_to_py` -/

/-- `PyDict_SetItemString(d, …, value)`: whether it fails. -/
def setItemString (d value : PyRef) (succeeds : Bool) : PyProg Bool := do
  Prog.emit (.use d)
  Prog.emit (.use value)
  if succeeds then return false
  else
    fail
    return true

/-- `PyList_SET_ITEM(list, i, d)`. -/
def listSetItem (i : Nat) (d : PyRef) : PyProg Unit := do
  Prog.emit (.give d .list)
  Prog.assign fun s => { s with slots := s.slots.set i (some d) }

/-- The dict of a turn with its four values; `false` when the method returns `nullptr`. -/
def fillDict (calls : PyCalls) (i : Nat) (d typeObj okObj dataObj errObj : PyRef) : PyProg Bool := do
  -- `rc` is not 0 when one of the calls failed.
  let rc₁ ← setItemString d typeObj (calls.setItemString i .type)
  let rc₂ ← setItemString d okObj (calls.setItemString i .ok)
  let rc₃ ← setItemString d dataObj (calls.setItemString i .data)
  let rc₄ ← setItemString d errObj (calls.setItemString i .error)
  decref typeObj
  decref okObj
  decref dataObj
  decref errObj
  if rc₁ || rc₂ || rc₃ || rc₄ then
    decref d
    decref .list
    return false
  else
    listSetItem i d
    return true

/-- One turn of the loop; `false` when the method returns `nullptr`. -/
def addResponse (calls : PyCalls) (i : Nat) (r : SolverResponse) : PyProg Bool := do
  match ← newRef (.dict i) (calls.dictNew i) with
  | none =>
    decref .list
    return false
  | some d =>
    let typeObj ← newRef (.field i .type) (calls.fromString i .type (cString r.type))
    let okObj ← newRef (.field i .ok) (calls.fromLong i r.ok)
    let dataObj ← newRef (.field i .data) (calls.fromString i .data (cString r.data))
    let errObj ← newRef (.field i .error) (calls.fromString i .error (cString r.error))
    match typeObj, okObj, dataObj, errObj with
    | some typeObj, some okObj, some dataObj, some errObj =>
      fillDict calls i d typeObj okObj dataObj errObj
    | _, _, _, _ =>
      xdecref typeObj
      xdecref okObj
      xdecref dataObj
      xdecref errObj
      decref d
      decref .list
      return false

/-- The loop from response `i` on. -/
def addResponses (calls : PyCalls) : Nat → List SolverResponse → PyProg (Option PyRef)
  | _, [] => pure (some .list)
  | i, r :: rest => do
    if ← addResponse calls i r then addResponses calls (i + 1) rest
    else return none

/-- `responses_to_py`; `none` is `nullptr`. -/
def responsesToPyCalls (calls : PyCalls) (responses : List SolverResponse) :
    PyProg (Option PyRef) := do
  match ← newRef .list calls.listNew with
  | none => return none
  | some _ =>
    -- `PyList_New` makes a list of empty slots.
    Prog.assign fun s => { s with slots := List.replicate responses.length none }
    addResponses calls 0 responses

/-! ### The methods -/

/-- A core function: from the four paths and the requests to the responses, or an exception. -/
abbrev SolveCore := (first solverDir meriyahPath astringPath : Bytes) → List SolverRequest →
  Except CppException (List SolverResponse)

/-- A method, given its core and the text it has for an exception without a text. -/
def pyMethod (unknownError : Bytes) (core : SolveCore) (calls : PyCalls) :
    PyProg (Option PyRef) := do
  match calls.parsed with
  | none =>
    fail
    return none
  | some args =>
    Prog.catching (do
        match ← pyRequestsToCppCalls calls with
        | none =>
          errSetString calls
            (.typeError (lit "requests must be a list of dicts with keys 'type' and 'challenge'"))
          return none
        | some requests =>
          match core args.first (args.solverDir.getD (lit "."))
              (args.meriyahPath.getD (lit "meriyah.umd.js"))
              (args.astringPath.getD (lit "astring.min.js")) requests with
          | .error e => Prog.throw e
          | .ok responses => responsesToPyCalls calls responses)
      fun e => do
        match e with
        | .std what => errSetString calls (.runtimeError (cString what))
        | .other => errSetString calls (.runtimeError unknownError)
        return none

/-- `py_solve_requests`. -/
def pySolveRequests : SolveCore → PyCalls → PyProg (Option PyRef) :=
  pyMethod (lit "unknown error in solve_requests")

/-- `py_solve_requests_from_watch`. -/
def pySolveRequestsFromWatch : SolveCore → PyCalls → PyProg (Option PyRef) :=
  pyMethod (lit "unknown error in solve_requests_from_watch")

end EjsBoundary.Model
