import EjsBoundary.Model.Backend
import EjsBoundary.Model.PyReferences

/-!
# `EjsBoundary.Model.CommandLine`: the methods as Python calls them, and `test.py`

`solveMethod` is `py_solve_requests` and `py_solve_requests_from_watch` by the values that go in
and come out; their references are in `EjsBoundary.Model.PyReferences`. `main` is that of
`test.py`, from the arguments of the command line to the exit code and what is printed.

What a call prints is a text of its own, without the newline that `print` adds. The output takes
every text, and the calls of Python find memory for what they make. `str.lower`, which follows the
tables of Unicode, is an input.
-/

set_option autoImplicit false

namespace EjsBoundary.Model

open EjsBoundary.Lib

/-! ### The methods -/

/-- An argument with the format `s`: UTF-8 without a NUL. -/
def parseString (s : PyStr) : Option Bytes := (pyUnicodeAsUTF8 s).filter fun b => !b.contains 0

/-- The arguments of a method. -/
structure MethodArgs where
  first : PyStr
  requests : PyObject
  solverDir : PyStr
  meriyahPath : PyStr
  astringPath : PyStr

/-- `PyErr_SetString` with a text that is UTF-8, or what it raises instead. -/
def runtimeError (what : Bytes) : PyErr :=
  if (Utf8.decode? (cString what)).isSome then .runtimeError (cString what) else .ofCall

/-- A core function, `none` when it does not return. -/
abbrev ValueCore := (first solverDir meriyahPath astringPath : Bytes) → List SolverRequest →
  Option (Except Bytes (List SolverResponse))

/-- What becomes of the responses of the core. -/
def methodResult (responses : Except Bytes (List SolverResponse)) : Except PyErr PyObject :=
  match responses with
  | .error what => .error (runtimeError what)
  | .ok responses =>
    match responsesToPy responses with
    | none => .error .ofCall
    | some list => .ok list

/-- A method, given its core. -/
def solveMethod (core : ValueCore) (args : MethodArgs) : Option (Except PyErr PyObject) :=
  match parseString args.first, parseString args.solverDir, parseString args.meriyahPath,
      parseString args.astringPath with
  | some first, some solverDir, some meriyahPath, some astringPath =>
    match pyRequestsToCpp args.requests with
    | none => some (.error (.typeError
        (lit "requests must be a list of dicts with keys 'type' and 'challenge'")))
    | some requests => (core first solverDir meriyahPath astringPath requests).map methodResult
  | _, _, _, _ => some (.error .ofCall)

section
variable (files : Files) (cache : CacheId) {Ctx : Type} (js : Js Ctx)

/-- `solver_boundary_py.solve_requests`. -/
def solveRequests : MethodArgs → Option (Except PyErr PyObject) :=
  solveMethod fun player solverDir meriyahPath astringPath requests =>
    some (solveRequestsCore files cache js player solverDir meriyahPath astringPath requests)

/-- `solver_boundary_py.solve_requests_from_watch`. -/
def solveRequestsFromWatch (trim : Bytes → Bytes) (server : Server) :
    MethodArgs → Option (Except PyErr PyObject) :=
  solveMethod fun watchUrl solverDir meriyahPath astringPath requests =>
    (solveRequestsFromWatchCore files cache js trim server watchUrl solverDir meriyahPath
      astringPath requests).2

end

/-! ### Strings of Python -/

/-- What `str.strip` takes for white space. -/
def isPySpace (c : Nat) : Bool :=
  (0x09 ≤ c && c ≤ 0x0D) || (0x1C ≤ c && c ≤ 0x20) || c == 0x85 || c == 0xA0 || c == 0x1680 ||
    (0x2000 ≤ c && c ≤ 0x200A) || c == 0x2028 || c == 0x2029 || c == 0x202F || c == 0x205F ||
    c == 0x3000

/-- `str.strip`, over any alphabet. -/
def stripBoth {α : Type} (space : α → Bool) (s : List α) : List α :=
  ((s.dropWhile space).reverse.dropWhile space).reverse

def pyStrip : PyStr → PyStr := stripBoth fun c => isPySpace c.val

/-! ### `test.py` -/

/-- A dict of `parse_requests`. -/
def requestDict (type challenge : PyStr) : PyObject :=
  .dict [(pyStr "type", .str type), (pyStr "challenge", .str challenge)]

/-- The loop of `parse_requests`; an error is the text of its `ValueError`. -/
def parsePairs : List PyStr → Except PyStr (List PyObject)
  | type :: challenge :: rest => do
    let reqType := pyStrip type
    let challenge := pyStrip challenge
    if reqType ≠ pyStr "sig" ∧ reqType ≠ pyStr "n" then
      .error (pyStr "unsupported request type: " ++ reqType)
    else if challenge = [] then
      .error (pyStr "empty challenge for request type: " ++ reqType)
    else
      let out ← parsePairs rest
      .ok (requestDict reqType challenge :: out)
  | _ => .ok []

/-- `parse_requests`. -/
def parseRequests (args : List PyStr) : Except PyStr (List PyObject) :=
  if args.length = 0 ∨ args.length % 2 ≠ 0 then
    .error (pyStr "requests must be given as pairs: <type> <challenge>")
  else parsePairs args

/-- What an f-string shows of a value that `responses_to_py` puts into a dict. -/
def showValue : PyObject → PyStr
  | .str s => s
  | .bool true => pyStr "True"
  | .bool false => pyStr "False"
  | _ => []

/-- `r.get(key, default)`. -/
def getOr (r : PyObject) (key : String) (default : PyObject) : PyObject :=
  (r.getItemString key).getD default

/-- What `print_responses` prints for the response with number `i`. -/
def showResponse (i : Nat) (r : PyObject) : List PyStr :=
  [pyStr "\n" ++ pyStr (toString i) ++ pyStr ":",
   pyStr "  type : " ++ showValue (getOr r "type" (.str [])),
   pyStr "  ok   : " ++ showValue (getOr r "ok" (.bool false)),
   pyStr "  data : " ++ showValue (getOr r "data" (.str [])),
   pyStr "  error: " ++ showValue (getOr r "error" (.str []))]

/-- The loop of `print_responses`. -/
def showResponses : Nat → List PyObject → List PyStr
  | _, [] => []
  | i, r :: rs => showResponse i r ++ showResponses (i + 1) rs

/-- `print_responses`. -/
def printResponses (responses : List PyObject) : List PyStr :=
  (pyStr "\nResponses: " ++ pyStr (toString responses.length)) :: showResponses 1 responses

/-- `print_usage`. -/
def printUsage (prog : PyStr) : List PyStr :=
  let line (rest : String) : PyStr := pyStr "  python3 " ++ prog ++ pyStr rest
  [pyStr "Usage:",
   line " local <player_path> <sig_or_dash> <challenge> [<type> <challenge> ...]",
   line " watch <watch_url> <sig_or_n> <challenge> [<type> <challenge> ...]",
   [],
   pyStr "Optional per environment or by editing defaults below:",
   pyStr "  solver_dir     = '.'",
   pyStr "  meriyah_path   = 'meriyah.umd.js'",
   pyStr "  astring_path   = 'astring.min.js'",
   [],
   pyStr "Examples:",
   line " local base.js sig AHEq...",
   line " local base.js sig AHEq... n llfPRf5kII7KWfGhoJg",
   line " watch https://www.youtube.com/watch?v=tjSnrDikc4M n llfPRf5kII7KWfGhoJg",
   line " watch https://www.youtube.com/watch?v=tjSnrDikc4M sig AHEq... n llfPRf5kII7KWfGhoJg"]

/-- What the module gives to `test.py`, and what Python has of its own: `str.lower`, and the text of
the exceptions that its calls raise. -/
structure Module where
  solveRequests : MethodArgs → Option (Except PyErr PyObject)
  solveRequestsFromWatch : MethodArgs → Option (Except PyErr PyObject)
  lower : PyStr → PyStr
  callText : PyStr

/-- `str(e)`. -/
def Module.errorText (module : Module) : PyErr → PyStr
  | .ofCall => module.callText
  | .typeError text | .runtimeError text => (pyUnicodeFromString text).getD []

/-- The exit code, and what was printed. -/
structure Exit where
  code : Nat
  printed : List PyStr

/-- What `main` does with the outcome of a method. -/
def Module.report (module : Module) (outcome : Except PyErr PyObject) : Exit :=
  match outcome with
  | .ok (.list responses) => ⟨0, printResponses responses⟩
  -- A method returns a list.
  | .ok _ => ⟨0, []⟩
  | .error e => ⟨4, [pyStr "Runtime error: " ++ module.errorText e]⟩

/-- The arguments `main` calls a method with. -/
def methodArgs (target : PyStr) (requests : List PyObject) : MethodArgs :=
  { first := target, requests := .list requests, solverDir := pyStr ".",
    meriyahPath := pyStr "meriyah.umd.js", astringPath := pyStr "astring.min.js" }

/-- `main`, `none` when a method does not return. -/
def Module.main (module : Module) : List PyStr → Option Exit
  | prog :: mode :: target :: a :: b :: args =>
    let mode := module.lower (pyStrip mode)
    let target := pyStrip target
    match parseRequests (a :: b :: args) with
    | .error e => some ⟨2, (pyStr "Error: " ++ e) :: [] :: printUsage prog⟩
    | .ok requests =>
      if mode = pyStr "local" then
        (module.solveRequests (methodArgs target requests)).map module.report
      else if mode = pyStr "watch" then
        (module.solveRequestsFromWatch (methodArgs target requests)).map module.report
      else some ⟨3, (pyStr "Error: unsupported mode: " ++ mode) :: [] :: printUsage prog⟩
  -- `sys.argv` always has the name of the program.
  | argv => some ⟨1, printUsage (argv.headD [])⟩

/-- The module `solver_boundary_py`. -/
def solverBoundaryPy (files : Files) (cache : CacheId) {Ctx : Type} (js : Js Ctx)
    (trim : Bytes → Bytes) (server : Server) (lower : PyStr → PyStr) (callText : PyStr) : Module where
  solveRequests := solveRequests files cache js
  solveRequestsFromWatch := solveRequestsFromWatch files cache js trim server
  lower := lower
  callText := callText

end EjsBoundary.Model
