import EjsBoundary.Lib.Json
import EjsBoundary.Model.Types

/-!
# `EjsBoundary.Model.SolverEngine`: the solver engine and `solve_format_url`

The model of `solver_engine.cpp`. The JavaScript side (QuickJS running the solver scripts)
is the structure `Js`: how a context is made, what evaluating a script does to it, and the
global function `jsc`, as a function from the request to the reply, both as JSON. Nothing is
assumed about it; whatever a result needs is a hypothesis of that result.

`solveFormatUrl` is one call run without interruption, over any behaviour of the engine. Its
locked lookup (`lookupPhase`), its locked store (`storePhase`) and its tail (`finish`) are
definitions of their own, because the threads of `EjsBoundary.Model.SolverThreads` run them as
separate steps.
-/

set_option autoImplicit false

namespace EjsBoundary.Model

open EjsBoundary.Lib

/-! ### The engine -/

/-- The JavaScript side. `jsc` is `none` when the scripts define no function of that name. An
exception carries the text `get_quickjs_exception` reads from it. -/
structure Js (Ctx : Type) where
  newContext : Option Ctx
  evalScript : Ctx → (code fname : Bytes) → Except Bytes Ctx
  jsc : Ctx → Option (Json → Except Bytes Json)
  showReal : Double → Bytes

/-- `SolverEngine`: its own copy of the assets, and the context with the scripts loaded. -/
structure SolverEngine (Ctx : Type) where
  assets : SolverAssets
  ctx : Ctx

variable {Ctx : Type}

/-- The constructor of `SolverEngine`. -/
def SolverEngine.new (js : Js Ctx) (assets : SolverAssets) :
    Except Bytes (SolverEngine Ctx) := do
  let ctx ← match js.newContext with
    | none => .error (lit "JS_NewContext fehlgeschlagen")
    | some ctx => .ok ctx
  let ctx ← js.evalScript ctx assets.meriyahCode (lit "meriyah.umd.js")
  let ctx ← js.evalScript ctx assets.astringCode (lit "astring.min.js")
  let ctx ← js.evalScript ctx assets.libCode (lit "lib.min.js")
  let ctx ← js.evalScript ctx assets.coreCode (lit "core.min.js")
  .ok { assets, ctx }

/-- The argument `SolverEngine::solve` passes to `jsc`. Members stand in key order. -/
def requestJson (playerCode : Bytes) (requests : List SolverRequest) : Json :=
  .object
    [(lit "output_preprocessed", .bool true),
     (lit "player", .string playerCode),
     (lit "requests", .array (requests.map fun r =>
       .object [(lit "challenges", .array [.string r.challenge]), (lit "type", .string r.type)])),
     (lit "type", .string (lit "player"))]

/-- The text of a successful response: of an object the first member, in key order, that is
a string; of a string the string itself; otherwise what `sr.data` starts as. -/
def dataText : Json → Bytes
  | .object members => (members.findSome? fun m => m.2.string?).getD []
  | .string s => s
  | _ => []

/-- One turn of the response loop. -/
def readResponse (showReal : Double → Bytes) (type : Bytes) (r : Json) :
    Except Bytes SolverResponse := do
  let t ← (← r.get (lit "type") (.string [])).asString showReal
  if t = lit "result" then
    let data ← r.index (lit "data")
    .ok { type, ok := true, data := dataText data }
  else
    let error ← (← r.get (lit "error") (.string (lit "unknown solver error"))).asString showReal
    .ok { type, ok := false, error }

/-- The response loop. It runs over the responses, not over the requests: a response past the
last request gets the empty type, and a request past the last response gets no response. -/
def readResponses (showReal : Double → Bytes) :
    List SolverRequest → List Json → Except Bytes (List SolverResponse)
  | _, [] => .ok []
  | requests, r :: rs => do
    let sr ← readResponse showReal ((requests.head?.map (·.type)).getD []) r
    let out ← readResponses showReal requests.tail rs
    .ok (sr :: out)

/-- What `SolverEngine::solve` makes of the value `jsc` returned. -/
def solveReply (showReal : Double → Bytes) (requests : List SolverRequest) (ret : Json) :
    Except Bytes (List SolverResponse) := do
  let responses ← ret.index (lit "responses")
  match responses.elems? with
  | none => .error (lit "Solver-Antwort enthält kein responses-Array")
  | some elems => readResponses showReal requests elems

/-- The call of `jsc` inside `SolverEngine::solve`: the value it returns, as JSON. -/
def SolverEngine.callJsc (js : Js Ctx) (engine : SolverEngine Ctx)
    (requests : List SolverRequest) : Except Bytes Json :=
  match js.jsc engine.ctx with
  | none => .error (lit "jsc ist keine Funktion")
  | some jsc => jsc (requestJson engine.assets.playerCode requests)

/-- `SolverEngine::solve`. -/
def SolverEngine.solve (js : Js Ctx) (engine : SolverEngine Ctx)
    (requests : List SolverRequest) : Except Bytes (List SolverResponse) := do
  let ret ← engine.callJsc js requests
  solveReply js.showReal requests ret

/-- `thread_local_solver_engine`: the slot of the thread is filled on the first call and
returned as it is on every later one, whatever the assets of that call. -/
def threadLocalSolverEngine (js : Js Ctx) (slot : Option (SolverEngine Ctx))
    (assets : SolverAssets) : Except Bytes (SolverEngine Ctx) :=
  match slot with
  | some engine => .ok engine
  | none => SolverEngine.new js assets

/-- The engine part of the `try` block: the slot afterwards, and what the call gets. A
constructor that throws leaves the slot empty. -/
def engineCall (js : Js Ctx) (slot : Option (SolverEngine Ctx)) (assets : SolverAssets)
    (missing : List SolverRequest) :
    Option (SolverEngine Ctx) × Except Bytes (List SolverResponse) :=
  match threadLocalSolverEngine js slot assets with
  | .error what => (slot, .error what)
  | .ok engine => (some engine, engine.solve js missing)

/-! ### `solve_format_url` -/

/-- How both loops extend `solver_error`. -/
def appendError (solverError message : Bytes) : Bytes :=
  (if solverError = [] then [] else solverError ++ lit " | ") ++ message

/-- What the lookup loop has gathered: the solved pairs of type and value, the requests to
solve, and the error text. -/
structure Lookup where
  ready : List (Bytes × Bytes) := []
  missing : List SolverRequest := []
  solverError : Bytes := []
  deriving DecidableEq

/-- The branch of the lookup loop for a type with its own pair of maps. -/
def lookupIn (values errors : Params) (acc : Lookup) (req : SolverRequest) : Lookup :=
  match values[req.challenge]? with
  | some v => { acc with ready := acc.ready ++ [(req.type, v)] }
  | none =>
    match errors[req.challenge]? with
    | some e => { acc with solverError := appendError acc.solverError e }
    | none => { acc with missing := acc.missing ++ [req] }

/-- One turn of the lookup loop. -/
def lookupStep (cache : SolverSharedCache) (acc : Lookup) (req : SolverRequest) : Lookup :=
  if req.type = lit "n" then lookupIn cache.nValues cache.nErrors acc req
  else if req.type = lit "sig" then lookupIn cache.sigValues cache.sigErrors acc req
  else { acc with missing := acc.missing ++ [req] }

/-- The locked lookup. -/
def lookupPhase (cache : SolverSharedCache) (requests : List SolverRequest) : Lookup :=
  requests.foldl (lookupStep cache) {}

/-- The assignment `cache->n_values[...] = ...` or its sibling for `sig`; no map takes any
other type. -/
def storeResponse (cache : SolverSharedCache) (req : SolverRequest) (resp : SolverResponse) :
    SolverSharedCache :=
  if resp.ok then
    if req.type = lit "n" then
      { cache with nValues := cache.nValues.insert req.challenge resp.data }
    else if req.type = lit "sig" then
      { cache with sigValues := cache.sigValues.insert req.challenge resp.data }
    else cache
  else
    if req.type = lit "n" then
      { cache with nErrors := cache.nErrors.insert req.challenge resp.error }
    else if req.type = lit "sig" then
      { cache with sigErrors := cache.sigErrors.insert req.challenge resp.error }
    else cache

/-- What the store loop works on. -/
structure Store where
  cache : SolverSharedCache
  ready : List (Bytes × Bytes)
  solverError : Bytes

/-- One turn of the store loop. -/
def storeStep (acc : Store) (entry : SolverRequest × SolverResponse) : Store :=
  { cache := storeResponse acc.cache entry.1 entry.2
    ready :=
      if entry.2.ok then acc.ready ++ [(entry.1.type, entry.2.data)] else acc.ready
    solverError :=
      if entry.2.ok then acc.solverError else appendError acc.solverError entry.2.error }

/-- The locked store. The loop stops at the end of the shorter list, as `List.zip` does. -/
def storePhase (cache : SolverSharedCache) (found : Lookup) (responses : List SolverResponse) :
    Store :=
  (found.missing.zip responses).foldl storeStep
    { cache, ready := found.ready, solverError := found.solverError }

/-- The parameter a solved pair is written to, `none` for a type that is not written. -/
def paramKey (fmt : FormatInfo) (type : Bytes) : Option Bytes :=
  if type = lit "n" then some (lit "n")
  else if type = lit "sig" then some (if fmt.sp = [] then lit "signature" else fmt.sp)
  else none

/-- The calls of `set_or_replace_query_param` for the ready list, in order. -/
def setCalls (fmt : FormatInfo) (ready : List (Bytes × Bytes)) : List (Bytes × Bytes) :=
  ready.filterMap fun kv => (paramKey fmt kv.1).map fun key => (key, kv.2)

/-- The URL after these calls. -/
def applySets (url : Bytes) (sets : List (Bytes × Bytes)) : Bytes :=
  sets.foldl (fun current kv => setOrReplaceQueryParam current kv.1 kv.2) url

/-- What one call returns, the cache it leaves, and the sets it made on the way. -/
structure SolveRun where
  result : SolvedUrlResult
  cache : Option SolverSharedCache
  sets : List (Bytes × Bytes)

/-- The tail of `solve_format_url`, from the URL loop on. -/
def finish (fmt : FormatInfo) (ready : List (Bytes × Bytes)) (solverError : Bytes) :
    SolvedUrlResult :=
  { decodedUrl := applySets fmt.url (setCalls fmt ready), solverError }

/-- `solve_format_url` over the contents of `assets.cache` (`none` for a null pointer), run
without interruption. `solve` stands for the engine part of the `try` block. -/
def solveFormatUrl (solve : List SolverRequest → Except Bytes (List SolverResponse))
    (fmt : FormatInfo) (cache : Option SolverSharedCache) : SolveRun :=
  if fmt.url = [] then
    ⟨⟨fmt.url, lit "Keine URL vorhanden"⟩, cache, []⟩
  else if fmt.requests = [] then
    ⟨⟨fmt.url, []⟩, cache, []⟩
  else match cache with
    | none => ⟨⟨fmt.url, lit "Solver-Cache fehlt"⟩, none, []⟩
    | some c =>
      let found := lookupPhase c fmt.requests
      if found.missing = [] then
        ⟨finish fmt found.ready found.solverError, some c, setCalls fmt found.ready⟩
      else match solve found.missing with
        | .error what => ⟨⟨fmt.url, what⟩, some c, []⟩
        | .ok responses =>
          let stored := storePhase c found responses
          ⟨finish fmt stored.ready stored.solverError, some stored.cache,
            setCalls fmt stored.ready⟩

end EjsBoundary.Model
