import EjsBoundary.Model.SolverEngine

/-!
# `EjsBoundary.Model.SolverThreads`: calls of `solve_format_url` on many threads

A call of `solve_format_url` touches shared state in two places, both under the mutex of its
cache: the lookup and the store. Between them it runs the engine of its thread, which no other
thread sees. So a call is at most three steps, and the steps of different threads interleave:

* `call` is the early returns and the locked lookup; a call with nothing to solve ends here;
* `engine` is `thread_local_solver_engine` and `SolverEngine::solve`; a call whose engine
  throws ends here;
* `store` is the locked store and the URL loop.

The JavaScript side of an `engine` step belongs to the action, so an engine may behave
differently each time it is asked. `World.done` is a record of the finished calls. The code
keeps none; it is there to speak about what they returned.
-/

set_option autoImplicit false

namespace EjsBoundary.Model

open EjsBoundary.Lib

abbrev ThreadId := Nat

/-- The arguments of `solve_format_url`. -/
structure Call where
  fmt : FormatInfo
  assets : SolverAssets
  deriving DecidableEq

/-- Where a thread stands. `cid` is the cache the call's `assets.cache` points to. -/
inductive Phase where
  | idle
  | looked (call : Call) (cid : CacheId) (found : Lookup)
  | answered (call : Call) (cid : CacheId) (found : Lookup) (responses : List SolverResponse)

/-- A finished call: what it asked the engine and what came back (`none` when it did not ask),
the ready list its URL loop ran over, and what it returned. -/
structure Finished where
  call : Call
  asked : Option (List SolverRequest × Except Bytes (List SolverResponse))
  ready : List (Bytes × Bytes)
  result : SolvedUrlResult

/-- The state the threads share, and that of each thread. -/
structure World (Ctx : Type) where
  caches : CacheId → SolverSharedCache
  engines : ThreadId → Option (SolverEngine Ctx)
  phases : ThreadId → Phase
  done : List Finished

/-- A step of a thread. -/
inductive Action (Ctx : Type) where
  | call (t : ThreadId) (call : Call)
  | engine (t : ThreadId) (js : Js Ctx)
  | store (t : ThreadId)

variable {Ctx : Type}

namespace World

/-- A world in which nothing has happened: new caches, and no call yet. -/
def initial (engines : ThreadId → Option (SolverEngine Ctx)) : World Ctx :=
  { caches := fun _ => {}, engines, phases := fun _ => .idle, done := [] }

def setPhase (w : World Ctx) (t : ThreadId) (phase : Phase) : World Ctx :=
  { w with phases := Function.update w.phases t phase }

def setEngine (w : World Ctx) (t : ThreadId) (slot : Option (SolverEngine Ctx)) : World Ctx :=
  { w with engines := Function.update w.engines t slot }

def setCache (w : World Ctx) (cid : CacheId) (cache : SolverSharedCache) : World Ctx :=
  { w with caches := Function.update w.caches cid cache }

/-- The thread returns from its call. -/
def leave (w : World Ctx) (t : ThreadId) (finished : Finished) : World Ctx :=
  { w.setPhase t .idle with done := w.done ++ [finished] }

/-- The early returns and the locked lookup. -/
def lookup (w : World Ctx) (t : ThreadId) (call : Call) : World Ctx :=
  if call.fmt.url = [] then
    w.leave t ⟨call, none, [], ⟨call.fmt.url, lit "Keine URL vorhanden"⟩⟩
  else if call.fmt.requests = [] then
    w.leave t ⟨call, none, [], ⟨call.fmt.url, []⟩⟩
  else match call.assets.cache with
    | none => w.leave t ⟨call, none, [], ⟨call.fmt.url, lit "Solver-Cache fehlt"⟩⟩
    | some cid =>
      let found := lookupPhase (w.caches cid) call.fmt.requests
      if found.missing = [] then
        w.leave t ⟨call, none, found.ready, finish call.fmt found.ready found.solverError⟩
      else
        w.setPhase t (.looked call cid found)

/-- The engine part of the `try` block. -/
def askEngine (w : World Ctx) (t : ThreadId) (js : Js Ctx) (call : Call) (cid : CacheId)
    (found : Lookup) : World Ctx :=
  match engineCall js (w.engines t) call.assets found.missing with
  | (slot, .error what) =>
    (w.setEngine t slot).leave t ⟨call, some (found.missing, .error what), [], ⟨call.fmt.url, what⟩⟩
  | (slot, .ok responses) => (w.setEngine t slot).setPhase t (.answered call cid found responses)

/-- The locked store and the URL loop. -/
def storeAnswers (w : World Ctx) (t : ThreadId) (call : Call) (cid : CacheId) (found : Lookup)
    (responses : List SolverResponse) : World Ctx :=
  let stored := storePhase (w.caches cid) found responses
  (w.setCache cid stored.cache).leave t
    ⟨call, some (found.missing, .ok responses), stored.ready,
      finish call.fmt stored.ready stored.solverError⟩

/-- One step. An action whose thread stands elsewhere is not possible. -/
def step (w : World Ctx) : Action Ctx → Option (World Ctx)
  | .call t call =>
    match w.phases t with
    | .idle => some (w.lookup t call)
    | _ => none
  | .engine t js =>
    match w.phases t with
    | .looked call cid found => some (w.askEngine t js call cid found)
    | _ => none
  | .store t =>
    match w.phases t with
    | .answered call cid found responses => some (w.storeAnswers t call cid found responses)
    | _ => none

end World

end EjsBoundary.Model
