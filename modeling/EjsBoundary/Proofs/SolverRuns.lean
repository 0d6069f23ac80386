import EjsBoundary.Proofs.SolverThreads

/-!
# `EjsBoundary.Proofs.SolverRuns`: runs of calls with one cache, and with many players

Two results about every run of calls on any number of threads.

* `sharedCalls_consistent`: when all calls carry the same assets and every engine that does
  not throw answers by one function, the shared cache stays consistent with it and no call
  loses or repeats a request.
* `ownEngines_coherent`: when the calls carry different assets, each call is served by its own
  player as long as no thread asks an engine that was built for another one (`EngineFits`).
  `thread_local_solver_engine` does not see to that: it returns the engine of the thread's
  first call, whatever the assets. `ownEngines_mixed_up` is a run where it goes wrong.
-/

set_option autoImplicit false

namespace EjsBoundary.Proofs

open EjsBoundary.Lib
open EjsBoundary.Model

/-! ### One cache, one function -/

/-- No challenge is both in the values and in the errors of one type. -/
def NoOverlap (cache : SolverSharedCache) : Prop :=
  (∀ c v e : Bytes, cache.nValues[c]? = some v → cache.nErrors[c]? ≠ some e) ∧
  ∀ c v e : Bytes, cache.sigValues[c]? = some v → cache.sigErrors[c]? ≠ some e

/-- No challenge of an agreeing cache has both a value and an error. -/
theorem Agrees.noOverlap {f : Bytes → Bytes → Except Bytes Bytes} {cache : SolverSharedCache}
    (h : Agrees f cache) : NoOverlap cache := by
  constructor
  · intro c v e hv he
    cases (h.nValues c v hv).symm.trans (h.nErrors c e he)
  · intro c v e hv he
    cases (h.sigValues c v hv).symm.trans (h.sigErrors c e he)

section
variable {Ctx : Type}

/-- Every call carries `assets`, and an engine that does not throw answers each request by
`f`. -/
def SharedCalls (assets : SolverAssets) (f : Bytes → Bytes → Except Bytes Bytes) (w : World Ctx) :
    Action Ctx → Prop
  | .call _ call => call.assets = assets
  | .engine t js => ∀ call cid found responses, w.phases t = .looked call cid found →
      (engineCall js (w.engines t) call.assets found.missing).2 = .ok responses →
      responses = found.missing.map (respond f)
  | .store _ => True

/-- A call whose engine throws in this state ends there: it writes to no cache and returns its
URL as it was. The step before it, the lookup, writes to no cache either. -/
def ThrowsCleanly (w : World Ctx) : Prop :=
  (∀ t call w', w.step (.call t call) = some w' → w'.caches = w.caches) ∧
  (∀ t js call cid found what w', w.phases t = .looked call cid found →
    (engineCall js (w.engines t) call.assets found.missing).2 = .error what →
    w.step (.engine t js) = some w' →
    w'.caches = w.caches ∧ w'.phases t = .idle ∧
      ∃ r, w'.done = w.done ++ [r] ∧ r.call = call ∧ r.result.decodedUrl = call.fmt.url) ∧
  ∀ r ∈ w.done, ∀ missing what, r.asked = some (missing, .error what) →
    r.result.decodedUrl = r.call.fmt.url

/-- In a coherent world a call whose engine throws sets nothing. -/
theorem throwsCleanly_of_coherent {F : SolverAssets → Bytes → Bytes → Except Bytes Bytes}
    {G : CacheId → Bytes → Bytes → Except Bytes Bytes} {w : World Ctx} (h : Coherent F G w) :
    ThrowsCleanly w := by
  refine ⟨?_, ?_, ?_⟩
  · intro t call w' hstep
    rcases caches_step hstep with heq | ⟨_, _, _, _, _, hstore, -⟩
    · exact heq
    · cases hstore
  · intro t js call cid found what w' hphase hthrow hstep
    rw [step_engine hphase, Option.some.injEq] at hstep
    subst hstep
    rcases askEngine_cases w t js call cid found with ⟨what', -, heq⟩ | ⟨responses, hout, -⟩
    · rw [heq]
      exact ⟨rfl, Function.update_self t _ _, _, rfl, rfl, rfl⟩
    · rw [hthrow] at hout
      cases hout
  · intro r hr missing what hasked
    rw [(h.done r hr).threw missing what hasked]

/-- The parameter a value of type `type` is written to, for the types that are written. -/
def paramOf (fmt : FormatInfo) (type : Bytes) : Bytes :=
  if type = lit "n" then lit "n" else sigParam fmt

/-- When every pair is of type `n` or `sig`, the URL loop leaves none out. -/
theorem setCalls_eq_map (fmt : FormatInfo) {ready : List (Bytes × Bytes)}
    (h : ∀ kv ∈ ready, kv.1 = lit "n" ∨ kv.1 = lit "sig") :
    setCalls fmt ready = ready.map fun kv => (paramOf fmt kv.1, kv.2) := by
  unfold setCalls
  rw [← List.filterMap_eq_map]
  refine List.filterMap_congr fun kv hkv => ?_
  have hne : lit "sig" ≠ lit "n" := by decide
  rcases h kv hkv with htype | htype
  · simp [paramKey, paramOf, htype]
  · simp [paramKey, paramOf, sigParam, htype, hne]

/-- The pairs `f` solves have the types of their requests. -/
theorem type_of_mem_solvedPair {f : Bytes → Bytes → Except Bytes Bytes}
    {requests : List SolverRequest} {kv : Bytes × Bytes}
    (h : kv ∈ requests.filterMap (solvedPair f)) : ∃ req ∈ requests, req.type = kv.1 := by
  obtain ⟨req, hreq, hpair⟩ := List.mem_filterMap.mp h
  refine ⟨req, hreq, ?_⟩
  unfold solvedPair at hpair
  cases hf : f req.type req.challenge with
  | ok v =>
    rw [hf] at hpair
    cases hpair
    rfl
  | error e =>
    rw [hf] at hpair
    cases hpair

/-- In every state that calls with the same assets reach, in any order of their steps: the
cache agrees with `f`, holds no challenge twice, and keeps its entries from then on; a call
whose engine throws leaves the cache and its URL as they were; and every other call has
written the pairs `f` solves and reports the errors `f` gives, each as often as its requests
say. -/
theorem sharedCalls_consistent (assets : SolverAssets) (cid : CacheId)
    (f : Bytes → Bytes → Except Bytes Bytes) (engines : ThreadId → Option (SolverEngine Ctx))
    (w : World Ctx) (hcache : assets.cache = some cid)
    (hrun : Run World.step (SharedCalls assets f) (World.initial engines) w) :
    (Agrees f (w.caches cid) ∧ NoOverlap (w.caches cid) ∧
      ∀ w', Run World.step (SharedCalls assets f) w w' → Extends (w.caches cid) (w'.caches cid)) ∧
    ThrowsCleanly w ∧
    ∀ r ∈ w.done, r.call.fmt.url ≠ [] →
      (∀ req ∈ r.call.fmt.requests, req.type = lit "n" ∨ req.type = lit "sig") →
      (∀ missing what, r.asked ≠ some (missing, .error what)) →
      List.Perm r.ready (r.call.fmt.requests.filterMap (solvedPair f)) ∧
      ∃ messages, List.Perm messages (r.call.fmt.requests.filterMap (failure f)) ∧
        r.result = ⟨applySets r.call.fmt.url
          (r.ready.map fun kv => (paramOf r.call.fmt kv.1, kv.2)), joinErrors messages⟩ := by
  -- The invariant, with the same function for every call and every cache.
  have hguard : ∀ (w : World Ctx) a, SharedCalls assets f w a →
      Answers (fun _ => f) (fun _ => f) w a := by
    intro w a h
    cases a with
    | call t call => exact fun _ _ => rfl
    | engine t js => exact h
    | store t => trivial
  have hcoherent := coherent_of_run (hrun.weaken hguard) (coherent_initial engines)
  have hassets : AllCalls (fun call => call.assets = assets) w := by
    refine hrun.invariant ?_ ⟨(fun _ _ h => by cases h), fun _ h => by cases h⟩
    intro w₁ a w₂ h hguard hstep
    refine allCalls_step h ?_ hstep
    rintro t call rfl
    exact hguard
  refine ⟨⟨hcoherent.caches cid, (hcoherent.caches cid).noOverlap, ?_⟩,
    throwsCleanly_of_coherent hcoherent, ?_⟩
  · intro w' hrun'
    exact extends_of_run (hrun'.weaken hguard) hcoherent cid
  · intro r hr hurl htypes hthrow
    have hr' : r.call.assets.cache ≠ none := by
      rw [hassets.2 r hr, hcache]
      exact Option.some_ne_none cid
    obtain ⟨hready, messages, hmessages, hresult⟩ :=
      (hcoherent.done r hr).answered hurl hr' hthrow
    refine ⟨hready, messages, hmessages, ?_⟩
    rw [hresult, finish, setCalls_eq_map]
    intro kv hkv
    obtain ⟨req, hreq, htype⟩ := type_of_mem_solvedPair (hready.mem_iff.mp hkv)
    exact htype ▸ htypes req hreq

end

/-- A solver that gives every request the text of the player as its value. -/
def playerJs : Js Unit where
  newContext := some ()
  evalScript := fun _ _ _ => .ok ()
  jsc := fun _ => some fun request => .ok (.object [(lit "responses",
    .array ((((request.member (lit "requests")).bind Json.elems?).getD []).map fun _ =>
      .object [(lit "data", (request.member (lit "player")).getD .null),
        (lit "type", .string (lit "result"))]))])
  showReal := fun _ => []

/-- The assets of the player `player`, with their own cache. -/
def playerAssets (player : Bytes) (cid : CacheId) : SolverAssets :=
  ⟨[], [], [], [], player, some cid⟩

/-- Two threads with the same call, interleaved so that both miss the same challenge and both
store it. -/
def twoThreads : List (Action Unit) :=
  [.call 0 ⟨oneRequest, playerAssets (lit "A") 0⟩, .call 1 ⟨oneRequest, playerAssets (lit "A") 0⟩,
   .engine 1 playerJs, .engine 0 playerJs, .store 0, .store 1]

/-- Two threads miss one challenge together, and the cache agrees all the same. -/
theorem sharedCalls_consistent_twoThreads : ∃ w, runList World.step (World.initial fun _ => none)
    twoThreads = some w ∧ w.done.length = 2 ∧ Agrees (fun _ _ => .ok (lit "A")) (w.caches 0) ∧
      NoOverlap (w.caches 0) ∧ ThrowsCleanly w := by
  have hrun : Run World.step (SharedCalls (playerAssets (lit "A") 0) fun _ _ => .ok (lit "A"))
      (World.initial fun _ => none) _ :=
    run_of_runList ?_ (rfl : runList World.step _ twoThreads = some _)
  · have h := sharedCalls_consistent (playerAssets (lit "A") 0) 0 _ _ _ rfl hrun
    exact ⟨_, rfl, rfl, h.1.1, h.1.2.1, h.2.1⟩
  · refine ⟨rfl, fun w₁ h₁ => ⟨?_, fun w₂ h₂ => ?_⟩⟩
    · rfl
    cases h₁
    cases h₂
    refine ⟨?_, fun w₃ h₃ => ?_⟩
    · intro call cid found responses hphase hout
      cases hphase
      cases hout
      rfl
    cases h₃
    refine ⟨?_, fun w₄ h₄ => ⟨trivial, fun _ _ => ⟨trivial, fun _ _ => trivial⟩⟩⟩
    intro call cid found responses hphase hout
    cases hphase
    cases hout
    rfl

/-! ### Engines and the assets they were built from -/

section
variable {Ctx : Type}

/-- The assets without their cache: the code an engine is built from. -/
def codeOf (assets : SolverAssets) : SolverAssets := { assets with cache := none }

/-- A new engine keeps the assets it was built from. -/
theorem assets_of_new {js : Js Ctx} {assets : SolverAssets} {engine : SolverEngine Ctx}
    (h : SolverEngine.new js assets = .ok engine) : engine.assets = assets := by
  unfold SolverEngine.new at h
  simp only [bind, Except.bind] at h
  repeat' split at h
  all_goals
    cases h
  rfl

/-- The engine was built by the constructor, from its own assets. -/
def Built (js : Js Ctx) (engine : SolverEngine Ctx) : Prop :=
  SolverEngine.new js engine.assets = .ok engine

/-- An engine part that answers leaves the engine that answered in the slot. It is the one that
was there, or a new one built from the assets of the call. -/
theorem engineCall_ok {js : Js Ctx} {slot : Option (SolverEngine Ctx)} {assets : SolverAssets}
    {missing : List SolverRequest} {responses : List SolverResponse}
    (h : (engineCall js slot assets missing).2 = .ok responses) :
    ∃ engine, (engineCall js slot assets missing).1 = some engine ∧
      engine.solve js missing = .ok responses ∧
      (slot = some engine ∨ (Built js engine ∧ engine.assets = assets)) := by
  unfold engineCall threadLocalSolverEngine at h ⊢
  cases slot with
  | some engine => exact ⟨engine, rfl, h, Or.inl rfl⟩
  | none =>
    cases hnew : SolverEngine.new js assets with
    | error what =>
      simp only [hnew] at h
      cases h
    | ok engine =>
      simp only [hnew] at h ⊢
      have hassets := assets_of_new hnew
      exact ⟨engine, rfl, h, Or.inr ⟨by rw [Built, hassets, hnew], hassets⟩⟩

/-- An engine part leaves the slot as it was, or puts a new engine in it. -/
theorem engineCall_slot (js : Js Ctx) (slot : Option (SolverEngine Ctx)) (assets : SolverAssets)
    (missing : List SolverRequest) :
    (engineCall js slot assets missing).1 = slot ∨
      ∃ engine, (engineCall js slot assets missing).1 = some engine ∧ Built js engine := by
  unfold engineCall threadLocalSolverEngine
  cases slot with
  | some engine => exact Or.inl rfl
  | none =>
    cases hnew : SolverEngine.new js assets with
    | error what => exact Or.inl rfl
    | ok engine => exact Or.inr ⟨engine, rfl, by rw [Built, assets_of_new hnew, hnew]⟩

/-- The scripts are a deterministic function of the code, the type and the challenge: an
engine that was built and does not throw answers by `answer`. -/
def Deterministic (js : Js Ctx) (answer : SolverAssets → Bytes → Bytes → Except Bytes Bytes) :
    Prop :=
  ∀ (engine : SolverEngine Ctx) (requests : List SolverRequest) (responses : List SolverResponse),
    Built js engine → engine.solve js requests = .ok responses →
    responses = requests.map (respond (answer (codeOf engine.assets)))

/-- Calls with their own assets: a cache belongs to one code, `owner cid`. The scripts run on
one JavaScript engine. -/
def OwnAssets (js : Js Ctx) (owner : CacheId → SolverAssets) : Action Ctx → Prop
  | .call _ call => ∀ cid, call.assets.cache = some cid → codeOf call.assets = owner cid
  | .engine _ js' => js' = js
  | .store _ => True

/-- The engine the thread already has was built from the code of the call that now asks. -/
def EngineFits (w : World Ctx) : Action Ctx → Prop
  | .engine t _ => ∀ call cid found engine, w.phases t = .looked call cid found →
      w.engines t = some engine → codeOf engine.assets = codeOf call.assets
  | _ => True

/-- Every cache, every answer and every finished call speaks for its own assets. -/
structure OwnAnswers (answer : SolverAssets → Bytes → Bytes → Except Bytes Bytes)
    (owner : CacheId → SolverAssets) (w : World Ctx) : Prop where
  caches : ∀ cid, Agrees (answer (owner cid)) (w.caches cid)
  answered : ∀ t call cid found responses, w.phases t = .answered call cid found responses →
    responses = found.missing.map (respond (answer (codeOf call.assets))) ∧
      ∃ engine, w.engines t = some engine ∧ codeOf engine.assets = codeOf call.assets
  done : ∀ r ∈ w.done, Settled (answer (codeOf r.call.assets)) r

/-- Every engine was built, and the engine of a thread with an answer is the one that gave it,
built from the code of its call. -/
structure Engines (js : Js Ctx) (w : World Ctx) : Prop where
  built : ∀ t engine, w.engines t = some engine → Built js engine
  answered : ∀ t call cid found responses, w.phases t = .answered call cid found responses →
    ∃ engine, w.engines t = some engine ∧ codeOf engine.assets = codeOf call.assets

variable {js : Js Ctx} {w w' : World Ctx}

/-- A step that touches no engine keeps `Engines` when it gives no thread an answer. -/
theorem engines_of_eq (h : Engines js w) (hengines : w'.engines = w.engines)
    (hphases : ∀ t call cid found responses, w'.phases t = .answered call cid found responses →
      w.phases t = .answered call cid found responses) : Engines js w' where
  built := by
    rw [hengines]
    exact h.built
  answered := by
    rw [hengines]
    intro t call cid found responses hphase
    exact h.answered t call cid found responses (hphases t call cid found responses hphase)

/-- The phases of the other threads, and the one that was set. -/
theorem answered_setPhase {t t' : ThreadId} {phase : Phase} {call : Call} {cid : CacheId}
    {found : Lookup} {responses : List SolverResponse}
    (h : (w.setPhase t phase).phases t' = .answered call cid found responses) :
    (t' = t ∧ phase = .answered call cid found responses) ∨
      (t' ≠ t ∧ w.phases t' = .answered call cid found responses) := by
  by_cases ht : t' = t
  · subst ht
    simp only [World.setPhase, Function.update_self] at h
    exact Or.inl ⟨rfl, h⟩
  · simp only [World.setPhase, Function.update_of_ne ht] at h
    exact Or.inr ⟨ht, h⟩

/-- The slot after an engine part holds a built engine, if any. -/
theorem built_setEngine (h : Engines js w) (t : ThreadId) (assets : SolverAssets)
    (missing : List SolverRequest) :
    ∀ t' engine,
      (w.setEngine t (engineCall js (w.engines t) assets missing).1).engines t' = some engine →
      Built js engine := by
  intro t' engine hengine
  by_cases ht : t' = t
  · subst ht
    simp only [World.setEngine, Function.update_self] at hengine
    rcases engineCall_slot js (w.engines t') assets missing with heq | ⟨engine', heq, hbuilt⟩
    · exact h.built t' engine (heq ▸ hengine)
    · rw [heq] at hengine
      cases hengine
      exact hbuilt
  · simp only [World.setEngine, Function.update_of_ne ht] at hengine
    exact h.built t' engine hengine

/-- The engine part keeps `Engines` when the engine fits. -/
theorem engines_askEngine (h : Engines js w) {t : ThreadId} {call : Call} {cid : CacheId}
    {found : Lookup} (hphase : w.phases t = .looked call cid found)
    (hfits : EngineFits w (.engine t js)) : Engines js (w.askEngine t js call cid found) := by
  rcases askEngine_cases w t js call cid found with ⟨what, -, heq⟩ | ⟨responses, hout, heq⟩
  · rw [heq]
    refine ⟨built_setEngine h t call.assets found.missing, ?_⟩
    intro t' call' cid' found' responses' hphase'
    rcases answered_setPhase (w := w.setEngine t _) hphase' with ⟨-, h'⟩ | ⟨ht, h'⟩
    · cases h'
    · obtain ⟨engine, hengine, hcode⟩ := h.answered t' _ _ _ _ h'
      exact ⟨engine, (Function.update_of_ne ht _ _).trans hengine, hcode⟩
  · rw [heq]
    refine ⟨built_setEngine h t call.assets found.missing, ?_⟩
    intro t' call' cid' found' responses' hphase'
    rcases answered_setPhase (w := w.setEngine t _) hphase' with ⟨rfl, h'⟩ | ⟨ht, h'⟩
    · -- The thread that asked: its engine fits, or it is new.
      cases h'
      obtain ⟨engine, hslot, -, hold | ⟨-, hassets⟩⟩ := engineCall_ok hout
      · exact ⟨engine, (Function.update_self t' _ _).trans hslot,
          hfits call cid found engine hphase hold⟩
      · exact ⟨engine, (Function.update_self t' _ _).trans hslot, by rw [hassets]⟩
    · obtain ⟨engine, hengine, hcode⟩ := h.answered t' _ _ _ _ h'
      exact ⟨engine, (Function.update_of_ne ht _ _).trans hengine, hcode⟩

/-- Every step whose engine fits keeps `Engines`. -/
theorem engines_step {owner : CacheId → SolverAssets} {a : Action Ctx} (h : Engines js w)
    (hown : OwnAssets js owner a) (hfits : EngineFits w a) (hstep : w.step a = some w') :
    Engines js w' := by
  rcases step_cases hstep with ⟨t, call, rfl, -, rfl⟩ |
    ⟨t, js', call, cid, found, rfl, hphase, rfl⟩ |
    ⟨t, call, cid, found, responses, rfl, hphase, rfl⟩
  · rcases lookup_cases w t call with ⟨ready, result, heq, -⟩ | ⟨cid, -, -, heq⟩
    · rw [heq]
      refine engines_of_eq h rfl fun t' _ _ _ _ hphase' => ?_
      rcases answered_setPhase (w := w) hphase' with ⟨-, h'⟩ | ⟨-, h'⟩
      · cases h'
      · exact h'
    · rw [heq]
      refine engines_of_eq h rfl fun t' _ _ _ _ hphase' => ?_
      rcases answered_setPhase hphase' with ⟨-, h'⟩ | ⟨-, h'⟩
      · cases h'
      · exact h'
  · cases hown
    exact engines_askEngine h hphase hfits
  · refine engines_of_eq h rfl fun t' _ _ _ _ hphase' => ?_
    rcases answered_setPhase (w := w.setCache cid _) hphase' with ⟨-, h'⟩ | ⟨-, h'⟩
    · cases h'
    · exact h'

/-- An engine that fits answers by the function of its call's code. -/
theorem answers_of_fits {answer : SolverAssets → Bytes → Bytes → Except Bytes Bytes}
    {owner : CacheId → SolverAssets} {a : Action Ctx} (hdet : Deterministic js answer)
    (h : Engines js w) (hown : OwnAssets js owner a) (hfits : EngineFits w a) :
    Answers (fun assets => answer (codeOf assets)) (fun cid => answer (owner cid)) w a := by
  cases a with
  | call t call =>
    intro cid hcid
    exact congrArg answer (hown cid hcid)
  | engine t js' =>
    cases hown
    intro call cid found responses hphase hout
    obtain ⟨engine, -, hsolve, hold | ⟨hbuilt, hassets⟩⟩ := engineCall_ok hout
    · rw [hdet engine _ _ (h.built t engine hold) hsolve, hfits call cid found engine hphase hold]
    · rw [hdet engine _ _ hbuilt hsolve, hassets]
  | store t => trivial

/-- In every run in which no thread asks an engine that was built from other code than that of
the call, every value and every error is the one the call's own code gives. -/
theorem ownEngines_coherent (js : Js Ctx)
    (answer : SolverAssets → Bytes → Bytes → Except Bytes Bytes)
    (owner : CacheId → SolverAssets) (w : World Ctx) (hdet : Deterministic js answer)
    (hrun : Run World.step (fun w a => OwnAssets js owner a ∧ EngineFits w a)
      (World.initial fun _ => none) w) : OwnAnswers answer owner w := by
  have hinv : Coherent (fun assets => answer (codeOf assets)) (fun cid => answer (owner cid)) w ∧
      Engines js w := by
    refine hrun.invariant (I := fun w => Coherent _ _ w ∧ Engines js w)
      (fun w₁ a w₂ h hguard hstep => ?_) ⟨coherent_initial _, ?_⟩
    · exact ⟨coherent_step h.1 (answers_of_fits hdet h.2 hguard.1 hguard.2) hstep,
        engines_step h.2 hguard.1 hguard.2 hstep⟩
    · exact ⟨(fun _ _ h => by cases h), fun _ _ _ _ _ h => by cases h⟩
  obtain ⟨hcoherent, hengines⟩ := hinv
  refine ⟨hcoherent.caches, ?_, hcoherent.done⟩
  intro t call cid found responses hphase
  exact ⟨(hcoherent.answered t call cid found responses hphase).2,
    hengines.answered t call cid found responses hphase⟩

end

/-- What `playerJs` answers. -/
def playerAnswer (assets : SolverAssets) (_ _ : Bytes) : Except Bytes Bytes :=
  .ok assets.playerCode

/-- The responses of `playerJs` all have the text of the player. -/
theorem readResponses_player (player : Bytes) (requests : List SolverRequest) :
    readResponses playerJs.showReal requests (requests.map fun _ =>
      .object [(lit "data", .string player), (lit "type", .string (lit "result"))]) =
      .ok (requests.map (respond fun _ _ => .ok player)) := by
  induction requests with
  | nil => rfl
  | cons req requests ih =>
    rw [List.map_cons, readResponses, List.tail_cons, ih]
    rfl

/-- So `playerJs` is deterministic. -/
theorem deterministic_player : Deterministic playerJs playerAnswer := by
  intro engine requests responses _ hsolve
  have hreply : engine.solve playerJs requests =
      readResponses playerJs.showReal requests (requests.map fun _ =>
        .object [(lit "data", .string engine.assets.playerCode),
          (lit "type", .string (lit "result"))]) := by
    show readResponses _ _ ((requests.map _).map _) = _
    rw [List.map_map]
    rfl
  rw [hreply, readResponses_player] at hsolve
  exact (Except.ok.inj hsolve).symm

/-- Cache 0 belongs to player `A`, every other cache to player `B`. -/
def twoOwners (cid : CacheId) : SolverAssets :=
  codeOf (playerAssets (lit (if cid = 0 then "A" else "B")) cid)

/-- A call for player `A` with the first cache has its own assets. -/
theorem ownAssets_playerA (t : ThreadId) (fmt : FormatInfo) :
    OwnAssets playerJs twoOwners (.call t ⟨fmt, playerAssets (lit "A") 0⟩) := by
  intro cid hcid
  cases hcid
  rfl

/-- So has a call for player `B` with the second. -/
theorem ownAssets_playerB (t : ThreadId) (fmt : FormatInfo) :
    OwnAssets playerJs twoOwners (.call t ⟨fmt, playerAssets (lit "B") 1⟩) := by
  intro cid hcid
  cases hcid
  rfl

/-- A format with another `n` request. -/
def nextRequest : FormatInfo :=
  { url := lit "https://h/p", requests := [⟨lit "n", lit "d"⟩] }

/-- One thread solves two requests for player `A`. Its second call goes on beside a call of
another thread, for player `B`. -/
def besideB : List (Action Unit) :=
  [.call 0 ⟨oneRequest, playerAssets (lit "A") 0⟩, .engine 0 playerJs, .store 0,
   .call 1 ⟨oneRequest, playerAssets (lit "B") 1⟩, .call 0 ⟨nextRequest, playerAssets (lit "A") 0⟩,
   .engine 1 playerJs, .engine 0 playerJs, .store 1, .store 0]

/-- Every engine step of `besideB` fits: thread 0 has no engine and then one for player `A`,
thread 1 has none. -/
theorem allowed_besideB : AllowedList World.step
    (fun w a => OwnAssets playerJs twoOwners a ∧ EngineFits w a)
    (World.initial fun _ => none) besideB := by
  refine ⟨⟨ownAssets_playerA 0 _, trivial⟩, fun w₁ h₁ => ?_⟩
  cases h₁
  refine ⟨⟨rfl, ?_⟩, fun w₂ h₂ => ?_⟩
  · intro call cid found engine _ hengine
    cases hengine
  cases h₂
  refine ⟨⟨trivial, trivial⟩, fun w₃ h₃ => ⟨⟨ownAssets_playerB 1 _, trivial⟩, fun w₄ h₄ => ?_⟩⟩
  refine ⟨⟨ownAssets_playerA 0 _, trivial⟩, fun w₅ h₅ => ?_⟩
  cases h₃
  cases h₄
  cases h₅
  refine ⟨⟨rfl, ?_⟩, fun w₆ h₆ => ?_⟩
  · intro call cid found engine _ hengine
    cases hengine
  cases h₆
  refine ⟨⟨rfl, ?_⟩, fun w₇ h₇ => ?_⟩
  · -- The engine of the first call is asked again, for the same player.
    intro call cid found engine hphase hengine
    cases hphase
    cases hengine
    rfl
  exact ⟨⟨trivial, trivial⟩, fun _ _ => ⟨⟨trivial, trivial⟩, fun _ _ => trivial⟩⟩

/-- In the run `besideB` each player is served by its own engine. -/
theorem ownEngines_coherent_besideB : ∃ w, runList World.step (World.initial fun _ => none)
    besideB = some w ∧ w.done.length = 3 ∧ (w.caches 0).nValues[lit "d"]? = some (lit "A") ∧
      (w.caches 1).nValues[lit "c"]? = some (lit "B") ∧ OwnAnswers playerAnswer twoOwners w := by
  refine ⟨_, rfl, rfl, rfl, rfl, ?_⟩
  exact ownEngines_coherent playerJs playerAnswer twoOwners _ deterministic_player
    (run_of_runList allowed_besideB (rfl : runList World.step _ besideB = some _))

/-- One thread solves a request for player `A` and then one for player `B`. -/
def twoPlayers : List (Action Unit) :=
  [.call 0 ⟨oneRequest, playerAssets (lit "A") 0⟩, .engine 0 playerJs, .store 0,
   .call 0 ⟨oneRequest, playerAssets (lit "B") 1⟩, .engine 0 playerJs, .store 0]

/-- Each of the two calls has its own assets. -/
theorem ownAssets_twoPlayers : ∀ a ∈ twoPlayers, OwnAssets playerJs twoOwners a := by
  intro a ha
  simp only [twoPlayers, List.mem_cons, List.not_mem_nil, or_false] at ha
  rcases ha with rfl | rfl | rfl | rfl | rfl | rfl
  · exact ownAssets_playerA 0 _
  · rfl
  · trivial
  · exact ownAssets_playerB 0 _
  · rfl
  · trivial

/-- The second call of `twoPlayers` is answered by the engine of the first: the cache of player
`B` is filled by player `A`. -/
theorem ownEngines_mixed_up :
    ¬ ∀ (js : Js Unit) (answer : SolverAssets → Bytes → Bytes → Except Bytes Bytes)
        (owner : CacheId → SolverAssets) (w : World Unit), Deterministic js answer →
      Run World.step (fun _ a => OwnAssets js owner a) (World.initial fun _ => none) w →
      OwnAnswers answer owner w := by
  intro h
  have hrun := run_of_runList (allowedList_of_forall ownAssets_twoPlayers _)
    (rfl : runList World.step (World.initial fun _ => none) twoPlayers = some _)
  have hown := h playerJs playerAnswer twoOwners _ deterministic_player hrun
  have hagrees := (hown.caches 1).nValues (lit "c") (lit "A") (by decide)
  exact absurd hagrees (by decide)

end EjsBoundary.Proofs
