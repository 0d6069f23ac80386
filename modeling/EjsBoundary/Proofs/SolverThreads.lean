import EjsBoundary.Lib.Run
import EjsBoundary.Model.SolverThreads
import EjsBoundary.Proofs.CacheTransparency

/-!
# `EjsBoundary.Proofs.SolverThreads`: calls on many threads

The invariant `Coherent F G` says that every cache `cid` agrees with the function `G cid`, that
every call under way looked at a cache that agreed with its own function, and that every
finished call returned what its own function says (`Settled`). `F` gives the function of a
call by its assets. A step keeps the invariant when a call's function is that of its cache and
the engine answers by it (`Answers`); so does every run (`coherent_of_run`).

What makes the induction go through is the snapshot in `Coherent.looked`: the cache a call
looked at is not the cache it stores to, since other threads may store in between. But both
agree with the same function, and that is all the result of the call depends on.

Nothing of this is needed for a call that is not interrupted: `call_alone` says that its steps are
`solveFormatUrl`, and that all else stays as it was (`AfterCall`).
-/

set_option autoImplicit false

namespace EjsBoundary.Proofs

open EjsBoundary.Lib
open EjsBoundary.Model

/-! ### A store keeps agreement -/

section
variable {f : Bytes → Bytes → Except Bytes Bytes} {cache : SolverSharedCache}

/-- Every entry of the old cache is in the new one, with the same text. -/
structure Extends (old new : SolverSharedCache) : Prop where
  nValues : ∀ c v : Bytes, old.nValues[c]? = some v → new.nValues[c]? = some v
  nErrors : ∀ c e : Bytes, old.nErrors[c]? = some e → new.nErrors[c]? = some e
  sigValues : ∀ c v : Bytes, old.sigValues[c]? = some v → new.sigValues[c]? = some v
  sigErrors : ∀ c e : Bytes, old.sigErrors[c]? = some e → new.sigErrors[c]? = some e

/-- A cache extends itself. -/
theorem Extends.refl (cache : SolverSharedCache) : Extends cache cache :=
  ⟨fun _ _ h => h, fun _ _ h => h, fun _ _ h => h, fun _ _ h => h⟩

/-- Extensions compose. -/
theorem Extends.trans {a b c : SolverSharedCache} (hab : Extends a b) (hbc : Extends b c) :
    Extends a c :=
  ⟨fun k v h => hbc.nValues k v (hab.nValues k v h),
    fun k e h => hbc.nErrors k e (hab.nErrors k e h),
    fun k v h => hbc.sigValues k v (hab.sigValues k v h),
    fun k e h => hbc.sigErrors k e (hab.sigErrors k e h)⟩

/-- Storing what `f` says keeps agreement with `f`, and overwrites an entry only with
itself. -/
theorem storeResponse_respond (h : Agrees f cache) (req : SolverRequest) :
    Agrees f (storeResponse cache req (respond f req)) ∧
      Extends cache (storeResponse cache req (respond f req)) := by
  unfold storeResponse respond
  cases hf : f req.type req.challenge with
  | ok v =>
    simp only [if_true]
    split
    · rename_i htype
      rw [htype] at hf
      exact ⟨⟨forall_getElem?_insert h.nValues hf, h.nErrors, h.sigValues, h.sigErrors⟩,
        ⟨getElem?_insert_of_agree fun w hw => Except.ok.inj (hf.symm.trans (h.nValues _ w hw)),
          fun _ _ h => h, fun _ _ h => h, fun _ _ h => h⟩⟩
    · split
      · rename_i htype
        rw [htype] at hf
        exact ⟨⟨h.nValues, h.nErrors, forall_getElem?_insert h.sigValues hf, h.sigErrors⟩,
          ⟨fun _ _ h => h, fun _ _ h => h,
            getElem?_insert_of_agree fun w hw =>
              Except.ok.inj (hf.symm.trans (h.sigValues _ w hw)), fun _ _ h => h⟩⟩
      · exact ⟨h, Extends.refl cache⟩
  | error e =>
    simp only [Bool.false_eq_true, if_false]
    split
    · rename_i htype
      rw [htype] at hf
      exact ⟨⟨h.nValues, forall_getElem?_insert h.nErrors hf, h.sigValues, h.sigErrors⟩,
        ⟨fun _ _ h => h,
          getElem?_insert_of_agree fun w hw =>
            Except.error.inj (hf.symm.trans (h.nErrors _ w hw)), fun _ _ h => h, fun _ _ h => h⟩⟩
    · split
      · rename_i htype
        rw [htype] at hf
        exact ⟨⟨h.nValues, h.nErrors, h.sigValues, forall_getElem?_insert h.sigErrors hf⟩,
          ⟨fun _ _ h => h, fun _ _ h => h, fun _ _ h => h,
            getElem?_insert_of_agree fun w hw =>
              Except.error.inj (hf.symm.trans (h.sigErrors _ w hw))⟩⟩
      · exact ⟨h, Extends.refl cache⟩

/-- The whole store loop, over answers given by `f`. -/
theorem storeAll_respond (requests : List SolverRequest) :
    ∀ {cache : SolverSharedCache}, Agrees f cache →
      Agrees f (storeAll cache (requests.zip (requests.map (respond f)))) ∧
        Extends cache (storeAll cache (requests.zip (requests.map (respond f)))) := by
  induction requests with
  | nil => exact fun h => ⟨h, Extends.refl _⟩
  | cons req requests ih =>
    intro cache h
    obtain ⟨hagrees, hextends⟩ := storeResponse_respond h req
    obtain ⟨hagrees', hextends'⟩ := ih hagrees
    exact ⟨hagrees', hextends.trans hextends'⟩

/-! ### What a call gathers, up to order -/

/-- Two disjoint filters give all of `l.filterMap g`, up to order, when `g` drops what neither
of them keeps. -/
theorem filterMap_split_perm {α β : Type} {p q : α → Bool} {g : α → Option β} {l : List α}
    (hdisjoint : ∀ x ∈ l, p x = true → q x = false)
    (hdrop : ∀ x ∈ l, p x = false → q x = false → g x = none) :
    List.Perm ((l.filter p).filterMap g ++ (l.filter q).filterMap g) (l.filterMap g) := by
  have hrest : (l.filter fun x => !p x).filterMap g = (l.filter q).filterMap g := by
    rw [List.filterMap_filter, List.filterMap_filter]
    refine List.filterMap_congr fun x hx => ?_
    cases hp : p x with
    | true => simp [hdisjoint x hx hp]
    | false =>
      cases hq : q x with
      | true => simp
      | false => simp [hdrop x hx hp hq]
  rw [← hrest, ← List.filterMap_append]
  exact (List.filter_append_perm p l).filterMap g

/-- Hits and solved misses together are the pairs of the requests that `f` solves. -/
theorem ready_perm (h : Agrees f cache) (requests : List SolverRequest) :
    List.Perm (hits cache requests ++ (misses cache requests).filterMap (solvedPair f))
      (requests.filterMap (solvedPair f)) := by
  rw [hits_agrees h]
  refine filterMap_split_perm (fun req _ hvalue => ?_) (fun req _ hvalue hmiss => ?_)
  · cases hroute : route cache req <;> simp [hroute, Route.value?, Route.isMiss] at hvalue ⊢
  · cases hroute : route cache req with
    | value v => simp [hroute, Route.value?] at hvalue
    | miss => simp [hroute, Route.isMiss] at hmiss
    | error e => simp [solvedPair, (route_agrees h req).2 e hroute]

/-- Cached errors and failed misses together are the errors of the requests that `f` fails. -/
theorem messages_perm (h : Agrees f cache) (requests : List SolverRequest) :
    List.Perm (cachedErrors cache requests ++ (misses cache requests).filterMap (failure f))
      (requests.filterMap (failure f)) := by
  rw [cachedErrors_agrees h]
  refine filterMap_split_perm (fun req _ herror => ?_) (fun req _ herror hmiss => ?_)
  · cases hroute : route cache req <;> simp [hroute, Route.error?, Route.isMiss] at herror ⊢
  · cases hroute : route cache req with
    | value v => simp [failure, (route_agrees h req).1 v hroute]
    | miss => simp [hroute, Route.isMiss] at hmiss
    | error e => simp [hroute, Route.error?] at herror

end

/-! ### The steps -/

section
variable {Ctx : Type} {w w' : World Ctx}

/-- What a step can be. -/
theorem step_cases {a : Action Ctx} (h : w.step a = some w') :
    (∃ t call, a = .call t call ∧ w.phases t = .idle ∧ w' = w.lookup t call) ∨
    (∃ t js call cid found, a = .engine t js ∧ w.phases t = .looked call cid found ∧
      w' = w.askEngine t js call cid found) ∨
    (∃ t call cid found responses, a = .store t ∧
      w.phases t = .answered call cid found responses ∧
      w' = w.storeAnswers t call cid found responses) := by
  cases a with
  | call t call =>
    cases hphase : w.phases t with
    | idle =>
      simp only [World.step, hphase, Option.some.injEq] at h
      exact Or.inl ⟨t, call, rfl, hphase, h.symm⟩
    | looked call' cid found => simp [World.step, hphase] at h
    | answered call' cid found responses => simp [World.step, hphase] at h
  | engine t js =>
    cases hphase : w.phases t with
    | idle => simp [World.step, hphase] at h
    | looked call cid found =>
      simp only [World.step, hphase, Option.some.injEq] at h
      exact Or.inr (Or.inl ⟨t, js, call, cid, found, rfl, hphase, h.symm⟩)
    | answered call cid found responses => simp [World.step, hphase] at h
  | store t =>
    cases hphase : w.phases t with
    | idle => simp [World.step, hphase] at h
    | looked call cid found => simp [World.step, hphase] at h
    | answered call cid found responses =>
      simp only [World.step, hphase, Option.some.injEq] at h
      exact Or.inr (Or.inr ⟨t, call, cid, found, responses, rfl, hphase, h.symm⟩)

/-- A thread that has looked can ask its engine. -/
theorem step_engine {t : ThreadId} {call : Call} {cid : CacheId} {found : Lookup}
    (h : w.phases t = .looked call cid found) (js : Js Ctx) :
    w.step (.engine t js) = some (w.askEngine t js call cid found) := by
  simp only [World.step, h]

/-- A thread with answers can store them. -/
theorem step_store {t : ThreadId} {call : Call} {cid : CacheId} {found : Lookup}
    {responses : List SolverResponse} (h : w.phases t = .answered call cid found responses) :
    w.step (.store t) = some (w.storeAnswers t call cid found responses) := by
  simp only [World.step, h]

/-- What the first step of a call can be: it returns with the engine not asked, or it has
looked up its cache and has something to ask. -/
theorem lookup_cases (w : World Ctx) (t : ThreadId) (call : Call) :
    (∃ ready result, w.lookup t call = w.leave t ⟨call, none, ready, result⟩ ∧
      (call.fmt.url = [] ∨ (call.fmt.requests = [] ∧ ready = [] ∧ result = ⟨call.fmt.url, []⟩) ∨
        call.assets.cache = none ∨
        ∃ cid, call.assets.cache = some cid ∧ misses (w.caches cid) call.fmt.requests = [] ∧
          ready = hits (w.caches cid) call.fmt.requests ∧
          result = finish call.fmt ready
            (joinErrors (cachedErrors (w.caches cid) call.fmt.requests)))) ∨
    (∃ cid, call.fmt.url ≠ [] ∧ call.assets.cache = some cid ∧
      w.lookup t call =
        w.setPhase t (.looked call cid (lookupPhase (w.caches cid) call.fmt.requests))) := by
  unfold World.lookup
  by_cases hurl : call.fmt.url = []
  · rw [if_pos hurl]
    exact Or.inl ⟨_, _, rfl, Or.inl hurl⟩
  rw [if_neg hurl]
  by_cases hreq : call.fmt.requests = []
  · rw [if_pos hreq]
    exact Or.inl ⟨_, _, rfl, Or.inr (Or.inl ⟨hreq, rfl, rfl⟩)⟩
  rw [if_neg hreq]
  cases hcache : call.assets.cache with
  | none => exact Or.inl ⟨_, _, rfl, Or.inr (Or.inr (Or.inl rfl))⟩
  | some cid =>
    by_cases hmiss : (lookupPhase (w.caches cid) call.fmt.requests).missing = []
    · simp only [if_pos hmiss]
      rw [lookupPhase_eq] at hmiss ⊢
      exact Or.inl ⟨_, _, rfl, Or.inr (Or.inr (Or.inr ⟨cid, rfl, hmiss, rfl, rfl⟩))⟩
    · simp only [if_neg hmiss]
      exact Or.inr ⟨cid, hurl, rfl, rfl⟩

/-- What the engine step of a call can be. -/
theorem askEngine_cases (w : World Ctx) (t : ThreadId) (js : Js Ctx) (call : Call)
    (cid : CacheId) (found : Lookup) :
    (∃ what, (engineCall js (w.engines t) call.assets found.missing).2 = .error what ∧
      w.askEngine t js call cid found =
        (w.setEngine t (engineCall js (w.engines t) call.assets found.missing).1).leave t
          ⟨call, some (found.missing, .error what), [], ⟨call.fmt.url, what⟩⟩) ∨
    (∃ responses, (engineCall js (w.engines t) call.assets found.missing).2 = .ok responses ∧
      w.askEngine t js call cid found =
        (w.setEngine t (engineCall js (w.engines t) call.assets found.missing).1).setPhase t
          (.answered call cid found responses)) := by
  unfold World.askEngine
  obtain ⟨slot, outcome⟩ := engineCall js (w.engines t) call.assets found.missing
  cases outcome with
  | error what => exact Or.inl ⟨what, rfl, rfl⟩
  | ok responses => exact Or.inr ⟨responses, rfl, rfl⟩

end

/-! ### A call that is not interrupted -/

/-- What a call asks an engine on a cache, and what it answers. -/
def asksOn (solve : List SolverRequest → Except Bytes (List SolverResponse)) (fmt : FormatInfo)
    (cache : Option SolverSharedCache) :
    Option (List SolverRequest × Except Bytes (List SolverResponse)) :=
  if fmt.url = [] ∨ fmt.requests = [] then none
  else
    cache.bind fun c =>
      let missing := (lookupPhase c fmt.requests).missing
      if missing = [] then none else some (missing, solve missing)

/-- A call that goes to the engine with what it found in these caches. -/
structure AsksWith (caches : CacheId → SolverSharedCache) (call : Call) (cid : CacheId)
    (found : Lookup) : Prop where
  url : call.fmt.url ≠ []
  requests : call.fmt.requests ≠ []
  cache : call.assets.cache = some cid
  found_eq : found = lookupPhase (caches cid) call.fmt.requests
  missing : found.missing ≠ []

section
variable {caches : CacheId → SolverSharedCache} {call : Call} {cid : CacheId} {found : Lookup}
  {solve : List SolverRequest → Except Bytes (List SolverResponse)}

/-- A call that is under way asks what a call on the caches it looked at asks. -/
theorem AsksWith.asksOn_eq (h : AsksWith caches call cid found)
    (solve : List SolverRequest → Except Bytes (List SolverResponse)) :
    asksOn solve call.fmt (call.assets.cache.map caches) =
      some (found.missing, solve found.missing) := by
  have hne : ¬ (call.fmt.url = [] ∨ call.fmt.requests = []) := not_or.mpr ⟨h.url, h.requests⟩
  have hmissing := h.missing
  rw [h.found_eq] at hmissing ⊢
  rw [asksOn, if_neg hne, h.cache]
  exact if_neg hmissing

/-- A call whose engine throws returns its text and stores nothing. -/
theorem AsksWith.solveFormatUrl_error (h : AsksWith caches call cid found) {what : Bytes}
    (hout : solve found.missing = .error what) :
    solveFormatUrl solve call.fmt (call.assets.cache.map caches) =
      ⟨⟨call.fmt.url, what⟩, some (caches cid), []⟩ := by
  have hmissing := h.missing
  rw [h.found_eq] at hmissing hout
  simp only [solveFormatUrl, if_neg h.url, if_neg h.requests, h.cache, Option.map_some,
    if_neg hmissing, hout]

/-- A call whose engine answers stores the answers. -/
theorem AsksWith.solveFormatUrl_ok (h : AsksWith caches call cid found)
    {responses : List SolverResponse} (hout : solve found.missing = .ok responses) :
    solveFormatUrl solve call.fmt (call.assets.cache.map caches) =
      ⟨finish call.fmt (storePhase (caches cid) found responses).ready
          (storePhase (caches cid) found responses).solverError,
        some (storePhase (caches cid) found responses).cache,
        setCalls call.fmt (storePhase (caches cid) found responses).ready⟩ := by
  have hmissing := h.missing
  have hfound := h.found_eq
  rw [hfound] at hmissing hout
  simp only [solveFormatUrl, if_neg h.url, if_neg h.requests, h.cache, Option.map_some,
    if_neg hmissing, hout, hfound]

end

section
variable {Ctx : Type}

/-- The first step of a call: it returns at once, with what `solveFormatUrl` returns whatever the
engine is, or goes to the engine with what it found in its cache. -/
theorem lookup_asks (w : World Ctx) (t : ThreadId) (call : Call) :
    (∃ r sets, w.lookup t call = w.leave t r ∧ r.call = call ∧ r.asked = none ∧
      ∀ solve, asksOn solve call.fmt (call.assets.cache.map w.caches) = none ∧
        solveFormatUrl solve call.fmt (call.assets.cache.map w.caches) =
          ⟨r.result, call.assets.cache.map w.caches, sets⟩) ∨
    ∃ cid found, w.lookup t call = w.setPhase t (.looked call cid found) ∧
      AsksWith w.caches call cid found := by
  by_cases hurl : call.fmt.url = []
  · refine Or.inl ⟨_, [], if_pos hurl, rfl, rfl, fun solve => ⟨?_, ?_⟩⟩
    · rw [asksOn, if_pos (Or.inl hurl)]
    · simp only [solveFormatUrl, if_pos hurl]
  by_cases hreq : call.fmt.requests = []
  · refine Or.inl ⟨_, [], (if_neg hurl).trans (if_pos hreq), rfl, rfl, fun solve => ⟨?_, ?_⟩⟩
    · rw [asksOn, if_pos (Or.inr hreq)]
    · simp only [solveFormatUrl, if_neg hurl, if_pos hreq]
  have hne : ¬ (call.fmt.url = [] ∨ call.fmt.requests = []) := not_or.mpr ⟨hurl, hreq⟩
  cases hcache : call.assets.cache with
  | none =>
    have hleave : w.lookup t call =
        w.leave t ⟨call, none, [], ⟨call.fmt.url, lit "Solver-Cache fehlt"⟩⟩ := by
      simp only [World.lookup, if_neg hurl, if_neg hreq, hcache]
    refine Or.inl ⟨_, [], hleave, rfl, rfl, fun solve => ⟨?_, ?_⟩⟩
    · rw [asksOn, if_neg hne]
      rfl
    · simp only [solveFormatUrl, if_neg hurl, if_neg hreq, Option.map_none]
  | some cid =>
    by_cases hmiss : (lookupPhase (w.caches cid) call.fmt.requests).missing = []
    · have hleave : w.lookup t call = w.leave t ⟨call, none,
          (lookupPhase (w.caches cid) call.fmt.requests).ready,
          finish call.fmt (lookupPhase (w.caches cid) call.fmt.requests).ready
            (lookupPhase (w.caches cid) call.fmt.requests).solverError⟩ := by
        simp only [World.lookup, if_neg hurl, if_neg hreq, hcache, if_pos hmiss]
      refine Or.inl ⟨_, setCalls call.fmt (lookupPhase (w.caches cid) call.fmt.requests).ready,
        hleave, rfl, rfl, fun solve => ⟨?_, ?_⟩⟩
      · rw [asksOn, if_neg hne]
        exact if_pos hmiss
      · simp only [solveFormatUrl, if_neg hurl, if_neg hreq, Option.map_some, if_pos hmiss]
    · have hlooked : w.lookup t call =
          w.setPhase t (.looked call cid (lookupPhase (w.caches cid) call.fmt.requests)) := by
        simp only [World.lookup, if_neg hurl, if_neg hreq, hcache, if_neg hmiss]
      exact Or.inr ⟨cid, _, hlooked, hurl, hreq, hcache, rfl, hmiss⟩

/-- The steps of a call. -/
def callSteps (t : ThreadId) (js : Js Ctx) (call : Call) : List (Action Ctx) :=
  [.call t call, .engine t js, .store t]

/-- The engine part of a call by its thread, with the engine as it was when the call began. -/
def engineOf (w : World Ctx) (t : ThreadId) (js : Js Ctx) (call : Call)
    (missing : List SolverRequest) : Except Bytes (List SolverResponse) :=
  (engineCall js (w.engines t) call.assets missing).2

/-- The world `w'` is `w` after one more call of thread `t`, which is recorded as `r`: it asked,
returned and left in its cache what `solve_format_url` does, and in the slot of its thread what the
engine part does. All else is as it was. -/
structure AfterCall (w w' : World Ctx) (t : ThreadId) (js : Js Ctx) (call : Call) (r : Finished) :
    Prop where
  done : w'.done = w.done ++ [r]
  call_eq : r.call = call
  asked : r.asked = asksOn (engineOf w t js call) call.fmt (call.assets.cache.map w.caches)
  result : r.result =
    (solveFormatUrl (engineOf w t js call) call.fmt (call.assets.cache.map w.caches)).result
  cache : ∀ cid, call.assets.cache = some cid → some (w'.caches cid) =
    (solveFormatUrl (engineOf w t js call) call.fmt (call.assets.cache.map w.caches)).cache
  slot : w'.engines t =
    r.asked.elim (w.engines t) fun asked => (engineCall js (w.engines t) call.assets asked.1).1
  caches : ∀ cid, call.assets.cache ≠ some cid → w'.caches cid = w.caches cid
  engines : ∀ t', t' ≠ t → w'.engines t' = w.engines t'
  phases : w'.phases = w.phases

/-- A thread that was idle and has left again is idle. -/
theorem leave_phases {w w₁ : World Ctx} {t : ThreadId} (hidle : w.phases t = .idle)
    (hphases : ∀ t', t' ≠ t → w₁.phases t' = w.phases t') (r : Finished) :
    (w₁.leave t r).phases = w.phases := by
  funext t'
  show Function.update w₁.phases t .idle t' = _
  by_cases ht : t' = t
  · subst ht
    rw [Function.update_self, hidle]
  · rw [Function.update_of_ne ht, hphases t' ht]

/-- A call that returns from its first step has asked nothing and changed nothing. -/
theorem afterCall_unasked {w : World Ctx} {t : ThreadId} {js : Js Ctx} {call : Call} {r : Finished}
    {sets : List (Bytes × Bytes)} (hidle : w.phases t = .idle) (hcall : r.call = call)
    (hnone : r.asked = none)
    (hasked : asksOn (engineOf w t js call) call.fmt (call.assets.cache.map w.caches) = none)
    (hrun : solveFormatUrl (engineOf w t js call) call.fmt (call.assets.cache.map w.caches) =
      ⟨r.result, call.assets.cache.map w.caches, sets⟩) :
    AfterCall w (w.leave t r) t js call r := by
  refine ⟨rfl, hcall, hnone.trans hasked.symm, ?_, ?_, ?_, fun _ _ => rfl, fun _ _ => rfl,
    leave_phases hidle (fun _ _ => rfl) r⟩
  · rw [hrun]
  · intro cid hcid
    rw [hrun, hcid]
    rfl
  · rw [hnone]
    rfl

/-- A call whose engine throws leaves the engine of its thread and its text, and the caches as they
were. -/
theorem afterCall_threw {w : World Ctx} {t : ThreadId} {js : Js Ctx} {call : Call} {cid : CacheId}
    {found : Lookup} {what : Bytes} (phase : Phase) (hidle : w.phases t = .idle)
    (hasks : AsksWith w.caches call cid found)
    (hout : engineOf w t js call found.missing = .error what) :
    AfterCall w (((w.setPhase t phase).setEngine t
        (engineCall js (w.engines t) call.assets found.missing).1).leave t
        ⟨call, some (found.missing, .error what), [], ⟨call.fmt.url, what⟩⟩)
      t js call ⟨call, some (found.missing, .error what), [], ⟨call.fmt.url, what⟩⟩ where
  done := rfl
  call_eq := rfl
  asked := by rw [hasks.asksOn_eq, hout]
  result := by rw [hasks.solveFormatUrl_error hout]
  cache := by
    intro cid' hcid'
    rw [hasks.solveFormatUrl_error hout, Option.some.inj (hcid'.symm.trans hasks.cache)]
    rfl
  slot := Function.update_self t _ _
  caches := fun _ _ => rfl
  engines := fun t' ht => Function.update_of_ne ht _ _
  phases := leave_phases hidle (fun t' ht => Function.update_of_ne ht _ _) _

/-- A call whose engine answers leaves the engine of its thread and the answers in its cache. -/
theorem afterCall_stored {w : World Ctx} {t : ThreadId} {js : Js Ctx} {call : Call} {cid : CacheId}
    {found : Lookup} {responses : List SolverResponse} (phase phase' : Phase)
    (hidle : w.phases t = .idle) (hasks : AsksWith w.caches call cid found)
    (hout : engineOf w t js call found.missing = .ok responses) :
    AfterCall w ((((w.setPhase t phase).setEngine t
        (engineCall js (w.engines t) call.assets found.missing).1).setPhase t phase').storeAnswers t
        call cid found responses)
      t js call ⟨call, some (found.missing, .ok responses),
        (storePhase (w.caches cid) found responses).ready,
        finish call.fmt (storePhase (w.caches cid) found responses).ready
          (storePhase (w.caches cid) found responses).solverError⟩ where
  done := rfl
  call_eq := rfl
  asked := by rw [hasks.asksOn_eq, hout]
  result := by rw [hasks.solveFormatUrl_ok hout]
  cache := by
    intro cid' hcid'
    rw [hasks.solveFormatUrl_ok hout, Option.some.inj (hcid'.symm.trans hasks.cache)]
    exact congrArg some (Function.update_self cid _ _)
  slot := Function.update_self t _ _
  caches := by
    intro cid' hcid'
    have hne : cid' ≠ cid := fun hsame => hcid' (hasks.cache.trans (congrArg some hsame.symm))
    exact Function.update_of_ne hne _ _
  engines := fun t' ht => Function.update_of_ne ht _ _
  phases := by
    refine leave_phases hidle (fun t' ht => ?_) _
    show Function.update (Function.update w.phases t _) t _ t' = _
    rw [Function.update_of_ne ht, Function.update_of_ne ht]

/-- The steps of one thread with no other thread in between are `solveFormatUrl`: one, two or three
of them are the whole call. -/
theorem call_alone (w : World Ctx) (t : ThreadId) (js : Js Ctx) (call : Call)
    (hidle : w.phases t = .idle) :
    ∃ n w' r, runList World.step w ((callSteps t js call).take n) = some w' ∧
      AfterCall w w' t js call r := by
  have hfirst : w.step (.call t call) = some (w.lookup t call) := by
    simp only [World.step, hidle]
  rcases lookup_asks w t call with
    ⟨r, sets, hleave, hcall, hnone, hrun⟩ | ⟨cid, found, hlooked, hasks⟩
  · -- All other ways out of the first step come before the engine.
    rw [hleave] at hfirst
    refine ⟨1, w.leave t r, r, ?_, afterCall_unasked hidle hcall hnone (hrun _).1 (hrun _).2⟩
    show (w.step (.call t call)).bind _ = _
    rw [hfirst]
    rfl
  rw [hlooked] at hfirst
  -- The second step starts from the phase the first one left.
  have hsecond := step_engine (w := w.setPhase t (.looked call cid found))
    (Function.update_self t _ _) js
  rcases askEngine_cases (w.setPhase t (.looked call cid found)) t js call cid found with
    ⟨what, hout, heq⟩ | ⟨responses, hout, heq⟩
  · rw [heq] at hsecond
    refine ⟨2, _, _, ?_, afterCall_threw (.looked call cid found) hidle hasks hout⟩
    show (w.step (.call t call)).bind _ = _
    rw [hfirst]
    show (World.step _ (.engine t js)).bind _ = _
    rw [hsecond]
    rfl
  · rw [heq] at hsecond
    refine ⟨3, _, _, ?_, afterCall_stored (.looked call cid found)
      (.answered call cid found responses) hidle hasks hout⟩
    show (w.step (.call t call)).bind _ = _
    rw [hfirst]
    show (World.step _ (.engine t js)).bind _ = _
    rw [hsecond]
    show (World.step _ (.store t)).bind _ = _
    rw [step_store (Function.update_self t _ _)]
    rfl

end

/-- Scripts that give the value `v` to one request. -/
def oneValueJs : Js Unit where
  newContext := some ()
  evalScript := fun _ _ _ => .ok ()
  jsc := fun _ => some fun _ => .ok (.object [(lit "responses", .array
    [.object [(lit "data", .string (lit "v")), (lit "type", .string (lit "result"))]])])
  showReal := fun _ => []

/-- A call with one request, whose challenge no cache has. -/
def firstCall : Call :=
  ⟨{ url := lit "https://h/p?n=c", requests := [⟨lit "n", lit "c"⟩] }, ⟨[], [], [], [], [], some 0⟩⟩

/-- Thread 1 has looked up its challenges and not asked yet. -/
def otherUnderWay : World Unit := (World.initial fun _ => none).lookup 1 firstCall

/-- A call that runs alone while another thread is in the middle of one. -/
theorem call_alone_underWay : ∃ w' r, AfterCall otherUnderWay w' 0 oneValueJs firstCall r ∧
    w'.done = [r] ∧ r.result = ⟨lit "https://h/p?n=v", []⟩ ∧
    (w'.caches 0).nValues[lit "c"]? = some (lit "v") := by
  obtain ⟨n, w', r, -, h⟩ := call_alone otherUnderWay 0 oneValueJs firstCall rfl
  have hcache := h.cache 0 rfl
  have hrun : (solveFormatUrl (engineOf otherUnderWay 0 oneValueJs firstCall) firstCall.fmt
      (some {})).result = ⟨lit "https://h/p?n=v", []⟩ := by decide
  have hvalue : ((solveFormatUrl (engineOf otherUnderWay 0 oneValueJs firstCall) firstCall.fmt
      (some {})).cache.bind fun cache => cache.nValues[lit "c"]?) = some (lit "v") := by decide
  exact ⟨w', r, h, h.done, h.result.trans hrun, (congrArg (Option.bind · _) hcache).trans hvalue⟩

/-! ### The invariant -/

/-- What a finished call must be when its engine answers by `f`: the engine's responses are
those of `f`; a call whose engine threw returns the URL as it was; any other call with a URL
and a cache has written the pairs of the requests that `f` solves, and reports the errors of
those that `f` fails, both up to order. -/
structure Settled (f : Bytes → Bytes → Except Bytes Bytes) (r : Finished) : Prop where
  asked : ∀ missing responses, r.asked = some (missing, .ok responses) →
    responses = missing.map (respond f)
  threw : ∀ missing what, r.asked = some (missing, .error what) →
    r.result = ⟨r.call.fmt.url, what⟩
  answered : r.call.fmt.url ≠ [] → r.call.assets.cache ≠ none →
    (∀ missing what, r.asked ≠ some (missing, .error what)) →
    List.Perm r.ready (r.call.fmt.requests.filterMap (solvedPair f)) ∧
    ∃ messages, List.Perm messages (r.call.fmt.requests.filterMap (failure f)) ∧
      r.result = finish r.call.fmt r.ready (joinErrors messages)

section
variable {Ctx : Type}
variable (F : SolverAssets → Bytes → Bytes → Except Bytes Bytes)
variable (G : CacheId → Bytes → Bytes → Except Bytes Bytes)

/-- The call looked at a cache that agreed with its function. It need not be the cache as it
is now. -/
def LookedUp (call : Call) (cid : CacheId) (found : Lookup) : Prop :=
  F call.assets = G cid ∧
    ∃ cache, Agrees (G cid) cache ∧ found = lookupPhase cache call.fmt.requests

/-- The invariant of the threads. -/
structure Coherent (w : World Ctx) : Prop where
  caches : ∀ cid, Agrees (G cid) (w.caches cid)
  looked : ∀ t call cid found, w.phases t = .looked call cid found → LookedUp F G call cid found
  answered : ∀ t call cid found responses,
    w.phases t = .answered call cid found responses →
    LookedUp F G call cid found ∧ responses = found.missing.map (respond (F call.assets))
  done : ∀ r ∈ w.done, Settled (F r.call.assets) r

/-- What the invariant needs of an action: the function of a call is that of its cache, and
an engine that does not throw answers by it. -/
def Answers (w : World Ctx) : Action Ctx → Prop
  | .call _ call => ∀ cid, call.assets.cache = some cid → F call.assets = G cid
  | .engine t js => ∀ call cid found responses, w.phases t = .looked call cid found →
      (engineCall js (w.engines t) call.assets found.missing).2 = .ok responses →
      responses = found.missing.map (respond (F call.assets))
  | .store _ => True

variable {F G} {w : World Ctx}

/-- The new caches agree with every function. -/
theorem coherent_initial (engines : ThreadId → Option (SolverEngine Ctx)) :
    Coherent F G (World.initial engines) where
  caches := fun _ => agrees_empty _
  looked := fun _ _ _ _ h => by cases h
  answered := fun _ _ _ _ _ h => by cases h
  done := fun _ h => by cases h

/-- A finished call that is settled keeps the world coherent. -/
theorem coherent_leave (h : Coherent F G w) (t : ThreadId) {r : Finished}
    (hr : Settled (F r.call.assets) r) : Coherent F G (w.leave t r) where
  caches := h.caches
  looked := by
    intro t' call cid found hphase
    by_cases ht : t' = t
    · subst ht
      simp [World.leave, World.setPhase] at hphase
    · simp only [World.leave, World.setPhase, Function.update_of_ne ht] at hphase
      exact h.looked t' call cid found hphase
  answered := by
    intro t' call cid found responses hphase
    by_cases ht : t' = t
    · subst ht
      simp [World.leave, World.setPhase] at hphase
    · simp only [World.leave, World.setPhase, Function.update_of_ne ht] at hphase
      exact h.answered t' call cid found responses hphase
  done := by
    intro r' hr'
    rcases List.mem_append.mp hr' with hr' | hr'
    · exact h.done r' hr'
    · rw [List.mem_singleton.mp hr']
      exact hr

/-- So does a lookup on a cache that agrees. -/
theorem coherent_setPhase_looked (h : Coherent F G w) (t : ThreadId) {call : Call}
    {cid : CacheId} {found : Lookup} (hlooked : LookedUp F G call cid found) :
    Coherent F G (w.setPhase t (.looked call cid found)) where
  caches := h.caches
  looked := by
    intro t' call' cid' found' hphase
    by_cases ht : t' = t
    · subst ht
      simp only [World.setPhase, Function.update_self, Phase.looked.injEq] at hphase
      obtain ⟨rfl, rfl, rfl⟩ := hphase
      exact hlooked
    · simp only [World.setPhase, Function.update_of_ne ht] at hphase
      exact h.looked t' call' cid' found' hphase
  answered := by
    intro t' call' cid' found' responses hphase
    by_cases ht : t' = t
    · subst ht
      simp [World.setPhase] at hphase
    · simp only [World.setPhase, Function.update_of_ne ht] at hphase
      exact h.answered t' call' cid' found' responses hphase
  done := h.done

/-- So do the answers of an engine that follows its function. -/
theorem coherent_setPhase_answered (h : Coherent F G w) (t : ThreadId) {call : Call}
    {cid : CacheId} {found : Lookup} (hlooked : LookedUp F G call cid found) :
    Coherent F G (w.setPhase t
      (.answered call cid found (found.missing.map (respond (F call.assets))))) where
  caches := h.caches
  looked := by
    intro t' call' cid' found' hphase
    by_cases ht : t' = t
    · subst ht
      simp [World.setPhase] at hphase
    · simp only [World.setPhase, Function.update_of_ne ht] at hphase
      exact h.looked t' call' cid' found' hphase
  answered := by
    intro t' call' cid' found' responses hphase
    by_cases ht : t' = t
    · subst ht
      simp only [World.setPhase, Function.update_self, Phase.answered.injEq] at hphase
      obtain ⟨rfl, rfl, rfl, rfl⟩ := hphase
      exact ⟨hlooked, rfl⟩
    · simp only [World.setPhase, Function.update_of_ne ht] at hphase
      exact h.answered t' call' cid' found' responses hphase
  done := h.done

/-- Coherence does not speak of the engines. -/
theorem coherent_setEngine (h : Coherent F G w) (t : ThreadId)
    (slot : Option (SolverEngine Ctx)) : Coherent F G (w.setEngine t slot) :=
  ⟨h.caches, h.looked, h.answered, h.done⟩

/-- A cache that agrees can take the place of another. -/
theorem coherent_setCache (h : Coherent F G w) {cid : CacheId} {cache : SolverSharedCache}
    (hcache : Agrees (G cid) cache) : Coherent F G (w.setCache cid cache) where
  caches := by
    intro cid'
    by_cases hcid : cid' = cid
    · subst hcid
      simp only [World.setCache, Function.update_self]
      exact hcache
    · simp only [World.setCache, Function.update_of_ne hcid]
      exact h.caches cid'
  looked := h.looked
  answered := h.answered
  done := h.done

/-- A call that returns from its first step is settled. -/
theorem settled_unasked {f : Bytes → Bytes → Except Bytes Bytes} {call : Call}
    {ready : List (Bytes × Bytes)} {result : SolvedUrlResult}
    (h : call.fmt.url ≠ [] → call.assets.cache ≠ none →
      List.Perm ready (call.fmt.requests.filterMap (solvedPair f)) ∧
      ∃ messages, List.Perm messages (call.fmt.requests.filterMap (failure f)) ∧
        result = finish call.fmt ready (joinErrors messages)) :
    Settled f ⟨call, none, ready, result⟩ where
  asked := fun _ _ h => by cases h
  threw := fun _ _ h => by cases h
  answered := fun hurl hcache _ => h hurl hcache

/-- A call that finds everything in its cache has what `f` says. -/
theorem settled_hits {f : Bytes → Bytes → Except Bytes Bytes} {cache : SolverSharedCache}
    (h : Agrees f cache) {requests : List SolverRequest} (hmiss : misses cache requests = []) :
    List.Perm (hits cache requests) (requests.filterMap (solvedPair f)) ∧
      List.Perm (cachedErrors cache requests) (requests.filterMap (failure f)) := by
  have hready := ready_perm h requests
  have hmessages := messages_perm h requests
  rw [hmiss, List.filterMap_nil, List.append_nil] at hready hmessages
  exact ⟨hready, hmessages⟩

/-- The early returns and the locked lookup keep the invariant. -/
theorem coherent_lookup (h : Coherent F G w) (t : ThreadId) {call : Call}
    (hcall : ∀ cid, call.assets.cache = some cid → F call.assets = G cid) :
    Coherent F G (w.lookup t call) := by
  rcases lookup_cases w t call with ⟨ready, result, heq, hcase⟩ | ⟨cid, -, hcid, heq⟩
  · rw [heq]
    refine coherent_leave h t (settled_unasked fun hurl hcache => ?_)
    rcases hcase with hnil | ⟨hnil, rfl, rfl⟩ | hnone | ⟨cid, hcid, hmiss, rfl, rfl⟩
    · exact absurd hnil hurl
    · rw [hnil]
      exact ⟨List.Perm.refl _, [], List.Perm.refl _, rfl⟩
    · exact absurd hnone hcache
    · have hagrees : Agrees (F call.assets) (w.caches cid) := by
        rw [hcall cid hcid]
        exact h.caches cid
      obtain ⟨hready, hmessages⟩ := settled_hits hagrees hmiss
      exact ⟨hready, _, hmessages, rfl⟩
  · rw [heq]
    exact coherent_setPhase_looked h t ⟨hcall cid hcid, w.caches cid, h.caches cid, rfl⟩

/-- The engine part keeps the invariant. -/
theorem coherent_askEngine (h : Coherent F G w) (t : ThreadId) (js : Js Ctx) {call : Call}
    {cid : CacheId} {found : Lookup} (hphase : w.phases t = .looked call cid found)
    (hanswers : Answers F G w (.engine t js)) :
    Coherent F G (w.askEngine t js call cid found) := by
  rcases askEngine_cases w t js call cid found with ⟨what, -, heq⟩ | ⟨responses, hout, heq⟩
  · rw [heq]
    refine coherent_leave (coherent_setEngine h t _) t ⟨?_, ?_, ?_⟩
    · intro missing responses hasked
      cases hasked
    · intro missing what' hasked
      cases hasked
      rfl
    · intro _ _ hnot
      exact absurd rfl (hnot _ _)
  · rw [heq, hanswers call cid found responses hphase hout]
    exact coherent_setPhase_answered (coherent_setEngine h t _) t (h.looked t _ _ _ hphase)

/-- The locked store keeps the invariant, whatever other threads stored since the lookup. -/
theorem coherent_storeAnswers (h : Coherent F G w) (t : ThreadId) {call : Call} {cid : CacheId}
    {found : Lookup} {responses : List SolverResponse}
    (hphase : w.phases t = .answered call cid found responses) :
    Coherent F G (w.storeAnswers t call cid found responses) := by
  obtain ⟨⟨hFG, cache, hagrees, hfound⟩, hresponses⟩ := h.answered t _ _ _ _ hphase
  have hmissing : found.missing = misses cache call.fmt.requests := by
    rw [hfound, lookupPhase_eq]
  rw [hFG] at hresponses
  unfold World.storeAnswers
  rw [storePhase_eq, hresponses]
  refine coherent_leave (coherent_setCache h ?_) t ⟨?_, ?_, ?_⟩
  · exact (storeAll_respond found.missing (h.caches cid)).1
  · intro missing responses' hasked
    cases hasked
    rw [hFG]
  · intro missing what hasked
    cases hasked
  · -- Only the snapshot of the lookup and the answers enter the result.
    intro _ _ _
    rw [(solved_respond (G cid) found.missing).1, (solved_respond (G cid) found.missing).2, hFG]
    have hready := ready_perm hagrees call.fmt.requests
    have hmessages := messages_perm hagrees call.fmt.requests
    refine ⟨?_, _, hmessages, ?_⟩
    · simpa only [hfound, lookupPhase_eq] using hready
    · simp only [hfound, lookupPhase_eq, joinErrors, List.foldl_append]

/-- Every step keeps the invariant. -/
theorem coherent_step {w' : World Ctx} {a : Action Ctx} (h : Coherent F G w)
    (hanswers : Answers F G w a) (hstep : w.step a = some w') : Coherent F G w' := by
  rcases step_cases hstep with ⟨t, call, rfl, -, rfl⟩ |
    ⟨t, js, call, cid, found, rfl, hphase, rfl⟩ |
    ⟨t, call, cid, found, responses, rfl, hphase, rfl⟩
  · exact coherent_lookup h t hanswers
  · exact coherent_askEngine h t js hphase hanswers
  · exact coherent_storeAnswers h t hphase

/-- The invariant holds in every state that is reached. -/
theorem coherent_of_run {w' : World Ctx} (hrun : Run World.step (Answers F G) w w')
    (h : Coherent F G w) : Coherent F G w' :=
  hrun.invariant (fun _ _ _ h hguard hstep => coherent_step h hguard hstep) h

end

/-! ### Which steps write, and which calls there are -/

section
variable {Ctx : Type} {w w' : World Ctx}

/-- The call a thread is in. -/
def callOf : Phase → Option Call
  | .idle => none
  | .looked call _ _ => some call
  | .answered call _ _ _ => some call

/-- Every call under way and every finished call satisfies `P`. -/
def AllCalls (P : Call → Prop) (w : World Ctx) : Prop :=
  (∀ t call, callOf (w.phases t) = some call → P call) ∧ ∀ r ∈ w.done, P r.call

/-- A phase whose call has the property keeps it of all calls. -/
theorem allCalls_setPhase {P : Call → Prop} (h : AllCalls P w) (t : ThreadId) {phase : Phase}
    (hphase : ∀ call, callOf phase = some call → P call) : AllCalls P (w.setPhase t phase) := by
  refine ⟨fun t' call hcall => ?_, h.2⟩
  by_cases ht : t' = t
  · subst ht
    simp only [World.setPhase, Function.update_self] at hcall
    exact hphase call hcall
  · simp only [World.setPhase, Function.update_of_ne ht] at hcall
    exact h.1 t' call hcall

/-- So does a finished call that has it. -/
theorem allCalls_leave {P : Call → Prop} (h : AllCalls P w) (t : ThreadId) {r : Finished}
    (hr : P r.call) : AllCalls P (w.leave t r) := by
  have hidle : AllCalls P (w.setPhase t .idle) := allCalls_setPhase h t fun _ hcall => by cases hcall
  refine ⟨hidle.1, fun r' hr' => ?_⟩
  rcases List.mem_append.mp hr' with hr' | hr'
  · exact h.2 r' hr'
  · rw [List.mem_singleton.mp hr']
    exact hr

/-- A step adds no call but the one it makes. -/
theorem allCalls_step {P : Call → Prop} {a : Action Ctx} (h : AllCalls P w)
    (hcall : ∀ t call, a = .call t call → P call) (hstep : w.step a = some w') :
    AllCalls P w' := by
  rcases step_cases hstep with ⟨t, call, rfl, -, rfl⟩ |
    ⟨t, js, call, cid, found, rfl, hphase, rfl⟩ |
    ⟨t, call, cid, found, responses, rfl, hphase, rfl⟩
  · have hP := hcall t call rfl
    rcases lookup_cases w t call with ⟨ready, result, heq, -⟩ | ⟨cid, -, -, heq⟩
    · rw [heq]
      exact allCalls_leave h t hP
    · rw [heq]
      exact allCalls_setPhase h t fun call' heq' => Option.some.inj heq' ▸ hP
  · have hP := h.1 t call (by rw [hphase]; rfl)
    rcases askEngine_cases w t js call cid found with ⟨what, -, heq⟩ | ⟨responses, -, heq⟩
    · rw [heq]
      exact allCalls_leave (w := w.setEngine t _) h t hP
    · rw [heq]
      exact allCalls_setPhase (w := w.setEngine t _) h t fun call' heq' => Option.some.inj heq' ▸ hP
  · have hP := h.1 t call (by rw [hphase]; rfl)
    exact allCalls_leave (w := w.setCache cid _) h t hP

/-- Only a store writes to a cache, and only a call whose engine answered stores. -/
theorem caches_step {a : Action Ctx} (hstep : w.step a = some w') :
    w'.caches = w.caches ∨ ∃ t call cid found responses, a = .store t ∧
      w.phases t = .answered call cid found responses := by
  rcases step_cases hstep with ⟨t, call, rfl, -, rfl⟩ |
    ⟨t, js, call, cid, found, rfl, hphase, rfl⟩ |
    ⟨t, call, cid, found, responses, rfl, hphase, rfl⟩
  · left
    rcases lookup_cases w t call with ⟨ready, result, heq, -⟩ | ⟨cid, -, -, heq⟩
    · rw [heq]
      rfl
    · rw [heq]
      rfl
  · left
    rcases askEngine_cases w t js call cid found with ⟨what, -, heq⟩ | ⟨responses, -, heq⟩
    · rw [heq]
      rfl
    · rw [heq]
      rfl
  · exact Or.inr ⟨t, call, cid, found, responses, rfl, hphase⟩

variable {F : SolverAssets → Bytes → Bytes → Except Bytes Bytes}
variable {G : CacheId → Bytes → Bytes → Except Bytes Bytes}

/-- A step changes and removes no entry of a cache. -/
theorem extends_step {a : Action Ctx} (h : Coherent F G w) (hstep : w.step a = some w')
    (cid : CacheId) : Extends (w.caches cid) (w'.caches cid) := by
  rcases caches_step hstep with heq | ⟨t, call, cid', found, responses, rfl, hphase⟩
  · rw [heq]
    exact Extends.refl _
  · obtain ⟨⟨hFG, -⟩, hresponses⟩ := h.answered t _ _ _ _ hphase
    rw [step_store hphase, Option.some.injEq] at hstep
    subst hstep
    by_cases hcid : cid = cid'
    · -- The store of this call goes to this cache, and what it writes is what `G` says.
      subst hcid
      show Extends (w.caches cid) (Function.update w.caches cid _ cid)
      rw [Function.update_self, storePhase_eq, hresponses, hFG]
      exact (storeAll_respond found.missing (h.caches cid)).2
    · show Extends (w.caches cid) (Function.update w.caches cid' _ cid)
      rw [Function.update_of_ne hcid]
      exact Extends.refl _

/-- Along a run a cache only grows. -/
theorem extends_of_run (hrun : Run World.step (Answers F G) w w') (h : Coherent F G w)
    (cid : CacheId) : Extends (w.caches cid) (w'.caches cid) := by
  refine (hrun.invariant (I := fun w' => Coherent F G w' ∧ Extends (w.caches cid) (w'.caches cid))
    ?_ ⟨h, Extends.refl _⟩).2
  intro w₁ a w₂ ⟨hcoherent, hextends⟩ hguard hstep
  exact ⟨coherent_step hcoherent hguard hstep,
    hextends.trans (extends_step hcoherent hstep cid)⟩

end

end EjsBoundary.Proofs
