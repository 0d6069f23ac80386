import EjsBoundary.Model.SolverEngine
import EjsBoundary.Proofs.UrlQuery

/-!
# `EjsBoundary.Proofs.SolveFormatUrl`: one call, request by request

`solve_format_url` walks the requests twice: once to look them up, once to store what the
engine answered. Here each request gets its `Route` through the lookup (a cached value, a
cached error, or a miss), and `lookupPhase_eq` and `storePhase_eq` read the two loops as
filters over the request list. `solveFormatUrl_some` puts them together: it is the one
equation the results below use, and none of them unfolds a loop again.

The main result is `solveFormatUrl_reports_iff`: an empty `solver_error` means that every
request was solved and written, unless the engine returns too few responses and nothing else
fails. Then the requests past the last response disappear (`DropsSilently`).
-/

set_option autoImplicit false

namespace EjsBoundary.Proofs

open EjsBoundary.Lib
open EjsBoundary.Model
open Std (ExtTreeMap)

/-! ### The route of a request -/

/-- What the lookup does with a request. -/
inductive Route where
  | value (v : Bytes)
  | error (e : Bytes)
  | miss
  deriving DecidableEq

namespace Route

def value? : Route → Option Bytes
  | .value v => some v
  | _ => none

def error? : Route → Option Bytes
  | .error e => some e
  | _ => none

def isMiss : Route → Bool
  | .miss => true
  | _ => false

end Route

/-- The route through one pair of maps: values come before errors. -/
def routeIn (values errors : Params) (challenge : Bytes) : Route :=
  match values[challenge]? with
  | some v => .value v
  | none =>
    match errors[challenge]? with
    | some e => .error e
    | none => .miss

/-- The route of a request. A type other than `n` and `sig` is always a miss. -/
def route (cache : SolverSharedCache) (req : SolverRequest) : Route :=
  if req.type = lit "n" then routeIn cache.nValues cache.nErrors req.challenge
  else if req.type = lit "sig" then routeIn cache.sigValues cache.sigErrors req.challenge
  else .miss

/-- The pairs the lookup finds. -/
def hits (cache : SolverSharedCache) (requests : List SolverRequest) : List (Bytes × Bytes) :=
  requests.filterMap fun req => (route cache req).value?.map fun v => (req.type, v)

/-- The requests the lookup leaves to the engine. -/
def misses (cache : SolverSharedCache) (requests : List SolverRequest) : List SolverRequest :=
  requests.filter fun req => (route cache req).isMiss

/-- The error texts the lookup finds. -/
def cachedErrors (cache : SolverSharedCache) (requests : List SolverRequest) : List Bytes :=
  requests.filterMap fun req => (route cache req).error?

/-- A list of messages joined as both loops join them. -/
def joinErrors (messages : List Bytes) : Bytes := messages.foldl appendError []

/-- The pairs among the answers that the engine solved. -/
def solved (answers : List (SolverRequest × SolverResponse)) : List (Bytes × Bytes) :=
  answers.filterMap fun a => if a.2.ok then some (a.1.type, a.2.data) else none

/-- The error texts among the answers. -/
def failed (answers : List (SolverRequest × SolverResponse)) : List Bytes :=
  answers.filterMap fun a => if a.2.ok then none else some a.2.error

/-! ### The two loops -/

/-- One turn of the lookup loop, by the route of the request. -/
theorem lookupStep_eq (cache : SolverSharedCache) (acc : Lookup) (req : SolverRequest) :
    lookupStep cache acc req =
      match route cache req with
      | .value v => { acc with ready := acc.ready ++ [(req.type, v)] }
      | .error e => { acc with solverError := appendError acc.solverError e }
      | .miss => { acc with missing := acc.missing ++ [req] } := by
  -- Both pairs of maps go through the same branch.
  have hin : ∀ values errors : Params, lookupIn values errors acc req =
      match routeIn values errors req.challenge with
      | .value v => { acc with ready := acc.ready ++ [(req.type, v)] }
      | .error e => { acc with solverError := appendError acc.solverError e }
      | .miss => { acc with missing := acc.missing ++ [req] } := by
    intro values errors
    unfold lookupIn routeIn
    cases values[req.challenge]? with
    | some v => rfl
    | none => cases errors[req.challenge]? <;> rfl
  unfold lookupStep route
  split
  · exact hin _ _
  · split
    · exact hin _ _
    · rfl

/-- The lookup loop from any state: hits, misses and errors are appended in request order. -/
theorem lookupLoop_eq (cache : SolverSharedCache) :
    ∀ (requests : List SolverRequest) (acc : Lookup),
      requests.foldl (lookupStep cache) acc =
        { ready := acc.ready ++ hits cache requests
          missing := acc.missing ++ misses cache requests
          solverError := (cachedErrors cache requests).foldl appendError acc.solverError } := by
  intro requests
  induction requests with
  | nil => intro acc; simp [hits, misses, cachedErrors]
  | cons req requests ih =>
    intro acc
    rw [List.foldl_cons, ih, lookupStep_eq]
    cases hroute : route cache req <;>
      simp [hits, misses, cachedErrors, hroute, Route.value?, Route.error?, Route.isMiss]

/-- The lookup of a call: hits, misses and errors. -/
theorem lookupPhase_eq (cache : SolverSharedCache) (requests : List SolverRequest) :
    lookupPhase cache requests =
      { ready := hits cache requests
        missing := misses cache requests
        solverError := joinErrors (cachedErrors cache requests) } := by
  unfold lookupPhase
  rw [lookupLoop_eq]
  rfl

/-- The cache after the answers are stored, one after the other. -/
def storeAll (cache : SolverSharedCache) (answers : List (SolverRequest × SolverResponse)) :
    SolverSharedCache :=
  answers.foldl (fun c a => storeResponse c a.1 a.2) cache

/-- The store loop from any state. -/
theorem storeLoop_eq :
    ∀ (answers : List (SolverRequest × SolverResponse)) (acc : Store),
      answers.foldl storeStep acc =
        { cache := storeAll acc.cache answers
          ready := acc.ready ++ solved answers
          solverError := (failed answers).foldl appendError acc.solverError } := by
  intro answers
  induction answers with
  | nil => intro acc; simp [storeAll, solved, failed]
  | cons a answers ih =>
    intro acc
    rw [List.foldl_cons, ih]
    cases hok : a.2.ok <;> simp [storeStep, storeAll, solved, failed, hok]

/-- The store of a call, from what the lookup found. -/
theorem storePhase_eq (cache : SolverSharedCache) (found : Lookup)
    (responses : List SolverResponse) :
    storePhase cache found responses =
      { cache := storeAll cache (found.missing.zip responses)
        ready := found.ready ++ solved (found.missing.zip responses)
        solverError :=
          (failed (found.missing.zip responses)).foldl appendError found.solverError } :=
  storeLoop_eq _ _

/-- A whole call with a URL and a cache. -/
theorem solveFormatUrl_some {fmt : FormatInfo} (hurl : fmt.url ≠ []) (cache : SolverSharedCache)
    (solve : List SolverRequest → Except Bytes (List SolverResponse)) :
    solveFormatUrl solve fmt (some cache) =
      if misses cache fmt.requests = [] then
        ⟨finish fmt (hits cache fmt.requests) (joinErrors (cachedErrors cache fmt.requests)),
          some cache, setCalls fmt (hits cache fmt.requests)⟩
      else match solve (misses cache fmt.requests) with
        | .error what => ⟨⟨fmt.url, what⟩, some cache, []⟩
        | .ok responses =>
          let answers := (misses cache fmt.requests).zip responses
          let ready := hits cache fmt.requests ++ solved answers
          ⟨finish fmt ready (joinErrors (cachedErrors cache fmt.requests ++ failed answers)),
            some (storeAll cache answers), setCalls fmt ready⟩ := by
  unfold solveFormatUrl
  rw [if_neg hurl]
  by_cases hreq : fmt.requests = []
  · -- Without requests the early return agrees with the general equation.
    rw [if_pos hreq, hreq]
    rfl
  · rw [if_neg hreq]
    cases hsolve : solve (misses cache fmt.requests) with
    | error what => simp only [lookupPhase_eq, hsolve]
    | ok responses =>
      simp only [lookupPhase_eq, storePhase_eq, joinErrors, List.foldl_append, hsolve]

/-! ### Positions in the list of misses -/

/-- The response that belongs to request `j` stands at the number of misses before it. -/
def missIndex (cache : SolverSharedCache) (requests : List SolverRequest) (j : Nat) : Nat :=
  (misses cache (requests.take j)).length

/-- A missed request stands in the list of misses at its index. -/
theorem misses_getElem?_missIndex {cache : SolverSharedCache} {requests : List SolverRequest}
    {j : Nat} {req : SolverRequest} (hj : requests[j]? = some req)
    (hmiss : route cache req = .miss) :
    (misses cache requests)[missIndex cache requests j]? = some req := by
  obtain ⟨hlt, hget⟩ := List.getElem?_eq_some_iff.mp hj
  have hsplit : misses cache requests =
      misses cache (requests.take j) ++ req :: misses cache (requests.drop (j + 1)) := by
    conv_lhs => rw [← List.take_append_drop j requests, List.drop_eq_getElem_cons hlt, hget]
    simp [misses, hmiss, Route.isMiss]
  rw [hsplit, missIndex, List.getElem?_append_right (Nat.le_refl _), Nat.sub_self]
  rfl

/-- Every position of the list of misses is the index of a missed request. -/
theorem exists_missIndex_eq {cache : SolverSharedCache} {requests : List SolverRequest}
    {i : Nat} (hi : i < (misses cache requests).length) :
    ∃ j req, requests[j]? = some req ∧ route cache req = .miss ∧
      missIndex cache requests j = i := by
  -- Cut the list of misses at `i`, then cut the requests at the same place.
  obtain ⟨a, req, b, hab, ha⟩ : ∃ a req b, misses cache requests = a ++ req :: b ∧
      a.length = i := by
    refine ⟨(misses cache requests).take i, (misses cache requests)[i],
      (misses cache requests).drop (i + 1), ?_, ?_⟩
    · rw [← List.drop_eq_getElem_cons hi, List.take_append_drop]
    · rw [List.length_take]
      omega
  obtain ⟨l₁, l₂, rfl, hl₁, hl₂⟩ := List.filter_eq_append_iff.mp hab
  obtain ⟨l₃, l₄, rfl, hl₃, hreq, -⟩ := List.filter_eq_cons_iff.mp hl₂
  have hmiss : route cache req = .miss := by
    cases hroute : route cache req with
    | miss => rfl
    | value v => rw [hroute] at hreq; cases hreq
    | error e => rw [hroute] at hreq; cases hreq
  have hnone : l₃.filter (fun req => (route cache req).isMiss) = [] :=
    List.filter_eq_nil_iff.mpr hl₃
  refine ⟨(l₁ ++ l₃).length, req, ?_, hmiss, ?_⟩
  · rw [← List.append_assoc, List.getElem?_append_right (Nat.le_refl _), Nat.sub_self]
    rfl
  · rw [missIndex, ← List.append_assoc, List.take_left, misses, List.filter_append, hl₁, hnone,
      List.append_nil, ha]

/-! ### Every request is solved, or an error is reported -/

/-- The value request `j` obtained: the cached one, or the data of the response at its own
index when that response is ok. -/
def obtained (cache : SolverSharedCache) (requests : List SolverRequest)
    (outcome : Except Bytes (List SolverResponse)) (j : Nat) : Option Bytes :=
  requests[j]?.bind fun req =>
    match route cache req with
    | .value v => some v
    | .error _ => none
    | .miss =>
      match outcome with
      | .error _ => none
      | .ok responses =>
        responses[missIndex cache requests j]?.bind fun resp =>
          if resp.ok then some resp.data else none

/-- The engine returns too few responses, all of them ok, and no request has a cached
error. -/
def DropsSilently (cache : SolverSharedCache) (requests : List SolverRequest)
    (outcome : Except Bytes (List SolverResponse)) : Prop :=
  ∃ responses, outcome = .ok responses ∧
    responses.length < (misses cache requests).length ∧
    (∀ resp ∈ responses, resp.ok = true) ∧
    ∀ req ∈ requests, (route cache req).error? = none

/-- Joined errors are empty when both are. -/
theorem appendError_eq_nil_iff (solverError message : Bytes) :
    appendError solverError message = [] ↔ solverError = [] ∧ message = [] := by
  unfold appendError
  by_cases h : solverError = []
  · simp [h]
  · simp [h]

/-- Joined messages are empty only when there are none, as no message is empty. -/
theorem joinErrors_eq_nil_iff {messages : List Bytes} (h : ∀ m ∈ messages, m ≠ []) :
    joinErrors messages = [] ↔ messages = [] := by
  have hgen : ∀ acc, messages.foldl appendError acc = [] ↔ acc = [] ∧ ∀ m ∈ messages, m = [] := by
    clear h
    induction messages with
    | nil => intro acc; simp
    | cons m messages ih =>
      intro acc
      rw [List.foldl_cons, ih, appendError_eq_nil_iff]
      simp [and_assoc]
  unfold joinErrors
  rw [hgen]
  constructor
  · rintro ⟨-, hall⟩
    refine List.eq_nil_iff_forall_not_mem.mpr fun m hm => h m hm (hall m hm)
  · rintro rfl
    simp

/-- Every request obtained a value exactly when there is no cached error and every miss has
an ok response at its index. -/
theorem obtained_all_iff (cache : SolverSharedCache) (requests : List SolverRequest)
    (responses : List SolverResponse) :
    (∀ j < requests.length, ∃ v, obtained cache requests (.ok responses) j = some v) ↔
      (∀ req ∈ requests, (route cache req).error? = none) ∧
      ∀ i < (misses cache requests).length,
        ∃ resp, responses[i]? = some resp ∧ resp.ok = true := by
  constructor
  · intro hall
    constructor
    · intro req hreq
      obtain ⟨j, hj, hget⟩ := List.mem_iff_getElem.mp hreq
      obtain ⟨v, hv⟩ := hall j hj
      cases hroute : route cache req with
      | value v => rfl
      | miss => rfl
      | error e =>
        rw [obtained, List.getElem?_eq_getElem hj, hget] at hv
        simp [hroute] at hv
    · intro i hi
      obtain ⟨j, req, hj, hmiss, hidx⟩ := exists_missIndex_eq hi
      obtain ⟨hlt, -⟩ := List.getElem?_eq_some_iff.mp hj
      obtain ⟨v, hv⟩ := hall j hlt
      rw [obtained, hj] at hv
      simp only [Option.bind_some, hmiss, hidx] at hv
      cases hresp : responses[i]? with
      | none => simp [hresp] at hv
      | some resp =>
        rw [hresp, Option.bind_some] at hv
        refine ⟨resp, rfl, ?_⟩
        by_contra hok
        rw [if_neg hok] at hv
        cases hv
  · rintro ⟨herr, hok⟩ j hj
    have hget : requests[j]? = some requests[j] := List.getElem?_eq_getElem hj
    cases hroute : route cache requests[j] with
    | value v => exact ⟨v, by simp [obtained, hget, hroute]⟩
    | error e =>
      have := herr _ (List.getElem_mem hj)
      rw [hroute] at this
      cases this
    | miss =>
      obtain ⟨hlt, -⟩ := List.getElem?_eq_some_iff.mp (misses_getElem?_missIndex hget hroute)
      obtain ⟨resp, hresp, hrok⟩ := hok _ hlt
      exact ⟨resp.data, by simp [obtained, hget, hroute, hresp, hrok]⟩

/-- A value that a request of type `n` or `sig` obtained is among the sets of the call. -/
theorem mem_setCalls_of_obtained {cache : SolverSharedCache} {fmt : FormatInfo}
    {responses : List SolverResponse} {j : Nat} {req : SolverRequest} {v key : Bytes}
    (hreq : fmt.requests[j]? = some req) (hkey : paramKey fmt req.type = some key)
    (hv : obtained cache fmt.requests (.ok responses) j = some v) :
    (key, v) ∈ setCalls fmt (hits cache fmt.requests ++
      solved ((misses cache fmt.requests).zip responses)) := by
  have hready : (req.type, v) ∈ hits cache fmt.requests ++
      solved ((misses cache fmt.requests).zip responses) := by
    rw [obtained, hreq, Option.bind_some] at hv
    cases hroute : route cache req with
    | value w =>
      simp only [hroute, Option.some.injEq] at hv
      subst hv
      refine List.mem_append_left _ (List.mem_filterMap.mpr ⟨req, List.mem_of_getElem? hreq, ?_⟩)
      simp [hroute, Route.value?]
    | error e => simp [hroute] at hv
    | miss =>
      simp only [hroute] at hv
      have hmiss := misses_getElem?_missIndex hreq hroute
      cases hresp : responses[missIndex cache fmt.requests j]? with
      | none => simp [hresp] at hv
      | some resp =>
        rw [hresp, Option.bind_some] at hv
        by_cases hok : resp.ok = true
        · rw [if_pos hok, Option.some.injEq] at hv
          have hzip : (req, resp) ∈ (misses cache fmt.requests).zip responses := by
            refine List.mem_of_getElem? (i := missIndex cache fmt.requests j) ?_
            rw [List.getElem?_zip_eq_some]
            exact ⟨hmiss, hresp⟩
          refine List.mem_append_right _ (List.mem_filterMap.mpr ⟨_, hzip, ?_⟩)
          simp [hok, hv]
        · rw [if_neg hok] at hv
          cases hv
  refine List.mem_filterMap.mpr ⟨_, hready, ?_⟩
  simp [hkey]

/-- Without misses the engine is not asked, and no request depends on it. -/
theorem obtained_of_misses_eq_nil {cache : SolverSharedCache} {requests : List SolverRequest}
    (h : misses cache requests = []) (outcome : Except Bytes (List SolverResponse)) (j : Nat) :
    obtained cache requests outcome j = obtained cache requests (.ok []) j := by
  unfold obtained
  cases hreq : requests[j]? with
  | none => rfl
  | some req =>
    cases hroute : route cache req with
    | value v => simp [hroute]
    | error e => simp [hroute]
    | miss =>
      have hget := misses_getElem?_missIndex hreq hroute
      rw [h] at hget
      cases hget

/-- When the engine throws, a miss obtains nothing. -/
theorem exists_obtained_eq_none {cache : SolverSharedCache} {requests : List SolverRequest}
    (h : misses cache requests ≠ []) (what : Bytes) :
    ∃ j < requests.length, obtained cache requests (.error what) j = none := by
  obtain ⟨j, req, hj, hmiss, -⟩ := exists_missIndex_eq (List.length_pos_of_ne_nil h)
  obtain ⟨hlt, -⟩ := List.getElem?_eq_some_iff.mp hj
  exact ⟨j, hlt, by simp [obtained, hj, hmiss]⟩

/-- No error text in the cache is empty. -/
def NonemptyErrors (cache : SolverSharedCache) : Prop :=
  (∀ c e : Bytes, cache.nErrors[c]? = some e → e ≠ []) ∧
  ∀ c e : Bytes, cache.sigErrors[c]? = some e → e ≠ []

/-- The engine never throws with an empty message and never fails a request with an empty
one. -/
def NonemptyFailures (solve : List SolverRequest → Except Bytes (List SolverResponse)) : Prop :=
  (∀ requests what, solve requests = .error what → what ≠ []) ∧
  ∀ requests responses, solve requests = .ok responses →
    ∀ resp ∈ responses, resp.ok = false → resp.error ≠ []

/-- A cache without empty error texts gives none. -/
theorem cachedErrors_ne_nil {cache : SolverSharedCache} (h : NonemptyErrors cache)
    (requests : List SolverRequest) : ∀ m ∈ cachedErrors cache requests, m ≠ [] := by
  have hin : ∀ (values errors : Params) (c e : Bytes),
      (∀ c e : Bytes, errors[c]? = some e → e ≠ []) → routeIn values errors c = .error e →
      e ≠ [] := by
    intro values errors c e herr hroute
    unfold routeIn at hroute
    cases hval : values[c]? with
    | some v => simp [hval] at hroute
    | none =>
      cases he : errors[c]? with
      | none => simp [hval, he] at hroute
      | some e' =>
        simp only [hval, he, Route.error.injEq] at hroute
        exact hroute ▸ herr c e' he
  intro m hm
  obtain ⟨req, -, hreq⟩ := List.mem_filterMap.mp hm
  cases hroute : route cache req with
  | value v => simp [hroute, Route.error?] at hreq
  | miss => simp [hroute, Route.error?] at hreq
  | error e =>
    simp only [hroute, Route.error?, Option.some.injEq] at hreq
    subst hreq
    unfold route at hroute
    split at hroute
    · exact hin _ _ _ _ h.1 hroute
    · split at hroute
      · exact hin _ _ _ _ h.2 hroute
      · cases hroute

/-- There is no cached error when no route is one. -/
theorem cachedErrors_eq_nil_iff (cache : SolverSharedCache) (requests : List SolverRequest) :
    cachedErrors cache requests = [] ↔ ∀ req ∈ requests, (route cache req).error? = none :=
  List.filterMap_eq_nil_iff

/-- The answers hold no failure exactly when every miss with a response has an ok one. -/
theorem failed_zip_eq_nil_iff (requests : List SolverRequest) (responses : List SolverResponse) :
    failed (requests.zip responses) = [] ↔
      ∀ i < requests.length, ∀ resp, responses[i]? = some resp → resp.ok = true := by
  unfold failed
  rw [List.filterMap_eq_nil_iff]
  constructor
  · intro h i hi resp hresp
    have hzip : (requests[i], resp) ∈ requests.zip responses := by
      refine List.mem_of_getElem? (i := i) ?_
      rw [List.getElem?_zip_eq_some]
      exact ⟨List.getElem?_eq_getElem hi, hresp⟩
    have := h _ hzip
    by_contra hok
    rw [if_neg hok] at this
    cases this
  · intro h a ha
    obtain ⟨i, hi⟩ := List.mem_iff_getElem?.mp ha
    rw [List.getElem?_zip_eq_some] at hi
    obtain ⟨hlt, -⟩ := List.getElem?_eq_some_iff.mp hi.1
    rw [if_pos (h i hlt a.2 hi.2)]

/-- The request at `j` was solved, and its value was passed to
`set_or_replace_query_param`. -/
def SolvedAndSet (cache : SolverSharedCache) (fmt : FormatInfo)
    (outcome : Except Bytes (List SolverResponse)) (sets : List (Bytes × Bytes)) (j : Nat) : Prop :=
  ∃ req key v, fmt.requests[j]? = some req ∧ obtained cache fmt.requests outcome j = some v ∧
    paramKey fmt req.type = some key ∧ (key, v) ∈ sets

/-- Both types have a parameter. -/
theorem exists_paramKey (fmt : FormatInfo) {type : Bytes}
    (h : type = lit "n" ∨ type = lit "sig") : ∃ key, paramKey fmt type = some key := by
  unfold paramKey
  rcases h with rfl | rfl
  · exact ⟨_, if_pos rfl⟩
  · rw [if_neg (by decide), if_pos rfl]
    exact ⟨_, rfl⟩

/-- Among `n` and `sig` requests, being solved and set is being solved. -/
theorem solvedAndSet_all_iff (cache : SolverSharedCache) {fmt : FormatInfo}
    (htypes : ∀ req ∈ fmt.requests, req.type = lit "n" ∨ req.type = lit "sig")
    (responses : List SolverResponse) :
    (∀ j < fmt.requests.length, SolvedAndSet cache fmt (.ok responses)
      (setCalls fmt (hits cache fmt.requests ++
        solved ((misses cache fmt.requests).zip responses))) j) ↔
      ∀ j < fmt.requests.length, ∃ v, obtained cache fmt.requests (.ok responses) j = some v := by
  refine forall_congr' fun j => imp_congr_right fun hj => ?_
  constructor
  · rintro ⟨-, -, v, -, hv, -, -⟩
    exact ⟨v, hv⟩
  · rintro ⟨v, hv⟩
    have hreq : fmt.requests[j]? = some fmt.requests[j] := List.getElem?_eq_getElem hj
    obtain ⟨key, hkey⟩ := exists_paramKey fmt (htypes _ (List.getElem_mem hj))
    exact ⟨_, key, v, hreq, hv, hkey, mem_setCalls_of_obtained hreq hkey hv⟩

/-- An empty `solver_error` means that every request was solved and set, and the other way
round, unless the engine drops requests silently; in that case the equivalence fails. -/
theorem solveFormatUrl_reports_iff (fmt : FormatInfo) (cache : SolverSharedCache)
    (solve : List SolverRequest → Except Bytes (List SolverResponse)) (hurl : fmt.url ≠ [])
    (htypes : ∀ req ∈ fmt.requests, req.type = lit "n" ∨ req.type = lit "sig")
    (hcache : NonemptyErrors cache) (hsolve : NonemptyFailures solve) :
    ((solveFormatUrl solve fmt (some cache)).result.solverError = [] ↔
      ∀ j < fmt.requests.length, SolvedAndSet cache fmt (solve (misses cache fmt.requests))
        (solveFormatUrl solve fmt (some cache)).sets j) ↔
      ¬ DropsSilently cache fmt.requests (solve (misses cache fmt.requests)) := by
  have hcached := cachedErrors_ne_nil hcache fmt.requests
  rw [solveFormatUrl_some hurl]
  by_cases hmiss : misses cache fmt.requests = []
  · -- Everything is cached: the answers are empty, and nothing can be dropped.
    have hnot : ¬ DropsSilently cache fmt.requests (solve (misses cache fmt.requests)) := by
      rintro ⟨responses, -, hlen, -⟩
      rw [hmiss] at hlen
      exact absurd hlen (Nat.not_lt_zero _)
    have hall := (solvedAndSet_all_iff cache htypes []).trans
      (obtained_all_iff cache fmt.requests [])
    have hsets : ∀ j, SolvedAndSet cache fmt (solve (misses cache fmt.requests))
          (setCalls fmt (hits cache fmt.requests)) j ↔
        SolvedAndSet cache fmt (.ok []) (setCalls fmt (hits cache fmt.requests ++
          solved ((misses cache fmt.requests).zip []))) j := by
      intro j
      unfold SolvedAndSet
      rw [obtained_of_misses_eq_nil hmiss, List.zip_nil_right]
      simp [solved]
    simp only [if_pos hmiss, hsets, hnot, not_false_eq_true, iff_true]
    show joinErrors (cachedErrors cache fmt.requests) = [] ↔ _
    rw [joinErrors_eq_nil_iff hcached, cachedErrors_eq_nil_iff, hall]
    constructor
    · intro h
      exact ⟨h, fun i hi => absurd hi (by rw [hmiss]; exact Nat.not_lt_zero i)⟩
    · rintro ⟨h, -⟩
      exact h
  · rw [if_neg hmiss]
    cases hout : solve (misses cache fmt.requests) with
    | error what =>
      -- The exception is reported, and some request obtained nothing.
      have hnot : ¬ DropsSilently cache fmt.requests (.error what) := by
        rintro ⟨responses, h, -⟩
        cases h
      obtain ⟨j, hj, hnone⟩ := exists_obtained_eq_none hmiss what
      have hall : ¬ ∀ j < fmt.requests.length, SolvedAndSet cache fmt (.error what) [] j := by
        intro h
        obtain ⟨-, -, v, -, hv, -, -⟩ := h j hj
        rw [hnone] at hv
        cases hv
      simp only [hnot, not_false_eq_true, iff_true]
      exact iff_of_false (hsolve.1 _ what hout) hall
    | ok responses =>
      have hmessages : ∀ m ∈ cachedErrors cache fmt.requests ++
          failed ((misses cache fmt.requests).zip responses), m ≠ [] := by
        intro m hm
        rcases List.mem_append.mp hm with hm | hm
        · exact hcached m hm
        · obtain ⟨a, ha, hae⟩ := List.mem_filterMap.mp hm
          by_cases hok : a.2.ok = true
          · rw [if_pos hok] at hae
            cases hae
          · rw [if_neg hok, Option.some.injEq] at hae
            exact hae ▸ hsolve.2 _ responses hout a.2 (List.of_mem_zip ha).2 (by simpa using hok)
      show (joinErrors _ = [] ↔ _) ↔ _
      rw [joinErrors_eq_nil_iff hmessages, List.append_eq_nil_iff, cachedErrors_eq_nil_iff,
        failed_zip_eq_nil_iff, solvedAndSet_all_iff cache htypes, obtained_all_iff]
      constructor
      · -- Dropped requests: no error is reported, and the first of them obtained nothing.
        rintro hiff ⟨responses', heq, hlen, hok, herr⟩
        cases heq
        have hfail : ∀ i < (misses cache fmt.requests).length,
            ∀ resp, responses[i]? = some resp → resp.ok = true :=
          fun i _ resp hresp => hok resp (List.mem_of_getElem? hresp)
        obtain ⟨resp, hresp, -⟩ := (hiff.mp ⟨herr, hfail⟩).2 responses.length hlen
        rw [List.getElem?_eq_none (Nat.le_refl _)] at hresp
        cases hresp
      · intro hnot
        refine and_congr_right fun herr => ⟨fun hfail => ?_, fun hget i hi resp hresp => ?_⟩
        · -- No response is missing, or else every response is ok and they are too few.
          intro i hi
          by_cases hlen : responses.length < (misses cache fmt.requests).length
          · exfalso
            refine hnot ⟨responses, rfl, hlen, fun resp hresp => ?_, herr⟩
            obtain ⟨k, hk, rfl⟩ := List.mem_iff_getElem.mp hresp
            exact hfail k (by omega) _ (List.getElem?_eq_getElem hk)
          · have hi' : i < responses.length := by omega
            have hresp := List.getElem?_eq_getElem hi'
            exact ⟨_, hresp, hfail i hi _ hresp⟩
        · obtain ⟨resp', hresp', hok⟩ := hget i hi
          rw [hresp, Option.some.injEq] at hresp'
          exact hresp' ▸ hok

/-! ### Engines that answer request by request -/

/-- The response for one request when `f` gives its value or its error. -/
def respond (f : Bytes → Bytes → Except Bytes Bytes) (req : SolverRequest) : SolverResponse :=
  match f req.type req.challenge with
  | .ok v => { type := req.type, ok := true, data := v }
  | .error e => { type := req.type, ok := false, error := e }

/-- The engine that answers every request by `f`. -/
def answerAll (f : Bytes → Bytes → Except Bytes Bytes) (requests : List SolverRequest) :
    Except Bytes (List SolverResponse) :=
  .ok (requests.map (respond f))

/-- An engine that answers by `f` fails with the texts of `f`. -/
theorem nonemptyFailures_answerAll {f : Bytes → Bytes → Except Bytes Bytes}
    (h : ∀ type challenge e, f type challenge = .error e → e ≠ []) :
    NonemptyFailures (answerAll f) := by
  constructor
  · intro requests what hout
    cases hout
  · intro requests responses hout resp hresp hok
    cases hout
    obtain ⟨req, -, rfl⟩ := List.mem_map.mp hresp
    unfold respond at hok ⊢
    cases hf : f req.type req.challenge with
    | ok v => simp [hf] at hok
    | error e => exact h _ _ e hf

/-- A format with one `n` request. -/
def oneRequest : FormatInfo :=
  { url := lit "https://h/p", requests := [⟨lit "n", lit "c"⟩] }

/-- A new cache holds no error text. -/
theorem nonemptyErrors_empty : NonemptyErrors {} := by
  constructor
  all_goals
    intro c e h
    cases h

/-- Four requests, one for each way through a call of `mixedCache` and `solvesN`. -/
def mixedFormat : FormatInfo :=
  { url := lit "https://h/p?n=a"
    requests :=
      [⟨lit "n", lit "a"⟩, ⟨lit "sig", lit "b"⟩, ⟨lit "n", lit "c"⟩, ⟨lit "sig", lit "d"⟩] }

/-- A cache with a value for the first request and an error for the second. -/
def mixedCache : SolverSharedCache :=
  { nValues := (∅ : Params).insert (lit "a") (lit "A")
    sigErrors := (∅ : Params).insert (lit "b") (lit "known") }

/-- Solves the `n` requests and fails the others. -/
def solvesN (type challenge : Bytes) : Except Bytes Bytes :=
  if type = lit "n" then .ok challenge else .error (lit "failed")

/-- The one error text of the cache is not empty. -/
theorem nonemptyErrors_mixedCache : NonemptyErrors mixedCache := by
  constructor
  · intro c e h
    cases h
  · intro c e h
    refine forall_getElem?_insert (P := fun _ e => e ≠ []) ?_ (List.cons_ne_nil _ _) c e h
    intro _ _ hnone
    cases hnone

/-- Nor is the one of the engine. -/
theorem nonemptyFailures_solvesN : NonemptyFailures (answerAll solvesN) := by
  refine nonemptyFailures_answerAll fun type challenge e h => ?_
  unfold solvesN at h
  split at h
  · cases h
  · cases h
    exact List.cons_ne_nil _ _

/-- A call that takes every way at once: the second and the fourth request fail, the error names
both, and not every request is solved and set. -/
theorem solveFormatUrl_reports_mixed :
    (solveFormatUrl (answerAll solvesN) mixedFormat (some mixedCache)).result.solverError =
        lit "known | failed" ∧
      misses mixedCache mixedFormat.requests = mixedFormat.requests.drop 2 ∧
      ¬ ∀ j < mixedFormat.requests.length, SolvedAndSet mixedCache mixedFormat
        (answerAll solvesN (misses mixedCache mixedFormat.requests))
        (solveFormatUrl (answerAll solvesN) mixedFormat (some mixedCache)).sets j := by
  have hiff := (solveFormatUrl_reports_iff mixedFormat mixedCache (answerAll solvesN) (by decide)
    (by decide) nonemptyErrors_mixedCache nonemptyFailures_solvesN).mpr ?_
  · refine ⟨by decide, by decide, fun hall => ?_⟩
    exact absurd (hiff.mpr hall) (by decide)
  · -- The engine answers every miss, so none of them is dropped.
    rintro ⟨responses, h, hlen, -, -⟩
    cases h
    rw [List.length_map] at hlen
    exact Nat.lt_irrefl _ hlen

/-- An engine that returns no responses at all: the request disappears, and no error is
reported. -/
theorem solveFormatUrl_drops_request :
    ¬ ∀ (fmt : FormatInfo) (cache : SolverSharedCache)
        (solve : List SolverRequest → Except Bytes (List SolverResponse)), fmt.url ≠ [] →
      (∀ req ∈ fmt.requests, req.type = lit "n" ∨ req.type = lit "sig") →
      NonemptyErrors cache → NonemptyFailures solve →
      ((solveFormatUrl solve fmt (some cache)).result.solverError = [] ↔
        ∀ j < fmt.requests.length, SolvedAndSet cache fmt (solve (misses cache fmt.requests))
          (solveFormatUrl solve fmt (some cache)).sets j) := by
  intro h
  have hnever : NonemptyFailures fun _ => .ok [] := by
    constructor
    · intro _ what hout
      cases hout
    · intro _ responses hout resp hresp
      cases hout
      cases hresp
  have hiff := h oneRequest {} (fun _ => .ok []) (by decide) (by decide) nonemptyErrors_empty
    hnever
  obtain ⟨-, -, v, -, hv, -, -⟩ := hiff.mp (by decide) 0 (by decide)
  have hnone : obtained {} oneRequest.requests (.ok []) 0 = none := by decide
  exact nomatch hnone.symm.trans hv

end EjsBoundary.Proofs
