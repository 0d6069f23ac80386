import EjsBoundary.Proofs.SolveFormatUrl

/-!
# `EjsBoundary.Proofs.CacheTransparency`: what a cached answer changes

Take an engine that answers each request by a function `f`, and a cache that agrees with `f`.
A call with that cache and a call with an empty one write the same parameters with the same
values. They can write them in another order: the hits come first, the misses after them. For
one `n` and one `sig` request there is one way to notice, the second of the two being cached
and the first not (`Overtakes`).

Then the two URLs are two orders of the same two sets, and `orderFree_iff` says when the order
does not matter. The reason it matters at all is in `EjsBoundary.Proofs.UrlQuery`: what the
first set writes goes through another decoding pass in the second one.
-/

set_option autoImplicit false

namespace EjsBoundary.Proofs

open EjsBoundary.Lib
open EjsBoundary.Model

/-! ### When the order of the two sets does not matter -/

/-- A decoding pass empties only the empty string. -/
theorem decodeOnce_eq_nil {s : Bytes} (h : decodeOnce s = []) : s = [] := by
  match s with
  | [] => rfl
  | [_] => cases h
  | [_, _] => cases h
  | c :: x :: y :: rest =>
    rw [decodeOnce] at h
    split at h
    · split at h <;> cases h
    · cases h

/-- The only keys that decode to `n` are `n` itself and its two escapes, and those come before
it in byte order. -/
theorem compare_n_ne_lt {k : Bytes} (h : decodeOnce k = lit "n") : compare (lit "n") k ≠ .lt := by
  cases k with
  | nil => cases h
  | cons c rest =>
    by_cases hc : c = 0x25
    · subst hc
      have hgt : compare (0x6E : UInt8) 0x25 = .gt := by decide
      show compare [(0x6E : UInt8)] (0x25 :: rest) ≠ .lt
      simp [hgt]
    · rw [decodeOnce_cons_of_ne hc] at h
      obtain ⟨hhead, htail⟩ := List.cons.inj h
      have hn : c = 0x6E := by
        unfold plusToSpace at hhead
        split at hhead
        · cases hhead
        · exact hhead
      have hrest : rest = [] := decodeOnce_eq_nil htail
      subst hn hrest
      show compare [(0x6E : UInt8)] [0x6E] ≠ .lt
      simp

/-- Setting `n` and setting `sp` can be swapped: under one key when the values are equal; under
two keys when the `n` value is not changed by a decoding pass, the `sp` value still reads back
under `sp`, and the key `sp` decodes to reads as it did before. -/
def OrderFree (params : Params) (sp vn vs : Bytes) : Prop :=
  if sp = lit "n" then vn = vs
  else decodeOnce vn = vn ∧ ReadsBack (params.insert sp vs) sp vs ∧
    (decodeOnce sp ≠ sp → decodeOnce sp ≠ lit "n" →
      ∀ v, ReadsBack (params.insert sp vs) (decodeOnce sp) v ↔
        ReadsBack params (decodeOnce sp) v)

/-- A written `n` value reads back if a second decoding leaves it alone. -/
theorem readsBack_n_iff (params : Params) (vn : Bytes) :
    ReadsBack (params.insert (lit "n") vn) (lit "n") vn ↔ decodeOnce vn = vn := by
  have hself : decodeOnce (lit "n") = lit "n" := by decide
  have hlast : (rekey decodeOnce decodeOnce (params.insert (lit "n") vn))[decodeOnce (lit "n")]? =
      some (decodeOnce vn) :=
    rekey_insert_getElem?_of_last (fun k hk => compare_n_ne_lt (hk.trans hself)) decodeOnce
      params vn
  rw [hself] at hlast
  rw [← rekey_getElem?_eq_some_iff_readsBack, hlast, Option.some.injEq]

/-- `OrderFree` is exactly what the two orders of the sets need to agree. -/
theorem orderFree_iff (url sp vn vs : Bytes) :
    setOrReplaceQueryParam (setOrReplaceQueryParam url (lit "n") vn) sp vs =
        setOrReplaceQueryParam (setOrReplaceQueryParam url sp vs) (lit "n") vn ↔
      OrderFree (paramsOf url) sp vn vs := by
  unfold OrderFree
  by_cases hsp : sp = lit "n"
  · subst hsp
    rw [if_pos rfl]
    exact setOrReplace_comm_same_iff url (lit "n") vn vs
  · rw [if_neg hsp, setOrReplace_comm_iff (Ne.symm hsp), readsBack_n_iff]
    refine and_congr_right fun _ => and_congr_right fun _ => ?_
    -- Away from `n` the first map reads as the parameters before any set. So does the second,
    -- except under the key `sp` decodes to.
    have hn : ∀ k, k ≠ lit "n" →
        (rekey decodeOnce decodeOnce ((paramsOf url).insert (lit "n") vn))[k]? =
          (rekey decodeOnce decodeOnce (paramsOf url))[k]? := by
      intro k hk
      have hself : decodeOnce (lit "n") = lit "n" := by decide
      exact rekey_insert_getElem?_of_ne (by rw [hself]; exact Ne.symm hk) _ _
    constructor
    · intro h hne hnen v
      rw [← rekey_getElem?_eq_some_iff_readsBack, ← rekey_getElem?_eq_some_iff_readsBack,
        ← hn _ hnen, h _ hnen hne]
    · intro h k hk hksp
      rw [hn k hk]
      by_cases hdec : decodeOnce sp = k
      · subst hdec
        refine Option.ext fun v => ?_
        rw [rekey_getElem?_eq_some_iff_readsBack, rekey_getElem?_eq_some_iff_readsBack,
          h hksp hk v]
      · exact (rekey_insert_getElem?_of_ne hdec _ _).symm

/-! ### A cache that agrees with the engine -/

/-- Every entry of the cache is what `f` gives for its type and challenge. -/
structure Agrees (f : Bytes → Bytes → Except Bytes Bytes) (cache : SolverSharedCache) : Prop where
  nValues : ∀ c v : Bytes, cache.nValues[c]? = some v → f (lit "n") c = .ok v
  nErrors : ∀ c e : Bytes, cache.nErrors[c]? = some e → f (lit "n") c = .error e
  sigValues : ∀ c v : Bytes, cache.sigValues[c]? = some v → f (lit "sig") c = .ok v
  sigErrors : ∀ c e : Bytes, cache.sigErrors[c]? = some e → f (lit "sig") c = .error e

/-- A new cache agrees with every function. -/
theorem agrees_empty (f : Bytes → Bytes → Except Bytes Bytes) : Agrees f {} := by
  constructor
  all_goals
    intro c v h
    cases h

section
variable {f : Bytes → Bytes → Except Bytes Bytes} {cache : SolverSharedCache}

/-- A route through one pair of maps that agrees with `f` says what `f` says. -/
theorem routeIn_agrees {values errors : Params} {type challenge : Bytes}
    (hv : ∀ c v : Bytes, values[c]? = some v → f type c = .ok v)
    (he : ∀ c e : Bytes, errors[c]? = some e → f type c = .error e) :
    (∀ v, routeIn values errors challenge = .value v → f type challenge = .ok v) ∧
      ∀ e, routeIn values errors challenge = .error e → f type challenge = .error e := by
  unfold routeIn
  cases hval : values[challenge]? with
  | some v =>
    refine ⟨fun w h => ?_, fun e h => by cases h⟩
    cases h
    exact hv _ _ hval
  | none =>
    cases herr : errors[challenge]? with
    | some e =>
      refine ⟨(fun w h => by cases h), fun e' h => ?_⟩
      cases h
      exact he _ _ herr
    | none => exact ⟨(fun w h => by cases h), fun e h => by cases h⟩

/-- What an agreeing cache finds is what the function gives. -/
theorem route_agrees (h : Agrees f cache) (req : SolverRequest) :
    (∀ v, route cache req = .value v → f req.type req.challenge = .ok v) ∧
      ∀ e, route cache req = .error e → f req.type req.challenge = .error e := by
  unfold route
  split
  · rename_i htype
    rw [htype]
    exact routeIn_agrees h.nValues h.nErrors
  · split
    · rename_i htype
      rw [htype]
      exact routeIn_agrees h.sigValues h.sigErrors
    · exact ⟨(fun v h => by cases h), fun e h => by cases h⟩

/-- The pair a request puts on the ready list when `f` solves it. -/
def solvedPair (f : Bytes → Bytes → Except Bytes Bytes) (req : SolverRequest) :
    Option (Bytes × Bytes) :=
  match f req.type req.challenge with
  | .ok v => some (req.type, v)
  | .error _ => none

/-- The message a request contributes when `f` fails it. -/
def failure (f : Bytes → Bytes → Except Bytes Bytes) (req : SolverRequest) : Option Bytes :=
  match f req.type req.challenge with
  | .ok _ => none
  | .error e => some e

/-- Answered by `f`, the misses contribute what `f` says about them. -/
theorem solved_respond (f : Bytes → Bytes → Except Bytes Bytes) (requests : List SolverRequest) :
    solved (requests.zip (requests.map (respond f))) = requests.filterMap (solvedPair f) ∧
      failed (requests.zip (requests.map (respond f))) = requests.filterMap (failure f) := by
  unfold solved failed
  rw [← List.map_prod_left_eq_zip, List.filterMap_map, List.filterMap_map]
  constructor
  all_goals
    refine List.filterMap_congr fun req _ => ?_
    cases hf : f req.type req.challenge <;> simp [respond, solvedPair, failure, hf]

/-- The hits contribute what `f` says about the requests they answer. -/
theorem hits_agrees (h : Agrees f cache) (requests : List SolverRequest) :
    hits cache requests =
      (requests.filter fun req => (route cache req).value?.isSome).filterMap (solvedPair f) := by
  unfold hits
  rw [List.filterMap_filter]
  refine List.filterMap_congr fun req _ => ?_
  cases hroute : route cache req with
  | value v =>
    have hf := (route_agrees h req).1 v hroute
    simp [Route.value?, solvedPair, hf]
  | error e => simp [Route.value?]
  | miss => simp [Route.value?]

/-- And its cached errors are the function's. -/
theorem cachedErrors_agrees (h : Agrees f cache) (requests : List SolverRequest) :
    cachedErrors cache requests =
      (requests.filter fun req => (route cache req).error?.isSome).filterMap (failure f) := by
  unfold cachedErrors
  rw [List.filterMap_filter]
  refine List.filterMap_congr fun req _ => ?_
  cases hroute : route cache req with
  | value v => simp [Route.error?]
  | error e =>
    have hf := (route_agrees h req).2 e hroute
    simp [Route.error?, failure, hf]
  | miss => simp [Route.error?]

/-! ### The sets a call makes -/

/-- The parameter a `sig` value is written to. -/
def sigParam (fmt : FormatInfo) : Bytes := if fmt.sp = [] then lit "signature" else fmt.sp

/-- The call of `set_or_replace_query_param` a request leads to when `f` solves it. -/
def written (f : Bytes → Bytes → Except Bytes Bytes) (fmt : FormatInfo) (req : SolverRequest) :
    Option (Bytes × Bytes) :=
  (solvedPair f req).bind fun kv => (paramKey fmt kv.1).map fun key => (key, kv.2)

/-- What is set for an `n` request. -/
theorem written_n {fmt : FormatInfo} {req : SolverRequest} {v : Bytes} (htype : req.type = lit "n")
    (hf : f (lit "n") req.challenge = .ok v) : written f fmt req = some (lit "n", v) := by
  have hpair : solvedPair f req = some (lit "n", v) := by
    unfold solvedPair
    rw [htype, hf]
  rw [written, hpair]
  rfl

/-- And for a `sig` request. -/
theorem written_sig {fmt : FormatInfo} {req : SolverRequest} {v : Bytes}
    (htype : req.type = lit "sig") (hf : f (lit "sig") req.challenge = .ok v) :
    written f fmt req = some (sigParam fmt, v) := by
  have hpair : solvedPair f req = some (lit "sig", v) := by
    unfold solvedPair
    rw [htype, hf]
  rw [written, hpair]
  rfl

/-- Only solved `n` and `sig` requests are written. -/
theorem written_cases {fmt : FormatInfo} {req : SolverRequest}
    (h : (written f fmt req).isSome = true) :
    (req.type = lit "n" ∧ ∃ v, f (lit "n") req.challenge = .ok v) ∨
      (req.type = lit "sig" ∧ ∃ v, f (lit "sig") req.challenge = .ok v) := by
  unfold written solvedPair at h
  cases hf : f req.type req.challenge with
  | error e =>
    rw [hf] at h
    cases h
  | ok v =>
    by_cases hn : req.type = lit "n"
    · exact Or.inl ⟨hn, v, hn ▸ hf⟩
    · by_cases hs : req.type = lit "sig"
      · exact Or.inr ⟨hs, v, hs ▸ hf⟩
      · simp [hf, paramKey, hn, hs] at h

/-- The URL of a call: first the hits are written, then the misses. -/
theorem decodedUrl_answerAll (h : Agrees f cache) {fmt : FormatInfo} (hurl : fmt.url ≠ []) :
    (solveFormatUrl (answerAll f) fmt (some cache)).result.decodedUrl =
      applySets fmt.url
        ((fmt.requests.filter fun req => (route cache req).value?.isSome).filterMap
            (written f fmt) ++
          (fmt.requests.filter fun req => (route cache req).isMiss).filterMap (written f fmt)) := by
  have hsets : ∀ l : List SolverRequest,
      setCalls fmt (l.filterMap (solvedPair f)) = l.filterMap (written f fmt) :=
    fun l => List.filterMap_filterMap
  rw [solveFormatUrl_some hurl, ← hsets, ← hsets, ← hits_agrees h]
  show _ = applySets fmt.url (setCalls fmt _ ++
    setCalls fmt ((misses cache fmt.requests).filterMap (solvedPair f)))
  by_cases hmiss : misses cache fmt.requests = []
  · rw [if_pos hmiss, hmiss, List.filterMap_nil]
    show applySets fmt.url (setCalls fmt _) = applySets fmt.url (setCalls fmt _ ++ [])
    rw [List.append_nil]
  · rw [if_neg hmiss]
    show applySets fmt.url (setCalls fmt (hits cache fmt.requests ++ solved _)) = _
    rw [(solved_respond f _).1, setCalls, List.filterMap_append]
    rfl

end

/-! ### Overtaking -/

/-- The second request stands behind the first one and is written before it: it is a hit, and
the first one is a miss. -/
def Overtakes (cache : SolverSharedCache) (requests : List SolverRequest)
    (second first : SolverRequest) : Prop :=
  [first, second].Sublist requests ∧ route cache first = .miss ∧
    (route cache second).value?.isSome = true

section
variable {f : Bytes → Bytes → Except Bytes Bytes} {cache : SolverSharedCache} {fmt : FormatInfo}

/-- Only the requests that are written matter for the sets of a filtered list. -/
theorem filterMap_filter_written (f : Bytes → Bytes → Except Bytes Bytes) (fmt : FormatInfo)
    (p : SolverRequest → Bool) (requests : List SolverRequest) :
    (requests.filter p).filterMap (written f fmt) =
      ((requests.filter fun req => (written f fmt req).isSome).filter p).filterMap
        (written f fmt) := by
  rw [List.filterMap_filter, List.filterMap_filter, List.filterMap_filter]
  refine List.filterMap_congr fun req _ => ?_
  cases written f fmt req <;> simp

/-- A written request is a hit or a miss: its error is not in the cache. -/
theorem route_of_written (h : Agrees f cache) {req : SolverRequest}
    (hw : (written f fmt req).isSome = true) :
    (∃ v, route cache req = .value v) ∨ route cache req = .miss := by
  cases hroute : route cache req with
  | value v => exact Or.inl ⟨v, rfl⟩
  | miss => exact Or.inr rfl
  | error e =>
    have hf := (route_agrees h req).2 e hroute
    rcases written_cases hw with ⟨htype, v, hv⟩ | ⟨htype, v, hv⟩
    all_goals
      rw [htype, hv] at hf
      cases hf

/-- With at most one `n` and at most one `sig` request at most two requests are written, and
two of them have different types. -/
theorem written_requests_cases
    (hn : (fmt.requests.filter fun req => req.type = lit "n").length ≤ 1)
    (hs : (fmt.requests.filter fun req => req.type = lit "sig").length ≤ 1) :
    (fmt.requests.filter fun req => (written f fmt req).isSome).length ≤ 1 ∨
      ∃ a b, (fmt.requests.filter fun req => (written f fmt req).isSome) = [a, b] ∧
        a.type ≠ b.type := by
  have hsub := List.filter_sublist (p := fun req => (written f fmt req).isSome)
    (l := fmt.requests)
  have hn' := (hsub.filter fun req => req.type = lit "n").length_le.trans hn
  have hs' := (hsub.filter fun req => req.type = lit "sig").length_le.trans hs
  have htype : ∀ req ∈ fmt.requests.filter fun req => (written f fmt req).isSome,
      req.type = lit "n" ∨ req.type = lit "sig" := by
    intro req hreq
    rcases written_cases (List.mem_filter.mp hreq).2 with h | h
    · exact Or.inl h.1
    · exact Or.inr h.1
  have hne : lit "sig" ≠ lit "n" := by decide
  generalize fmt.requests.filter (fun req => (written f fmt req).isSome) = l at *
  match l with
  | [] => exact Or.inl (Nat.zero_le 1)
  | [a] => exact Or.inl (Nat.le_refl 1)
  | [a, b] =>
    refine Or.inr ⟨a, b, rfl, fun hab => ?_⟩
    rcases htype b (by simp) with hb | hb <;> simp [hab, hb] at hn' hs'
  | a :: b :: c :: rest =>
    -- Two of three requests have the same type.
    exfalso
    rcases htype a (by simp) with ha | ha <;> rcases htype b (by simp) with hb | hb <;>
      rcases htype c (by simp) with hc | hc <;> simp [ha, hb, hc, hne, hne.symm] at hn' hs'

/-- The two sets, in the order the requests have and in the other one. -/
theorem applySets_pair_iff {rn rs : SolverRequest} {vn vs : Bytes} (url : Bytes)
    (hwn : written f fmt rn = some (lit "n", vn))
    (hws : written f fmt rs = some (sigParam fmt, vs)) :
    applySets url ([rn, rs].filterMap (written f fmt)) =
        applySets url ([rs, rn].filterMap (written f fmt)) ↔
      OrderFree (paramsOf url) (sigParam fmt) vn vs := by
  simp only [List.filterMap_cons, hwn, hws, List.filterMap_nil]
  exact orderFree_iff url (sigParam fmt) vn vs

/-- Two written requests that overtake each other stand one behind the other among the written
ones. -/
theorem overtakes_sublist {first second : SolverRequest}
    {kv kw : Bytes × Bytes} (h : Overtakes cache fmt.requests second first)
    (hfirst : written f fmt first = some kv) (hsecond : written f fmt second = some kw) :
    [first, second].Sublist (fmt.requests.filter fun req => (written f fmt req).isSome) := by
  have hsub := h.1.filter fun req => (written f fmt req).isSome
  have hpair : [first, second].filter (fun req => (written f fmt req).isSome) =
      [first, second] := by
    simp [hfirst, hsecond]
  rwa [hpair] at hsub

/-- With one solved request of each type, a property of every pair that overtakes is the
property of that pair. -/
theorem forall_overtakes_iff {rn rs : SolverRequest} {vn vs : Bytes} (hrn : rn.type = lit "n")
    (hrs : rs.type = lit "sig") (hfn : f (lit "n") rn.challenge = .ok vn)
    (hfs : f (lit "sig") rs.challenge = .ok vs)
    (hw : ∀ req, req ∈ (fmt.requests.filter fun req => (written f fmt req).isSome) ↔
      req = rn ∨ req = rs)
    (hover : Overtakes cache fmt.requests rn rs ∨ Overtakes cache fmt.requests rs rn)
    (P : Bytes → Bytes → Prop) :
    (∀ rn rs vn vs, rn.type = lit "n" → rs.type = lit "sig" →
      f (lit "n") rn.challenge = .ok vn → f (lit "sig") rs.challenge = .ok vs →
      Overtakes cache fmt.requests rn rs ∨ Overtakes cache fmt.requests rs rn → P vn vs) ↔
      P vn vs := by
  constructor
  · intro h
    exact h rn rs vn vs hrn hrs hfn hfs hover
  · intro h rn' rs' vn' vs' hrn' hrs' hfn' hfs' hover'
    have hmem : rn' ∈ fmt.requests ∧ rs' ∈ fmt.requests := by
      rcases hover' with hover' | hover'
      · exact ⟨hover'.1.subset (by simp), hover'.1.subset (by simp)⟩
      · exact ⟨hover'.1.subset (by simp), hover'.1.subset (by simp)⟩
    have hne : lit "n" ≠ lit "sig" := by decide
    have hn : rn' = rn := by
      have hwn : (written f fmt rn').isSome = true := by rw [written_n hrn' hfn']; rfl
      refine ((hw rn').mp (List.mem_filter.mpr ⟨hmem.1, hwn⟩)).resolve_right fun heq => ?_
      exact hne (hrn'.symm.trans (heq ▸ hrs))
    have hs : rs' = rs := by
      have hws : (written f fmt rs').isSome = true := by rw [written_sig hrs' hfs']; rfl
      refine ((hw rs').mp (List.mem_filter.mpr ⟨hmem.2, hws⟩)).resolve_left fun heq => ?_
      exact hne (hrn.symm.trans (heq ▸ hrs'))
    subst hn hs
    cases hfn.symm.trans hfn'
    cases hfs.symm.trans hfs'
    exact h

/-- The sets of a call with two written requests: in request order, unless the second request
overtakes the first. -/
theorem sets_pair (h : Agrees f cache) {a b : SolverRequest}
    (hw : (fmt.requests.filter fun req => (written f fmt req).isSome) = [a, b]) :
    (Overtakes cache fmt.requests b a ∧
      (fmt.requests.filter fun req => (route cache req).value?.isSome).filterMap (written f fmt) ++
          (fmt.requests.filter fun req => (route cache req).isMiss).filterMap (written f fmt) =
        [b, a].filterMap (written f fmt)) ∨
    (¬ Overtakes cache fmt.requests b a ∧
      (fmt.requests.filter fun req => (route cache req).value?.isSome).filterMap (written f fmt) ++
          (fmt.requests.filter fun req => (route cache req).isMiss).filterMap (written f fmt) =
        [a, b].filterMap (written f fmt)) := by
  have hmem : ∀ req ∈ [a, b], (written f fmt req).isSome = true := by
    intro req hreq
    rw [← hw] at hreq
    exact (List.mem_filter.mp hreq).2
  have hsub : [a, b].Sublist fmt.requests := hw ▸ List.filter_sublist
  rw [filterMap_filter_written f fmt (fun req => (route cache req).value?.isSome),
    filterMap_filter_written f fmt (fun req => (route cache req).isMiss), hw]
  unfold Overtakes
  rcases route_of_written h (hmem a (by simp)) with ⟨v, ha⟩ | ha <;>
    rcases route_of_written h (hmem b (by simp)) with ⟨w, hb⟩ | hb <;>
    simp [ha, hb, hsub, Route.value?, Route.isMiss, ← List.filterMap_append]

/-- A call with at most one written request makes its set in either case. -/
theorem sets_single (h : Agrees f cache)
    (hw : (fmt.requests.filter fun req => (written f fmt req).isSome).length ≤ 1) :
    (fmt.requests.filter fun req => (route cache req).value?.isSome).filterMap (written f fmt) ++
        (fmt.requests.filter fun req => (route cache req).isMiss).filterMap (written f fmt) =
      (fmt.requests.filter fun req => (written f fmt req).isSome).filterMap (written f fmt) := by
  rw [filterMap_filter_written f fmt (fun req => (route cache req).value?.isSome),
    filterMap_filter_written f fmt (fun req => (route cache req).isMiss)]
  have hmem : ∀ req ∈ fmt.requests.filter fun req => (written f fmt req).isSome,
      (written f fmt req).isSome = true := fun req hreq => (List.mem_filter.mp hreq).2
  generalize fmt.requests.filter (fun req => (written f fmt req).isSome) = l at *
  match l with
  | [] => rfl
  | [a] =>
    rcases route_of_written h (hmem a (by simp)) with ⟨v, ha⟩ | ha <;>
      simp [ha, Route.value?, Route.isMiss]
  | _ :: _ :: _ => simp at hw

/-- On an empty cache every request is a miss, and the sets are made in request order. -/
theorem sets_empty (requests : List SolverRequest) :
    (requests.filter fun req => (route {} req).value?.isSome).filterMap (written f fmt) ++
        (requests.filter fun req => (route {} req).isMiss).filterMap (written f fmt) =
      requests.filterMap (written f fmt) := by
  have hmiss : ∀ req, route {} req = .miss := by
    intro req
    unfold route
    split
    · rfl
    · split
      · rfl
      · rfl
  simp [hmiss, Route.value?, Route.isMiss]

end

/-- A cache that agrees with the engine changes the URL of no call, unless one of the two
parameters overtakes the other and the two sets do not commute. -/
theorem solveFormatUrl_transparent_iff (fmt : FormatInfo)
    (f : Bytes → Bytes → Except Bytes Bytes) (cache : SolverSharedCache)
    (hn : (fmt.requests.filter fun req => req.type = lit "n").length ≤ 1)
    (hs : (fmt.requests.filter fun req => req.type = lit "sig").length ≤ 1)
    (hagrees : Agrees f cache) :
    (solveFormatUrl (answerAll f) fmt (some cache)).result.decodedUrl =
        (solveFormatUrl (answerAll f) fmt (some {})).result.decodedUrl ↔
      (fmt.url ≠ [] → ∀ rn rs vn vs, rn.type = lit "n" → rs.type = lit "sig" →
        f (lit "n") rn.challenge = .ok vn → f (lit "sig") rs.challenge = .ok vs →
        Overtakes cache fmt.requests rn rs ∨ Overtakes cache fmt.requests rs rn →
        OrderFree (paramsOf fmt.url) (sigParam fmt) vn vs) := by
  by_cases hurl : fmt.url = []
  · -- Both calls return before they look at the cache.
    refine iff_of_true ?_ fun h => absurd hurl h
    unfold solveFormatUrl
    rw [if_pos hurl, if_pos hurl]
  rw [decodedUrl_answerAll hagrees hurl, decodedUrl_answerAll (agrees_empty f) hurl, sets_empty]
  simp only [hurl, ne_eq, not_false_eq_true, forall_const]
  have hall : fmt.requests.filterMap (written f fmt) =
      (fmt.requests.filter fun req => (written f fmt req).isSome).filterMap (written f fmt) := by
    have h := filterMap_filter_written f fmt (fun _ => true) fmt.requests
    rwa [List.filter_true, List.filter_true] at h
  rcases written_requests_cases hn hs with hlen | ⟨a, b, hw, hne⟩
  · rw [sets_single hagrees hlen, ← hall]
    refine iff_of_true rfl fun rn rs vn vs hrn hrs hfn hfs hover => ?_
    -- One request overtakes another only where there are two.
    exfalso
    rcases hover with hover | hover
    · have := (overtakes_sublist hover (written_sig hrs hfs) (written_n hrn hfn)).length_le
      simp at this
      omega
    · have := (overtakes_sublist hover (written_n hrn hfn) (written_sig hrs hfs)).length_le
      simp at this
      omega
  · rw [hall, hw]
    rcases sets_pair hagrees hw with ⟨hover, hsets⟩ | ⟨hover, hsets⟩
    · rw [hsets]
      have hmem : ∀ req ∈ [a, b], (written f fmt req).isSome = true := by
        intro req hreq
        rw [← hw] at hreq
        exact (List.mem_filter.mp hreq).2
      rcases written_cases (hmem a (by simp)) with ⟨ha, va, hfa⟩ | ⟨ha, va, hfa⟩ <;>
        rcases written_cases (hmem b (by simp)) with ⟨hb, vb, hfb⟩ | ⟨hb, vb, hfb⟩
      · exact absurd (ha.trans hb.symm) hne
      · rw [eq_comm, applySets_pair_iff fmt.url (written_n ha hfa) (written_sig hb hfb)]
        exact (forall_overtakes_iff ha hb hfa hfb (by simp [hw]) (Or.inr hover) _).symm
      · rw [applySets_pair_iff fmt.url (written_n hb hfb) (written_sig ha hfa)]
        exact (forall_overtakes_iff hb ha hfb hfa (by simp [hw, or_comm]) (Or.inl hover) _).symm
      · exact absurd (ha.trans hb.symm) hne
    · rw [hsets]
      refine iff_of_true rfl fun rn rs vn vs hrn hrs hfn hfs hover' => ?_
      exfalso
      rcases hover' with hover' | hover'
      · have hsub := overtakes_sublist hover' (written_sig hrs hfs) (written_n hrn hfn)
        rw [hw] at hsub
        cases hsub.eq_of_length rfl
        exact hover hover'
      · have hsub := overtakes_sublist hover' (written_n hrn hfn) (written_sig hrs hfs)
        rw [hw] at hsub
        cases hsub.eq_of_length rfl
        exact hover hover'

/-- A format with an `n` request and a `sig` request behind it. -/
def twoRequests : FormatInfo :=
  { url := lit "https://h/p", requests := [⟨lit "n", lit "c"⟩, ⟨lit "sig", lit "s"⟩] }

/-- The cache that holds the `sig` value of `twoRequests`. -/
def sigCached : SolverSharedCache :=
  { sigValues := (∅ : Params).insert (lit "s") (lit "S") }

/-- `sigCached` agrees with every function that solves the challenge it holds. -/
theorem agrees_sigCached {f : Bytes → Bytes → Except Bytes Bytes}
    (hf : f (lit "sig") (lit "s") = .ok (lit "S")) : Agrees f sigCached := by
  refine ⟨fun c v h => ?_, fun c e h => ?_, fun c v h => ?_, fun c e h => ?_⟩
  · cases h
  · cases h
  · by_cases hc : lit "s" = c
    · subst hc
      have hv : sigCached.sigValues[lit "s"]? = some (lit "S") := by decide
      cases hv.symm.trans h
      exact hf
    · have hnone : sigCached.sigValues[c]? = none := getElem?_insert_of_ne hc _ _
      cases hnone.symm.trans h
  · cases h

/-- The `sig` value is cached, the `n` value is a plain one: the order of the sets is not
seen. -/
theorem solveFormatUrl_transparent_plain :
    (solveFormatUrl (answerAll fun type _ => .ok (if type = lit "sig" then lit "S" else lit "N"))
        twoRequests (some sigCached)).result.decodedUrl =
      (solveFormatUrl (answerAll fun type _ => .ok (if type = lit "sig" then lit "S" else lit "N"))
        twoRequests (some {})).result.decodedUrl := by
  refine (solveFormatUrl_transparent_iff twoRequests _ sigCached (by decide) (by decide)
    (agrees_sigCached (by decide))).mpr fun _ rn rs vn vs _ _ hfn hfs _ => ?_
  cases hfn
  cases hfs
  exact (orderFree_iff twoRequests.url _ _ _).mp (by decide)

/-- The `sig` value is cached, the `n` value holds an escape. With the cache `n` is written
last and stays; without it the set of `sig` decodes it once more. -/
theorem solveFormatUrl_not_transparent :
    ¬ ∀ (fmt : FormatInfo) (f : Bytes → Bytes → Except Bytes Bytes) (cache : SolverSharedCache),
      (fmt.requests.filter fun req => req.type = lit "n").length ≤ 1 →
      (fmt.requests.filter fun req => req.type = lit "sig").length ≤ 1 → Agrees f cache →
      (solveFormatUrl (answerAll f) fmt (some cache)).result.decodedUrl =
        (solveFormatUrl (answerAll f) fmt (some {})).result.decodedUrl := by
  intro h
  have heq := h twoRequests (fun type _ => .ok (if type = lit "sig" then lit "S" else lit "%41"))
    sigCached (by decide) (by decide) (agrees_sigCached (by decide))
  have hcached : (solveFormatUrl
      (answerAll fun type _ => .ok (if type = lit "sig" then lit "S" else lit "%41"))
      twoRequests (some sigCached)).result.decodedUrl =
        lit "https://h/p?n=%2541&signature=S" := by decide
  have hempty : (solveFormatUrl
      (answerAll fun type _ => .ok (if type = lit "sig" then lit "S" else lit "%41"))
      twoRequests (some {})).result.decodedUrl = lit "https://h/p?n=A&signature=S" := by
    decide
  rw [hcached, hempty] at heq
  exact absurd heq (by decide)

end EjsBoundary.Proofs
