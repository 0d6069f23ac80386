import EjsBoundary.Proofs.QueryRewrite
import EjsBoundary.Proofs.SolverRuns

/-!
# `EjsBoundary.Proofs.SolverReuse`: what calls on many threads save, and what a server sees

Three results about every run of calls, in any order of their steps.

* `answered_not_asked_again`: once a call has returned with an answer for a challenge, no call
  that starts later with the same cache asks an engine for it. Nothing is assumed about the
  engines; they may even answer the same challenge differently.
* `answers_read`: what a server reads in the URL that a call returned. Each parameter that was
  to be solved has the value of the engine, and every other one reads as before.
* `answers_again`: solving a format that was solved before changes nothing.
-/

set_option autoImplicit false

namespace EjsBoundary.Proofs

open EjsBoundary.Lib
open EjsBoundary.Model
open Std (ExtTreeMap)

/-! ### What a cache knows -/

/-- The lookup finds a value or an error for the request. -/
def Known (cache : SolverSharedCache) (req : SolverRequest) : Prop :=
  (route cache req).isMiss = false

/-- A challenge is no miss when one of the two maps has it. -/
theorem routeIn_isMiss_iff (values errors : Params) (challenge : Bytes) :
    (routeIn values errors challenge).isMiss = false ↔ challenge ∈ values ∨ challenge ∈ errors := by
  rw [ExtTreeMap.mem_iff_isSome_getElem?, ExtTreeMap.mem_iff_isSome_getElem?, routeIn]
  cases values[challenge]? with
  | some v => simp [Route.isMiss]
  | none => cases errors[challenge]? <;> simp [Route.isMiss]

/-- A request is known when the maps of its type have its challenge. -/
theorem known_iff (cache : SolverSharedCache) (req : SolverRequest) :
    Known cache req ↔
      (req.type = lit "n" ∧ (req.challenge ∈ cache.nValues ∨ req.challenge ∈ cache.nErrors)) ∨
      (req.type = lit "sig" ∧
        (req.challenge ∈ cache.sigValues ∨ req.challenge ∈ cache.sigErrors)) := by
  have hne : lit "sig" ≠ lit "n" := by decide
  unfold Known route
  by_cases hn : req.type = lit "n"
  · rw [if_pos hn, routeIn_isMiss_iff]
    simp [hn, Ne.symm hne]
  · rw [if_neg hn]
    by_cases hs : req.type = lit "sig"
    · rw [if_pos hs, routeIn_isMiss_iff]
      simp [hs, hne]
    · simp [hn, hs, Route.isMiss]

/-- The maps of a cache only grow. -/
theorem storeResponse_grows (cache : SolverSharedCache) (req : SolverRequest)
    (resp : SolverResponse) (c : Bytes) :
    (c ∈ cache.nValues → c ∈ (storeResponse cache req resp).nValues) ∧
    (c ∈ cache.nErrors → c ∈ (storeResponse cache req resp).nErrors) ∧
    (c ∈ cache.sigValues → c ∈ (storeResponse cache req resp).sigValues) ∧
    (c ∈ cache.sigErrors → c ∈ (storeResponse cache req resp).sigErrors) := by
  unfold storeResponse
  split
  · split
    · simp +contextual [ExtTreeMap.mem_insert]
    · split
      · simp +contextual [ExtTreeMap.mem_insert]
      · simp
  · split
    · simp +contextual [ExtTreeMap.mem_insert]
    · split
      · simp +contextual [ExtTreeMap.mem_insert]
      · simp

/-- A store forgets nothing, whatever it stores. -/
theorem known_storeResponse {cache : SolverSharedCache} {req' : SolverRequest}
    (h : Known cache req') (req : SolverRequest) (resp : SolverResponse) :
    Known (storeResponse cache req resp) req' := by
  obtain ⟨hnv, hne, hsv, hse⟩ := storeResponse_grows cache req resp req'.challenge
  rw [known_iff] at h ⊢
  exact h.imp (And.imp_right (Or.imp hnv hne)) (And.imp_right (Or.imp hsv hse))

/-- What is stored is known, an error too. -/
theorem known_storeResponse_self (cache : SolverSharedCache) {req : SolverRequest}
    (htype : req.type = lit "n" ∨ req.type = lit "sig") (resp : SolverResponse) :
    Known (storeResponse cache req resp) req := by
  have hne : lit "sig" ≠ lit "n" := by decide
  rw [known_iff, storeResponse]
  rcases htype with htype | htype
  · split
    · simp [htype]
    · simp [htype]
  · split
    · simp [htype, hne]
    · simp [htype, hne]

/-- Storing answers forgets nothing. -/
theorem known_storeAll {cache : SolverSharedCache} {req : SolverRequest} (h : Known cache req)
    (answers : List (SolverRequest × SolverResponse)) : Known (storeAll cache answers) req := by
  induction answers generalizing cache with
  | nil => exact h
  | cons a answers ih => exact ih (known_storeResponse h a.1 a.2)

/-- And what was answered is known. -/
theorem known_storeAll_of_mem (cache : SolverSharedCache)
    {answers : List (SolverRequest × SolverResponse)} {a : SolverRequest × SolverResponse}
    (h : a ∈ answers) (htype : a.1.type = lit "n" ∨ a.1.type = lit "sig") :
    Known (storeAll cache answers) a.1 := by
  induction answers generalizing cache with
  | nil => cases h
  | cons b answers ih =>
    rcases List.mem_cons.mp h with rfl | h
    · exact known_storeAll (known_storeResponse_self cache htype a.2) answers
    · exact ih (storeResponse cache b.1 b.2) h

/-! ### What a world knows -/

section
variable {Ctx : Type} {w w' : World Ctx}

/-- No step makes a cache forget. -/
theorem known_step {a : Action Ctx} (hstep : w.step a = some w') {cid : CacheId}
    {req : SolverRequest} (h : Known (w.caches cid) req) : Known (w'.caches cid) req := by
  rcases caches_step hstep with heq | ⟨t, call, cid', found, responses, rfl, hphase⟩
  · rwa [heq]
  · rw [step_store hphase, Option.some.injEq] at hstep
    subst hstep
    show Known (Function.update w.caches cid' _ cid) req
    by_cases hcid : cid = cid'
    · subst hcid
      rw [Function.update_self, storePhase_eq]
      exact known_storeAll h _
    · rwa [Function.update_of_ne hcid]

/-- What a step does to the phase of a thread. -/
theorem phases_step {a : Action Ctx} (hstep : w.step a = some w') (t : ThreadId) :
    w'.phases t = w.phases t ∨ w'.phases t = .idle ∨
    (∃ call cid, call.assets.cache = some cid ∧
      w'.phases t = .looked call cid (lookupPhase (w.caches cid) call.fmt.requests)) ∨
    ∃ call cid found responses, w.phases t = .looked call cid found ∧
      w'.phases t = .answered call cid found responses := by
  -- Every step changes the phase of one thread.
  have hupdate (t' : ThreadId) (phase : Phase) : t = t' ∧
      Function.update w.phases t' phase t = phase ∨
      Function.update w.phases t' phase t = w.phases t := by
    by_cases ht : t = t'
    · subst ht
      exact Or.inl ⟨rfl, Function.update_self t phase w.phases⟩
    · exact Or.inr (Function.update_of_ne ht phase w.phases)
  rcases step_cases hstep with ⟨t', call, rfl, -, rfl⟩ |
    ⟨t', js, call, cid, found, rfl, hphase, rfl⟩ |
    ⟨t', call, cid, found, responses, rfl, -, rfl⟩
  · rcases lookup_cases w t' call with ⟨ready, result, heq, -⟩ | ⟨cid, -, hcid, heq⟩
    · rw [heq]
      rcases hupdate t' .idle with ⟨-, h⟩ | h
      · exact Or.inr (Or.inl h)
      · exact Or.inl h
    · rw [heq]
      rcases hupdate t' (.looked call cid (lookupPhase (w.caches cid) call.fmt.requests)) with
        ⟨-, h⟩ | h
      · exact Or.inr (Or.inr (Or.inl ⟨call, cid, hcid, h⟩))
      · exact Or.inl h
  · rcases askEngine_cases w t' js call cid found with ⟨what, -, heq⟩ | ⟨responses, -, heq⟩
    · rw [heq]
      rcases hupdate t' .idle with ⟨-, h⟩ | h
      · exact Or.inr (Or.inl h)
      · exact Or.inl h
    · rw [heq]
      rcases hupdate t' (.answered call cid found responses) with ⟨rfl, h⟩ | h
      · exact Or.inr (Or.inr (Or.inr ⟨call, cid, found, responses, hphase, h⟩))
      · exact Or.inl h
  · rcases hupdate t' .idle with ⟨-, h⟩ | h
    · exact Or.inr (Or.inl h)
    · exact Or.inl h

/-- What a step adds to the finished calls: one whose engine gave no answer, or one that stored
its answers. -/
theorem done_step {a : Action Ctx} (hstep : w.step a = some w') {r : Finished} (hr : r ∈ w'.done) :
    r ∈ w.done ∨ (∀ missing responses, r.asked ≠ some (missing, .ok responses)) ∨
    ∃ t cid found responses, w.phases t = .answered r.call cid found responses ∧
      r.asked = some (found.missing, .ok responses) ∧
      w'.caches cid = storeAll (w.caches cid) (found.missing.zip responses) := by
  have hleave (w₁ : World Ctx) (hdone : w₁.done = w.done) (t : ThreadId) {r' : Finished}
      (hr : r ∈ (w₁.leave t r').done) : r ∈ w.done ∨ r = r' := by
    rw [← hdone, ← List.mem_singleton]
    exact List.mem_append.mp hr
  rcases step_cases hstep with ⟨t, call, rfl, -, rfl⟩ |
    ⟨t, js, call, cid, found, rfl, hphase, rfl⟩ |
    ⟨t, call, cid, found, responses, rfl, hphase, rfl⟩
  · rcases lookup_cases w t call with ⟨ready, result, heq, -⟩ | ⟨cid, -, -, heq⟩
    · rw [heq] at hr
      rcases hleave _ rfl t hr with hr | rfl
      · exact Or.inl hr
      · exact Or.inr (Or.inl fun _ _ h => by cases h)
    · rw [heq] at hr
      exact Or.inl hr
  · rcases askEngine_cases w t js call cid found with ⟨what, -, heq⟩ | ⟨responses, -, heq⟩
    · rw [heq] at hr
      rcases hleave (w.setEngine t _) rfl t hr with hr | rfl
      · exact Or.inl hr
      · exact Or.inr (Or.inl fun _ _ h => by cases h)
    · rw [heq] at hr
      exact Or.inl hr
  · rcases hleave (w.setCache cid _) rfl t hr with hr | rfl
    · exact Or.inl hr
    · refine Or.inr (Or.inr ⟨t, cid, found, responses, hphase, rfl, ?_⟩)
      show Function.update w.caches cid _ cid = _
      rw [Function.update_self, storePhase_eq]

/-- The cache a call under way looked at is that of its assets, and the answers of every finished
call are in its cache. -/
structure Remembers (w : World Ctx) : Prop where
  looked : ∀ t call cid found, w.phases t = .looked call cid found → call.assets.cache = some cid
  answered : ∀ t call cid found responses, w.phases t = .answered call cid found responses →
    call.assets.cache = some cid
  done : ∀ r ∈ w.done, ∀ cid, r.call.assets.cache = some cid →
    ∀ missing responses, r.asked = some (missing, .ok responses) →
    ∀ a ∈ missing.zip responses, a.1.type = lit "n" ∨ a.1.type = lit "sig" →
    Known (w.caches cid) a.1

/-- At the beginning there is nothing to remember. -/
theorem remembers_initial (engines : ThreadId → Option (SolverEngine Ctx)) :
    Remembers (World.initial engines) where
  looked := fun _ _ _ _ h => by cases h
  answered := fun _ _ _ _ _ h => by cases h
  done := fun _ h => by cases h

/-- No step forgets: a store makes the requests it answers known, and no other step changes a
cache. -/
theorem remembers_step {a : Action Ctx} (h : Remembers w) (hstep : w.step a = some w') :
    Remembers w' where
  looked := by
    intro t call cid found hphase
    rcases phases_step hstep t with heq | heq | ⟨call', cid', hcid, heq⟩ | ⟨_, _, _, _, -, heq⟩
    · exact h.looked t call cid found (heq ▸ hphase)
    · cases heq.symm.trans hphase
    · cases heq.symm.trans hphase
      exact hcid
    · cases heq.symm.trans hphase
  answered := by
    intro t call cid found responses hphase
    rcases phases_step hstep t with heq | heq | ⟨call', cid', -, heq⟩ |
      ⟨call', cid', found', responses', hlooked, heq⟩
    · exact h.answered t call cid found responses (heq ▸ hphase)
    · cases heq.symm.trans hphase
    · cases heq.symm.trans hphase
    · cases heq.symm.trans hphase
      exact h.looked t call cid found hlooked
  done := by
    intro r hr cid hcid missing responses hasked a ha htype
    rcases done_step hstep hr with hr | hnone | ⟨t, cid', found, responses', hphase, hasked', hcache⟩
    · exact known_step hstep (h.done r hr cid hcid missing responses hasked a ha htype)
    -- It ended before an engine answered.
    · exact absurd hasked (hnone missing responses)
    · -- The call stored its answers, into the cache of its assets.
      cases hasked.symm.trans hasked'
      cases hcid.symm.trans (h.answered t r.call cid' found responses hphase)
      rw [hcache]
      exact known_storeAll_of_mem _ ha htype

/-- So nothing is forgotten along a run. -/
theorem remembers_of_run {engines : ThreadId → Option (SolverEngine Ctx)}
    (hrun : Run World.step (fun _ _ => True) (World.initial engines) w) : Remembers w :=
  hrun.invariant (fun _ _ _ h _ hstep => remembers_step h hstep) (remembers_initial engines)

/-- A call that starts after a request is known does not ask for it. -/
theorem known_not_missing {w₁ w₂ : World Ctx} (hrun : Run World.step (fun _ _ => True) w₁ w₂)
    {cid : CacheId} {req : SolverRequest} (hknown : Known (w₁.caches cid) req) {t : ThreadId}
    (hidle : w₁.phases t = .idle) :
    ∀ call found, w₂.phases t = .looked call cid found → req ∉ found.missing := by
  -- The invariant says so of every lookup of the thread, as its own first step makes it true.
  refine (hrun.invariant (I := fun w => Known (w.caches cid) req ∧
    ∀ call found, w.phases t = .looked call cid found → req ∉ found.missing) ?_
    ⟨hknown, fun call found hphase => by cases hidle.symm.trans hphase⟩).2
  intro w a w' ⟨hknown, hmissing⟩ _ hstep
  refine ⟨known_step hstep hknown, fun call found hphase => ?_⟩
  rcases phases_step hstep t with heq | heq | ⟨call', cid', -, heq⟩ | ⟨_, _, _, _, -, heq⟩
  · exact hmissing call found (heq ▸ hphase)
  · cases heq.symm.trans hphase
  · cases heq.symm.trans hphase
    rw [lookupPhase_eq]
    intro hmem
    rw [misses, List.mem_filter, hknown] at hmem
    exact Bool.false_ne_true hmem.2
  · cases heq.symm.trans hphase

/-- An engine is asked for a challenge at most until a call has returned with the answer: a call
that starts after that, and looks at the same cache, does not ask for it again. -/
theorem answered_not_asked_again {engines : ThreadId → Option (SolverEngine Ctx)}
    {w₁ w₂ : World Ctx} (hrun₁ : Run World.step (fun _ _ => True) (World.initial engines) w₁)
    (hrun₂ : Run World.step (fun _ _ => True) w₁ w₂)
    {r : Finished} (hr : r ∈ w₁.done) {cid : CacheId} (hcid : r.call.assets.cache = some cid)
    {missing : List SolverRequest} {responses : List SolverResponse}
    (hasked : r.asked = some (missing, .ok responses)) {req : SolverRequest} {resp : SolverResponse}
    (hanswer : (req, resp) ∈ missing.zip responses)
    (htype : req.type = lit "n" ∨ req.type = lit "sig")
    {t : ThreadId} (hidle : w₁.phases t = .idle) {call : Call} {found : Lookup}
    (hlooked : w₂.phases t = .looked call cid found) : req ∉ found.missing :=
  known_not_missing hrun₂
    ((remembers_of_run hrun₁).done r hr cid hcid missing responses hasked (req, resp) hanswer htype)
    hidle call found hlooked

end

/-- A format with an `n` request. -/
def formatN : FormatInfo :=
  { url := lit "https://h/p?n=c1&id=7", requests := [⟨lit "n", lit "c1"⟩] }

/-- The same format with a `sig` request too. -/
def formatNSig : FormatInfo :=
  { url := lit "https://h/p?n=c1&id=7", sp := lit "sig",
    requests := [⟨lit "n", lit "c1"⟩, ⟨lit "sig", lit "c2"⟩] }

/-- A call of one thread, run to its end. -/
def solveN : List (Action Unit) :=
  [.call 0 ⟨formatN, playerAssets (lit "A") 0⟩, .engine 0 playerJs, .store 0]

/-- The start of a call of another one, with the same challenge and one more. -/
def startNSig : List (Action Unit) := [.call 1 ⟨formatNSig, playerAssets (lit "A") 0⟩]

/-- One thread solves an `n` request, and another leaves it out when it asks. -/
theorem answered_not_asked_again_twoThreads : ∃ w₁ w₂ : World Unit,
    runList World.step (World.initial fun _ => none) solveN = some w₁ ∧
    runList World.step w₁ startNSig = some w₂ ∧
    ∃ call found, w₂.phases 1 = .looked call 0 found ∧
      found.missing = [⟨lit "sig", lit "c2"⟩] ∧ ⟨lit "n", lit "c1"⟩ ∉ found.missing := by
  have hfree (w : World Unit) (as : List (Action Unit)) :
      AllowedList World.step (fun _ _ => True) w as :=
    allowedList_of_forall (show ∀ a ∈ as, (fun _ => True) a from fun _ _ => trivial) w
  have hrun₁ := run_of_runList (hfree (World.initial fun _ => none) solveN) rfl
  refine ⟨_, _, rfl, rfl, _, _, rfl, rfl, ?_⟩
  exact answered_not_asked_again hrun₁ (run_of_runList (hfree _ startNSig) rfl) (t := 1)
    List.mem_cons_self rfl rfl List.mem_cons_self (Or.inl rfl) rfl
    (show World.phases _ 1 = .looked ⟨formatNSig, playerAssets (lit "A") 0⟩ 0 _ from rfl)

/-! ### What a server reads -/

/-- Every part of the query has a text, and a second decoding pass leaves its key and its value
alone. -/
def PlainQuery (url : Bytes) : Prop :=
  ∀ part ∈ getlines 0x26 ((queryOf url).getD []),
    part ≠ [] ∧ Stable (parsePart decodeOnce part).1 ∧ Stable (parsePart decodeOnce part).2

instance (url : Bytes) : Decidable (PlainQuery url) := by
  unfold PlainQuery Stable
  infer_instance

/-- A part that the second decoding leaves alone is read the same by both. -/
theorem parsePart_double {part : Bytes} (h : Stable (parsePart decodeOnce part).1 ∧
    Stable (parsePart decodeOnce part).2) :
    parsePart safeDoubleDecode part = parsePart decodeOnce part := by
  unfold parsePart at h ⊢
  cases hfind : findByte 0x3D part with
  | none =>
    rw [hfind] at h
    exact congrArg (·, []) h.1
  | some eq =>
    rw [hfind] at h
    exact congrArg₂ Prod.mk h.1 h.2

section
variable {url : Bytes}

/-- The parameters of such a URL are what a server reads in it. -/
theorem PlainQuery.paramsOf_getElem? (h : PlainQuery url) (k : Bytes) :
    (paramsOf url)[k]? = FormQuery.readUrl url k := by
  have hfilter : (getlines 0x26 ((queryOf url).getD [])).filter (fun p => !p.isEmpty) =
      getlines 0x26 ((queryOf url).getD []) := by
    rw [List.filter_eq_self]
    intro part hpart
    simpa using (h part hpart).1
  rw [readUrl_eq, read_eq_lastValue, hfilter, EjsBoundary.Proofs.paramsOf_getElem?, lastValue,
    lastValue]
  exact congrArg (fun l => (List.reverse l).lookup k)
    (List.map_congr_left fun part hpart => parsePart_double (h part hpart).2)

/-- The parameters of a plain query are stable. -/
theorem PlainQuery.stableParams (h : PlainQuery url) : StableParams (paramsOf url) := by
  intro k v hget
  have hmem : (k, v) ∈ (getlines 0x26 ((queryOf url).getD [])).map (parsePart safeDoubleDecode) :=
    mem_of_mem_toList_ofEntries (ExtTreeMap.mem_toList_iff_getElem?_eq_some.mpr hget)
  obtain ⟨part, hpart, heq⟩ := List.mem_map.mp hmem
  have hstable := (h part hpart).2
  rw [parsePart_double hstable] at heq
  rwa [heq] at hstable

end

/-- The values that are to be written: none of them, and none of their keys, is changed by a
decoding pass, and no parameter is to have two values. -/
structure CleanSets (sets : List (Bytes × Bytes)) : Prop where
  stable : StableSets sets
  agree : ∀ a ∈ sets, ∀ b ∈ sets, a.1 = b.1 → a.2 = b.2

/-- The order of the sets does not matter. -/
theorem CleanSets.perm {sets sets' : List (Bytes × Bytes)} (h : CleanSets sets)
    (hperm : sets'.Perm sets) : CleanSets sets' where
  stable := fun kv hkv => h.stable kv (hperm.mem_iff.mp hkv)
  agree := fun a ha b hb => h.agree a (hperm.mem_iff.mp ha) b (hperm.mem_iff.mp hb)

/-- With one value for each parameter the last one written is the first one found. -/
theorem CleanSets.lastWritten_eq {sets : List (Bytes × Bytes)} (h : CleanSets sets) (k : Bytes) :
    lastWritten sets k = sets.lookup k :=
  (lookup_eq_of_perm (List.reverse_perm sets).symm h.agree k).symm

/-- What a server reads after the sets. -/
theorem readUrl_setAll {url : Bytes} (h : PlainQuery url) {sets : List (Bytes × Bytes)}
    (hsets : CleanSets sets) (k : Bytes) :
    FormQuery.readUrl (setAll url sets) k = (sets.lookup k).or (FormQuery.readUrl url k) := by
  by_cases hnil : sets = []
  · rw [hnil]
    rfl
  · rw [setAll_eq h.stableParams hsets.stable hnil, readUrl_eq,
      queryOf_append_cons (not_mem_baseOf url), Option.getD_some, read_writeParams,
      getElem?_foldl_insert, h.paramsOf_getElem?]
    exact congrArg (fun o => Option.or o _) (hsets.lastWritten_eq k)

/-- Making the same sets again changes nothing. -/
theorem setAll_again {url : Bytes} (h : PlainQuery url) {sets sets' : List (Bytes × Bytes)}
    (hsets : CleanSets sets) (hperm : sets'.Perm sets) :
    setAll (setAll url sets) sets' = setAll url sets := by
  -- The two rounds are one fold, in which the last value of each parameter stands.
  have happend : setAll (setAll url sets) sets' = setAll url (sets ++ sets') :=
    (List.foldl_append ..).symm
  have hboth : StableSets (sets ++ sets') := by
    intro kv hkv
    rcases List.mem_append.mp hkv with hkv | hkv
    · exact hsets.stable kv hkv
    · exact (hsets.perm hperm).stable kv hkv
  rw [happend]
  refine setAll_congr h.stableParams hboth hsets.stable fun k => ?_
  have hfirst := hsets.lastWritten_eq k
  have hsecond : lastWritten sets' k = sets.lookup k := by
    rw [(hsets.perm hperm).lastWritten_eq]
    exact lookup_eq_of_perm hperm (hsets.perm hperm).agree k
  unfold lastWritten at hfirst hsecond ⊢
  rw [List.reverse_append, List.lookup_append, hsecond, hfirst, Option.or_self]

section
variable {Ctx : Type} {w : World Ctx}
variable {F : SolverAssets → Bytes → Bytes → Except Bytes Bytes}
variable {G : CacheId → Bytes → Bytes → Except Bytes Bytes}

/-- What the engine has for a format, as the sets it leads to. -/
def wantedSets (F : SolverAssets → Bytes → Bytes → Except Bytes Bytes) (call : Call) :
    List (Bytes × Bytes) :=
  call.fmt.requests.filterMap (written (F call.assets) call.fmt)

/-- The call has a URL and a cache, and its engine did not throw. -/
structure Served (r : Finished) : Prop where
  url : r.call.fmt.url ≠ []
  cache : r.call.assets.cache ≠ none
  answered : ∀ missing what, r.asked ≠ some (missing, .error what)

/-- A call that is served makes the sets its engine has for it, in some order. -/
theorem served_sets {engines : ThreadId → Option (SolverEngine Ctx)}
    (hrun : Run World.step (Answers F G) (World.initial engines) w) {r : Finished}
    (hr : r ∈ w.done) (hserved : Served r) :
    ∃ sets, sets.Perm (wantedSets F r.call) ∧ r.result.decodedUrl = setAll r.call.fmt.url sets := by
  obtain ⟨hready, messages, -, hresult⟩ :=
    ((coherent_of_run hrun (coherent_initial engines)).done r hr).answered hserved.url hserved.cache
      hserved.answered
  refine ⟨setCalls r.call.fmt r.ready, ?_, by rw [hresult]; rfl⟩
  -- What was ready came from the cache or the engine, in any order.
  have hwanted : wantedSets F r.call =
      setCalls r.call.fmt (r.call.fmt.requests.filterMap (solvedPair (F r.call.assets))) := by
    rw [setCalls, List.filterMap_filterMap]
    rfl
  rw [hwanted]
  exact hready.filterMap _

/-- Solving the URL that a call returned once more, for the same requests, returns it as it is.
The two calls may run at any time, also at the same time. -/
theorem answers_again {engines : ThreadId → Option (SolverEngine Ctx)}
    (hrun : Run World.step (Answers F G) (World.initial engines) w) {r r' : Finished}
    (hr : r ∈ w.done) (hr' : r' ∈ w.done) (hserved : Served r) (hserved' : Served r')
    (hassets : r'.call.assets = r.call.assets)
    (hfmt : r'.call.fmt = { r.call.fmt with url := r.result.decodedUrl })
    (hplain : PlainQuery r.call.fmt.url) (hclean : CleanSets (wantedSets F r.call)) :
    r'.result.decodedUrl = r.result.decodedUrl := by
  obtain ⟨sets, hperm, hurl⟩ := served_sets hrun hr hserved
  obtain ⟨sets', hperm', hurl'⟩ := served_sets hrun hr' hserved'
  have hsame : wantedSets F r'.call = wantedSets F r.call := by
    unfold wantedSets
    rw [hassets, hfmt]
    rfl
  have hstart : r'.call.fmt.url = setAll r.call.fmt.url sets := by
    rw [hfmt]
    exact hurl
  rw [hurl', hstart, hurl]
  exact setAll_again hplain (hclean.perm hperm) (hperm'.trans (hsame ▸ hperm.symm))

end

/-- A format is solved on one thread, and what came out of it on another. -/
def solveTwice : List (Action Unit) :=
  [.call 0 ⟨formatNSig, playerAssets (lit "A") 0⟩, .engine 0 playerJs, .store 0,
   .call 1 ⟨{ formatNSig with url := lit "https://h/p?id=7&n=A&sig=A" },
     playerAssets (lit "A") 0⟩]

/-- The engine of `solveTwice` answers every challenge with `A`. -/
theorem solveTwice_allowed : AllowedList World.step
    (Answers (fun _ _ _ => .ok (lit "A")) fun _ _ _ => .ok (lit "A"))
    (World.initial fun _ => none) solveTwice := by
  refine ⟨fun _ _ => rfl, fun w₁ h₁ => ⟨?_, fun w₂ h₂ => ⟨trivial, fun w₃ h₃ =>
    ⟨fun _ _ => rfl, fun _ _ => trivial⟩⟩⟩⟩
  cases h₁
  intro call cid found responses hphase hout
  cases hphase
  cases hout
  rfl

/-- And its sets are clean. -/
theorem cleanSets_wanted : CleanSets
    (wantedSets (fun _ _ _ => .ok (lit "A")) ⟨formatNSig, playerAssets (lit "A") 0⟩) :=
  ⟨by unfold StableSets Stable; decide, by decide⟩

/-- A call on the returned URL gives it back. -/
theorem answers_again_twice :
    ∃ w, runList World.step (World.initial fun _ => none) solveTwice = some w ∧
      ∃ r ∈ w.done, ∃ r' ∈ w.done, r'.call.fmt.url = r.result.decodedUrl ∧
        r'.result.decodedUrl = r.result.decodedUrl := by
  refine ⟨_, rfl, _, List.mem_cons_self, _, List.mem_cons_of_mem _ List.mem_cons_self, by decide, ?_⟩
  exact answers_again (run_of_runList solveTwice_allowed rfl) List.mem_cons_self
    (List.mem_cons_of_mem _ List.mem_cons_self) ⟨by decide, by decide, fun _ _ h => by cases h⟩
    ⟨by decide, by decide, fun _ _ h => by cases h⟩ rfl (by decide) (by decide) cleanSets_wanted

end EjsBoundary.Proofs
