import EjsBoundary.Lib.Snapshots
import EjsBoundary.Proofs.SolverRuns

/-!
# `EjsBoundary.Proofs.SolverSnapshots`: what interleaved calls amount to

A call of `solve_format_url` locks its cache twice, for the lookup and for the store, and in between
it asks the engine. Other calls may look and store in that time. `run_snapshots` says what this
amounts to. Take the calls in the order in which they finished. The caches are what they were, with
the answers of these calls stored one call after the other: no answer is lost, and none is stored
twice. And each call asked and returned what `solveFormatUrl` does, without interruption, on caches
that were there before it finished.

Nothing is assumed of the engines, which may throw or answer differently each time. The runs start
where no call is under way.
-/

set_option autoImplicit false

namespace EjsBoundary.Proofs

open EjsBoundary.Lib
open EjsBoundary.Model

/-! ### Calls as transactions -/

/-- What a finished call has done to the caches: it stored the answers of its engine, if it had
asked and got any. -/
def commit (caches : CacheId → SolverSharedCache) (r : Finished) : CacheId → SolverSharedCache :=
  match r.call.assets.cache, r.asked with
  | some cid, some (missing, .ok responses) =>
    Function.update caches cid (storeAll (caches cid) (missing.zip responses))
  | _, _ => caches

/-- The call asked and returned what it does on these caches, for some engine. -/
def ActsOn (caches : CacheId → SolverSharedCache) (r : Finished) : Prop :=
  ∃ solve, r.asked = asksOn solve r.call.fmt (r.call.assets.cache.map caches) ∧
    r.result = (solveFormatUrl solve r.call.fmt (r.call.assets.cache.map caches)).result

section
variable {caches : CacheId → SolverSharedCache} {call : Call} {cid : CacheId} {found : Lookup}

/-- A call whose engine throws. -/
theorem AsksWith.actsOn_error (h : AsksWith caches call cid found) (what : Bytes) :
    ActsOn caches
      ⟨call, some (found.missing, .error what), [], ⟨call.fmt.url, what⟩⟩ := by
  refine ⟨fun _ => .error what, (h.asksOn_eq fun _ => .error what).symm, ?_⟩
  rw [h.solveFormatUrl_error rfl]

/-- A call whose engine answers. What the cache holds when the answers are stored makes no
difference to what the call returns. -/
theorem AsksWith.actsOn_ok (h : AsksWith caches call cid found) (cache : SolverSharedCache)
    (responses : List SolverResponse) :
    ActsOn caches
      ⟨call, some (found.missing, .ok responses), (storePhase cache found responses).ready,
        finish call.fmt (storePhase cache found responses).ready
          (storePhase cache found responses).solverError⟩ := by
  refine ⟨fun _ => .ok responses, (h.asksOn_eq fun _ => .ok responses).symm, ?_⟩
  rw [h.solveFormatUrl_ok rfl, storePhase_eq, storePhase_eq]

end

/-! ### One step -/

section
variable {Ctx : Type} {w w' : World Ctx}

/-- The first step of a call: it finishes on the caches as they are, or goes to the engine with what
it found in them. -/
theorem lookup_snapshot (w : World Ctx) (t : ThreadId) (call : Call) :
    (∃ r, w.lookup t call = w.leave t r ∧ r.asked = none ∧ ActsOn w.caches r) ∨
    ∃ cid found, w.lookup t call = w.setPhase t (.looked call cid found) ∧
      AsksWith w.caches call cid found := by
  rcases lookup_asks w t call with ⟨r, sets, hleave, hcall, hnone, hrun⟩ | hasks
  · subst hcall
    -- No engine is asked, so any will do.
    obtain ⟨hasked, hresult⟩ := hrun fun _ => .ok []
    exact Or.inl ⟨r, hleave, hnone, _, hnone.trans hasked.symm, by rw [hresult]⟩
  · exact Or.inr hasks

/-- What a call under way has found, it found in caches that were there. -/
def PhaseOk (caches : CacheId → SolverSharedCache) (history : List Finished) : Phase → Prop
  | .idle => True
  | .looked call cid found | .answered call cid found _ =>
    ∃ seen, Past commit caches history seen ∧ AsksWith seen call cid found

/-- A longer history still has the caches a call looked at. -/
theorem PhaseOk.concat {caches : CacheId → SolverSharedCache} {history : List Finished}
    {phase : Phase} (h : PhaseOk caches history phase) (r : Finished) :
    PhaseOk caches (history ++ [r]) phase := by
  cases phase with
  | idle => trivial
  | looked call cid found =>
    obtain ⟨seen, hpast, hasks⟩ := h
    exact ⟨seen, hpast.concat r, hasks⟩
  | answered call cid found responses =>
    obtain ⟨seen, hpast, hasks⟩ := h
    exact ⟨seen, hpast.concat r, hasks⟩

/-- Since the world `w₀` these calls have finished, in this order, and the caches and the calls under
way go back to them. -/
structure Since (w₀ : World Ctx) (history : List Finished) (w : World Ctx) : Prop where
  done : w.done = w₀.done ++ history
  caches : w.caches = history.foldl commit w₀.caches
  isolated : SnapshotIsolated commit ActsOn w₀.caches history
  phases : ∀ t, PhaseOk w₀.caches history (w.phases t)

variable {w₀ : World Ctx} {history : List Finished}

/-- A thread goes on with its call. -/
theorem Since.setPhase (h : Since w₀ history w) (t : ThreadId) {phase : Phase}
    (hphase : PhaseOk w₀.caches history phase) : Since w₀ history (w.setPhase t phase) where
  done := h.done
  caches := h.caches
  isolated := h.isolated
  phases := by
    intro t'
    show PhaseOk w₀.caches history (Function.update w.phases t phase t')
    by_cases ht : t' = t
    · subst ht
      rwa [Function.update_self]
    · rw [Function.update_of_ne ht]
      exact h.phases t'

/-- A thread returns from its call, which commits. -/
theorem Since.leave (h : Since w₀ history w) (w₁ : World Ctx) (hphases : w₁.phases = w.phases)
    (hdone : w₁.done = w.done) (t : ThreadId) {r : Finished} (hcaches : w₁.caches = commit w.caches r)
    {seen : CacheId → SolverSharedCache} (hpast : Past commit w₀.caches history seen)
    (hacts : ActsOn seen r) : Since w₀ (history ++ [r]) (w₁.leave t r) where
  done := by
    show w₁.done ++ [r] = _
    rw [hdone, h.done, List.append_assoc]
  caches := by
    show w₁.caches = _
    rw [hcaches, h.caches, List.foldl_append]
    rfl
  isolated := h.isolated.concat hpast hacts
  phases := by
    intro t'
    show PhaseOk w₀.caches (history ++ [r]) (Function.update w₁.phases t .idle t')
    by_cases ht : t' = t
    · subst ht
      rw [Function.update_self]
      trivial
    · rw [Function.update_of_ne ht, hphases]
      exact (h.phases t').concat r

/-- Every step leaves such a world behind. -/
theorem since_step (h : Since w₀ history w) {a : Action Ctx} (hstep : w.step a = some w') :
    ∃ history', Since w₀ history' w' := by
  have hnow : Past commit w₀.caches history w.caches := h.caches ▸ Past.now w₀.caches history
  rcases step_cases hstep with ⟨t, call, rfl, -, rfl⟩ |
    ⟨t, js, call, cid, found, rfl, hphase, rfl⟩ |
    ⟨t, call, cid, found, responses, rfl, hphase, rfl⟩
  · rcases lookup_snapshot w t call with ⟨r, heq, hasked, hacts⟩ | ⟨cid, found, heq, hasks⟩
    · -- It has asked nothing, so it stores nothing.
      have hcommit : w.caches = commit w.caches r := by
        rw [commit, hasked]
        cases r.call.assets.cache <;> rfl
      rw [heq]
      exact ⟨_, h.leave w rfl rfl t hcommit hnow hacts⟩
    · rw [heq]
      exact ⟨_, h.setPhase t ⟨w.caches, hnow, hasks⟩⟩
  · have hfound := h.phases t
    rw [hphase] at hfound
    obtain ⟨seen, hpast, hasks⟩ := hfound
    rcases askEngine_cases w t js call cid found with ⟨what, -, heq⟩ | ⟨responses, -, heq⟩
    · have hcommit : w.caches =
          commit w.caches ⟨call, some (found.missing, .error what), [], ⟨call.fmt.url, what⟩⟩ := by
        rw [commit, hasks.cache]
      rw [heq]
      exact ⟨_, h.leave (w.setEngine t _) rfl rfl t hcommit hpast (hasks.actsOn_error what)⟩
    · rw [heq]
      have hengine : Since w₀ history (w.setEngine t
          (engineCall js (w.engines t) call.assets found.missing).1) :=
        ⟨h.done, h.caches, h.isolated, h.phases⟩
      exact ⟨_, hengine.setPhase t ⟨seen, hpast, hasks⟩⟩
  · have hfound := h.phases t
    rw [hphase] at hfound
    obtain ⟨seen, hpast, hasks⟩ := hfound
    -- The store goes to the cache of the call, as it is now.
    refine ⟨_, h.leave (w.setCache cid (storePhase (w.caches cid) found responses).cache) rfl rfl t
      ?_ hpast (hasks.actsOn_ok (w.caches cid) responses)⟩
    show Function.update w.caches cid (storePhase (w.caches cid) found responses).cache = _
    rw [commit, hasks.cache, storePhase_eq]

/-- Calls in any interleaving, by the order in which they finish: each acts on caches that were there
before it finished, and the caches are made by their answers one call after the other. -/
theorem run_snapshots (hidle : ∀ t, w₀.phases t = .idle)
    (hrun : Run World.step (fun _ _ => True) w₀ w) :
    ∃ history, w.done = w₀.done ++ history ∧ w.caches = history.foldl commit w₀.caches ∧
      SnapshotIsolated commit ActsOn w₀.caches history := by
  have hstart : Since w₀ [] w₀ :=
    ⟨(List.append_nil w₀.done).symm, rfl, snapshotIsolated_nil w₀.caches, fun t => by
      rw [hidle t]
      trivial⟩
  obtain ⟨history, h⟩ := hrun.invariant (I := fun w => ∃ history, Since w₀ history w)
    (fun _ _ _ ⟨_, h⟩ _ hstep => since_step h hstep) ⟨[], hstart⟩
  exact ⟨history, h.done, h.caches, h.isolated⟩

end

/-- Two calls on one cache. Both look before either stores. -/
theorem run_snapshots_twoThreads : ∃ w history,
    runList World.step (World.initial fun _ => none) twoThreads = some w ∧
      w.done = [] ++ history ∧
      w.caches = history.foldl commit (World.initial fun _ => none : World Unit).caches ∧
      SnapshotIsolated commit ActsOn (World.initial fun _ => none : World Unit).caches history := by
  have hfree : ∀ a ∈ twoThreads, (fun _ => True) a := fun _ _ => trivial
  have hrun : Run World.step (fun _ _ => True) (World.initial fun _ => none) _ :=
    run_of_runList (allowedList_of_forall hfree _) (rfl : runList World.step _ twoThreads = some _)
  obtain ⟨history, h⟩ := run_snapshots (fun _ => rfl) hrun
  exact ⟨_, history, rfl, h⟩

end EjsBoundary.Proofs
