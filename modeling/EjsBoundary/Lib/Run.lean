import Mathlib.Logic.Relation

/-!
# `EjsBoundary.Lib.Run`: runs of a step function under a guard

A system is a step function `σ → α → Option σ`: from a state an action leads to at most one
next state. A guard says which actions the environment may take in which state. A `Run` is
any number of guarded steps. There is no scheduler: a statement about every run is a
statement about every order of the actions.

`Run.invariant` is the one induction: a property that every guarded step keeps holds along
every run. `run_of_runList` goes the other way, from a list of actions that can be evaluated
to a run.
-/

set_option autoImplicit false

namespace EjsBoundary.Lib

variable {σ α : Type}

/-- One guarded step. -/
def GuardedStep (step : σ → α → Option σ) (guard : σ → α → Prop) (s s' : σ) : Prop :=
  ∃ a, guard s a ∧ step s a = some s'

/-- Any number of guarded steps. -/
abbrev Run (step : σ → α → Option σ) (guard : σ → α → Prop) : σ → σ → Prop :=
  Relation.ReflTransGen (GuardedStep step guard)

variable {step : σ → α → Option σ} {guard : σ → α → Prop}

/-- What every guarded step keeps, every run keeps. -/
theorem Run.invariant {I : σ → Prop}
    (hstep : ∀ s a s', I s → guard s a → step s a = some s' → I s') {s s' : σ}
    (hrun : Run step guard s s') (h : I s) : I s' := by
  induction hrun with
  | refl => exact h
  | tail _ hlast ih =>
    obtain ⟨a, hguard, ha⟩ := hlast
    exact hstep _ a _ ih hguard ha

/-- A run under one guard is a run under every guard that allows its actions. -/
theorem Run.weaken {guard' : σ → α → Prop} (h : ∀ s a, guard s a → guard' s a) {s s' : σ}
    (hrun : Run step guard s s') : Run step guard' s s' :=
  Relation.ReflTransGen.mono (fun _ _ ⟨a, hguard, ha⟩ => ⟨a, h _ a hguard, ha⟩) _ _ hrun

/-- The state after a list of actions, `none` when one of them is not possible. -/
def runList (step : σ → α → Option σ) : σ → List α → Option σ
  | s, [] => some s
  | s, a :: as => (step s a).bind fun s' => runList step s' as

/-- The guard allows every action of the list in the state it meets. -/
def AllowedList (step : σ → α → Option σ) (guard : σ → α → Prop) : σ → List α → Prop
  | _, [] => True
  | s, a :: as => guard s a ∧ ∀ s', step s a = some s' → AllowedList step guard s' as

/-- A list of allowed actions is a run. -/
theorem run_of_runList {as : List α} : ∀ {s s' : σ}, AllowedList step guard s as →
    runList step s as = some s' → Run step guard s s' := by
  induction as with
  | nil =>
    intro s s' _ h
    cases h
    exact Relation.ReflTransGen.refl
  | cons a as ih =>
    intro s s' hallowed h
    obtain ⟨s₁, hstep, hrest⟩ := Option.bind_eq_some_iff.mp h
    exact Relation.ReflTransGen.head ⟨a, hallowed.1, hstep⟩ (ih (hallowed.2 s₁ hstep) hrest)

/-- A guard that does not look at the state allows a list when it allows each action of it. -/
theorem allowedList_of_forall {guard : α → Prop} {as : List α} (h : ∀ a ∈ as, guard a) :
    ∀ s, AllowedList step (fun _ a => guard a) s as := by
  induction as with
  | nil => exact fun _ => trivial
  | cons a as ih =>
    intro s
    exact ⟨h a List.mem_cons_self, fun s' _ => ih (fun b hb => h b (List.mem_cons_of_mem a hb)) s'⟩

end EjsBoundary.Lib
