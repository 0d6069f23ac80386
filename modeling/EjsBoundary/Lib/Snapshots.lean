import Mathlib.Data.List.Basic

/-!
# `EjsBoundary.Lib.Snapshots`: histories whose transactions read a snapshot

A store is changed by transactions. Each of them reads the store at one moment, works on what it
has read, and commits later. Others may commit in between. A history is the list of the
transactions in the order in which they committed, and `commit` is what each of them does to the
store.

`Past` says that a store was there at some moment of the history: the first commits led to it.
`SnapshotIsolated` says that each transaction acted on a store that was there before its own
commit. Both only speak of the order of the commits. What ran between a read and its commit does
not matter.
-/

set_option autoImplicit false

namespace EjsBoundary.Lib

variable {σ τ : Type} {commit : σ → τ → σ} {acts : σ → τ → Prop}

/-- From the store `s`, the first commits of the history lead to `s'`. -/
def Past (commit : σ → τ → σ) (s : σ) (history : List τ) (s' : σ) : Prop :=
  ∃ first, first <+: history ∧ s' = first.foldl commit s

/-- Every transaction acted on a store that was there before its commit. -/
def SnapshotIsolated (commit : σ → τ → σ) (acts : σ → τ → Prop) (s : σ) (history : List τ) : Prop :=
  ∀ front x back, history = front ++ x :: back → ∃ s', Past commit s front s' ∧ acts s' x

/-- The store as it is now was there. -/
theorem Past.now (s : σ) (history : List τ) :
    Past commit s history (history.foldl commit s) :=
  ⟨history, List.prefix_refl history, rfl⟩

/-- A store that was there stays one that was there. -/
theorem Past.concat {s s' : σ} {history : List τ} (h : Past commit s history s') (x : τ) :
    Past commit s (history ++ [x]) s' := by
  obtain ⟨first, hfirst, heq⟩ := h
  exact ⟨first, hfirst.trans (List.prefix_append history [x]), heq⟩

/-- The empty history is snapshot isolated. -/
theorem snapshotIsolated_nil (s : σ) : SnapshotIsolated commit acts s [] := by
  intro front x back h
  cases front with
  | nil => cases h
  | cons y front => cases h

/-- A history goes on with a transaction that acted on a store that was there. -/
theorem SnapshotIsolated.concat {s s' : σ} {history : List τ}
    (h : SnapshotIsolated commit acts s history) {x : τ} (hpast : Past commit s history s')
    (hacts : acts s' x) : SnapshotIsolated commit acts s (history ++ [x]) := by
  intro front y back heq
  -- The transaction is the new one, or stands in the history with the new one behind it.
  rcases List.eq_nil_or_concat back with rfl | ⟨rest, z, rfl⟩
  · obtain ⟨hfront, hlast⟩ := List.append_inj' heq rfl
    cases hlast
    subst hfront
    exact ⟨s', hpast, hacts⟩
  · have heq' : history ++ [x] = (front ++ y :: rest) ++ [z] := by
      rw [heq, List.concat_eq_append, List.append_assoc, List.cons_append]
    exact h front y rest (List.append_inj' heq' rfl).1

end EjsBoundary.Lib
