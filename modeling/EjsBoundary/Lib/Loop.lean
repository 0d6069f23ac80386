import Mathlib.Data.Finset.Card
import Mathlib.Data.List.Perm.Subperm
import Mathlib.Logic.Relation

/-!
# `EjsBoundary.Lib.Loop`: loops that may not end

A loop is a turn function `σ → Option (α × σ)`: in a state it stops, or gives something and goes
on in the next state. `Trail turn s l` says that the loop started in `s` ends, after the turns
`l`. A loop without a trail does not end.

* `Trail.unique`: the turns are determined by where the loop starts.
* `exists_trail`: a measure that goes down in every turn makes the loop end.
* `exists_trail_iff`: a loop over finitely many states ends exactly when it does not come back to
  a state it was in.
* `Trail.length_le`: a loop over positions below a bound that ends, ends within that many turns,
  because it is at no position twice. So that much fuel tells an endless loop from one that ends.
-/

set_option autoImplicit false

namespace EjsBoundary.Lib

variable {σ α : Type} {turn : σ → Option (α × σ)}

/-- The loop started in a state ends after these turns: the states it was in, with what it gave
there. -/
inductive Trail (turn : σ → Option (α × σ)) : σ → List (σ × α) → Prop
  | stop {s : σ} : turn s = none → Trail turn s []
  | go {s s' : σ} {a : α} {l : List (σ × α)} :
      turn s = some (a, s') → Trail turn s' l → Trail turn s ((s, a) :: l)

/-- The loop can be in a state after some turns. -/
def Reached (turn : σ → Option (α × σ)) : σ → σ → Prop :=
  Relation.ReflTransGen fun s s' => ∃ a, turn s = some (a, s')

/-- The turns of a loop are determined by where it starts. -/
theorem Trail.unique {s : σ} {l l' : List (σ × α)} (h : Trail turn s l) (h' : Trail turn s l') :
    l = l' := by
  induction h generalizing l' with
  | stop hstop =>
    cases h' with
    | stop _ => rfl
    | go hgo _ => rw [hstop] at hgo; cases hgo
  | go hgo _ ih =>
    cases h' with
    | stop hstop => rw [hstop] at hgo; cases hgo
    | go hgo' hrest =>
      rw [hgo, Option.some.injEq, Prod.mk.injEq] at hgo'
      obtain ⟨rfl, rfl⟩ := hgo'
      rw [ih hrest]

/-- From a state the loop was in, it has no more turns left than in all. -/
theorem Trail.of_mem {s t : σ} {l : List (σ × α)} (h : Trail turn s l) (ht : t ∈ l.map Prod.fst) :
    ∃ l', Trail turn t l' ∧ l'.length ≤ l.length := by
  induction h with
  | stop _ => cases ht
  | @go s s' a l hgo hrest ih =>
    rw [List.map_cons, List.mem_cons] at ht
    rcases ht with rfl | ht
    · exact ⟨(t, a) :: l, .go hgo hrest, Nat.le_refl _⟩
    · obtain ⟨l', hl', hle⟩ := ih ht
      exact ⟨l', hl', Nat.le_succ_of_le hle⟩

/-- Every state of a trail can be reached. -/
theorem Trail.reached {s t : σ} {a : α} {l : List (σ × α)} (h : Trail turn s l)
    (ht : (t, a) ∈ l) : Reached turn s t ∧ ∃ t', turn t = some (a, t') := by
  induction h with
  | stop _ => cases ht
  | @go s s' b l hgo _ ih =>
    rw [List.mem_cons, Prod.mk.injEq] at ht
    rcases ht with ⟨rfl, rfl⟩ | ht
    · exact ⟨Relation.ReflTransGen.refl, s', hgo⟩
    · obtain ⟨hreach, hturn⟩ := ih ht
      exact ⟨Relation.ReflTransGen.head ⟨b, hgo⟩ hreach, hturn⟩

/-- The states of a trail are the states the loop takes a turn in. -/
theorem Trail.mem_of_reached {s t t' : σ} {a : α} {l : List (σ × α)} (h : Trail turn s l)
    (hreach : Reached turn s t) (hturn : turn t = some (a, t')) : (t, a) ∈ l := by
  induction h with
  | stop hstop =>
    cases hreach.cases_head with
    | inl heq =>
      subst heq
      rw [hstop] at hturn
      cases hturn
    | inr hex =>
      obtain ⟨u, ⟨b, hb⟩, _⟩ := hex
      rw [hstop] at hb
      cases hb
  | go hgo _ ih =>
    cases hreach.cases_head with
    | inl heq =>
      subst heq
      rw [hgo, Option.some.injEq, Prod.mk.injEq] at hturn
      rw [hturn.1]
      exact List.mem_cons_self
    | inr hex =>
      obtain ⟨u, ⟨b, hb⟩, hrest⟩ := hex
      rw [hgo, Option.some.injEq, Prod.mk.injEq] at hb
      obtain ⟨rfl, rfl⟩ := hb
      exact List.mem_cons_of_mem _ (ih hrest)

/-- A loop is in no state twice before it ends. -/
theorem Trail.nodup {s : σ} {l : List (σ × α)} (h : Trail turn s l) : (l.map Prod.fst).Nodup := by
  induction h with
  | stop _ => exact List.nodup_nil
  | @go s s' a l hgo hrest ih =>
    rw [List.map_cons, List.nodup_cons]
    refine ⟨fun hmem => ?_, ih⟩
    -- Back in `s` the loop would have all its turns before it again, and fewer are left.
    obtain ⟨l', hl', hle⟩ := hrest.of_mem hmem
    have hall : l' = (s, a) :: l := hl'.unique (.go hgo hrest)
    rw [hall, List.length_cons] at hle
    omega

/-- A loop over positions below a bound that ends, ends within that many turns. -/
theorem Trail.length_le {turn : Nat → Option (α × Nat)} {bound : Nat}
    (hbound : ∀ i a j, turn i = some (a, j) → i < bound) {i : Nat} {l : List (Nat × α)}
    (h : Trail turn i l) : l.length ≤ bound := by
  have hsub : l.map Prod.fst ⊆ List.range bound := by
    intro t ht
    obtain ⟨⟨t', a⟩, hmem, rfl⟩ := List.mem_map.mp ht
    obtain ⟨_, j, hj⟩ := h.reached hmem
    exact List.mem_range.mpr (hbound t' a j hj)
  have hle := (h.nodup.subperm hsub).length_le
  rwa [List.length_map, List.length_range] at hle

/-- A loop ends when some measure goes down in every turn it takes. -/
theorem exists_trail {s : σ} (measure : σ → Nat)
    (hdown : ∀ t a t', Reached turn s t → turn t = some (a, t') → measure t' < measure t) :
    ∃ l, Trail turn s l := by
  -- Strong induction on the measure; the turns of the rest are turns of the whole.
  induction hn : measure s using Nat.strongRecOn generalizing s with
  | _ n ih =>
    cases hturn : turn s with
    | none => exact ⟨[], .stop hturn⟩
    | some p =>
      obtain ⟨a, s'⟩ := p
      have hlt : measure s' < n := hn ▸ hdown s a s' Relation.ReflTransGen.refl hturn
      obtain ⟨l, hl⟩ := ih (measure s') hlt
        (fun t b t' hreach hb =>
          hdown t b t' (Relation.ReflTransGen.head ⟨a, hturn⟩ hreach) hb) rfl
      exact ⟨(s, a) :: l, .go hturn hl⟩

/-- The loop comes back to a state it was in. -/
def Circles (turn : σ → Option (α × σ)) (s : σ) : Prop :=
  ∃ t a t', Reached turn s t ∧ turn t = some (a, t') ∧ Reached turn t' t

/-- A loop that ends does not come back. -/
theorem Trail.not_circles {s : σ} {l : List (σ × α)} (h : Trail turn s l) : ¬ Circles turn s := by
  intro ⟨t, a, t', hreach, hturn, hback⟩
  have hmem : t ∈ l.map Prod.fst := List.mem_map_of_mem (h.mem_of_reached hreach hturn)
  obtain ⟨l', hl', -⟩ := h.of_mem hmem
  cases hl' with
  | stop hstop =>
    rw [hturn] at hstop
    cases hstop
  | @go _ u b rest hgo hrest =>
    rw [hturn, Option.some.injEq, Prod.mk.injEq] at hgo
    obtain ⟨rfl, rfl⟩ := hgo
    -- Back in `t` the loop takes the same turn, so `t` stands in the trail twice.
    have hnodup := (Trail.go hturn hrest).nodup
    rw [List.map_cons, List.nodup_cons] at hnodup
    exact hnodup.1 (List.mem_map_of_mem (hrest.mem_of_reached hback hturn))

open Classical in
/-- A loop over finitely many states ends exactly when it does not come back to one of them. -/
theorem exists_trail_iff {states : Finset σ}
    (hstates : ∀ t a t', turn t = some (a, t') → t ∈ states) {s : σ} :
    (∃ l, Trail turn s l) ↔ ¬ Circles turn s := by
  refine ⟨fun ⟨l, hl⟩ => hl.not_circles, fun hnot => ?_⟩
  -- A state that is left is no longer among those that the loop can be in.
  refine exists_trail (fun t => (states.filter (Reached turn t)).card) fun t a t' hreach hturn => ?_
  refine Finset.card_lt_card ((Finset.ssubset_iff_of_subset fun u hu => ?_).mpr ⟨t, ?_, ?_⟩)
  · rw [Finset.mem_filter] at hu ⊢
    exact ⟨hu.1, Relation.ReflTransGen.head ⟨a, hturn⟩ hu.2⟩
  · exact Finset.mem_filter.mpr ⟨hstates t a t' hturn, Relation.ReflTransGen.refl⟩
  · intro hmem
    exact hnot ⟨t, a, t', hreach, hturn, (Finset.mem_filter.mp hmem).2⟩

end EjsBoundary.Lib
