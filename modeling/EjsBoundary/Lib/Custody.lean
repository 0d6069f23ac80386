import Mathlib.Data.List.Nodup
import Mathlib.Logic.Function.Basic
import Mathlib.Logic.Relation

/-!
# `EjsBoundary.Lib.Custody`: things that holders pass on and free

A holder has at most one thing. A thing is handed to a holder that has none, passed on to
another holder that has none, or freed by its holder. `Custody.Step` is one such change and
`Custody.Steps` any number of them. `Custody.Accounted` is what every sequence of changes keeps
(`Steps.accounted`): a thing that was handed out is with exactly one holder and not freed, or with
none and freed once.

An operation of a component can be several changes, and holders may have nothing: `vacate`,
`receive` and `transfer` are the changes as an operation makes them, whatever the holders have.
It is enough to show that each operation is a sequence of these.
-/

set_option autoImplicit false

namespace EjsBoundary.Lib

variable {ι π : Type} [DecidableEq ι]

/-- Who has what, what was freed and what was handed out. -/
structure Custody (ι π : Type) where
  slot : ι → Option π
  freed : List π
  handed : List π

namespace Custody

/-- Nothing was handed out. -/
def empty : Custody ι π := ⟨fun _ => none, [], []⟩

/-- A thing that is new is handed to a holder. -/
def hand (c : Custody ι π) (i : ι) (p : π) : Custody ι π :=
  { c with slot := Function.update c.slot i (some p), handed := p :: c.handed }

/-- A holder frees what it has. -/
def free (c : Custody ι π) (i : ι) (p : π) : Custody ι π :=
  { c with slot := Function.update c.slot i none, freed := p :: c.freed }

/-- Holder `j` passes what it has to holder `i`. -/
def pass (c : Custody ι π) (i j : ι) (p : π) : Custody ι π :=
  { c with slot := Function.update (Function.update c.slot j none) i (some p) }

/-- One change. -/
inductive Step : Custody ι π → Custody ι π → Prop where
  | hand {c : Custody ι π} {i : ι} {p : π} (hi : c.slot i = none) (hnew : p ∉ c.handed) :
      Step c (c.hand i p)
  | free {c : Custody ι π} {i : ι} {p : π} (hi : c.slot i = some p) : Step c (c.free i p)
  | pass {c : Custody ι π} {i j : ι} {p : π} (hi : c.slot i = none) (hj : c.slot j = some p) :
      Step c (c.pass i j p)

/-- Any number of changes. -/
abbrev Steps : Custody ι π → Custody ι π → Prop := Relation.ReflTransGen Step

/-- A holder frees what it has, if it has something. -/
def vacate (c : Custody ι π) (i : ι) : Custody ι π :=
  { c with slot := Function.update c.slot i none, freed := (c.slot i).toList ++ c.freed }

/-- A holder is given something, or nothing. -/
def receive (c : Custody ι π) (i : ι) (o : Option π) : Custody ι π :=
  { c with slot := Function.update c.slot i o, handed := o.toList ++ c.handed }

/-- Holder `i` takes over what holder `j` has, if it has something. -/
def transfer (c : Custody ι π) (i j : ι) : Custody ι π :=
  { c with slot := Function.update (Function.update c.slot j none) i (c.slot j) }

/-- Emptying a holder that has nothing changes nothing. -/
theorem update_none {c : Custody ι π} {i : ι} (hi : c.slot i = none) :
    Function.update c.slot i none = c.slot := by
  rw [← hi, Function.update_eq_self]

/-- To vacate a holder is one change, or none. -/
theorem steps_vacate (c : Custody ι π) (i : ι) : Steps c (c.vacate i) := by
  cases hi : c.slot i with
  | none =>
    have hsame : c.vacate i = c := by
      rw [vacate, update_none hi, hi]
      rfl
    rw [hsame]
  | some p =>
    have hfree : c.vacate i = c.free i p := by
      rw [vacate, hi]
      rfl
    rw [hfree]
    exact Relation.ReflTransGen.single (.free hi)

/-- So is giving a holder that has nothing something new, or nothing. -/
theorem steps_receive {c : Custody ι π} {i : ι} {o : Option π} (hi : c.slot i = none)
    (hnew : ∀ p, o = some p → p ∉ c.handed) : Steps c (c.receive i o) := by
  cases o with
  | none =>
    have hsame : c.receive i none = c := by
      rw [receive, update_none hi]
      rfl
    rw [hsame]
  | some p => exact Relation.ReflTransGen.single (.hand hi (hnew p rfl))

/-- So is a transfer to a holder that has nothing. -/
theorem steps_transfer {c : Custody ι π} {i : ι} (hi : c.slot i = none) (j : ι) :
    Steps c (c.transfer i j) := by
  cases hj : c.slot j with
  | none =>
    have hsame : c.transfer i j = c := by
      rw [transfer, update_none hj, hj, update_none hi]
    rw [hsame]
  | some p =>
    have hpass : c.transfer i j = c.pass i j p := by
      rw [transfer, hj]
      rfl
    rw [hpass]
    exact Relation.ReflTransGen.single (.pass hi hj)

/-! ### Who has what after a change -/

section
variable {c : Custody ι π} {i j k : ι} {p q : π}

/-- After a hand-out the holder has the new thing, and the others have what they had. -/
theorem hand_slot (hi : c.slot i = none) :
    (c.hand i p).slot k = some q ↔ (k = i ∧ q = p) ∨ c.slot k = some q := by
  show Function.update c.slot i (some p) k = some q ↔ _
  by_cases hk : k = i
  · subst hk
    rw [Function.update_self, hi]
    simp [eq_comm]
  · rw [Function.update_of_ne hk]
    simp [hk]

/-- After a holder freed what it had, the others have what they had. -/
theorem free_slot : (c.free i p).slot k = some q ↔ k ≠ i ∧ c.slot k = some q := by
  show Function.update c.slot i none k = some q ↔ _
  by_cases hk : k = i
  · subst hk
    simp
  · rw [Function.update_of_ne hk]
    simp [hk]

/-- After a thing is passed on the new holder has it, and the old one has nothing. -/
theorem pass_slot (hi : c.slot i = none) :
    (c.pass i j p).slot k = some q ↔ (k = i ∧ q = p) ∨ (k ≠ j ∧ c.slot k = some q) := by
  show Function.update (Function.update c.slot j none) i (some p) k = some q ↔ _
  by_cases hk : k = i
  · subst hk
    rw [Function.update_self, hi]
    simp [eq_comm]
  · rw [Function.update_of_ne hk]
    by_cases hkj : k = j
    · subst hkj
      simp [hk]
    · rw [Function.update_of_ne hkj]
      simp [hk, hkj]

end

/-! ### The account -/

/-- The books are in order: what a holder has was handed out, is with no other holder and was not
freed; what was freed was handed out and freed once; and nothing that was handed out is lost. -/
structure Accounted (c : Custody ι π) : Prop where
  handed_of_slot : ∀ i p, c.slot i = some p → p ∈ c.handed
  unique : ∀ i j p, c.slot i = some p → c.slot j = some p → i = j
  not_freed : ∀ i p, c.slot i = some p → p ∉ c.freed
  handed_of_freed : ∀ p ∈ c.freed, p ∈ c.handed
  freed_once : c.freed.Nodup
  not_lost : ∀ p ∈ c.handed, (∃ i, c.slot i = some p) ∨ p ∈ c.freed

namespace Accounted

variable {c : Custody ι π} {i j : ι} {p : π}

omit [DecidableEq ι] in
/-- With nothing handed out there is nothing to account for. -/
theorem start : Accounted (empty : Custody ι π) where
  handed_of_slot := fun _ _ h => by cases h
  unique := fun _ _ _ h => by cases h
  not_freed := fun _ _ h => by cases h
  handed_of_freed := fun _ h => by cases h
  freed_once := List.nodup_nil
  not_lost := fun _ h => by cases h

/-- Handing out a new thing keeps the account. -/
theorem hand (h : Accounted c) (hi : c.slot i = none) (hnew : p ∉ c.handed) :
    Accounted (c.hand i p) where
  handed_of_slot := by
    intro k q hk
    show q ∈ p :: c.handed
    rcases (hand_slot hi).mp hk with ⟨-, heq⟩ | hold
    · exact heq ▸ List.mem_cons_self
    · exact List.mem_cons_of_mem p (h.handed_of_slot k q hold)
  unique := by
    intro k l q hk hl
    -- The new thing is with `i` only, since what the others have was handed out before.
    rcases (hand_slot hi).mp hk with ⟨hki, hqp⟩ | hk
    · rcases (hand_slot hi).mp hl with ⟨hli, -⟩ | hl
      · exact hki.trans hli.symm
      · exact absurd (h.handed_of_slot l q hl) (hqp ▸ hnew)
    · rcases (hand_slot hi).mp hl with ⟨-, hqp⟩ | hl
      · exact absurd (h.handed_of_slot k q hk) (hqp ▸ hnew)
      · exact h.unique k l q hk hl
  not_freed := by
    intro k q hk hfreed
    rcases (hand_slot hi).mp hk with ⟨-, heq⟩ | hold
    · exact hnew (heq ▸ h.handed_of_freed q hfreed)
    · exact h.not_freed k q hold hfreed
  handed_of_freed := fun q hq => List.mem_cons_of_mem p (h.handed_of_freed q hq)
  freed_once := h.freed_once
  not_lost := by
    intro q hq
    rcases List.mem_cons.mp hq with heq | hq
    · exact Or.inl ⟨i, (hand_slot hi).mpr (Or.inl ⟨rfl, heq⟩)⟩
    · exact (h.not_lost q hq).imp_left fun ⟨k, hk⟩ => ⟨k, (hand_slot hi).mpr (Or.inr hk)⟩

/-- Freeing keeps the account: the thing moves from its holder to the freed ones. -/
theorem free (h : Accounted c) (hi : c.slot i = some p) : Accounted (c.free i p) where
  handed_of_slot := fun k q hk => h.handed_of_slot k q (free_slot.mp hk).2
  unique := fun k l q hk hl => h.unique k l q (free_slot.mp hk).2 (free_slot.mp hl).2
  not_freed := by
    intro k q hk hfreed
    obtain ⟨hki, hk⟩ := free_slot.mp hk
    rcases List.mem_cons.mp hfreed with heq | hfreed
    · exact hki (h.unique k i q hk (heq ▸ hi))
    · exact h.not_freed k q hk hfreed
  handed_of_freed := by
    intro q hq
    rcases List.mem_cons.mp hq with heq | hq
    · exact heq ▸ h.handed_of_slot i p hi
    · exact h.handed_of_freed q hq
  freed_once := List.nodup_cons.mpr ⟨h.not_freed i p hi, h.freed_once⟩
  not_lost := by
    intro q hq
    show _ ∨ q ∈ p :: c.freed
    rcases h.not_lost q hq with ⟨k, hk⟩ | hfreed
    · by_cases hki : k = i
      · subst hki
        rw [hi, Option.some.injEq] at hk
        exact Or.inr (hk ▸ List.mem_cons_self)
      · exact Or.inl ⟨k, free_slot.mpr ⟨hki, hk⟩⟩
    · exact Or.inr (List.mem_cons_of_mem p hfreed)

/-- Passing on keeps the account: the thing changes its one holder. -/
theorem pass (h : Accounted c) (hi : c.slot i = none) (hj : c.slot j = some p) :
    Accounted (c.pass i j p) where
  handed_of_slot := by
    intro k q hk
    rcases (pass_slot hi).mp hk with ⟨-, heq⟩ | ⟨-, hk⟩
    · exact heq ▸ h.handed_of_slot j p hj
    · exact h.handed_of_slot k q hk
  unique := by
    intro k l q hk hl
    -- Only `j` had the thing that is passed on, and `j` has nothing any more.
    rcases (pass_slot hi).mp hk with ⟨hki, hqp⟩ | ⟨hkj, hk⟩
    · rcases (pass_slot hi).mp hl with ⟨hli, -⟩ | ⟨hlj, hl⟩
      · exact hki.trans hli.symm
      · exact absurd (h.unique l j q hl (hqp ▸ hj)) hlj
    · rcases (pass_slot hi).mp hl with ⟨-, hqp⟩ | ⟨-, hl⟩
      · exact absurd (h.unique k j q hk (hqp ▸ hj)) hkj
      · exact h.unique k l q hk hl
  not_freed := by
    intro k q hk
    rcases (pass_slot hi).mp hk with ⟨-, heq⟩ | ⟨-, hk⟩
    · exact heq ▸ h.not_freed j p hj
    · exact h.not_freed k q hk
  handed_of_freed := h.handed_of_freed
  freed_once := h.freed_once
  not_lost := by
    intro q hq
    refine (h.not_lost q hq).imp_left fun ⟨k, hk⟩ => ?_
    by_cases hkj : k = j
    · subst hkj
      rw [hj, Option.some.injEq] at hk
      exact ⟨i, (pass_slot hi).mpr (Or.inl ⟨rfl, hk.symm⟩)⟩
    · exact ⟨k, (pass_slot hi).mpr (Or.inr ⟨hkj, hk⟩)⟩

end Accounted

/-- Every change keeps the account. -/
theorem Step.accounted {c d : Custody ι π} (hstep : Step c d) (h : Accounted c) : Accounted d := by
  cases hstep with
  | hand hi hnew => exact h.hand hi hnew
  | free hi => exact h.free hi
  | pass hi hj => exact h.pass hi hj

/-- So does every sequence of changes. -/
theorem Steps.accounted {c d : Custody ι π} (hsteps : Steps c d) (h : Accounted c) :
    Accounted d := by
  induction hsteps with
  | refl => exact h
  | tail _ hlast ih => exact hlast.accounted ih

omit [DecidableEq ι] in
/-- Where a thing that was handed out is: with one holder and not freed, or with none and freed
once. -/
theorem Accounted.whereabouts [DecidableEq π] {c : Custody ι π} (h : Accounted c) {p : π}
    (hp : p ∈ c.handed) :
    (∃ i, c.slot i = some p ∧ (∀ j, c.slot j = some p → j = i) ∧ c.freed.count p = 0) ∨
      ((∀ i, c.slot i ≠ some p) ∧ c.freed.count p = 1) := by
  rcases h.not_lost p hp with ⟨i, hi⟩ | hfreed
  · exact Or.inl ⟨i, hi, fun j hj => h.unique j i p hj hi,
      List.count_eq_zero_of_not_mem (h.not_freed i p hi)⟩
  · exact Or.inr ⟨fun i hi => h.not_freed i p hi hfreed,
      List.count_eq_one_of_mem h.freed_once hfreed⟩

end Custody

end EjsBoundary.Lib
