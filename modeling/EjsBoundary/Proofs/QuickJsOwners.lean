import EjsBoundary.Lib.Custody
import EjsBoundary.Lib.Run
import EjsBoundary.Model.QuickJsOwners

/-!
# `EjsBoundary.Proofs.QuickJsOwners`: every handle is freed once

`ownerRuns_accounted`: after any sequence of operations on owners of one class that hands each
handle out once, with its context, every handle is with exactly one live owner and not freed, or
with none and freed exactly once with its context. So it is freed when all owners are destroyed.

The proof is a refinement. `OwnerWorld.custody` forgets the contexts, and then every operation is
a few changes of a `Custody` (`step_custody`), whose account is kept by every sequence of changes.
What the view forgets is a second invariant, `OwnContexts`: a live owner holds a handle only
together with its context, and so everything is freed with its context.
-/

set_option autoImplicit false

namespace EjsBoundary.Proofs

open EjsBoundary.Lib
open EjsBoundary.Model

variable {ι κ η : Type} [DecidableEq ι] [DecidableEq η]

/-! ### What is asked of a program, and what it gets -/

/-- A handle comes with its own context, and was not handed out before. -/
def Fits (own : η → κ) (w : OwnerWorld ι κ η) (ctx : Option κ) (v : Option η) : Prop :=
  ∀ h, v = some h → ctx = some (own h) ∧ h ∉ w.handed

/-- The operation hands a handle out at most once, and with its context. -/
def HandsOnce (own : η → κ) (w : OwnerWorld ι κ η) : OwnerOp ι κ η → Prop
  | .construct _ context v => Fits own w context v
  | .reset _ newCtx newValue => Fits own w newCtx newValue
  | .moveConstruct _ _ | .moveAssign _ _ | .destroy _ => True

/-- The contexts a handle was freed with. -/
def freesOf (w : OwnerWorld ι κ η) (h : η) : List κ :=
  (w.frees.filter fun f => f.2 = some h).map Prod.fst

/-- The live owner `i` holds the handle. -/
def Holds (w : OwnerWorld ι κ η) (i : ι) (h : η) : Prop :=
  ∃ o, w.owners i = some o ∧ o.value = some h

/-- Exactly one live owner holds the handle, together with its context, and it was not freed. -/
def HeldOnce (own : η → κ) (w : OwnerWorld ι κ η) (h : η) : Prop :=
  (∃ i, w.owners i = some { ctx := some (own h), value := some h } ∧ ∀ j, Holds w j h → j = i) ∧
    freesOf w h = []

/-- No live owner holds the handle, and it was freed once, with its context. -/
def FreedOnce (own : η → κ) (w : OwnerWorld ι κ η) (h : η) : Prop :=
  (∀ i, ¬Holds w i h) ∧ freesOf w h = [own h]

/-! ### What the owners hold, without the contexts -/

/-- The world as holders and things. -/
def custody (w : OwnerWorld ι κ η) : Custody ι η where
  slot i := (w.owners i).bind Owner.value
  freed := w.frees.filterMap Prod.snd
  handed := w.handed

/-- A live owner holds a handle only together with its context, and a handle was freed only with
its context. -/
structure OwnContexts (own : η → κ) (w : OwnerWorld ι κ η) : Prop where
  held : ∀ i o h, w.owners i = some o → o.value = some h → o.ctx = some (own h)
  freed : ∀ k h, (k, some h) ∈ w.frees → k = own h

section
variable {w : OwnerWorld ι κ η} {i j : ι}

omit [DecidableEq η]

omit [DecidableEq ι] in
/-- In the account an owner has the value it owns, if it owns one. -/
theorem custody_slot {x : Option (Owner κ η)} (hi : w.owners i = x) :
    (custody w).slot i = x.bind Owner.value := by
  show (w.owners i).bind Owner.value = _
  rw [hi]

/-- Changing an owner changes its slot of the account. -/
theorem custody_set (w : OwnerWorld ι κ η) (i : ι) (x : Option (Owner κ η)) :
    custody (w.set i x) =
      { custody w with slot := Function.update (custody w).slot i (x.bind Owner.value) } := by
  have hslot : (custody (w.set i x)).slot =
      Function.update (custody w).slot i (x.bind Owner.value) := by
    funext j
    show ((Function.update w.owners i x) j).bind Owner.value = _
    by_cases hj : j = i
    · subst hj
      rw [Function.update_self, Function.update_self]
    · rw [Function.update_of_ne hj, Function.update_of_ne hj]
      rfl
  rw [← hslot]
  rfl

end

/-! ### What an owner frees -/

section
variable {o : Owner κ η}

omit [DecidableEq ι] [DecidableEq η]

/-- An owner that holds a handle with a context frees it, whichever class it is of; and no owner
frees a handle it does not hold. -/
theorem toFree_handles (h : ∀ v, o.value = some v → o.ctx.isSome) (c : OwnerClass) :
    (o.toFree c).filterMap Prod.snd = o.value.toList := by
  obtain ⟨ctx, value⟩ := o
  cases value with
  | none => cases c <;> cases ctx <;> rfl
  | some v =>
    cases ctx with
    | none => cases h v rfl
    | some ctx => cases c <;> rfl

/-- What an owner frees is the value it has, in its own context. -/
theorem mem_toFree {c : OwnerClass} {k : κ} {v : η} (h : (k, some v) ∈ o.toFree c) :
    o.ctx = some k ∧ o.value = some v := by
  obtain ⟨ctx, value⟩ := o
  cases c <;> cases ctx <;> cases value <;> simp_all [Owner.toFree]

end

/-! ### One operation

`reset` is the destructor followed by the constructor, and a move assignment from another owner is
the destructor followed by the move constructor. So there are three operations to look at. -/

section
variable {own : η → κ} {c : OwnerClass} {w w' : OwnerWorld ι κ η} {i j : ι}

omit [DecidableEq η]

/-- `reset` is the destructor and then the constructor. -/
theorem step_reset (ctx : Option κ) (v : Option η) : w.step c (.reset i ctx v) =
    (w.step c (.destroy i)).bind fun w' => w'.step c (.construct i ctx v) := by
  simp only [OwnerWorld.step]
  cases hi : w.owners i with
  | none => rfl
  | some t =>
    have hdead : ((w.record (t.reset c).2).set i none).owners i = none := Function.update_self _ _ _
    simp only [Option.bind_some, hdead]
    simp only [OwnerWorld.set, Function.update_idem]
    rfl

/-- Move assignment from another owner is the destructor and then the move constructor. -/
theorem step_moveAssign (hne : i ≠ j) : w.step c (.moveAssign i j) =
    (w.step c (.destroy i)).bind fun w' => w'.step c (.moveConstruct i j) := by
  simp only [OwnerWorld.step]
  cases hi : w.owners i with
  | none => rfl
  | some t =>
    have hdead : ((w.record (t.reset c).2).set i none).owners i = none := Function.update_self _ _ _
    have hother : ((w.record (t.reset c).2).set i none).owners j = w.owners j :=
      Function.update_of_ne (Ne.symm hne) _ _
    simp only [Option.bind_some, hdead, hother]
    cases hj : w.owners j with
    | none => rfl
    | some o =>
      simp only [if_pos hne, OwnerWorld.set, Function.update_comm hne, Function.update_idem]

/-- The invariant of a run. -/
structure Sound (own : η → κ) (w : OwnerWorld ι κ η) : Prop extends OwnContexts own w where
  accounted : (custody w).Accounted

omit [DecidableEq ι] in
/-- At the beginning no owner has anything. -/
theorem sound_initial : Sound own (OwnerWorld.initial : OwnerWorld ι κ η) where
  held := fun _ _ _ h => by cases h
  freed := fun _ _ h => by cases h
  accounted := Custody.Accounted.start

/-- An object that begins, changes or ends keeps the contexts right, if what it holds then comes
with its context. -/
theorem OwnContexts.set (h : OwnContexts own w) {x : Option (Owner κ η)}
    (hx : ∀ o p, x = some o → o.value = some p → o.ctx = some (own p)) (i : ι) :
    OwnContexts own (w.set i x) := by
  refine ⟨fun k o p hk hp => ?_, h.freed⟩
  change Function.update w.owners i x k = some o at hk
  by_cases hki : k = i
  · subst hki
    rw [Function.update_self] at hk
    exact hx o p hk hp
  · rw [Function.update_of_ne hki] at hk
    exact h.held k o p hk hp

/-- A new object keeps the invariant. -/
theorem Sound.construct (h : Sound own w) {ctx : Option κ} {v : Option η} (hfits : Fits own w ctx v)
    (hstep : w.step c (.construct i ctx v) = some w') : Sound own w' := by
  simp only [OwnerWorld.step] at hstep
  split at hstep
  · cases hstep
  · rename_i hi
    cases hstep
    have hset : OwnContexts own (w.set i (some ⟨ctx, v⟩)) :=
      h.set (fun o p ho hp => by cases ho; exact (hfits p hp).1) i
    refine ⟨⟨hset.held, hset.freed⟩, ?_⟩
    have hreceive : custody ((w.set i (some ⟨ctx, v⟩)).handOver v) = (custody w).receive i v := by
      rw [Custody.receive]
      exact congrArg (fun d : Custody ι η => { d with handed := v.toList ++ w.handed })
        (custody_set w i (some ⟨ctx, v⟩))
    rw [hreceive]
    exact (Custody.steps_receive (custody_slot hi) fun p hp => (hfits p hp).2).accounted h.accounted

/-- A move to a new object keeps the invariant. -/
theorem Sound.moveConstruct (h : Sound own w)
    (hstep : w.step c (.moveConstruct i j) = some w') : Sound own w' := by
  simp only [OwnerWorld.step] at hstep
  split at hstep
  · rename_i o hi hj
    cases hstep
    -- The owner that was moved from holds nothing; the new one holds what it held.
    have hfrom : OwnContexts own (w.set j (some o.take.2)) :=
      h.set (fun t p ht hp => by cases ht; cases hp) j
    have hto : OwnContexts own ((w.set j (some o.take.2)).set i (some o.take.1)) :=
      hfrom.set (fun t p ht hp => by cases ht; exact h.held j o p hj hp) i
    refine ⟨hto, ?_⟩
    have htransfer : custody ((w.set j (some o.take.2)).set i (some o.take.1)) =
        (custody w).transfer i j := by
      rw [custody_set, custody_set, Custody.transfer, custody_slot hj]
      rfl
    rw [htransfer]
    exact (Custody.steps_transfer (custody_slot hi) j).accounted h.accounted
  · cases hstep

/-- The end of an object keeps the invariant: it frees the handle that it holds, if any, with the
context of the handle. -/
theorem Sound.destroy (h : Sound own w) (hstep : w.step c (.destroy i) = some w') :
    Sound own w' := by
  simp only [OwnerWorld.step] at hstep
  split at hstep
  · cases hstep
  · rename_i t hi
    cases hstep
    have hrecord : OwnContexts own (w.record (t.reset c).2) := by
      refine ⟨h.held, fun k p hp => ?_⟩
      rcases List.mem_append.mp hp with hnew | hold
      · obtain ⟨hctx, hvalue⟩ := mem_toFree hnew
        rw [h.held i t p hi hvalue, Option.some.injEq] at hctx
        exact hctx.symm
      · exact h.freed k p hold
    refine ⟨hrecord.set (fun o p ho _ => by cases ho) i, ?_⟩
    have hctx : ∀ v, t.value = some v → t.ctx.isSome := by
      intro v hv
      rw [h.held i t v hi hv]
      rfl
    have hvacate : custody ((w.record (t.reset c).2).set i none) = (custody w).vacate i := by
      have hfreed : (t.toFree c ++ w.frees).filterMap Prod.snd =
          t.value.toList ++ w.frees.filterMap Prod.snd := by
        rw [List.filterMap_append, toFree_handles hctx]
      rw [custody_set, Custody.vacate, custody_slot hi]
      exact congrArg (fun f => Custody.mk _ f w.handed) hfreed
    rw [hvacate]
    exact (Custody.steps_vacate (custody w) i).accounted h.accounted

/-- Every operation keeps the invariant. -/
theorem Sound.step (h : Sound own w) {op : OwnerOp ι κ η} (hguard : HandsOnce own w op)
    (hstep : w.step c op = some w') : Sound own w' := by
  cases op with
  | construct i ctx v => exact h.construct hguard hstep
  | moveConstruct i j => exact h.moveConstruct hstep
  | destroy i => exact h.destroy hstep
  | reset i ctx v =>
    rw [step_reset] at hstep
    obtain ⟨w₁, hdestroy, hconstruct⟩ := Option.bind_eq_some_iff.mp hstep
    have hhanded : w₁.handed = w.handed := by
      simp only [OwnerWorld.step] at hdestroy
      split at hdestroy
      · cases hdestroy
      · cases hdestroy
        rfl
    refine (h.destroy hdestroy).construct (fun p hp => ?_) hconstruct
    rw [hhanded]
    exact hguard p hp
  | moveAssign i j =>
    by_cases hne : i = j
    · -- A self-assignment does nothing.
      subst hne
      simp only [OwnerWorld.step, ne_eq, not_true_eq_false, if_false] at hstep
      split at hstep
      · cases hstep
        exact h
      · cases hstep
    · rw [step_moveAssign hne] at hstep
      obtain ⟨w₁, hdestroy, hmove⟩ := Option.bind_eq_some_iff.mp hstep
      exact (h.destroy hdestroy).moveConstruct hmove

end

/-! ### Every sequence of operations -/

section
variable {own : η → κ} {c : OwnerClass} {w : OwnerWorld ι κ η}

omit [DecidableEq ι] [DecidableEq η] in
/-- Who holds a value can be read off the account. -/
theorem holds_iff (i : ι) (p : η) : Holds w i p ↔ (custody w).slot i = some p :=
  Option.bind_eq_some_iff.symm

omit [DecidableEq ι] in
/-- A handle was freed as often as the view says, and each time with its context. -/
theorem freesOf_eq_replicate (h : OwnContexts own w) (p : η) :
    freesOf w p = List.replicate ((custody w).freed.count p) (own p) := by
  obtain ⟨owners, frees, handed⟩ := w
  have hfreed : ∀ k q, (k, some q) ∈ frees → k = own q := h.freed
  show (frees.filter fun f => f.2 = some p).map Prod.fst =
    List.replicate ((frees.filterMap Prod.snd).count p) (own p)
  clear h
  induction frees with
  | nil => rfl
  | cons f frees ih =>
    have hrest := ih fun k q hq => hfreed k q (List.mem_cons_of_mem f hq)
    obtain ⟨k, v⟩ := f
    cases v with
    | none => exact hrest
    | some q =>
      rw [List.filterMap_cons]
      by_cases hq : q = p
      · subst hq
        rw [List.filter_cons_of_pos (by simp), List.map_cons, hrest]
        show _ = List.replicate ((q :: frees.filterMap Prod.snd).count q) (own q)
        rw [List.count_cons_self, List.replicate_succ, hfreed k q List.mem_cons_self]
      · rw [List.filter_cons_of_neg (by simpa using hq), hrest]
        show _ = List.replicate ((q :: frees.filterMap Prod.snd).count p) (own p)
        rw [List.count_cons_of_ne hq]

omit [DecidableEq ι] in
/-- Where a handle is, in a world that meets the invariant. -/
theorem Sound.whereabouts (h : Sound own w) {p : η} (hp : p ∈ w.handed) :
    HeldOnce own w p ∨ FreedOnce own w p := by
  have hfrees := freesOf_eq_replicate h.toOwnContexts p
  rcases h.accounted.whereabouts hp with ⟨i, hi, hunique, hcount⟩ | ⟨hnone, hcount⟩
  · rw [hcount] at hfrees
    obtain ⟨o, ho, hvalue⟩ := (holds_iff i p).mpr hi
    refine Or.inl ⟨⟨i, ?_, fun j hj => hunique j ((holds_iff j p).mp hj)⟩, hfrees⟩
    have hctx := h.held i o p ho hvalue
    rw [ho, ← hctx, ← hvalue]
  · rw [hcount] at hfrees
    exact Or.inr ⟨fun i hi => hnone i ((holds_iff i p).mp hi), hfrees⟩

/-- Whatever a program does with the owners of a class: if it hands each handle out once, with its
context, then every handle is held by exactly one live owner, with its context, and not freed, or
is held by none and was freed exactly once, with its context. What was not handed out is neither
held nor freed; and once no owner is alive every handle has been freed exactly once. -/
theorem ownerRuns_accounted (c : OwnerClass) (own : η → κ) {w : OwnerWorld ι κ η}
    (hrun : Run (OwnerWorld.step c) (HandsOnce own) OwnerWorld.initial w) :
    (∀ h ∈ w.handed, HeldOnce own w h ∨ FreedOnce own w h) ∧
      (∀ h, h ∉ w.handed → (∀ i, ¬Holds w i h) ∧ freesOf w h = []) ∧
      ((∀ i, w.owners i = none) → ∀ h ∈ w.handed, FreedOnce own w h) := by
  have hsound : Sound own w :=
    hrun.invariant (fun w op w' h hguard hstep => h.step hguard hstep) sound_initial
  refine ⟨fun h hh => hsound.whereabouts hh, fun h hnot => ⟨fun i hi => ?_, ?_⟩, fun hend h hh => ?_⟩
  · exact hnot (hsound.accounted.handed_of_slot i h ((holds_iff i h).mp hi))
  · have hcount : (custody w).freed.count h = 0 :=
      List.count_eq_zero_of_not_mem fun hf => hnot (hsound.accounted.handed_of_freed h hf)
    rw [freesOf_eq_replicate hsound.toOwnContexts, hcount]
    rfl
  · -- A handle that is held is held by a live owner.
    refine (hsound.whereabouts hh).resolve_left fun hheld => ?_
    obtain ⟨⟨i, hi, -⟩, -⟩ := hheld
    rw [hend i] at hi
    cases hi

/-- Two values of one context: the first is moved to a new owner, the second is assigned over it,
and both owners are destroyed. -/
def assignOver : List (OwnerOp Nat Unit Nat) :=
  [.construct 0 (some ()) (some 7), .construct 1 none none, .moveConstruct 2 0,
    .reset 1 (some ()) (some 8), .moveAssign 2 1, .moveAssign 2 2, .destroy 2, .destroy 1,
    .destroy 0]

/-- A move assignment over an owner with a value frees that one, once. -/
theorem ownerRuns_accounted_assignOver :
    ∃ w : OwnerWorld Nat Unit Nat,
      Run (OwnerWorld.step .jsValueOwner) (HandsOnce fun _ => ()) OwnerWorld.initial w ∧
        w.handed = [8, 7] ∧ FreedOnce (fun _ => ()) w 7 ∧ FreedOnce (fun _ => ()) w 8 := by
  have hallowed : AllowedList (OwnerWorld.step .jsValueOwner) (HandsOnce fun _ => ())
      OwnerWorld.initial assignOver := by
    simp [assignOver, AllowedList, HandsOnce, Fits, OwnerWorld.step, OwnerWorld.initial,
      OwnerWorld.set, OwnerWorld.handOver, OwnerWorld.record]
  have hrun := run_of_runList hallowed rfl
  have hfreed := (ownerRuns_accounted .jsValueOwner (fun _ => ()) hrun).2.2 fun i =>
    match i with
    | 0 | 1 | 2 => rfl
    | _ + 3 => rfl
  exact ⟨_, hrun, rfl, hfreed 7 (by decide), hfreed 8 (by decide)⟩

end

end EjsBoundary.Proofs
