import EjsBoundary.Lib.Run
import Mathlib.Data.List.Basic
import Mathlib.Data.List.Nodup

/-!
# `EjsBoundary.Lib.Ownership`: programs that acquire and release handles

A program over handles is seen through the trace of its events: it acquires a handle, uses it,
gives it to a container it holds, or releases it. A `Ledger` is where every handle of a trace is
at some point: held, inside a container, or spent. A step of the ledger is only possible where
the event is legal: a new handle is acquired, and only a held handle is used, given away or
released. Releasing a container spends what is inside it. So a trace that runs through has used
nothing after its release and released nothing twice.

`Prog` is a program with local variables that can throw, run forever or return; what it does is
its trace and the values of its locals, which a handler sees as they were when the exception was
thrown. `Meets` is a rule of pre- and postconditions for it, over ledgers and locals, with one
lemma for each construct. An invariant of the ledger can be asked for at every point of the run.
-/

set_option autoImplicit false

namespace EjsBoundary.Lib

variable {η σ ε α β : Type} [DecidableEq η]

/-! ### Events and ledgers -/

/-- What can happen to a handle. -/
inductive Event (η : Type) where
  | acquire (h : η)
  | use (h : η)
  | give (h container : η)
  | release (h : η)
  deriving DecidableEq

/-- Where the handles are: held by the program, inside a container it gave them to, or spent. -/
structure Ledger (η : Type) where
  held : List η
  inside : List (η × η)
  spent : List η

namespace Ledger

/-- Nothing has been acquired. -/
def empty : Ledger η := ⟨[], [], []⟩

/-- Every handle that has been acquired, wherever it is. -/
def places (l : Ledger η) : List η := l.held ++ (l.inside.map Prod.fst ++ l.spent)

/-- What is inside a container. -/
def contents (l : Ledger η) (container : η) : List η :=
  (l.inside.filter fun p => p.2 = container).map Prod.fst

/-- The ledger after an event, `none` when the event is not legal. -/
def step (l : Ledger η) : Event η → Option (Ledger η)
  | .acquire h => if h ∈ l.places then none else some { l with held := h :: l.held }
  | .use h => if h ∈ l.held then some l else none
  | .give h container =>
    if h ∈ l.held ∧ container ∈ l.held ∧ h ≠ container then
      some { l with held := l.held.erase h, inside := (h, container) :: l.inside }
    else none
  | .release h =>
    if h ∈ l.held then
      some {
        held := l.held.erase h
        inside := l.inside.filter fun p => p.2 ≠ h
        spent := h :: (l.contents h ++ l.spent) }
    else none

/-- The trace leads from one ledger to another, and the invariant holds after every event. -/
def Runs (I : Ledger η → Prop) : Ledger η → List (Event η) → Ledger η → Prop
  | l, [], l' => l' = l
  | l, e :: t, l' => ∃ m, l.step e = some m ∧ I m ∧ Runs I m t l'

variable {I : Ledger η → Prop}

/-- Runs join where one ends and the next begins. -/
theorem Runs.append {l m n : Ledger η} {t u : List (Event η)} (ht : Runs I l t m)
    (hu : Runs I m u n) : Runs I l (t ++ u) n := by
  induction t generalizing l with
  | nil =>
    cases ht
    exact hu
  | cons e t ih =>
    obtain ⟨k, hstep, hI, hrest⟩ := ht
    exact ⟨k, hstep, hI, ih hrest⟩

/-- A trace leads to one ledger only. -/
theorem Runs.unique {J : Ledger η → Prop} {l m n : Ledger η} {t : List (Event η)}
    (hm : Runs I l t m) (hn : Runs J l t n) : m = n := by
  induction t generalizing l with
  | nil => exact Eq.trans hm hn.symm
  | cons e t ih =>
    obtain ⟨k, hk, -, hm⟩ := hm
    obtain ⟨k', hk', -, hn⟩ := hn
    cases hk.symm.trans hk'
    exact ih hm hn

/-- A run splits wherever its trace does. -/
theorem Runs.split {l n : Ledger η} {t u : List (Event η)} (h : Runs I l (t ++ u) n) :
    ∃ m, Runs I l t m ∧ Runs I m u n := by
  induction t generalizing l with
  | nil => exact ⟨l, rfl, h⟩
  | cons e t ih =>
    obtain ⟨k, hstep, hI, hrest⟩ := h
    obtain ⟨m, ht, hu⟩ := ih hrest
    exact ⟨m, ⟨k, hstep, hI, ht⟩, hu⟩

/-- The invariant holds at the end of a run if it held at its start. -/
theorem Runs.invariant {l m : Ledger η} {t : List (Event η)} (h : Runs I l t m) (hl : I l) :
    I m := by
  induction t generalizing l with
  | nil =>
    cases h
    exact hl
  | cons e t ih =>
    obtain ⟨k, _, hI, hrest⟩ := h
    exact ih hrest hI

/-- What every legal step keeps, every run keeps. -/
theorem Runs.keeps {J : Ledger η → Prop} (hstep : ∀ l e m, J l → l.step e = some m → J m)
    {l m : Ledger η} {t : List (Event η)} (h : Runs I l t m) (hl : J l) : J m := by
  induction t generalizing l with
  | nil =>
    cases h
    exact hl
  | cons e t ih =>
    obtain ⟨k, hk, _, hrest⟩ := h
    exact ih hrest (hstep l e k hl hk)

/-! ### What a ledger says about its trace -/

section
variable {l m : Ledger η} {h : η}

/-- A new handle is held from then on. -/
theorem step_acquire : l.step (.acquire h) = some m ↔
    h ∉ l.places ∧ { l with held := h :: l.held } = m := by
  rw [step]
  split <;> simp_all

/-- A use needs a handle that is held and changes nothing. -/
theorem step_use : l.step (.use h) = some m ↔ h ∈ l.held ∧ l = m := by
  rw [step]
  split <;> simp_all

/-- A handle that is held goes into another one that is held. -/
theorem step_give {container : η} : l.step (.give h container) = some m ↔
    (h ∈ l.held ∧ container ∈ l.held ∧ h ≠ container) ∧
      { l with held := l.held.erase h, inside := (h, container) :: l.inside } = m := by
  rw [step]
  split <;> simp_all

/-- Releasing a handle spends it and everything inside it. -/
theorem step_release : l.step (.release h) = some m ↔ h ∈ l.held ∧
    Ledger.mk (l.held.erase h) (l.inside.filter fun p => p.2 ≠ h)
      (h :: (l.contents h ++ l.spent)) = m := by
  rw [step]
  split <;> simp_all

end

/-- An acquired handle is new; every other event moves handles from one place to another. -/
theorem places_step {l m : Ledger η} {e : Event η} (h : l.step e = some m) :
    (∃ g, e = .acquire g ∧ g ∉ l.places ∧ m.places = g :: l.places) ∨
    ((∀ g, e ≠ .acquire g) ∧ m.places.Perm l.places) := by
  cases e with
  | acquire g =>
    obtain ⟨hnew, rfl⟩ := step_acquire.mp h
    exact Or.inl ⟨g, rfl, hnew, rfl⟩
  | use g =>
    obtain ⟨-, rfl⟩ := step_use.mp h
    exact Or.inr ⟨fun _ => by simp, List.Perm.refl _⟩
  | give g container =>
    obtain ⟨⟨hheld, -⟩, rfl⟩ := step_give.mp h
    refine Or.inr ⟨fun _ => by simp, ?_⟩
    -- The handle goes from the front of one list to the front of the next.
    show (l.held.erase g ++ (g :: (l.inside.map Prod.fst ++ l.spent))).Perm l.places
    exact List.perm_middle.trans (((List.perm_cons_erase hheld).symm).append_right _)
  | release g =>
    obtain ⟨hheld, rfl⟩ := step_release.mp h
    refine Or.inr ⟨fun _ => by simp, ?_⟩
    have hsplit : ((l.inside.filter fun p => p.2 ≠ g).map Prod.fst ++ l.contents g).Perm
        (l.inside.map Prod.fst) := by
      rw [contents, ← List.map_append]
      refine List.Perm.map _ ?_
      have hperm := List.filter_append_perm (fun p : η × η => decide (p.2 ≠ g)) l.inside
      simpa using hperm
    show (l.held.erase g ++ ((l.inside.filter fun p => p.2 ≠ g).map Prod.fst ++
      g :: (l.contents g ++ l.spent))).Perm l.places
    -- First the handle to the front, then the contents back to the rest of the containers.
    refine (List.perm_middle.append_left (l.held.erase g)).trans ?_
    refine List.perm_middle.trans ?_
    rw [← List.append_assoc ((l.inside.filter fun p => p.2 ≠ g).map Prod.fst)]
    exact ((List.perm_cons_erase hheld).symm).append (hsplit.append_right _)

/-- No handle is in two places, or twice in one. -/
theorem Runs.nodup {t : List (Event η)} {m : Ledger η} (h : Runs I empty t m) :
    m.places.Nodup := by
  refine h.keeps (J := fun l => l.places.Nodup) (fun l e m hl hstep => ?_) List.nodup_nil
  rcases places_step hstep with ⟨g, -, hnew, hm⟩ | ⟨-, hperm⟩
  · rw [hm]
    exact List.nodup_cons.mpr ⟨hnew, hl⟩
  · exact hperm.nodup_iff.mpr hl

/-- The handles of a ledger are the ones the trace acquired. -/
theorem Runs.mem_places {t : List (Event η)} {l m : Ledger η} (h : Runs I l t m) (g : η) :
    g ∈ m.places ↔ g ∈ l.places ∨ .acquire g ∈ t := by
  induction t generalizing l with
  | nil =>
    cases h
    simp
  | cons e t ih =>
    obtain ⟨k, hstep, -, hrest⟩ := h
    rw [ih hrest, List.mem_cons]
    rcases places_step hstep with ⟨g', rfl, -, hm⟩ | ⟨hnot, hperm⟩
    · rw [hm, List.mem_cons, Event.acquire.injEq]
      tauto
    · rw [hperm.mem_iff]
      have hne : .acquire g ≠ e := fun heq => hnot g heq.symm
      simp [hne]

/-- A handle that is spent was released, when nothing is given away. -/
theorem Runs.mem_spent (hI : ∀ l, I l → l.inside = []) {t : List (Event η)} {l m : Ledger η}
    (hl : l.inside = []) (h : Runs I l t m) (g : η) :
    g ∈ m.spent ↔ g ∈ l.spent ∨ .release g ∈ t := by
  induction t generalizing l with
  | nil =>
    cases h
    simp
  | cons e t ih =>
    obtain ⟨k, hstep, hk, hrest⟩ := h
    rw [ih (hI k hk) hrest, List.mem_cons]
    cases e with
    | release g' =>
      obtain ⟨-, rfl⟩ := step_release.mp hstep
      simp only [contents, hl, List.filter_nil, List.map_nil, List.nil_append, List.mem_cons,
        Event.release.injEq]
      tauto
    | acquire g' =>
      obtain ⟨-, rfl⟩ := step_acquire.mp hstep
      simp
    | use g' =>
      obtain ⟨-, rfl⟩ := step_use.mp hstep
      simp
    | give g' container =>
      obtain ⟨-, rfl⟩ := step_give.mp hstep
      simp

end Ledger

/-- The trace has acquired the handle and not released it. -/
def Open (t : List (Event η)) (h : η) : Prop := .acquire h ∈ t ∧ .release h ∉ t

/-- Every handle of the trace is acquired once, used and released only while it is open, and
released exactly once. -/
structure WellManaged (t : List (Event η)) : Prop where
  once : ∀ h, .acquire h ∈ t → t.count (.acquire h) = 1 ∧ t.count (.release h) = 1
  used : ∀ front back h, t = front ++ .use h :: back → Open front h
  released : ∀ front back h, t = front ++ .release h :: back → Open front h

namespace Ledger

variable {I : Ledger η → Prop}

/-- When nothing is given away, the held handles are the open ones. -/
theorem Runs.mem_held (hI : ∀ l, I l → l.inside = []) {t : List (Event η)} {m : Ledger η}
    (h : Runs I empty t m) (g : η) : g ∈ m.held ↔ Open t g := by
  have hplaces := h.mem_places g
  have hspent := h.mem_spent hI rfl g
  have hinside : m.inside = [] := by
    cases t with
    | nil => rw [show m = empty from h]; rfl
    | cons e t =>
      obtain ⟨k, _, hk, hrest⟩ := h
      exact hI m (hrest.invariant hk)
  have hnodup := h.nodup
  simp only [places, hinside, List.map_nil, List.nil_append, empty, List.not_mem_nil, false_or,
    List.mem_append] at hplaces hspent
  rw [places, hinside, List.map_nil, List.nil_append, List.nodup_append'] at hnodup
  unfold Open
  rw [← hplaces, ← hspent]
  constructor
  · intro hheld
    exact ⟨Or.inl hheld, fun hs => hnodup.2.2 hheld hs⟩
  · intro ⟨hor, hnot⟩
    exact hor.resolve_right hnot

/-- An event that never has itself in front of it occurs once. -/
theorem count_eq_one {t : List (Event η)} {e : Event η} (hmem : e ∈ t)
    (hfirst : ∀ front back, t = front ++ e :: back → e ∉ front) : t.count e = 1 := by
  obtain ⟨front, back, rfl, hfront⟩ := List.eq_append_cons_of_mem hmem
  have hback : e ∉ back := by
    intro hb
    obtain ⟨b₁, b₂, rfl, -⟩ := List.eq_append_cons_of_mem hb
    exact hfirst (front ++ e :: b₁) b₂ (by simp) (by simp)
  rw [List.count_append, List.count_cons_self, List.count_eq_zero_of_not_mem hfront,
    List.count_eq_zero_of_not_mem hback]

/-- A trace that runs through and leaves nothing held is well managed. -/
theorem Runs.wellManaged (hI : ∀ l, I l → l.inside = []) {t : List (Event η)} {m : Ledger η}
    (h : Runs I empty t m) (hend : m.held = []) : WellManaged t := by
  have hheld : ∀ front back e g, t = front ++ e :: back →
      (∀ k n : Ledger η, k.step e = some n → g ∈ k.held) → Open front g := by
    intro front back e g ht hlegal
    obtain ⟨k, hfront, n, hstep, -⟩ := (ht ▸ h).split
    exact (hfront.mem_held hI g).mp (hlegal k n hstep)
  have hused : ∀ front back g, t = front ++ .use g :: back → Open front g := by
    intro front back g ht
    exact hheld front back _ g ht fun k n hstep => (step_use.mp hstep).1
  have hreleased : ∀ front back g, t = front ++ .release g :: back → Open front g := by
    intro front back g ht
    exact hheld front back _ g ht fun k n hstep => (step_release.mp hstep).1
  refine ⟨fun g hacquired => ⟨?_, ?_⟩, hused, hreleased⟩
  · refine count_eq_one hacquired fun front back ht hmem => ?_
    obtain ⟨k, hfront, n, hstep, -⟩ := (ht ▸ h).split
    exact (step_acquire.mp hstep).1 ((hfront.mem_places g).mpr (Or.inr hmem))
  · -- Nothing is held at the end, so the acquired handle was released.
    have hmem : .release g ∈ t := by
      by_contra hnot
      have hg := (h.mem_held hI g).mpr ⟨hacquired, hnot⟩
      rw [hend] at hg
      cases hg
    exact count_eq_one hmem fun front back ht hm => (hreleased front back g ht).2 hm

end Ledger

/-! ### Programs -/

/-- A program: from the values of its locals, the events it causes, the values of the locals when
it ends, and how it ends. `none` is a program that neither returns nor throws: it runs forever or
dies. -/
def Prog (η σ ε α : Type) := σ → List (Event η) × σ × Option (Except ε α)

/-- What the caller of a program sees of it. -/
abbrev Call (η ε α : Type) := List (Event η) × Option (Except ε α)

namespace Prog

omit [DecidableEq η]

/-- A returned value. -/
def ret (a : α) : Prog η σ ε α := fun s => ([], s, some (.ok a))

/-- A thrown exception. -/
def throw (e : ε) : Prog η σ ε α := fun s => ([], s, some (.error e))

/-- What neither returns nor throws. -/
def never : Prog η σ ε α := fun s => ([], s, none)

/-- One event. -/
def emit (e : Event η) : Prog η σ ε Unit := fun s => ([e], s, some (.ok ()))

/-- The values of the locals. -/
def locals : Prog η σ ε σ := fun s => ([], s, some (.ok s))

/-- An assignment to the locals. -/
def assign (f : σ → σ) : Prog η σ ε Unit := fun s => ([], f s, some (.ok ()))

/-- One program after the other. -/
def andThen (p : Prog η σ ε α) (f : α → Prog η σ ε β) : Prog η σ ε β := fun s =>
  match p s with
  | (t, s', some (.ok a)) => (t ++ (f a s').1, (f a s').2)
  | (t, s', some (.error e)) => (t, s', some (.error e))
  | (t, s', none) => (t, s', none)

instance : Monad (Prog η σ ε) where
  pure := ret
  bind := andThen

/-- `try` with a handler for every exception. -/
def catching (p : Prog η σ ε α) (handler : ε → Prog η σ ε α) : Prog η σ ε α := fun s =>
  match p s with
  | (t, s', some (.error e)) => (t ++ (handler e s').1, (handler e s').2)
  | (t, s', some (.ok a)) => (t, s', some (.ok a))
  | (t, s', none) => (t, s', none)

/-- A scope with a destructor, which runs however the body ends. -/
def finallyDo (body : Prog η σ ε α) (destructor : Prog η σ ε Unit) : Prog η σ ε α := do
  let a ← catching body fun e => do
    destructor
    throw e
  destructor
  return a

/-- A call whose exception its caller sees as a value. -/
def attempt (p : Prog η σ ε α) : Prog η σ ε (Except ε α) :=
  catching (do
      let a ← p
      return .ok a)
    fun e => return .error e

/-- A call of another function, which has locals of its own. -/
def call (c : Call η ε α) : Prog η σ ε α := fun s => (c.1, s, c.2)

/-- A function: a program started with its locals. -/
def run (p : Prog η σ ε α) (s : σ) : Call η ε α := ((p s).1, (p s).2.2)

/-- Where the first part returns, the second goes on from where it left off. -/
theorem bind_of_ok {p : Prog η σ ε α} {f : α → Prog η σ ε β} {s : σ} {a : α}
    (h : (p s).2.2 = some (.ok a)) : ((p >>= f) s).2 = (f a (p s).2.1).2 := by
  show (andThen p f s).2 = _
  unfold andThen
  match hps : p s with
  | (t, s', some (.ok b)) =>
    rw [hps] at h
    cases h
    rfl
  | (t, s', some (.error e)) =>
    rw [hps] at h
    cases h
  | (t, s', none) =>
    rw [hps] at h
    cases h

/-- Where the first part throws, the whole does. -/
theorem bind_of_error {p : Prog η σ ε α} {f : α → Prog η σ ε β} {s : σ} {e : ε}
    (h : (p s).2.2 = some (.error e)) : ((p >>= f) s).2.2 = some (.error e) := by
  show (andThen p f s).2.2 = _
  unfold andThen
  match hps : p s with
  | (t, s', some (.ok b)) =>
    rw [hps] at h
    cases h
  | (t, s', some (.error e')) =>
    rw [hps] at h
    cases h
    rfl
  | (t, s', none) =>
    rw [hps] at h
    cases h

/-- A handler has no part in what does not throw. -/
theorem catching_of_ok {p : Prog η σ ε α} {handler : ε → Prog η σ ε α} {s : σ} {a : α}
    (h : (p s).2.2 = some (.ok a)) : (catching p handler s).2 = (p s).2 := by
  unfold catching
  match hps : p s with
  | (t, s', some (.ok b)) => rfl
  | (t, s', some (.error e)) =>
    rw [hps] at h
    cases h
  | (t, s', none) => rfl

/-- A handler goes on where the exception was thrown. -/
theorem catching_of_error {p : Prog η σ ε α} {handler : ε → Prog η σ ε α} {s : σ} {e : ε}
    (h : (p s).2.2 = some (.error e)) : (catching p handler s).2 = (handler e (p s).2.1).2 := by
  unfold catching
  match hps : p s with
  | (t, s', some (.ok b)) =>
    rw [hps] at h
    cases h
  | (t, s', some (.error e')) =>
    rw [hps] at h
    cases h
    rfl
  | (t, s', none) =>
    rw [hps] at h
    cases h

/-- A handler that throws on does not change how a program ends. -/
theorem catching_rethrow {p : Prog η σ ε α} {cleanup : Prog η σ ε Unit} {s : σ}
    (h : ∀ s', (cleanup s').2.2 = some (.ok ())) :
    (catching p (fun e => do cleanup; throw e) s).2.2 = (p s).2.2 := by
  unfold catching
  match hps : p s with
  | (t, s', some (.ok b)) => rfl
  | (t, s', some (.error e)) =>
    have hthrow : ((cleanup >>= fun _ => throw e : Prog η σ ε α) s').2 =
        ((throw e : Prog η σ ε α) (cleanup s').2.1).2 := bind_of_ok (h s')
    show ((cleanup >>= fun _ => throw e : Prog η σ ε α) s').2.2 = some (.error e)
    rw [hthrow]
    rfl
  | (t, s', none) => rfl

end Prog

/-! ### Pre- and postconditions -/

/-- What holds when a program ends: `post` when it returns, `exc` when it throws and `nev` when it
runs forever. -/
def Ends (post : α → Ledger η → σ → Prop) (exc : ε → Ledger η → σ → Prop) (nev : Ledger η → Prop) :
    Option (Except ε α) → Ledger η → σ → Prop
  | some (.ok a), l, s => post a l s
  | some (.error e), l, s => exc e l s
  | none, l, _ => nev l

omit [DecidableEq η] in
/-- The three conditions can be weakened. -/
theorem Ends.imp {post post' : α → Ledger η → σ → Prop} {exc exc' : ε → Ledger η → σ → Prop}
    {nev nev' : Ledger η → Prop} (hpost : ∀ a l s, post a l s → post' a l s)
    (hexc : ∀ e l s, exc e l s → exc' e l s) (hnev : ∀ l, nev l → nev' l)
    {result : Option (Except ε α)} {l : Ledger η} {s : σ} (h : Ends post exc nev result l s) :
    Ends post' exc' nev' result l s := by
  cases result with
  | none => exact hnev l h
  | some result =>
    cases result with
    | ok a => exact hpost a l s h
    | error e => exact hexc e l s h

omit [DecidableEq η] in
/-- What is asked for however the program ends holds. -/
theorem Ends.of_all {Q : Ledger η → Prop} {result : Option (Except ε α)} {l : Ledger η} {s : σ}
    (h : Ends (fun _ l _ => Q l) (fun _ l _ => Q l) Q result l s) : Q l := by
  cases result with
  | none => exact h
  | some result => cases result <;> exact h

/-- From every ledger and locals that meet `pre` the program runs legally, with the invariant after
every event, and ends with what is asked for. -/
def Meets (I : Ledger η → Prop) (pre : Ledger η → σ → Prop) (p : Prog η σ ε α)
    (post : α → Ledger η → σ → Prop) (exc : ε → Ledger η → σ → Prop) (nev : Ledger η → Prop) : Prop :=
  ∀ l s, pre l s → ∃ l', Ledger.Runs I l (p s).1 l' ∧
    Ends post exc nev (p s).2.2 l' (p s).2.1

namespace Meets

variable {I : Ledger η → Prop} {pre : Ledger η → σ → Prop}
  {exc : ε → Ledger η → σ → Prop} {nev : Ledger η → Prop}

/-- The rule of `pure`. -/
theorem ret {post : α → Ledger η → σ → Prop} {a : α} (h : ∀ l s, pre l s → post a l s) :
    Meets I pre (pure a : Prog η σ ε α) post exc nev :=
  fun l s hpre => ⟨l, rfl, h l s hpre⟩

/-- The rule of `throw`. -/
theorem throw {post : α → Ledger η → σ → Prop} {e : ε} (h : ∀ l s, pre l s → exc e l s) :
    Meets I pre (Prog.throw e : Prog η σ ε α) post exc nev :=
  fun l s hpre => ⟨l, rfl, h l s hpre⟩

/-- The rule of a part that does not end. -/
theorem never {post : α → Ledger η → σ → Prop} (h : ∀ l s, pre l s → nev l) :
    Meets I pre (Prog.never : Prog η σ ε α) post exc nev :=
  fun l s hpre => ⟨l, rfl, h l s hpre⟩

/-- The rule of an event: the ledger takes it, and the invariant holds behind it. -/
theorem emit {post : Unit → Ledger η → σ → Prop} {e : Event η}
    (h : ∀ l s, pre l s → ∃ l', l.step e = some l' ∧ I l' ∧ post () l' s) :
    Meets I pre (Prog.emit e : Prog η σ ε Unit) post exc nev := by
  intro l s hpre
  obtain ⟨l', hstep, hI, hpost⟩ := h l s hpre
  exact ⟨l', ⟨l', hstep, hI, rfl⟩, hpost⟩

/-- The rule of reading the local variables. -/
theorem locals {post : σ → Ledger η → σ → Prop} (h : ∀ l s, pre l s → post s l s) :
    Meets I pre (Prog.locals : Prog η σ ε σ) post exc nev :=
  fun l s hpre => ⟨l, rfl, h l s hpre⟩

/-- The rule of an assignment. -/
theorem assign {post : Unit → Ledger η → σ → Prop} {f : σ → σ}
    (h : ∀ l s, pre l s → post () l (f s)) :
    Meets I pre (Prog.assign f : Prog η σ ε Unit) post exc nev :=
  fun l s hpre => ⟨l, rfl, h l s hpre⟩

/-- One program after the other: what the first one meets is what the second one starts from. -/
theorem bind {p : Prog η σ ε α} {f : α → Prog η σ ε β} {M : α → Ledger η → σ → Prop}
    {post : β → Ledger η → σ → Prop} (hp : Meets I pre p M exc nev)
    (hf : ∀ a, Meets I (M a) (f a) post exc nev) : Meets I pre (p >>= f) post exc nev := by
  intro l s hpre
  obtain ⟨m, hruns, hmid⟩ := hp l s hpre
  show ∃ l', Ledger.Runs I l (Prog.andThen p f s).1 l' ∧
    Ends post exc nev (Prog.andThen p f s).2.2 l' (Prog.andThen p f s).2.1
  unfold Prog.andThen
  match hps : p s with
  | (t, s', some (.ok a)) =>
    rw [hps] at hruns hmid
    obtain ⟨n, hrest, hpost⟩ := hf a m s' hmid
    exact ⟨n, hruns.append hrest, hpost⟩
  | (t, s', some (.error e)) =>
    rw [hps] at hruns hmid
    exact ⟨m, hruns, hmid⟩
  | (t, s', none) =>
    rw [hps] at hruns hmid
    exact ⟨m, hruns, hmid⟩

/-- A handler starts from what the exception left, the locals included. -/
theorem catching {p : Prog η σ ε α} {handler : ε → Prog η σ ε α} {M : ε → Ledger η → σ → Prop}
    {post : α → Ledger η → σ → Prop} (hp : Meets I pre p post M nev)
    (hh : ∀ e, Meets I (M e) (handler e) post exc nev) :
    Meets I pre (Prog.catching p handler) post exc nev := by
  intro l s hpre
  obtain ⟨m, hruns, hmid⟩ := hp l s hpre
  unfold Prog.catching
  match hps : p s with
  | (t, s', some (.error e)) =>
    rw [hps] at hruns hmid
    obtain ⟨n, hrest, hpost⟩ := hh e m s' hmid
    exact ⟨n, hruns.append hrest, hpost⟩
  | (t, s', some (.ok a)) =>
    rw [hps] at hruns hmid
    exact ⟨m, hruns, hmid⟩
  | (t, s', none) =>
    rw [hps] at hruns hmid
    exact ⟨m, hruns, hmid⟩

/-- The destructor starts from what the body left, whether it returned or threw. -/
theorem finallyDo {body : Prog η σ ε α} {destructor : Prog η σ ε Unit}
    {M : α → Ledger η → σ → Prop} {E : ε → Ledger η → σ → Prop} {post : α → Ledger η → σ → Prop}
    (hbody : Meets I pre body M E nev)
    (hret : ∀ a, Meets I (M a) destructor (fun _ => post a) exc nev)
    (hexc : ∀ e, Meets I (E e) destructor (fun _ => exc e) exc nev) :
    Meets I pre (Prog.finallyDo body destructor) post exc nev := by
  refine bind (catching hbody fun e => ?_) fun a => ?_
  · exact bind (hexc e) fun _ => throw fun _ _ h => h
  · exact bind (hret a) fun _ => ret fun _ _ h => h

/-- The rule of a `try` that keeps what was thrown. -/
theorem attempt {p : Prog η σ ε α} {post : Except ε α → Ledger η → σ → Prop}
    (hp : Meets I pre p (fun a => post (.ok a)) (fun e => post (.error e)) nev) :
    Meets I pre (Prog.attempt p) post exc nev :=
  catching (bind hp fun _ => ret fun _ _ h => h) fun _ => ret fun _ _ h => h

/-- A stronger precondition and weaker postconditions. -/
theorem weaken {p : Prog η σ ε α} {pre' : Ledger η → σ → Prop} {post post' : α → Ledger η → σ → Prop}
    {exc' : ε → Ledger η → σ → Prop} {nev' : Ledger η → Prop} (hp : Meets I pre p post exc nev)
    (hpre : ∀ l s, pre' l s → pre l s) (hpost : ∀ a l s, post a l s → post' a l s)
    (hexc : ∀ e l s, exc e l s → exc' e l s) (hnev : ∀ l, nev l → nev' l) :
    Meets I pre' p post' exc' nev' := by
  intro l s h
  obtain ⟨m, hruns, hmid⟩ := hp l s (hpre l s h)
  exact ⟨m, hruns, hmid.imp hpost hexc hnev⟩

/-- A program that neither throws nor goes on forever returns. -/
theorem returns {p : Prog η σ ε α} {post : α → Ledger η → σ → Prop} {l : Ledger η} {s : σ}
    (h : Meets I pre p post (fun _ _ _ => False) (fun _ => False)) (hpre : pre l s) :
    ∃ a l', (p s).2.2 = some (.ok a) ∧ post a l' (p s).2.1 := by
  obtain ⟨l', -, hends⟩ := h l s hpre
  cases hresult : (p s).2.2 with
  | none =>
    rw [hresult] at hends
    exact hends.elim
  | some result =>
    rw [hresult] at hends
    cases result with
    | error e => exact hends.elim
    | ok a => exact ⟨a, l', rfl, hends⟩

/-- A precondition that says nothing about the ledger and the locals is a hypothesis. -/
theorem of_fact {p : Prog η σ ε α} {φ : Prop} {post : α → Ledger η → σ → Prop}
    (h : φ → Meets I pre p post exc nev) : Meets I (fun l s => φ ∧ pre l s) p post exc nev :=
  fun l s hpre => h hpre.1 l s hpre.2

/-- A call keeps the locals of the caller. -/
theorem call {c : Call η ε α} {post : α → Ledger η → σ → Prop}
    (h : ∀ l s, pre l s → ∃ l', Ledger.Runs I l c.1 l' ∧ Ends post exc nev c.2 l' s) :
    Meets I pre (Prog.call c : Prog η σ ε α) post exc nev :=
  h

/-- A function, seen by its caller, when it leaves the ledger in the same condition however it
ends. -/
theorem run {p : Prog η σ ε α} {start : Ledger η → Prop} {s : σ} {Q : Ledger η → Prop}
    (h : Meets I (fun l s' => start l ∧ s' = s) p (fun _ l _ => Q l) (fun _ l _ => Q l) Q)
    {l : Ledger η} (hl : start l) : ∃ l', Ledger.Runs I l (p.run s).1 l' ∧ Q l' := by
  obtain ⟨m, hruns, hends⟩ := h l s ⟨hl, rfl⟩
  exact ⟨m, hruns, hends.of_all⟩

end Meets

/-! ### A ledger by what is held, inside and new -/

namespace Ledger

/-- These handles are held, in any order, these are inside containers, and the fresh ones have not
been acquired. -/
structure Is (held : List η) (given : List (η × η)) (fresh : η → Prop) (l : Ledger η) : Prop where
  held : l.held.Perm held
  given : l.inside = given
  fresh : ∀ h, fresh h → h ∉ l.places

variable {l : Ledger η} {held rest : List η} {given : List (η × η)} {fresh : η → Prop} {h : η}

omit [DecidableEq η] in
/-- At the beginning nothing is held, and every handle is new. -/
theorem is_empty {fresh : η → Prop} : (empty : Ledger η).Is [] [] fresh :=
  ⟨List.Perm.refl [], rfl, fun _ _ hmem => by cases hmem⟩

omit [DecidableEq η] in
/-- The order of the held handles does not matter, and fewer handles may be called new. -/
theorem Is.weaken {held' : List η} {fresh' : η → Prop} (hl : l.Is held given fresh)
    (hheld : held.Perm held') (hfresh : ∀ h, fresh' h → fresh h) : l.Is held' given fresh' :=
  ⟨hl.held.trans hheld, hl.given, fun h hh => hl.fresh h (hfresh h hh)⟩

/-- Acquiring a new handle adds it to the held ones. It is not new any more. -/
theorem Is.acquire (hl : l.Is held given fresh) (hfresh : fresh h) :
    ∃ l', l.step (.acquire h) = some l' ∧
      l'.Is (h :: held) given (fun g => fresh g ∧ g ≠ h) := by
  refine ⟨{ l with held := h :: l.held }, step_acquire.mpr ⟨hl.fresh h hfresh, rfl⟩,
    hl.held.cons h, hl.given, ?_⟩
  intro g ⟨hg, hne⟩ hmem
  rcases List.mem_cons.mp hmem with heq | hmem
  · exact hne heq
  · exact hl.fresh g hg hmem

/-- A held handle can be used. -/
theorem Is.use (hl : l.Is held given fresh) (hmem : h ∈ held) : l.step (.use h) = some l :=
  step_use.mpr ⟨hl.held.mem_iff.mpr hmem, rfl⟩

/-- Releasing a held handle takes it from the held ones, and what was given to it with it. -/
theorem Is.release (hl : l.Is held given fresh) (hheld : held.Perm (h :: rest)) :
    ∃ l', l.step (.release h) = some l' ∧
      l'.Is rest (given.filter fun p => p.2 ≠ h) fresh := by
  have hmem : h ∈ l.held := (hl.held.trans hheld).mem_iff.mpr List.mem_cons_self
  have hstep := step_release.mpr ⟨hmem, rfl⟩
  refine ⟨_, hstep, ?_, ?_, ?_⟩
  · have herase := (hl.held.trans hheld).erase h
    rw [List.erase_cons_head] at herase
    exact herase
  · show l.inside.filter _ = _
    rw [hl.given]
  · intro g hg hplaces
    rcases places_step hstep with ⟨_, heq, -⟩ | ⟨-, hperm⟩
    · cases heq
    · exact hl.fresh g hg (hperm.mem_iff.mp hplaces)

/-- Giving a held handle away moves it from the held ones to the given ones. -/
theorem Is.give {container : η} (hl : l.Is held given fresh) (hheld : held.Perm (h :: rest))
    (hcontainer : container ∈ rest) (hne : h ≠ container) :
    ∃ l', l.step (.give h container) = some l' ∧ l'.Is rest ((h, container) :: given) fresh := by
  have hmem : h ∈ l.held := (hl.held.trans hheld).mem_iff.mpr List.mem_cons_self
  have hin : container ∈ l.held :=
    (hl.held.trans hheld).mem_iff.mpr (List.mem_cons_of_mem h hcontainer)
  have hstep := step_give.mpr ⟨⟨hmem, hin, hne⟩, rfl⟩
  refine ⟨_, hstep, ?_, ?_, ?_⟩
  · have herase := (hl.held.trans hheld).erase h
    rw [List.erase_cons_head] at herase
    exact herase
  · show _ :: l.inside = _
    rw [hl.given]
  · intro g hg hplaces
    rcases places_step hstep with ⟨_, heq, -⟩ | ⟨-, hperm⟩
    · cases heq
    · exact hl.fresh g hg (hperm.mem_iff.mp hplaces)

/-- The trace is legal, and at its end exactly these handles are held and these are inside
containers; every other handle that it acquired has been released exactly once, by itself or with
the container it was in. -/
def Leaves (t : List (Event η)) (held : List η) (given : List (η × η)) : Prop :=
  ∃ l, Runs (fun _ => True) empty t l ∧ l.held.Perm held ∧ l.inside.Perm given ∧
    ∀ h, .acquire h ∈ t → h ∉ held → h ∉ given.map Prod.fst → l.spent.count h = 1

/-- What holds of the ledger behind a run is what the run leaves. -/
theorem Runs.leaves {t : List (Event η)} (hruns : Runs (fun _ => True) empty t l)
    (hl : l.Is held given fresh) : Leaves t held given := by
  refine ⟨l, hruns, hl.held, hl.given ▸ List.Perm.refl _, fun h hacquired hheld hgiven => ?_⟩
  have hspent : h ∈ l.spent := by
    have hplaces := (hruns.mem_places h).mpr (Or.inr hacquired)
    rw [places, List.mem_append, List.mem_append, hl.held.mem_iff, hl.given] at hplaces
    exact (hplaces.resolve_left hheld).resolve_left hgiven
  have hnodup : l.spent.Nodup := (hruns.nodup.sublist (List.sublist_append_right _ _)).sublist
    (List.sublist_append_right _ _)
  exact List.count_eq_one_of_mem hnodup hspent

/-- The order of the given handles does not matter. -/
theorem Leaves.given_perm {t : List (Event η)} {given' : List (η × η)} (h : Leaves t held given)
    (hperm : given.Perm given') : Leaves t held given' := by
  obtain ⟨l, hruns, hheld, hinside, hspent⟩ := h
  refine ⟨l, hruns, hheld, hinside.trans hperm, fun h hacquired hnot hnot' => ?_⟩
  exact hspent h hacquired hnot fun hmem => hnot' ((hperm.map Prod.fst).mem_iff.mp hmem)

end Ledger

namespace Meets

variable {held rest : List η} {given : List (η × η)} {fresh : η → Prop} {h : η} {P : σ → Prop}
  {exc : ε → Ledger η → σ → Prop} {nev : Ledger η → Prop}

/-- The rule of acquiring a new handle. -/
theorem acquire (hfresh : fresh h) :
    Meets (fun _ => True) (fun l s => l.Is held given fresh ∧ P s)
      (Prog.emit (.acquire h) : Prog η σ ε Unit)
      (fun _ l s => l.Is (h :: held) given (fun g => fresh g ∧ g ≠ h) ∧ P s) exc nev := by
  refine Meets.emit fun l s ⟨hl, hP⟩ => ?_
  obtain ⟨l', hstep, hl'⟩ := hl.acquire hfresh
  exact ⟨l', hstep, trivial, hl', hP⟩

/-- The rule of using a held handle. -/
theorem use (hmem : h ∈ held) :
    Meets (fun _ => True) (fun l s => l.Is held given fresh ∧ P s)
      (Prog.emit (.use h) : Prog η σ ε Unit) (fun _ l s => l.Is held given fresh ∧ P s) exc nev :=
  Meets.emit fun l _ ⟨hl, hP⟩ => ⟨l, hl.use hmem, trivial, hl, hP⟩

/-- What was inside the handle goes with it. -/
theorem release {given' : List (η × η)} (hheld : held.Perm (h :: rest))
    (hgiven : (given.filter fun p => p.2 ≠ h) = given') :
    Meets (fun _ => True) (fun l s => l.Is held given fresh ∧ P s)
      (Prog.emit (.release h) : Prog η σ ε Unit)
      (fun _ l s => l.Is rest given' fresh ∧ P s) exc nev := by
  refine Meets.emit fun l s ⟨hl, hP⟩ => ?_
  obtain ⟨l', hstep, hl'⟩ := hl.release hheld
  rw [hgiven] at hl'
  exact ⟨l', hstep, trivial, hl', hP⟩

/-- The rule of giving a held handle to another. -/
theorem give {container : η} (hheld : held.Perm (h :: rest)) (hcontainer : container ∈ rest)
    (hne : h ≠ container) :
    Meets (fun _ => True) (fun l s => l.Is held given fresh ∧ P s)
      (Prog.emit (.give h container) : Prog η σ ε Unit)
      (fun _ l s => l.Is rest ((h, container) :: given) fresh ∧ P s) exc nev := by
  refine Meets.emit fun l s ⟨hl, hP⟩ => ?_
  obtain ⟨l', hstep, hl'⟩ := hl.give hheld hcontainer hne
  exact ⟨l', hstep, trivial, hl', hP⟩

end Meets

end EjsBoundary.Lib
