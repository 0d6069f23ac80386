import EjsBoundary.Model.PyReferences

/-!
# `EjsBoundary.Proofs.PyReferences`: what the Python methods leave behind

`pyMethods_references`: whatever the calls of the C-API return and whatever comes from the core, a
method returns `NULL` with an exception set and every new reference released once, or it returns
its list with no exception set, a dict in every slot, and every other reference released once.

The proof follows the source, with one lemma for each function. `Ledger.Is` says which references
are held and which dicts the list has. `Told` couples it with the error indicator: it is set
exactly when a call has failed.

`requestsOf_eq` connects this model with the one of `EjsBoundary.Model.PyMethods`.
-/

set_option autoImplicit false

namespace EjsBoundary.Proofs

open EjsBoundary.Lib
open EjsBoundary.Model

/-! ### References and the error indicator -/

/-- The slots are these, and an exception is set exactly when a call has failed. -/
def Told (fine : Bool) (slots : List (Option PyRef)) (s : PyState) : Prop :=
  s.slots = slots ∧ (s.raised = none ↔ fine = true)

/-- The dicts of the first turns, each given to the list. -/
def givenDicts : Nat → List (PyRef × PyRef)
  | 0 => []
  | i + 1 => (.dict i, .list) :: givenDicts i

/-- Every dict that was appended is inside the list. -/
theorem snd_of_mem_givenDicts {i : Nat} {p : PyRef × PyRef} (h : p ∈ givenDicts i) :
    p.2 = .list := by
  induction i with
  | zero => cases h
  | succ i ih =>
    rcases List.mem_cons.mp h with heq | h
    · rw [heq]
    · exact ih h

/-- Releasing another reference than the list takes nothing out of it. -/
theorem filter_givenDicts {r : PyRef} (hr : r ≠ .list) (i : Nat) :
    (givenDicts i).filter (fun p => p.2 ≠ r) = givenDicts i := by
  refine List.filter_eq_self.mpr fun p hp => ?_
  rw [snd_of_mem_givenDicts hp]
  exact decide_eq_true (Ne.symm hr)

/-- Releasing the list takes all of them along. -/
theorem filter_givenDicts_list (i : Nat) :
    (givenDicts i).filter (fun p => p.2 ≠ .list) = [] := by
  refine List.filter_eq_nil_iff.mpr fun p hp => ?_
  rw [snd_of_mem_givenDicts hp]
  simp

section
variable {held rest : List PyRef} {given : List (PyRef × PyRef)} {fresh : PyRef → Prop}
  {fine : Bool} {slots : List (Option PyRef)} {r : PyRef} {P : PyState → Prop} {i : Nat}
  {exc : CppException → Ledger PyRef → PyState → Prop} {nev : Ledger PyRef → Prop}

/-- A failing call sets an exception and touches no reference. -/
theorem meets_fail :
    Meets (fun _ => True) (fun l s => l.Is held given fresh ∧ Told fine slots s) fail
      (fun _ l s => l.Is held given fresh ∧ Told false slots s) exc nev := by
  refine Meets.assign fun l s ⟨hl, hslots, _⟩ => ⟨hl, hslots, ?_⟩
  show some PyErr.ofCall = none ↔ false = true
  simp

/-- A new reference is held when there is one, and an exception is set when there is none. -/
theorem meets_newRef (hfresh : fresh r) (succeeds : Bool) :
    Meets (fun _ => True) (fun l s => l.Is held given fresh ∧ Told fine slots s)
      (newRef r succeeds)
      (fun a l s => a = (if succeeds then some r else none) ∧
        l.Is (a.toList ++ held) given (fun g => fresh g ∧ g ≠ r) ∧
        Told (fine && succeeds) slots s) exc nev := by
  cases succeeds with
  | true =>
    rw [newRef, if_pos rfl, Bool.and_true]
    refine Meets.bind (Meets.acquire hfresh) fun _ => ?_
    exact Meets.ret fun l s h => ⟨rfl, h⟩
  | false =>
    rw [newRef, if_neg Bool.false_ne_true, Bool.and_false]
    refine Meets.bind meets_fail fun _ => ?_
    refine Meets.ret fun l s ⟨hl, htold⟩ => ⟨rfl, ?_, htold⟩
    exact hl.weaken (List.Perm.refl held) fun g hg => hg.1

/-- `Py_DECREF` on a held reference gives it up. -/
theorem meets_decref (hr : r ≠ .list) (hheld : held.Perm (r :: rest)) :
    Meets (fun _ => True) (fun l s => l.Is held (givenDicts i) fresh ∧ P s) (decref r)
      (fun _ l s => l.Is rest (givenDicts i) fresh ∧ P s) exc nev :=
  Meets.release hheld (filter_givenDicts hr i)

/-- The list goes with all the dicts it has. -/
theorem meets_decref_list :
    Meets (fun _ => True) (fun l s => l.Is [.list] (givenDicts i) fresh ∧ P s) (decref .list)
      (fun _ l s => l.Is [] [] fresh ∧ P s) exc nev :=
  Meets.release (List.Perm.refl [PyRef.list]) (filter_givenDicts_list i)

/-- `Py_XDECREF` gives up the reference there is, if there is one. -/
theorem meets_xdecref {o : Option PyRef} (hr : o ≠ some .list)
    (hheld : held.Perm (o.toList ++ rest)) :
    Meets (fun _ => True) (fun l s => l.Is held (givenDicts i) fresh ∧ P s) (xdecref o)
      (fun _ l s => l.Is rest (givenDicts i) fresh ∧ P s) exc nev := by
  cases o with
  | none => exact Meets.ret fun l s ⟨hl, hP⟩ => ⟨hl.weaken hheld fun _ hg => hg, hP⟩
  | some r => exact meets_decref (fun heq => hr (congrArg some heq)) hheld

end

/-! ### `py_requests_to_cpp` -/

/-- What a turn of the loop reads. -/
def itemRequest (o : ItemCalls) : Option SolverRequest :=
  if o.getItem && o.isDict && o.hasType && o.hasChallenge && o.typeIsStr && o.challengeIsStr then do
    let type ← o.typeUtf8
    let challenge ← o.challengeUtf8
    return { type := cString type, challenge := cString challenge }
  else none

/-- What the loop reads. -/
def requestsFrom (calls : PyCalls) : Nat → Nat → List SolverRequest → Option (List SolverRequest)
  | 0, _, out => some out
  | n + 1, i, out => (itemRequest (calls.item i)).bind fun req =>
    requestsFrom calls n (i + 1) (out ++ [req])

/-- No item from `i` on has been asked for, and nothing of the responses has been made. -/
def NewItems (i : Nat) : PyRef → Prop
  | .item j => i ≤ j
  | .list | .dict _ | .field _ _ => True

/-- Nothing of the responses has been made. -/
def NewResponses : PyRef → Prop
  | .item _ => False
  | .list | .dict _ | .field _ _ => True

/-- Nothing is held; if something was read, no exception is set. -/
def ReadWith (fresh : PyRef → Prop) {α : Type} (a : Option α) (l : Ledger PyRef) (s : PyState) :
    Prop :=
  l.Is [] [] fresh ∧ s.slots = [] ∧ (a.isSome → s.raised = none)

section
variable {i : Nat} {exc : CppException → Ledger PyRef → PyState → Prop} {nev : Ledger PyRef → Prop}

/-- Reading the text of an item borrows it. -/
theorem meets_asUTF8 {fine : Bool} {slots : List (Option PyRef)} {fresh : PyRef → Prop}
    (utf8 : Option Bytes) :
    Meets (fun _ => True) (fun l s => l.Is [.item i] [] fresh ∧ Told fine slots s)
      (asUTF8 (.item i) utf8)
      (fun a l s => a = utf8 ∧ l.Is [.item i] [] fresh ∧ Told (fine && utf8.isSome) slots s)
      exc nev := by
  unfold asUTF8
  refine Meets.bind (Meets.use (by simp)) fun _ => ?_
  cases utf8 with
  | none =>
    rw [Option.isSome_none, Bool.and_false]
    refine Meets.bind meets_fail fun _ => ?_
    exact Meets.ret fun l s h => ⟨rfl, h⟩
  | some text =>
    rw [Option.isSome_some, Bool.and_true]
    exact Meets.ret fun l s h => ⟨rfl, h⟩

/-- The tests of a turn, once there is a dict. -/
theorem itemRequest_eq_none {o : ItemCalls}
    (h : (!o.hasType || !o.hasChallenge || !o.typeIsStr || !o.challengeIsStr) = true) :
    itemRequest o = none := by
  refine if_neg fun hall => ?_
  simp only [Bool.and_eq_true] at hall
  obtain ⟨⟨⟨⟨-, h₁⟩, h₂⟩, h₃⟩, h₄⟩ := hall
  rw [h₁, h₂, h₃, h₄] at h
  cases h

/-- Every way out of a turn releases the item. -/
theorem meets_readItem (calls : PyCalls) :
    Meets (fun _ => True) (fun l s => l.Is [] [] (NewItems i) ∧ Told true [] s) (readItem calls i)
      (fun a l s => a = itemRequest (calls.item i) ∧ ReadWith (NewItems (i + 1)) a l s)
      exc nev := by
  have hnext : ∀ r, NewItems (i + 1) r → NewItems i r ∧ r ≠ .item i := by
    intro r hr
    cases r with
    | item j =>
      have hlt : i + 1 ≤ j := hr
      refine ⟨Nat.le_of_succ_le hlt, fun heq => ?_⟩
      rw [PyRef.item.injEq] at heq
      omega
    | list => exact ⟨trivial, fun heq => by cases heq⟩
    | dict j => exact ⟨trivial, fun heq => by cases heq⟩
    | field j key => exact ⟨trivial, fun heq => by cases heq⟩
  -- The item is released, and the turn ends with `a`.
  have hexit : ∀ (fine : Bool) (a : Option SolverRequest), a = itemRequest (calls.item i) →
      (a.isSome → fine = true) →
      Meets (fun _ => True)
        (fun l s => l.Is [.item i] [] (fun r => NewItems i r ∧ r ≠ .item i) ∧ Told fine [] s)
        (do decref (.item i); return a : PyProg (Option SolverRequest))
        (fun a l s => a = itemRequest (calls.item i) ∧ ReadWith (NewItems (i + 1)) a l s)
        exc nev := by
    intro fine a ha hfine
    refine Meets.bind (Meets.release (List.Perm.refl _) rfl) fun _ => ?_
    refine Meets.ret fun l s ⟨hl, hslots, hraised⟩ => ⟨ha, ?_, hslots, ?_⟩
    · exact hl.weaken (List.Perm.refl _) hnext
    · exact fun hsome => hraised.mpr (hfine hsome)
  unfold readItem
  refine Meets.bind (meets_newRef (Nat.le_refl i) _) fun a => Meets.of_fact fun ha => ?_
  cases hget : (calls.item i).getItem with
  | false =>
    rw [hget, if_neg Bool.false_ne_true] at ha
    subst ha
    refine Meets.ret fun l s ⟨hl, hslots, _⟩ => ⟨?_, hl.weaken (List.Perm.refl _) hnext, hslots, ?_⟩
    · simp [itemRequest, hget]
    · simp
  | true =>
    rw [hget, if_pos rfl] at ha
    subst ha
    refine Meets.bind (Meets.use (by simp)) fun _ => ?_
    split
    · rename_i hdict
      rw [Bool.not_eq_true'] at hdict
      exact hexit _ none (by simp [itemRequest, hdict]) (by simp)
    rename_i hdict
    refine Meets.bind (Meets.use (by simp)) fun _ => ?_
    refine Meets.bind (Meets.use (by simp)) fun _ => ?_
    split
    · rename_i hstr
      exact hexit _ none (itemRequest_eq_none hstr).symm (by simp)
    rename_i hstr
    have hread : itemRequest (calls.item i) = (calls.item i).typeUtf8.bind fun type =>
        (calls.item i).challengeUtf8.bind fun challenge =>
          some { type := cString type, challenge := cString challenge } := by
      simp only [Bool.or_eq_true, Bool.not_eq_true', not_or, Bool.not_eq_false] at hdict hstr
      obtain ⟨⟨⟨h₁, h₂⟩, h₃⟩, h₄⟩ := hstr
      rw [itemRequest, hget, hdict, h₁, h₂, h₃, h₄]
      rfl
    refine Meets.bind (meets_asUTF8 _) fun typeC => Meets.of_fact fun htype => ?_
    refine Meets.bind (meets_asUTF8 _) fun challengeC => Meets.of_fact fun hchallenge => ?_
    rw [← htype, ← hchallenge] at hread ⊢
    split
    · refine Meets.bind (Meets.use (by simp)) fun _ => ?_
      exact hexit _ _ hread.symm (by simp)
    · rename_i hnot
      refine hexit _ none ?_ (by simp)
      cases htypeC : typeC with
      | none => simpa [htypeC] using hread.symm
      | some type =>
        cases hchallengeC : challengeC with
        | none => simpa [htypeC, hchallengeC] using hread.symm
        | some challenge => exact absurd hchallengeC (hnot type challenge htypeC)

/-- The loop keeps nothing from one turn to the next but the requests it has read. -/
theorem meets_readItems (calls : PyCalls) (n i : Nat) (out : List SolverRequest) :
    Meets (fun _ => True) (fun l s => l.Is [] [] (NewItems i) ∧ Told true [] s)
      (readItems calls n i out)
      (fun a l s => a = requestsFrom calls n i out ∧ ReadWith NewResponses a l s) exc nev := by
  have hnew : ∀ i r, NewResponses r → NewItems i r := by
    intro i r hr
    cases r with
    | item j => exact hr.elim
    | list => trivial
    | dict j => trivial
    | field j key => trivial
  induction n generalizing i out with
  | zero =>
    refine Meets.ret fun l s ⟨hl, hslots, hraised⟩ => ⟨rfl, ?_, hslots, fun _ => hraised.mpr rfl⟩
    exact hl.weaken (List.Perm.refl _) (hnew i)
  | succ n ih =>
    rw [readItems]
    refine Meets.bind (meets_readItem calls) fun a => Meets.of_fact fun ha => ?_
    cases a with
    | none =>
      refine Meets.ret fun l s ⟨hl, hslots, _⟩ => ⟨?_, ?_, hslots, fun h => by cases h⟩
      · rw [requestsFrom, ← ha]
        rfl
      · exact hl.weaken (List.Perm.refl _) (hnew (i + 1))
    | some req =>
      have hrest : requestsFrom calls (n + 1) i out = requestsFrom calls n (i + 1) (out ++ [req]) := by
        rw [requestsFrom, ← ha]
        rfl
      rw [hrest]
      refine (ih (i + 1) (out ++ [req])).weaken (fun l s ⟨hl, hslots, hraised⟩ => ⟨hl, hslots, ?_⟩)
        (fun _ _ _ h => h) (fun _ _ _ h => h) (fun _ h => h)
      exact ⟨fun _ => rfl, fun _ => hraised rfl⟩

/-- What `py_requests_to_cpp` reads. -/
def requestsOf (calls : PyCalls) : Option (List SolverRequest) :=
  if calls.isSequence ∧ 0 ≤ calls.size then requestsFrom calls calls.size.toNat 0 [] else none

/-- `py_requests_to_cpp` leaves no reference, whether it returns or throws. -/
theorem meets_pyRequestsToCpp (calls : PyCalls) :
    Meets (fun _ => True) (fun l s => l.Is [] [] (fun _ => True) ∧ Told true [] s)
      (pyRequestsToCppCalls calls)
      (fun a l s => a = requestsOf calls ∧ ReadWith NewResponses a l s)
      (fun _ l _ => l.Is [] [] (fun _ => False)) nev := by
  unfold pyRequestsToCppCalls requestsOf
  split
  · rename_i hseq
    rw [Bool.not_eq_true'] at hseq
    refine Meets.ret fun l s ⟨hl, hslots, _⟩ => ⟨?_, ?_, hslots, fun h => by cases h⟩
    · simp [hseq]
    · exact hl.weaken (List.Perm.refl _) fun _ _ => trivial
  rename_i hseq
  split
  · rename_i hsize
    refine Meets.bind meets_fail fun _ => ?_
    refine Meets.ret fun l s ⟨hl, hslots, _⟩ => ⟨?_, ?_, hslots, fun h => by cases h⟩
    · rw [if_neg (fun h => by omega)]
    · exact hl.weaken (List.Perm.refl _) fun _ _ => trivial
  rename_i hsize
  cases calls.reserveThrows with
  | some what =>
    exact Meets.throw fun l s ⟨hl, _⟩ => hl.weaken (List.Perm.refl _) fun _ h => h.elim
  | none =>
    rw [if_pos ⟨by simpa using hseq, by omega⟩]
    refine (meets_readItems calls _ 0 []).weaken (fun l s ⟨hl, htold⟩ => ⟨?_, htold⟩)
      (fun _ _ _ h => h) (fun _ _ _ h => h) (fun _ h => h)
    exact hl.weaken (List.Perm.refl _) fun _ _ => trivial

end

/-! ### `responses_to_py` -/

/-- No reference of a turn from `i` on has been made. -/
def NewDicts (i : Nat) : PyRef → Prop
  | .dict j | .field j _ => i ≤ j
  | .item _ | .list => False

/-- The slots after `i` turns, with so many to go. -/
def slotsAt (i left : Nat) : List (Option PyRef) :=
  (List.range i).map (fun j => some (.dict j)) ++ List.replicate left none

/-- Filling the next slot of the list. -/
theorem slotsAt_set (i left : Nat) :
    (slotsAt i (left + 1)).set i (some (.dict i)) = slotsAt (i + 1) left := by
  have hlen : ((List.range i).map fun j => some (PyRef.dict j)).length = i := by simp
  rw [slotsAt, slotsAt, List.set_append_right _ _ (Nat.le_of_eq hlen), hlen, Nat.sub_self,
    List.replicate_succ, List.set_cons_zero, List.range_succ, List.map_append, List.append_assoc]
  rfl

/-- How a turn ends: with nothing left and an exception set, or with its dict in the list. -/
def Added (i left : Nat) (added : Bool) (l : Ledger PyRef) (s : PyState) : Prop :=
  if added then
    l.Is [.list] (givenDicts (i + 1)) (NewDicts (i + 1)) ∧ Told true (slotsAt (i + 1) left) s
  else l.Is [] [] (fun _ => False) ∧ s.raised ≠ none

section
variable {i left : Nat} {exc : CppException → Ledger PyRef → PyState → Prop}
  {nev : Ledger PyRef → Prop} {held rest : List PyRef} {fresh : PyRef → Prop} {fine : Bool}
  {slots : List (Option PyRef)}

/-- Setting a dict item keeps the reference to the value. -/
theorem meets_setItemString {d value : PyRef} (hd : d ∈ held) (hvalue : value ∈ held)
    (succeeds : Bool) :
    Meets (fun _ => True) (fun l s => l.Is held (givenDicts i) fresh ∧ Told fine slots s)
      (setItemString d value succeeds)
      (fun rc l s => rc = !succeeds ∧ l.Is held (givenDicts i) fresh ∧
        Told (fine && succeeds) slots s) exc nev := by
  unfold setItemString
  refine Meets.bind (Meets.use hd) fun _ => ?_
  refine Meets.bind (Meets.use hvalue) fun _ => ?_
  cases succeeds with
  | true =>
    rw [if_pos rfl, Bool.and_true]
    exact Meets.ret fun l s h => ⟨rfl, h⟩
  | false =>
    rw [if_neg Bool.false_ne_true, Bool.and_false]
    refine Meets.bind meets_fail fun _ => ?_
    exact Meets.ret fun l s h => ⟨rfl, h⟩

/-- The way out of a turn that has failed: the dict and the list go. -/
theorem meets_dropDict {P : PyState → Prop} (hfailed : ∀ s, P s → s.raised ≠ none)
    (hheld : held.Perm [.dict i, .list]) :
    Meets (fun _ => True) (fun l s => l.Is held (givenDicts i) fresh ∧ P s)
      (do decref (.dict i); decref .list; return false : PyProg Bool) (Added i left) exc nev := by
  refine Meets.bind (meets_decref (by simp) hheld) fun _ => ?_
  refine Meets.bind meets_decref_list fun _ => ?_
  refine Meets.ret fun l s ⟨hl, hP⟩ => ?_
  exact ⟨hl.weaken (List.Perm.refl _) fun _ h => h.elim, hfailed s hP⟩

/-- The way out when one of the four values is missing. -/
theorem meets_dropFields {typeObj okObj dataObj errObj : Option PyRef} (htype : typeObj ≠ some .list)
    (hok : okObj ≠ some .list) (hdata : dataObj ≠ some .list) (herr : errObj ≠ some .list) :
    Meets (fun _ => True)
      (fun l s => l.Is (typeObj.toList ++ (okObj.toList ++ (dataObj.toList ++ (errObj.toList ++
        [.dict i, .list])))) (givenDicts i) fresh ∧ Told false slots s)
      (do
        xdecref typeObj
        xdecref okObj
        xdecref dataObj
        xdecref errObj
        decref (.dict i)
        decref .list
        return false : PyProg Bool) (Added i left) exc nev := by
  refine Meets.bind (meets_xdecref htype (List.Perm.refl _)) fun _ => ?_
  refine Meets.bind (meets_xdecref hok (List.Perm.refl _)) fun _ => ?_
  refine Meets.bind (meets_xdecref hdata (List.Perm.refl _)) fun _ => ?_
  refine Meets.bind (meets_xdecref herr (List.Perm.refl _)) fun _ => ?_
  exact meets_dropDict (fun s htold hnone => by cases htold.2.mp hnone) (List.Perm.refl _)

/-- The dict with its four values: they are released whatever the calls return, and the dict goes
to the list or away. -/
theorem meets_fillDict (calls : PyCalls) (hfresh : ∀ r, NewDicts (i + 1) r → fresh r) :
    Meets (fun _ => True)
      (fun l s => l.Is [.field i .type, .field i .ok, .field i .data, .field i .error, .dict i, .list]
        (givenDicts i) fresh ∧ Told true (slotsAt i (left + 1)) s)
      (fillDict calls i (.dict i) (.field i .type) (.field i .ok) (.field i .data) (.field i .error))
      (Added i left) exc nev := by
  unfold fillDict
  refine Meets.bind (meets_setItemString (by simp) (by simp) _) fun rc₁ => Meets.of_fact fun h₁ => ?_
  refine Meets.bind (meets_setItemString (by simp) (by simp) _) fun rc₂ => Meets.of_fact fun h₂ => ?_
  refine Meets.bind (meets_setItemString (by simp) (by simp) _) fun rc₃ => Meets.of_fact fun h₃ => ?_
  refine Meets.bind (meets_setItemString (by simp) (by simp) _) fun rc₄ => Meets.of_fact fun h₄ => ?_
  have hrc : (true && calls.setItemString i .type && calls.setItemString i .ok &&
      calls.setItemString i .data && calls.setItemString i .error) =
        !(rc₁ || rc₂ || rc₃ || rc₄) := by
    simp [h₁, h₂, h₃, h₄]
  rw [hrc]
  refine Meets.bind (meets_decref (by simp) (List.Perm.refl _)) fun _ => ?_
  refine Meets.bind (meets_decref (by simp) (List.Perm.refl _)) fun _ => ?_
  refine Meets.bind (meets_decref (by simp) (List.Perm.refl _)) fun _ => ?_
  refine Meets.bind (meets_decref (by simp) (List.Perm.refl _)) fun _ => ?_
  split
  · rename_i hfailed
    rw [hfailed]
    refine meets_dropDict (fun s htold hnone => ?_) (List.Perm.refl _)
    cases htold.2.mp hnone
  · rename_i hfine
    rw [Bool.not_eq_true] at hfine
    rw [hfine]
    unfold listSetItem
    refine Meets.bind (M := fun _ => Added i left true) ?_ fun _ => Meets.ret fun _ _ h => h
    refine Meets.bind (Meets.give (List.Perm.refl _) (by simp) (by simp)) fun _ => ?_
    refine Meets.assign fun l s ⟨hl, hslots, hraised⟩ =>
      ⟨hl.weaken (List.Perm.refl _) hfresh, ?_, hraised⟩
    show s.slots.set i (some (.dict i)) = slotsAt (i + 1) left
    rw [hslots, slotsAt_set]

/-- A call that made a reference has succeeded. -/
theorem newRef_some {r r' : PyRef} {succeeds : Bool}
    (h : some r' = if succeeds then some r else none) : succeeds = true ∧ r' = r := by
  cases succeeds with
  | true => exact ⟨rfl, Option.some.inj h⟩
  | false => cases h

/-- The references made for one response are not the list. -/
theorem newRef_ne_list {r : PyRef} {succeeds : Bool} {o : Option PyRef}
    (h : o = if succeeds then some r else none) (hr : r ≠ .list) : o ≠ some .list := by
  cases succeeds with
  | true =>
    rw [h, if_pos rfl]
    exact fun heq => hr (Option.some.inj heq)
  | false =>
    rw [h, if_neg Bool.false_ne_true]
    exact fun heq => by cases heq

/-- One turn: whichever of its calls fail, nothing is left but the list with one more dict, or
nothing at all. -/
theorem meets_addResponse (calls : PyCalls) (r : SolverResponse) :
    Meets (fun _ => True)
      (fun l s => l.Is [.list] (givenDicts i) (NewDicts i) ∧ Told true (slotsAt i (left + 1)) s)
      (addResponse calls i r) (Added i left) exc nev := by
  have hfield : ∀ key, NewDicts i (.field i key) := fun _ => Nat.le_refl i
  have hlater : ∀ r, NewDicts (i + 1) r → ((((NewDicts i r ∧ r ≠ .dict i) ∧ r ≠ .field i .type) ∧
      r ≠ .field i .ok) ∧ r ≠ .field i .data) ∧ r ≠ .field i .error := by
    intro r hr
    cases r with
    | item j => exact hr.elim
    | list => exact hr.elim
    | dict j =>
      have hlt : i + 1 ≤ j := hr
      have hle : NewDicts i (.dict j) := Nat.le_of_succ_le hlt
      simp [hle]
      omega
    | field j key =>
      have hlt : i + 1 ≤ j := hr
      have hle : NewDicts i (.field j key) := Nat.le_of_succ_le hlt
      have hne : j ≠ i := by omega
      simp [hle, hne]
  unfold addResponse
  refine Meets.bind (meets_newRef (Nat.le_refl i) _) fun d => Meets.of_fact fun hd => ?_
  cases hnew : calls.dictNew i with
  | false =>
    rw [hnew, if_neg Bool.false_ne_true] at hd
    subst hd
    refine Meets.bind meets_decref_list fun _ => ?_
    refine Meets.ret fun l s ⟨hl, _, hraised⟩ => ?_
    exact ⟨hl.weaken (List.Perm.refl _) fun _ h => h.elim, fun hnone => by cases hraised.mp hnone⟩
  | true =>
    rw [hnew, if_pos rfl] at hd
    subst hd
    refine Meets.bind (meets_newRef ⟨hfield .type, by simp⟩ _) fun typeObj =>
      Meets.of_fact fun htype => ?_
    refine Meets.bind (meets_newRef ⟨⟨hfield .ok, by simp⟩, by simp⟩ _) fun okObj =>
      Meets.of_fact fun hok => ?_
    refine Meets.bind (meets_newRef ⟨⟨⟨hfield .data, by simp⟩, by simp⟩, by simp⟩ _) fun dataObj =>
      Meets.of_fact fun hdata => ?_
    refine Meets.bind (meets_newRef ⟨⟨⟨⟨hfield .error, by simp⟩, by simp⟩, by simp⟩, by simp⟩ _)
      fun errObj => Meets.of_fact fun herr => ?_
    split
    · -- All four are there.
      obtain ⟨h₁, rfl⟩ := newRef_some htype
      obtain ⟨h₂, rfl⟩ := newRef_some hok
      obtain ⟨h₃, rfl⟩ := newRef_some hdata
      obtain ⟨h₄, rfl⟩ := newRef_some herr
      rw [h₁, h₂, h₃, h₄]
      refine (meets_fillDict calls hlater).weaken (fun l s ⟨hl, htold⟩ => ⟨?_, htold⟩)
        (fun _ _ _ h => h) (fun _ _ _ h => h) (fun _ h => h)
      exact hl.weaken ((List.reverse_perm [PyRef.field i .type, .field i .ok, .field i .data,
        .field i .error]).append_right [PyRef.dict i, .list]) fun _ h => h
    · -- One is missing, so an exception is set; those that are there are released.
      rename_i hmissing
      have hfailed : (true && true && calls.fromString i .type (cString r.type) &&
          calls.fromLong i r.ok && calls.fromString i .data (cString r.data) &&
          calls.fromString i .error (cString r.error)) = false := by
        rw [← Bool.not_eq_true]
        intro hall
        simp only [Bool.and_eq_true] at hall
        obtain ⟨⟨⟨⟨-, h₁⟩, h₂⟩, h₃⟩, h₄⟩ := hall
        rw [h₁] at htype
        rw [h₂] at hok
        rw [h₃] at hdata
        rw [h₄] at herr
        exact hmissing _ _ _ _ htype hok hdata herr
      rw [hfailed]
      refine (meets_dropFields (newRef_ne_list htype (by simp)) (newRef_ne_list hok (by simp))
        (newRef_ne_list hdata (by simp)) (newRef_ne_list herr (by simp))).weaken
        (fun l s ⟨hl, htold⟩ => ⟨hl.weaken (List.perm_iff_count.mpr fun x => ?_) fun _ h => h, htold⟩)
        (fun _ _ _ h => h) (fun _ _ _ h => h) (fun _ h => h)
      simp only [Option.toList_some, List.cons_append, List.nil_append, List.count_append]
      omega

/-- What is left after `responses_to_py`: nothing, with an exception set, or the list with a dict
in every slot, with none set. -/
def Listed (n : Nat) (a : Option PyRef) (l : Ledger PyRef) (s : PyState) : Prop :=
  match a with
  | none => l.Is [] [] (fun _ => False) ∧ s.raised ≠ none
  | some r => r = .list ∧ l.Is [.list] (givenDicts n) (fun _ => False) ∧ Told true (slotsAt n 0) s

/-- The loop over the responses: every turn leaves one more dict in the list, or nothing held. -/
theorem meets_addResponses (calls : PyCalls) (responses : List SolverResponse) (i : Nat) :
    Meets (fun _ => True)
      (fun l s => l.Is [.list] (givenDicts i) (NewDicts i) ∧
        Told true (slotsAt i responses.length) s)
      (addResponses calls i responses) (Listed (i + responses.length)) exc nev := by
  induction responses generalizing i with
  | nil =>
    refine Meets.ret fun l s ⟨hl, htold⟩ => ⟨rfl, ?_, htold⟩
    exact hl.weaken (List.Perm.refl _) fun _ h => h.elim
  | cons r rest ih =>
    rw [addResponses]
    refine Meets.bind (meets_addResponse calls r) fun added => ?_
    cases added with
    | false => exact Meets.ret fun l s h => h
    | true =>
      have hlength : i + (r :: rest).length = i + 1 + rest.length := by
        rw [List.length_cons]
        omega
      rw [hlength]
      exact ih (i + 1)

/-- A filled list is left, or nothing. -/
theorem meets_responsesToPy (calls : PyCalls) (responses : List SolverResponse) :
    Meets (fun _ => True) (fun l s => l.Is [] [] NewResponses ∧ Told true [] s)
      (responsesToPyCalls calls responses) (Listed responses.length) exc nev := by
  rw [← Nat.zero_add responses.length]
  unfold responsesToPyCalls
  refine Meets.bind (meets_newRef trivial _) fun list => Meets.of_fact fun hlist => ?_
  cases hnew : calls.listNew with
  | false =>
    rw [hnew, if_neg Bool.false_ne_true] at hlist
    subst hlist
    refine Meets.ret fun l s ⟨hl, _, hraised⟩ => ?_
    exact ⟨hl.weaken (List.Perm.refl _) fun _ h => h.elim, fun hnone => by cases hraised.mp hnone⟩
  | true =>
    rw [hnew, if_pos rfl] at hlist
    subst hlist
    refine Meets.bind ?_ fun _ => meets_addResponses calls responses 0
    refine Meets.assign fun l s ⟨hl, _, hraised⟩ => ⟨hl.weaken (List.Perm.refl _) fun r hr => ?_,
      rfl, hraised⟩
    cases r with
    | item j => exact hr.elim
    | list => exact hr.elim
    | dict j => exact ⟨trivial, fun h => by cases h⟩
    | field j key => exact ⟨trivial, fun h => by cases h⟩

end

/-! ### The methods -/

/-- The responses that a method gets from its core. -/
def responsesOf (core : SolveCore) (calls : PyCalls) : Option (List SolverResponse) := do
  let args ← calls.parsed
  let requests ← requestsOf calls
  match core args.first (args.solverDir.getD (lit ".")) (args.meriyahPath.getD (lit "meriyah.umd.js"))
      (args.astringPath.getD (lit "astring.min.js")) requests with
  | .error _ => none
  | .ok responses => some responses

/-- What a method leaves: nothing, with an exception set; or no exception, and the list with one
dict for each response. -/
def Returned (core : SolveCore) (calls : PyCalls) (a : Option PyRef) (l : Ledger PyRef)
    (s : PyState) : Prop :=
  match a with
  | none => l.Is [] [] (fun _ => False) ∧ s.raised ≠ none
  | some r => r = .list ∧ ∃ responses, responsesOf core calls = some responses ∧
    l.Is [.list] (givenDicts responses.length) (fun _ => False) ∧
    Told true (slotsAt responses.length 0) s

section
variable {exc : CppException → Ledger PyRef → PyState → Prop} {nev : Ledger PyRef → Prop}

/-- An exception is set, and `NULL` is returned. -/
theorem meets_errSetString (core : SolveCore) (calls : PyCalls) (err : PyErr)
    {pre : Ledger PyRef → PyState → Prop}
    (hpre : ∀ l s, pre l s → l.Is [] [] (fun _ => False)) :
    Meets (fun _ => True) pre
      (do errSetString calls err; return none : PyProg (Option PyRef)) (Returned core calls) exc nev := by
  refine Meets.bind (M := fun _ => Returned core calls none) ?_ fun _ => Meets.ret fun _ _ h => h
  exact Meets.assign fun l s h => ⟨hpre l s h, Option.some_ne_none _⟩

/-- A method leaves the reference it returns, or nothing. -/
theorem meets_pyMethod (unknownError : Bytes) (core : SolveCore) (calls : PyCalls) :
    Meets (fun _ => True) (fun l s => l.Is [] [] (fun _ => True) ∧ Told true [] s)
      (pyMethod unknownError core calls) (Returned core calls) exc nev := by
  unfold pyMethod
  cases hparsed : calls.parsed with
  | none =>
    refine Meets.bind meets_fail fun _ => ?_
    refine Meets.ret fun l s ⟨hl, _, hraised⟩ => ?_
    exact ⟨hl.weaken (List.Perm.refl _) fun _ h => h.elim, fun hnone => by cases hraised.mp hnone⟩
  | some args =>
    refine Meets.catching (M := fun _ l _ => l.Is [] [] (fun _ => False)) ?_ fun e => ?_
    · refine Meets.bind (meets_pyRequestsToCpp calls) fun a => Meets.of_fact fun ha => ?_
      cases a with
      | none =>
        exact meets_errSetString core calls _ fun l s h =>
          h.1.weaken (List.Perm.refl _) fun _ h => h.elim
      | some requests =>
        have hcore : responsesOf core calls =
            match core args.first (args.solverDir.getD (lit "."))
              (args.meriyahPath.getD (lit "meriyah.umd.js"))
              (args.astringPath.getD (lit "astring.min.js")) requests with
            | .error _ => none
            | .ok responses => some responses := by
          rw [responsesOf, hparsed, ← ha]
          rfl
        dsimp only
        split
        · exact Meets.throw fun l s h => h.1.weaken (List.Perm.refl _) fun _ h => h.elim
        · rename_i responses hok
          rw [hok] at hcore
          refine (meets_responsesToPy calls responses).weaken
            (fun l s ⟨hl, hslots, hraised⟩ => ⟨hl, hslots, fun _ => rfl, fun _ => hraised rfl⟩)
            (fun a l s h => ?_) (fun _ _ _ h => h) (fun _ h => h)
          cases a with
          | none => exact h
          | some r => exact ⟨h.1, responses, hcore, h.2⟩
    · cases e with
      | std what => exact meets_errSetString core calls _ fun l s h => h
      | other => exact meets_errSetString core calls _ fun l s h => h

end

/-- The dicts in the list are those of the responses, one each. -/
theorem givenDicts_perm (n : Nat) :
    (givenDicts n).Perm ((List.range n).map fun i => (.dict i, .list)) := by
  induction n with
  | zero => exact List.Perm.refl []
  | succ n ih =>
    rw [givenDicts, List.range_succ, List.map_append]
    exact (ih.cons _).trans (List.perm_append_singleton _ _).symm

/-- What is asked of a call of a method. It returns `NULL`, an exception is set, and every new
reference was released exactly once; or it returns the list, no exception is set, every slot of the
list has the dict of its response, the list owns each dict once, and every other new reference was
released exactly once. -/
def KeepsReferences (core : SolveCore) (calls : PyCalls)
    (method : SolveCore → PyCalls → PyProg (Option PyRef)) : Prop :=
  match method core calls {} with
  | (trace, s, some (.ok none)) => s.raised ≠ none ∧ Ledger.Leaves trace [] []
  | (trace, s, some (.ok (some r))) =>
    r = .list ∧ s.raised = none ∧ ∃ responses, responsesOf core calls = some responses ∧
      s.slots = (List.range responses.length).map (fun i => some (.dict i)) ∧
      Ledger.Leaves trace [.list] ((List.range responses.length).map fun i => (.dict i, .list))
  -- No C++ exception leaves a method, and it ends.
  | (_, _, some (.error _)) | (_, _, none) => False

/-- What a method leaves says that it keeps the rules of the references. -/
theorem keepsReferences_of_meets {core : SolveCore} {calls : PyCalls}
    {method : SolveCore → PyCalls → PyProg (Option PyRef)}
    (h : Meets (fun _ => True) (fun l s => l.Is [] [] (fun _ => True) ∧ Told true [] s)
      (method core calls) (Returned core calls) (fun _ _ _ => False) (fun _ => False)) :
    KeepsReferences core calls method := by
  obtain ⟨l, hruns, hends⟩ := h Ledger.empty {} ⟨Ledger.is_empty, rfl, fun _ => rfl, fun _ => rfl⟩
  unfold KeepsReferences
  match hresult : method core calls {} with
  | (trace, s, some (.ok none)) =>
    rw [hresult] at hruns hends
    exact ⟨hends.2, hruns.leaves hends.1⟩
  | (trace, s, some (.ok (some r))) =>
    rw [hresult] at hruns hends
    obtain ⟨hr, responses, hresponses, hl, hslots, hraised⟩ := hends
    refine ⟨hr, hraised.mpr rfl, responses, hresponses, ?_, ?_⟩
    · rw [hslots, slotsAt, List.replicate_zero, List.append_nil]
    · exact (hruns.leaves hl).given_perm (givenDicts_perm responses.length)
  | (trace, s, some (.error e)) =>
    rw [hresult] at hends
    exact hends
  | (trace, s, none) =>
    rw [hresult] at hends
    exact hends

/-- Whatever the object given as requests is, whatever comes from the core and whichever calls of
Python fail, both methods keep their references. -/
theorem pyMethods_references (core : SolveCore) (calls : PyCalls) :
    KeepsReferences core calls pySolveRequests ∧
      KeepsReferences core calls pySolveRequestsFromWatch :=
  ⟨keepsReferences_of_meets (meets_pyMethod _ core calls),
    keepsReferences_of_meets (meets_pyMethod _ core calls)⟩

/-! ### The model without references -/

/-- What the calls of a turn return for an item of a Python object. -/
def itemCallsOf (item : Option PyObject) : ItemCalls :=
  let found key := item.bind (PyObject.getItemString key)
  { getItem := item.isSome
    isDict := item.any fun o => match o with | .dict _ => true | _ => false
    hasType := (found "type").isSome
    hasChallenge := (found "challenge").isSome
    typeIsStr := ((found "type").bind PyObject.unicode?).isSome
    challengeIsStr := ((found "challenge").bind PyObject.unicode?).isSome
    typeUtf8 := ((found "type").bind PyObject.unicode?).bind pyUnicodeAsUTF8
    challengeUtf8 := ((found "challenge").bind PyObject.unicode?).bind pyUnicodeAsUTF8 }

/-- The calls on an item give the request that is in it. -/
theorem itemRequest_itemCallsOf (item : Option PyObject) :
    itemRequest (itemCallsOf item) = item.bind readRequest := by
  cases item with
  | none => rfl
  | some item =>
    show _ = readRequest item
    cases item with
    | dict entries =>
      simp only [itemRequest, itemCallsOf, readRequest, requestStrings, Option.bind_some,
        Option.isSome_some, Option.any_some, Bool.true_and, Option.bind_eq_bind]
      cases (PyObject.dict entries).getItemString "type" with
      | none => rfl
      | some type =>
        cases (PyObject.dict entries).getItemString "challenge" with
        | none => cases type.unicode? <;> simp
        | some challenge =>
          cases htype : type.unicode? <;> cases hchallenge : challenge.unicode? <;>
            simp [htype, hchallenge]
    | str s => rfl
    | bool b => rfl
    | list items => rfl
    | sequence size item => rfl
    | other => rfl

/-- The loop over the items reads each of them in order, and stops at one that is no request. -/
theorem requestsFrom_eq {calls : PyCalls} {obj : PyObject}
    (hitem : ∀ i, calls.item i = itemCallsOf (obj.item i)) (n i : Nat) (out : List SolverRequest) :
    requestsFrom calls n i out = ((List.range' i n).mapM fun j => (obj.item j).bind readRequest).map
      (out ++ ·) := by
  induction n generalizing i out with
  | zero =>
    show some out = some (out ++ [])
    rw [List.append_nil]
  | succ n ih =>
    rw [requestsFrom, hitem, itemRequest_itemCallsOf, List.range'_succ, List.mapM_cons]
    cases (obj.item i).bind readRequest with
    | none => rfl
    | some req =>
      show requestsFrom calls n (i + 1) (out ++ [req]) = _
      rw [ih]
      cases (List.range' (i + 1) n).mapM fun j => (obj.item j).bind readRequest with
      | none => rfl
      | some rest =>
        show some ((out ++ [req]) ++ rest) = some (out ++ req :: rest)
        rw [List.append_assoc]
        rfl

/-- When the calls are answered by a Python object, the requests that are read are those of the
model without references. -/
theorem requestsOf_eq {calls : PyCalls} {obj : PyObject} {n : Nat} (hsize : obj.size = some n)
    (hseq : calls.isSequence = true) (hn : calls.size = n)
    (hitem : ∀ i, calls.item i = itemCallsOf (obj.item i)) :
    requestsOf calls = pyRequestsToCpp obj := by
  have hlen : calls.size.toNat = n := by
    rw [hn]
    rfl
  rw [requestsOf, if_pos ⟨hseq, by omega⟩, hlen, requestsFrom_eq hitem, pyRequestsToCpp, hsize,
    ← List.range_eq_range']
  show Option.map _ _ = _
  cases hread : (List.range n).mapM fun j => (obj.item j).bind readRequest with
  | none => exact hread.symm
  | some requests => exact hread.symm

end EjsBoundary.Proofs
