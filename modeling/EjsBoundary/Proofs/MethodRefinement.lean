import EjsBoundary.Model.CommandLine
import EjsBoundary.Proofs.PyReferences

/-!
# `EjsBoundary.Proofs.MethodRefinement`: the methods with and without references

`EjsBoundary.Model.PyReferences` has the two methods as they call Python, with every reference and
the error indicator; `solveMethod` of `EjsBoundary.Model.CommandLine` has them as functions from
values to values. `pyMethod_shows` says that they agree. When the calls are answered as Python
answers them for some arguments (`GivenBy`), the method returns `NULL` with the exception that
`solveMethod` says, or a list with a dict in every slot, one for each item that `solveMethod` says.
-/

set_option autoImplicit false

namespace EjsBoundary.Proofs

open EjsBoundary.Lib
open EjsBoundary.Model

/-! ### What Python answers -/

/-- A core function that returns or throws. -/
abbrev EndingCore := (first solverDir meriyahPath astringPath : Bytes) → List SolverRequest →
  Except Bytes (List SolverResponse)

/-- The exceptions of a core have a `what()`. -/
def EndingCore.throwing (core : EndingCore) : SolveCore :=
  fun first solverDir meriyahPath astringPath requests =>
    (core first solverDir meriyahPath astringPath requests).mapError .std

/-- A core as `solveMethod` takes it. -/
def EndingCore.returning (core : EndingCore) : ValueCore :=
  fun first solverDir meriyahPath astringPath requests =>
    some (core first solverDir meriyahPath astringPath requests)

/-- What a core answers to the arguments that were parsed. -/
def EndingCore.answer (core : EndingCore) (a : PyArgs) (requests : List SolverRequest) :
    Except Bytes (List SolverResponse) :=
  core a.first (a.solverDir.getD (lit ".")) (a.meriyahPath.getD (lit "meriyah.umd.js"))
    (a.astringPath.getD (lit "astring.min.js")) requests

/-- `PySequence_Check`. -/
def isSequence : PyObject → Bool
  | .str _ | .list _ | .sequence _ _ => true
  | .bool _ | .dict _ | .other => false

/-- What `PyArg_ParseTupleAndKeywords` makes of the arguments. -/
def parsedArgs (args : MethodArgs) : Option PyArgs := do
  let first ← parseString args.first
  let solverDir ← parseString args.solverDir
  let meriyahPath ← parseString args.meriyahPath
  let astringPath ← parseString args.astringPath
  return ⟨first, some solverDir, some meriyahPath, some astringPath⟩

/-- The calls of a method are answered as Python answers them for these arguments, with memory for
all that is made. -/
structure GivenBy (calls : PyCalls) (args : MethodArgs) (core : EndingCore) : Prop where
  parsed : calls.parsed = parsedArgs args
  sequence : calls.isSequence = isSequence args.requests
  size : calls.size = (args.requests.size.map Int.ofNat).getD (-1)
  reserve : calls.reserveThrows = none
  item : ∀ i, calls.item i = itemCallsOf (args.requests.item i)
  listNew : calls.listNew = true
  dictNew : ∀ i, calls.dictNew i = true
  fromString : ∀ i key text, calls.fromString i key text = (Utf8.decode? text).isSome
  fromLong : ∀ i b, calls.fromLong i b = true
  setItemString : ∀ i key, calls.setItemString i key = true
  /-- The text of the `TypeError` is UTF-8. -/
  refused : pyRequestsToCpp args.requests = none → calls.setString = true
  /-- The text of an exception may be none. -/
  thrown : ∀ a requests what, parsedArgs args = some a →
    pyRequestsToCpp args.requests = some requests →
    core.answer a requests = .error what →
    calls.setString = (Utf8.decode? (cString what)).isSome

/-- The end of a method shows the outcome. -/
def Shows (result : PyState × Option (Except CppException (Option PyRef))) :
    Option (Except PyErr PyObject) → Prop
  | some (.error err) => result.2 = some (.ok none) ∧ result.1.raised = some err
  | some (.ok (.list items)) =>
    result.2 = some (.ok (some .list)) ∧ result.1.raised = none ∧
      result.1.slots = (List.range items.length).map fun i => some (.dict i)
  | _ => False

/-- A method that shows something has returned. -/
theorem Shows.returned {result : PyState × Option (Except CppException (Option PyRef))}
    {outcome : Option (Except PyErr PyObject)} (h : Shows result outcome) :
    ∃ r, result.2 = some (.ok r) := by
  match outcome with
  | some (.error err) => exact ⟨none, h.1⟩
  | some (.ok (.list items)) => exact ⟨some .list, h.1⟩

/-! ### Reading the requests -/

section
variable {calls : PyCalls} {args : MethodArgs} {core : EndingCore}

/-- What has a size is a sequence. -/
theorem isSequence_of_size {obj : PyObject} {n : Nat} (h : obj.size = some n) :
    isSequence obj = true := by
  cases obj with
  | str s => rfl
  | list items => rfl
  | sequence size item => rfl
  | bool b => cases h
  | dict entries => cases h
  | other => cases h

/-- The requests that are read are those of the model without references. -/
theorem requestsOf_eq_of_givenBy (h : GivenBy calls args core) :
    requestsOf calls = pyRequestsToCpp args.requests := by
  cases hsize : args.requests.size with
  | some n =>
    refine requestsOf_eq hsize ?_ ?_ h.item
    · rw [h.sequence, isSequence_of_size hsize]
    · rw [h.size, hsize]
      rfl
  -- No sequence, or one whose length cannot be told.
  | none =>
    have hneg : ¬ (0 ≤ calls.size) := by
      rw [h.size, hsize]
      decide
    rw [requestsOf, if_neg fun hboth => hneg hboth.2, pyRequestsToCpp, hsize]
    rfl

/-- `py_requests_to_cpp` returns, with no exception set if it has read the requests. -/
theorem pyRequestsToCppCalls_result (h : GivenBy calls args core) :
    (pyRequestsToCppCalls calls {}).2.2 = some (.ok (pyRequestsToCpp args.requests)) ∧
      ((pyRequestsToCpp args.requests).isSome →
        (pyRequestsToCppCalls calls {}).2.1.raised = none) := by
  rw [← requestsOf_eq_of_givenBy h]
  by_cases hread : calls.isSequence = true ∧ 0 ≤ calls.size
  · obtain ⟨a, l, hresult, rfl, -, -, hraised⟩ :=
      (meets_readItems calls calls.size.toNat 0 []).returns
        (show Ledger.empty.Is [] [] (NewItems 0) ∧ Told true [] {} from
          ⟨Ledger.is_empty, rfl, fun _ => rfl, fun _ => rfl⟩)
    have hloop : pyRequestsToCppCalls calls = readItems calls calls.size.toNat 0 [] := by
      rw [pyRequestsToCppCalls, hread.1, h.reserve, if_neg (by decide),
        if_neg (show ¬ calls.size < 0 by omega)]
    rw [requestsOf, if_pos hread, hloop]
    exact ⟨hresult, hraised⟩
  · rw [requestsOf, if_neg hread]
    -- Not a sequence, or one that cannot give its length.
    refine ⟨?_, fun hsome => by cases hsome⟩
    rw [pyRequestsToCppCalls]
    cases hseq : calls.isSequence with
    | false => rfl
    | true =>
      rw [if_neg (by decide), if_pos (Int.not_le.mp fun hle => hread ⟨hseq, hle⟩)]
      rfl

/-! ### Making the list -/

/-- A response becomes a dict when its three texts are UTF-8. -/
theorem responseToPy_isSome (r : SolverResponse) :
    (responseToPy r).isSome = ((Utf8.decode? (cString r.type)).isSome &&
      (Utf8.decode? (cString r.data)).isSome && (Utf8.decode? (cString r.error)).isSome) := by
  unfold responseToPy pyUnicodeFromString
  cases Utf8.decode? (cString r.type) <;> cases Utf8.decode? (cString r.data) <;>
    cases Utf8.decode? (cString r.error) <;> rfl

/-- A turn puts its dict into the list, or fails because a text is not UTF-8. -/
theorem addResponse_result (h : GivenBy calls args core) (i : Nat) (r : SolverResponse)
    (s : PyState) :
    ((responseToPy r).isSome = true → (addResponse calls i r s).2 =
      ({ s with slots := s.slots.set i (some (.dict i)) }, some (.ok true))) ∧
    ((responseToPy r).isSome = false → (addResponse calls i r s).2.2 = some (.ok false) ∧
      (addResponse calls i r s).2.1.raised = some .ofCall) := by
  rw [responseToPy_isSome]
  unfold addResponse fillDict
  simp only [h.dictNew, h.fromString, h.fromLong, h.setItemString]
  cases (Utf8.decode? (cString r.type)).isSome <;> cases (Utf8.decode? (cString r.data)).isSome <;>
    cases (Utf8.decode? (cString r.error)).isSome
  all_goals first
    | exact ⟨fun _ => rfl, fun hnot => absurd hnot (by decide)⟩
    | exact ⟨fun hall => absurd hall (by decide), fun _ => ⟨rfl, rfl⟩⟩

/-- The loop ends with the list, or with the exception of a text that is not UTF-8. -/
theorem addResponses_result (h : GivenBy calls args core) (responses : List SolverResponse) (i : Nat)
    (s : PyState) (hslots : s.slots = slotsAt i responses.length) :
    (∀ items, responses.mapM responseToPy = some items →
      (addResponses calls i responses s).2.2 = some (.ok (some .list)) ∧
      (addResponses calls i responses s).2.1.raised = s.raised ∧
      (addResponses calls i responses s).2.1.slots = slotsAt (i + items.length) 0) ∧
    (responses.mapM responseToPy = none →
      (addResponses calls i responses s).2.2 = some (.ok none) ∧
      (addResponses calls i responses s).2.1.raised = some .ofCall) := by
  induction responses generalizing i s with
  | nil =>
    refine ⟨fun items hitems => ?_, fun hnone => by cases hnone⟩
    cases hitems
    exact ⟨rfl, rfl, hslots⟩
  | cons r rest ih =>
    obtain ⟨hadd, hfail⟩ := addResponse_result h i r s
    rw [addResponses, List.mapM_cons]
    cases hr : responseToPy r with
    | none =>
      -- A text of this response is not UTF-8: the list goes with all it has.
      obtain ⟨hresult, hraised⟩ := hfail (by rw [hr]; rfl)
      refine ⟨fun _ hsome => (by cases hsome), fun _ => ?_⟩
      rw [Prog.bind_of_ok hresult]
      exact ⟨rfl, hraised⟩
    | some dict =>
      have hresult := hadd (by rw [hr]; rfl)
      have hset : s.slots.set i (some (.dict i)) = slotsAt (i + 1) rest.length := by
        rw [hslots, List.length_cons, slotsAt_set]
      obtain ⟨hlist, hnone⟩ := ih (i + 1) { s with slots := s.slots.set i (some (.dict i)) } hset
      rw [Prog.bind_of_ok (congrArg Prod.snd hresult), hresult]
      simp only [if_true]
      cases hrest : rest.mapM responseToPy with
      | none => exact ⟨fun _ hsome => (by cases hsome), fun _ => hnone hrest⟩
      | some dicts =>
        obtain ⟨hend, hraised, hfull⟩ := hlist dicts hrest
        refine ⟨fun items hitems => ?_, fun hnot => by cases hnot⟩
        cases hitems
        refine ⟨hend, hraised, ?_⟩
        rw [hfull, List.length_cons, Nat.add_assoc, Nat.add_comm 1]

/-- `responses_to_py` shows what the model without references makes of the responses. -/
theorem responsesToPyCalls_result (h : GivenBy calls args core) (responses : List SolverResponse)
    {s : PyState} (hraised : s.raised = none) :
    Shows (responsesToPyCalls calls responses s).2 (some (methodResult (.ok responses))) := by
  have hcalls : (responsesToPyCalls calls responses s).2 = (addResponses calls 0 responses
      { s with slots := List.replicate responses.length none }).2 := by
    rw [responsesToPyCalls, h.listNew]
    rfl
  obtain ⟨hlist, hnone⟩ := addResponses_result h responses 0
    { s with slots := List.replicate responses.length none } rfl
  rw [hcalls, methodResult, responsesToPy]
  cases hitems : responses.mapM responseToPy with
  | none => exact hnone hitems
  | some items =>
    obtain ⟨hend, hstill, hslots⟩ := hlist items hitems
    refine ⟨hend, hstill.trans hraised, ?_⟩
    rw [hslots, slotsAt, List.replicate_zero, List.append_nil, Nat.zero_add]

/-! ### The methods -/

/-- The outcome by values, once the arguments are parsed. -/
theorem solveMethod_of_parsed {a : PyArgs} (hparsed : parsedArgs args = some a) :
    solveMethod core.returning args = ((pyRequestsToCpp args.requests).elim
      (some (.error (.typeError
        (lit "requests must be a list of dicts with keys 'type' and 'challenge'"))))
      fun requests => some (methodResult (core.answer a requests))) := by
  rw [parsedArgs] at hparsed
  rw [solveMethod]
  cases hfirst : parseString args.first <;> cases hdir : parseString args.solverDir <;>
    cases hmeriyah : parseString args.meriyahPath <;>
    cases hastring : parseString args.astringPath <;> rw [hfirst, hdir, hmeriyah, hastring] at hparsed <;>
    cases hparsed
  cases pyRequestsToCpp args.requests <;> rfl

/-- Without parsed arguments the exception is that of the call. -/
theorem solveMethod_of_not_parsed (hparsed : parsedArgs args = none) :
    solveMethod core.returning args = some (.error .ofCall) := by
  rw [parsedArgs] at hparsed
  rw [solveMethod]
  cases hfirst : parseString args.first <;> cases hdir : parseString args.solverDir <;>
    cases hmeriyah : parseString args.meriyahPath <;>
    cases hastring : parseString args.astringPath <;> first
    | rfl
    | rw [hfirst, hdir, hmeriyah, hastring] at hparsed
      cases hparsed

/-- What the `try` block does with the requests that were read. -/
def afterRead (core : EndingCore) (calls : PyCalls) (a : PyArgs) :
    Option (List SolverRequest) → PyProg (Option PyRef)
  | none => do
    errSetString calls
      (.typeError (lit "requests must be a list of dicts with keys 'type' and 'challenge'"))
    return none
  | some requests =>
    match (core.answer a requests).mapError CppException.std with
    | .error e => Prog.throw e
    | .ok responses => responsesToPyCalls calls responses

/-- The handlers of a method. -/
def afterThrow (unknownError : Bytes) (calls : PyCalls) (e : CppException) :
    PyProg (Option PyRef) := do
  match e with
  | .std what => errSetString calls (.runtimeError (cString what))
  | .other => errSetString calls (.runtimeError unknownError)
  return none

/-- With parsed arguments the method reads the requests and goes on inside its `try`. -/
theorem pyMethod_of_parsed (unknownError : Bytes) {a : PyArgs} (hparsed : calls.parsed = some a) :
    pyMethod unknownError core.throwing calls =
      Prog.catching (pyRequestsToCppCalls calls >>= afterRead core calls a)
        (afterThrow unknownError calls) := by
  rw [pyMethod, hparsed]
  refine congrArg₂ Prog.catching (congrArg (pyRequestsToCppCalls calls >>= ·) ?_) rfl
  funext requests
  cases requests with
  | none => rfl
  | some requests => rfl

/-- A method whose core is run shows what becomes of the answer. -/
theorem afterRead_shows (h : GivenBy calls args core) (unknownError : Bytes) {a : PyArgs}
    (hparsed : parsedArgs args = some a) {requests : List SolverRequest}
    (hrequests : pyRequestsToCpp args.requests = some requests) :
    Shows (pyMethod unknownError core.throwing calls {}).2
      (some (methodResult (core.answer a requests))) := by
  obtain ⟨hread, hclean⟩ := pyRequestsToCppCalls_result h
  rw [hrequests] at hread hclean
  have hbody : ((pyRequestsToCppCalls calls >>= afterRead core calls a) {}).2 =
      (afterRead core calls a (some requests) (pyRequestsToCppCalls calls {}).2.1).2 :=
    Prog.bind_of_ok hread
  rw [pyMethod_of_parsed unknownError (h.parsed.trans hparsed)]
  cases hanswer : core.answer a requests with
  | ok responses =>
    have hshows := responsesToPyCalls_result h responses (hclean rfl)
    have hresponses : ((pyRequestsToCppCalls calls >>= afterRead core calls a) {}).2 =
        (responsesToPyCalls calls responses (pyRequestsToCppCalls calls {}).2.1).2 := by
      rw [hbody, afterRead, hanswer]
      rfl
    -- It returns, so no handler is entered.
    rw [← hresponses] at hshows
    obtain ⟨r, hreturned⟩ := hshows.returned
    rw [Prog.catching_of_ok hreturned]
    exact hshows
  | error what =>
    have hthrow : ((pyRequestsToCppCalls calls >>= afterRead core calls a) {}).2.2 =
        some (.error (.std what)) := by
      rw [hbody, afterRead, hanswer]
      rfl
    rw [Prog.catching_of_error hthrow]
    -- The handler gives the text to `PyErr_SetString`, which wants UTF-8.
    refine ⟨rfl, ?_⟩
    show some (if calls.setString then PyErr.runtimeError (cString what) else .ofCall) =
      some (runtimeError what)
    rw [h.thrown a requests what hparsed hrequests hanswer, runtimeError]

/-- A method that cannot read its requests says so. -/
theorem afterRead_refuses (h : GivenBy calls args core) (unknownError : Bytes) {a : PyArgs}
    (hparsed : parsedArgs args = some a) (hrequests : pyRequestsToCpp args.requests = none) :
    Shows (pyMethod unknownError core.throwing calls {}).2 (some (.error (.typeError
      (lit "requests must be a list of dicts with keys 'type' and 'challenge'")))) := by
  obtain ⟨hread, -⟩ := pyRequestsToCppCalls_result h
  rw [hrequests] at hread
  have hbody : ((pyRequestsToCppCalls calls >>= afterRead core calls a) {}).2 =
      (afterRead core calls a none (pyRequestsToCppCalls calls {}).2.1).2 :=
    Prog.bind_of_ok hread
  rw [pyMethod_of_parsed unknownError (h.parsed.trans hparsed),
    Prog.catching_of_ok (congrArg Prod.snd hbody), hbody]
  refine ⟨rfl, ?_⟩
  show some (if calls.setString then PyErr.typeError _ else .ofCall) = _
  rw [h.refused hrequests, if_pos rfl]

/-- The method with its references refines the one by values. -/
theorem pyMethod_shows (h : GivenBy calls args core) (unknownError : Bytes) :
    Shows (pyMethod unknownError core.throwing calls {}).2 (solveMethod core.returning args) := by
  cases hparsed : parsedArgs args with
  | none =>
    rw [solveMethod_of_not_parsed hparsed, pyMethod, h.parsed, hparsed]
    exact ⟨rfl, rfl⟩
  | some a =>
    rw [solveMethod_of_parsed hparsed]
    cases hrequests : pyRequestsToCpp args.requests with
    | some requests => exact afterRead_shows h unknownError hparsed hrequests
    | none => exact afterRead_refuses h unknownError hparsed hrequests

end

/-- The calls of a method whose arguments are these. -/
def callsFor (args : MethodArgs) (setString : Bool) : PyCalls where
  parsed := parsedArgs args
  isSequence := isSequence args.requests
  size := (args.requests.size.map Int.ofNat).getD (-1)
  reserveThrows := none
  item := fun i => itemCallsOf (args.requests.item i)
  listNew := true
  dictNew := fun _ => true
  fromString := fun _ _ text => (Utf8.decode? text).isSome
  fromLong := fun _ _ => true
  setItemString := fun _ _ => true
  setString := setString

/-- Two requests, and a core that gives their challenges back. -/
theorem pyMethod_shows_echo :
    let core : EndingCore := fun _ _ _ _ requests =>
      .ok (requests.map fun r => { type := r.type, ok := true, data := r.challenge, error := [] })
    let args := methodArgs (pyStr "base.js")
      [requestDict (pyStr "n") (pyStr "abc"), requestDict (pyStr "sig") (pyStr "é")]
    Shows (pyMethod (lit "unknown") core.throwing (callsFor args true) {}).2
      (solveMethod core.returning args) := by
  intro core args
  refine pyMethod_shows ⟨rfl, rfl, rfl, rfl, fun _ => rfl, rfl, fun _ => rfl, fun _ _ _ => rfl,
    fun _ _ => rfl, fun _ _ => rfl, fun _ => rfl, ?_⟩ _
  intro a requests what _ _ herror
  cases herror

end EjsBoundary.Proofs
