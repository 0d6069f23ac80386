import EjsBoundary.Model.SolverEngine

/-!
# `EjsBoundary.Proofs.SolveReply`: which replies of `jsc` are read by position

`SolverEngine::solve` sends a list of requests to `jsc` and turns the reply into a list of
responses. Its callers pair the two lists by position. The reply is a value the scripts
choose, and the response loop runs over the reply, so the pairing holds only for some
replies. This module says for which.

`readResponse_cases` is the one place that follows the branches of the loop body: an element
is rejected (the call throws), is a result, or is a failure. `readResponses_cases` lifts it
to the whole array. `solveReply_positional_iff` is the answer: `solve` throws or its
responses agree with the requests position by position exactly when the reply is `Faithful`.
-/

set_option autoImplicit false

namespace EjsBoundary.Proofs

open EjsBoundary.Lib
open EjsBoundary.Model

section
variable (showReal : Double → Bytes)

/-! ### One element of the reply -/

/-- The value whose text decides between result and failure. -/
def replyType (r : Json) : Json := (r.member (lit "type")).getD (.string [])

/-- The value whose text is the error of a failure. -/
def replyError (r : Json) : Json :=
  (r.member (lit "error")).getD (.string (lit "unknown solver error"))

/-- The element is taken for a result. -/
def SaysResult (r : Json) : Prop := (replyType r).asString showReal = .ok (lit "result")

/-- The element makes an accessor throw: it has no members, or a text that is asked for is an
array or an object. -/
def Rejected (r : Json) : Prop :=
  ¬ r.HasMembers ∨ ¬ (replyType r).HasText ∨ (¬ SaysResult showReal r ∧ ¬ (replyError r).HasText)

/-- The loop body throws on a rejected element, reads a result, or reads a failure. -/
theorem readResponse_cases (type : Bytes) (r : Json) :
    (Rejected showReal r ∧ ∃ e, readResponse showReal type r = .error e) ∨
    (¬ Rejected showReal r ∧ SaysResult showReal r ∧ readResponse showReal type r =
      .ok { type, ok := true, data := dataText ((r.member (lit "data")).getD .null) }) ∨
    (¬ Rejected showReal r ∧ ¬ SaysResult showReal r ∧ ∃ error, readResponse showReal type r =
      .ok { type, ok := false, error }) := by
  unfold readResponse
  by_cases hm : r.HasMembers
  · rw [Json.get_eq_ok hm]
    show _ ∨ _ ∨ _
    by_cases ht : (replyType r).HasText
    · obtain ⟨t, htext⟩ := Json.asString_eq_ok ht showReal
      have hbind : ((r.member (lit "type")).getD (.string [])).asString showReal = .ok t := htext
      by_cases hres : t = lit "result"
      · -- A result: the data member is read, and nothing else can throw.
        subst hres
        refine Or.inr (Or.inl ⟨?_, htext, ?_⟩)
        · rintro (h | h | ⟨h, -⟩)
          · exact h hm
          · exact h ht
          · exact h htext
        · simp only [bind, Except.bind, hbind, if_pos, Json.index, Json.get_eq_ok hm]
      · have hresult : ¬ SaysResult showReal r := fun h => hres (Except.ok.inj (htext.symm.trans h))
        by_cases he : (replyError r).HasText
        · obtain ⟨e, hetext⟩ := Json.asString_eq_ok he showReal
          have hbind' : ((r.member (lit "error")).getD
              (.string (lit "unknown solver error"))).asString showReal = .ok e := hetext
          refine Or.inr (Or.inr ⟨?_, hresult, e, ?_⟩)
          · rintro (h | h | ⟨-, h⟩)
            · exact h hm
            · exact h ht
            · exact h he
          · simp only [bind, Except.bind, hbind, if_neg hres, Json.get_eq_ok hm, hbind']
        · obtain ⟨e, hetext⟩ := Json.asString_eq_error he showReal
          have hbind' : ((r.member (lit "error")).getD
              (.string (lit "unknown solver error"))).asString showReal = .error e := hetext
          refine Or.inl ⟨Or.inr (Or.inr ⟨hresult, he⟩), e, ?_⟩
          simp only [bind, Except.bind, hbind, if_neg hres, Json.get_eq_ok hm, hbind']
    · obtain ⟨e, htext⟩ := Json.asString_eq_error ht showReal
      have hbind : ((r.member (lit "type")).getD (.string [])).asString showReal = .error e := htext
      refine Or.inl ⟨Or.inr (Or.inl ht), e, ?_⟩
      simp only [bind, Except.bind, hbind]
  · obtain ⟨e, hget⟩ := Json.get_eq_error hm (lit "type") (.string [])
    refine Or.inl ⟨Or.inl hm, e, ?_⟩
    simp only [bind, Except.bind, hget]

/-! ### The whole array -/

/-- The loop throws exactly when an element is rejected. Otherwise it returns one response
for each element, read with the type of the request at its position. -/
theorem readResponses_cases : ∀ (rs : List Json) (requests : List SolverRequest),
    ((∃ r ∈ rs, Rejected showReal r) ∧ ∃ e, readResponses showReal requests rs = .error e) ∨
    ((∀ r ∈ rs, ¬ Rejected showReal r) ∧ ∃ out, readResponses showReal requests rs = .ok out ∧
      out.length = rs.length ∧
      ∀ (i : Nat) (r : Json) (resp : SolverResponse), rs[i]? = some r → out[i]? = some resp →
        readResponse showReal ((requests[i]?.map (·.type)).getD []) r = .ok resp) := by
  intro rs
  induction rs with
  | nil =>
    intro requests
    refine Or.inr ⟨by simp, [], ?_, rfl, by simp⟩
    cases requests <;> rfl
  | cons r rs ih =>
    intro requests
    have hstep : readResponses showReal requests (r :: rs) = (do
        let sr ← readResponse showReal ((requests.head?.map (·.type)).getD []) r
        let out ← readResponses showReal requests.tail rs
        .ok (sr :: out)) := by cases requests <;> rfl
    rw [hstep]
    -- First the head: a rejected head ends the loop.
    have hhead : (Rejected showReal r ∧
          ∃ e, readResponse showReal ((requests.head?.map (·.type)).getD []) r = .error e) ∨
        (¬ Rejected showReal r ∧
          ∃ sr, readResponse showReal ((requests.head?.map (·.type)).getD []) r = .ok sr) := by
      rcases readResponse_cases showReal ((requests.head?.map (·.type)).getD []) r with
        h | ⟨h, -, h'⟩ | ⟨h, -, e, h'⟩
      · exact Or.inl h
      · exact Or.inr ⟨h, _, h'⟩
      · exact Or.inr ⟨h, _, h'⟩
    rcases hhead with ⟨hrej, e, he⟩ | ⟨hnot, sr, hsr⟩
    · refine Or.inl ⟨⟨r, List.mem_cons_self, hrej⟩, e, ?_⟩
      simp only [bind, Except.bind, he]
    · rcases ih requests.tail with ⟨⟨x, hx, hrej⟩, e, he⟩ | ⟨hall, out, hout, hlen, hget⟩
      · refine Or.inl ⟨⟨x, List.mem_cons_of_mem r hx, hrej⟩, e, ?_⟩
        simp only [bind, Except.bind, hsr, he]
      · refine Or.inr ⟨?_, sr :: out, ?_, ?_, ?_⟩
        · intro x hx
          rcases List.mem_cons.mp hx with rfl | hx
          · exact hnot
          · exact hall x hx
        · simp only [bind, Except.bind, hsr, hout]
        · rw [List.length_cons, List.length_cons, hlen]
        · intro i x resp hx hresp
          cases i with
          | zero =>
            cases hx
            cases hresp
            rw [← List.head?_eq_getElem?]
            exact hsr
          | succ i =>
            have hrec := hget i x resp hx hresp
            rwa [List.getElem?_tail] at hrec

/-! ### The claim of the callers -/

/-- The elements of the `responses` array of a reply, none when there is no such array. -/
def replyElems (ret : Json) : Option (List Json) := (ret.member (lit "responses")).bind Json.elems?

/-- The element is a result whose data belongs to `challenge` and has the text `data`: a
string, or an object with that string under the challenge. -/
def ResultFor (challenge data : Bytes) (r : Json) : Prop :=
  r.member (lit "type") = some (.string (lit "result")) ∧
    (r.member (lit "data") = some (.string data) ∨
      ∃ members, r.member (lit "data") = some (.object members) ∧
        members.lookup challenge = some (.string data))

/-- The responses agree with the requests position by position. -/
def Positional (requests : List SolverRequest) (elems : List Json)
    (out : List SolverResponse) : Prop :=
  out.length = requests.length ∧
  ∀ (i : Nat) (req : SolverRequest) (resp : SolverResponse),
    requests[i]? = some req → out[i]? = some resp →
    resp.type = req.type ∧
    (resp.ok = true → ∃ r, elems[i]? = some r ∧ ResultFor req.challenge resp.data r)

/-- The data of a result gives the text of the challenge: it is a string, or an object whose
first string member has the text that stands under the challenge. -/
def DataMatches (challenge : Bytes) (r : Json) : Prop :=
  r.member (lit "type") = some (.string (lit "result")) ∧
    ((∃ s, r.member (lit "data") = some (.string s)) ∨
      ∃ members s, r.member (lit "data") = some (.object members) ∧
        members.lookup challenge = some (.string s) ∧
        members.findSome? (fun m => m.2.string?) = some s)

/-- The replies for which callers may pair by position: those that make `solve` throw, and
those with one element for each request in which every result has matching data. -/
def Faithful (requests : List SolverRequest) (ret : Json) : Prop :=
  ¬ ret.HasMembers ∨ replyElems ret = none ∨
  ∃ elems, replyElems ret = some elems ∧
    ((∃ r ∈ elems, Rejected showReal r) ∨
      (elems.length = requests.length ∧
        ∀ (i : Nat) (req : SolverRequest) (r : Json),
          requests[i]? = some req → elems[i]? = some r →
          SaysResult showReal r → DataMatches req.challenge r))

/-- A result whose data matches is a result for the challenge with the text the loop reads,
and the other way round. -/
theorem resultFor_dataText_iff (challenge : Bytes) (r : Json) :
    ResultFor challenge (dataText ((r.member (lit "data")).getD .null)) r ↔
      DataMatches challenge r := by
  unfold ResultFor DataMatches
  refine and_congr_right fun _ => ?_
  cases hdata : r.member (lit "data") with
  | none => simp
  | some data =>
    cases data with
    | string s => simp [dataText]
    | object members =>
      simp only [Option.getD_some, dataText, Option.some.injEq, Json.object.injEq, reduceCtorEq,
        exists_false, false_or, exists_eq_left', existsAndEq, true_and]
      constructor
      · intro h
        -- The looked up member is a string, so some member is, and the loop finds one.
        cases hfirst : members.findSome? (fun m => m.2.string?) with
        | none =>
          exfalso
          rw [List.findSome?_eq_none_iff] at hfirst
          generalize (members.findSome? fun m => m.2.string?).getD [] = s at h
          obtain ⟨l₁, l₂, hsplit, -⟩ := List.lookup_eq_some_iff.mp h
          have hmem : (challenge, Json.string s) ∈ members := by rw [hsplit]; simp
          exact absurd (hfirst _ hmem) (by simp [Json.string?])
        | some s =>
          rw [hfirst] at h
          exact ⟨s, h, rfl⟩
      · rintro ⟨s, hlook, hfirst⟩
        rw [hfirst]
        exact hlook
    | null => simp
    | bool b => simp
    | int i => simp
    | uint n => simp
    | real d => simp
    | array elems => simp

/-- Reading a reply that has a `responses` array is the response loop; any other reply makes
`solve` throw. -/
theorem solveReply_eq (requests : List SolverRequest) (ret : Json) :
    (∃ elems, ret.HasMembers ∧ replyElems ret = some elems ∧
      solveReply showReal requests ret = readResponses showReal requests elems) ∨
    ((¬ ret.HasMembers ∨ replyElems ret = none) ∧
      ∃ e, solveReply showReal requests ret = .error e) := by
  unfold solveReply Json.index
  by_cases hm : ret.HasMembers
  · rw [Json.get_eq_ok hm]
    cases hmem : ret.member (lit "responses") with
    | none =>
      have hnone : replyElems ret = none := by rw [replyElems, hmem]; rfl
      exact Or.inr ⟨Or.inr hnone, _, rfl⟩
    | some responses =>
      have hreply : replyElems ret = responses.elems? := by rw [replyElems, hmem]; rfl
      cases helems : responses.elems? with
      | none =>
        refine Or.inr ⟨Or.inr (hreply.trans helems),
          lit "Solver-Antwort enthält kein responses-Array", ?_⟩
        simp only [bind, Except.bind, Option.getD_some, helems]
      | some elems =>
        refine Or.inl ⟨elems, hm, hreply.trans helems, ?_⟩
        simp only [bind, Except.bind, Option.getD_some, helems]
  · obtain ⟨e, he⟩ := Json.get_eq_error hm (lit "responses") .null
    refine Or.inr ⟨Or.inl hm, e, ?_⟩
    simp only [bind, Except.bind, he]

/-- For responses the loop returned, agreeing with the requests by position is a matter of
the count and of the data of the results. -/
theorem positional_iff {requests : List SolverRequest} {elems : List Json}
    {out : List SolverResponse} (hlen : out.length = elems.length)
    (hrej : ∀ r ∈ elems, ¬ Rejected showReal r)
    (hget : ∀ (i : Nat) (r : Json) (resp : SolverResponse), elems[i]? = some r →
      out[i]? = some resp →
        readResponse showReal ((requests[i]?.map (·.type)).getD []) r = .ok resp) :
    Positional requests elems out ↔
      elems.length = requests.length ∧
        ∀ (i : Nat) (req : SolverRequest) (r : Json),
          requests[i]? = some req → elems[i]? = some r →
          SaysResult showReal r → DataMatches req.challenge r := by
  unfold Positional
  rw [hlen]
  refine and_congr_right fun hsize => ?_
  constructor
  · intro hpos i req r hreq hr hresult
    obtain ⟨hi, -⟩ := List.getElem?_eq_some_iff.mp hr
    have hi' : i < out.length := by omega
    have hresp : out[i]? = some out[i] := List.getElem?_eq_getElem hi'
    have hread := hget i r _ hr hresp
    rcases readResponse_cases showReal ((requests[i]?.map (·.type)).getD []) r with
      ⟨h, -⟩ | ⟨-, -, h⟩ | ⟨-, h, -⟩
    · exact absurd h (hrej r (List.mem_of_getElem? hr))
    · have heq := Except.ok.inj (hread.symm.trans h)
      obtain ⟨-, hok⟩ := hpos i req _ hreq hresp
      obtain ⟨r', hr', hresult⟩ := hok (by rw [heq])
      rw [hr, Option.some.injEq] at hr'
      subst hr'
      rw [heq] at hresult
      exact (resultFor_dataText_iff req.challenge r).mp hresult
    · exact absurd hresult h
  · intro hmatch i req resp hreq hresp
    obtain ⟨hi, -⟩ := List.getElem?_eq_some_iff.mp hresp
    have hi' : i < elems.length := by omega
    have hr : elems[i]? = some elems[i] := List.getElem?_eq_getElem hi'
    have hread := hget i _ resp hr hresp
    have htype : (requests[i]?.map (·.type)).getD [] = req.type := by rw [hreq]; rfl
    rw [htype] at hread
    rcases readResponse_cases showReal req.type elems[i] with
      ⟨h, -⟩ | ⟨-, hresult, h⟩ | ⟨-, -, e, h⟩
    · exact absurd h (hrej _ (List.mem_of_getElem? hr))
    · have heq := Except.ok.inj (hread.symm.trans h)
      subst heq
      refine ⟨rfl, fun _ => ⟨_, hr, ?_⟩⟩
      exact (resultFor_dataText_iff req.challenge _).mpr (hmatch i req _ hreq hr hresult)
    · have heq := Except.ok.inj (hread.symm.trans h)
      subst heq
      exact ⟨rfl, fun hok => absurd hok (by simp)⟩

/-- `solve` throws, or its responses agree with the requests position by position, exactly
for the faithful replies. -/
theorem solveReply_positional_iff (requests : List SolverRequest) (ret : Json) :
    ((∃ e, solveReply showReal requests ret = .error e) ∨
      ∃ out elems, solveReply showReal requests ret = .ok out ∧ replyElems ret = some elems ∧
        Positional requests elems out) ↔
      Faithful showReal requests ret := by
  unfold Faithful
  rcases solveReply_eq showReal requests ret with ⟨elems, hm, helems, heq⟩ | ⟨hbad, herr⟩
  · rw [heq]
    rcases readResponses_cases showReal elems requests with
      ⟨hrej, herr⟩ | ⟨hrej, out, hout, hlen, hget⟩
    · exact ⟨fun _ => Or.inr (Or.inr ⟨elems, helems, Or.inl hrej⟩), fun _ => Or.inl herr⟩
    · have hiff := positional_iff showReal hlen hrej hget
      constructor
      · rintro (⟨e, he⟩ | ⟨out', elems', hout', helems', hpos⟩)
        · rw [hout] at he
          cases he
        · rw [hout, Except.ok.injEq] at hout'
          rw [helems, Option.some.injEq] at helems'
          subst hout' helems'
          exact Or.inr (Or.inr ⟨_, helems, Or.inr (hiff.mp hpos)⟩)
      · rintro (h | h | ⟨elems', helems', hcase⟩)
        · exact absurd hm h
        · rw [helems] at h
          cases h
        · rw [helems, Option.some.injEq] at helems'
          subst helems'
          rcases hcase with ⟨r, hr, hr'⟩ | hcase
          · exact absurd hr' (hrej r hr)
          · exact Or.inr ⟨out, _, hout, helems, hiff.mpr hcase⟩
  · refine ⟨fun _ => ?_, fun _ => Or.inl herr⟩
    rcases hbad with h | h
    · exact Or.inl h
    · exact Or.inr (Or.inl h)

end

/-! ### `SolverEngine::solve` -/

/-- When `jsc` returns `ret`, `solve` throws or its responses agree with the requests position
by position exactly if `ret` is faithful. -/
theorem solve_positional_iff {Ctx : Type} (js : Js Ctx) (engine : SolverEngine Ctx)
    (requests : List SolverRequest) (ret : Json)
    (hret : engine.callJsc js requests = .ok ret) :
    ((∃ e, engine.solve js requests = .error e) ∨
      ∃ out elems, engine.solve js requests = .ok out ∧ replyElems ret = some elems ∧
        Positional requests elems out) ↔
      Faithful js.showReal requests ret := by
  have hsolve : engine.solve js requests = solveReply js.showReal requests ret := by
    unfold SolverEngine.solve
    rw [hret]
    rfl
  rw [hsolve]
  exact solveReply_positional_iff js.showReal requests ret

/-- An engine whose `jsc` returns one fixed value. -/
def constantJs (ret : Json) : Js Unit where
  newContext := some ()
  evalScript := fun _ _ _ => .ok ()
  jsc := fun _ => some fun _ => .ok ret
  showReal := fun _ => []

/-- An engine over `constantJs`. -/
def constantEngine : SolverEngine Unit :=
  { assets := ⟨[], [], [], [], [], none⟩, ctx := () }

/-- Three requests. -/
def threeRequests : List SolverRequest :=
  [⟨lit "n", lit "a"⟩, ⟨lit "sig", lit "b"⟩, ⟨lit "n", lit "c"⟩]

/-- Their answers: an object with the value under its challenge, an error, and a string. -/
def threeElems : List Json :=
  [.object [(lit "data", .object [(lit "a", .string (lit "A"))]),
     (lit "type", .string (lit "result"))],
   .object [(lit "error", .string (lit "no")), (lit "type", .string (lit "error"))],
   .object [(lit "data", .string (lit "C")), (lit "type", .string (lit "result"))]]

/-- What `solve` reads from them. -/
def threeResponses : List SolverResponse :=
  [{ type := lit "n", ok := true, data := lit "A" },
   { type := lit "sig", ok := false, error := lit "no" },
   { type := lit "n", ok := true, data := lit "C" }]

/-- One element for each request, and the data of both results matches. -/
theorem faithful_threeElems (showReal : Double → Bytes) :
    Faithful showReal threeRequests (.object [(lit "responses", .array threeElems)]) := by
  refine Or.inr (Or.inr ⟨threeElems, rfl, Or.inr ⟨rfl, ?_⟩⟩)
  intro i req r hreq hr hresult
  match i with
  | 0 =>
    cases hreq
    cases hr
    exact ⟨rfl, Or.inr ⟨_, lit "A", rfl, rfl, rfl⟩⟩
  | 1 =>
    cases hr
    cases hresult
  | 2 =>
    cases hr
    exact ⟨rfl, Or.inl ⟨_, rfl⟩⟩
  | i + 3 => cases hr

/-- `solve` pairs the three requests with their own answers. -/
theorem solve_positional_three :
    constantEngine.solve (constantJs (.object [(lit "responses", .array threeElems)]))
        threeRequests = .ok threeResponses ∧
      Positional threeRequests threeElems threeResponses := by
  have hsolve : constantEngine.solve
      (constantJs (.object [(lit "responses", .array threeElems)])) threeRequests =
      .ok threeResponses := rfl
  rcases (solve_positional_iff (constantJs (.object [(lit "responses", .array threeElems)]))
      constantEngine threeRequests _ rfl).mpr (faithful_threeElems _) with
    ⟨e, he⟩ | ⟨out, elems, hout, helems, hpos⟩
  · cases hsolve.symm.trans he
  · cases hsolve.symm.trans hout
    cases helems
    exact ⟨hsolve, hpos⟩

/-- A reply with an empty `responses` array leaves a request without a response, and `solve`
does not throw. -/
theorem solve_not_positional :
    ¬ ∀ (requests : List SolverRequest) (ret : Json),
      (∃ e, constantEngine.solve (constantJs ret) requests = .error e) ∨
        ∃ out elems, constantEngine.solve (constantJs ret) requests = .ok out ∧
          replyElems ret = some elems ∧ Positional requests elems out := by
  intro h
  rcases h [⟨lit "n", lit "c"⟩] (.object [(lit "responses", .array [])]) with
    ⟨e, he⟩ | ⟨out, elems, hout, -, hlen, -⟩
  · cases he
  · have hnil : out = [] := (Except.ok.inj hout).symm
    subst hnil
    cases hlen

end EjsBoundary.Proofs
