import EjsBoundary.Proofs.ChunkedDetection
import EjsBoundary.Proofs.Http

/-!
# `EjsBoundary.Proofs.RedirectChain`: the chain of requests of one call

What `https_request` does against any servers, called with `redirectDepth` 0. A server answers a
request as it likes and may remember all that came before, so a statement about every `Server` is
one about every way a chain of redirects can go.

`httpsRequestFrom_chain` is the induction over the depth: the call used up its depth on
followable responses, or it ended at the first exchange that is none. `RedirectSpec` collects
what the call promises, and `redirectSpec_iff` says that it keeps all of it exactly when no reply
it gets has a chunked body in which a size leads `decode_chunked` back to where it was. That is the
only way in which a call does not end, and `EndlessReply.wraps` says that such a size wraps around
2^64.
-/

set_option autoImplicit false

namespace EjsBoundary.Proofs

open EjsBoundary.Lib
open EjsBoundary.Model

/-! ### Responses -/

/-- The exchange was answered with this response. -/
def Answered (trim : Bytes → Bytes) (e : Exchange) (r : HttpResponse) : Prop :=
  ∃ resp, e.outcome = .reply resp ∧ readHttpResponse trim resp = some (.ok r)

/-- A followable redirect: a status from 300 to 399 and a `Location` that is an https URL of the
accepted form or starts with `/`. -/
def Followable (trim : Bytes → Bytes) (r : HttpResponse) : Prop :=
  300 ≤ r.status ∧ r.status < 400 ∧
    ∃ m, regexSearch locationPattern r.headers = some m ∧
      ((regexMatch redirectPattern (trim ((m.lookup 1).getD []))).isSome = true ∨
        (trim ((m.lookup 1).getD [])).head? = some 0x2F)

/-- A reply whose head passes for chunked, with a size line in its body that leads `decode_chunked`
back to a position it was at. -/
def EndlessReply (trim : Bytes → Bytes) (resp : Bytes) : Prop :=
  ∃ pos, findText (lit "\r\n\r\n") resp 0 = some pos ∧
    (findText chunkedText ((resp.take pos).map toLower) 0).isSome = true ∧
    Circles (chunkTurn trim (resp.drop (pos + 4))) 0

section
variable {trim : Bytes → Bytes}

/-- Reading a reply never ends exactly for the endless ones. -/
theorem readHttpResponse_eq_none_iff {resp : Bytes} :
    readHttpResponse trim resp = none ↔ EndlessReply trim resp := by
  unfold readHttpResponse EndlessReply
  cases hfind : findText (lit "\r\n\r\n") resp 0 with
  | none => simp
  | some pos =>
    simp only [Option.some.injEq, exists_eq_left']
    show (if (findText chunkedText ((resp.take pos).map toLower) 0).isSome = true then _
      else _) = none ↔ _
    by_cases hsome : (findText chunkedText ((resp.take pos).map toLower) 0).isSome = true
    · rw [if_pos hsome, Option.map_eq_none_iff, decodeChunked_eq_none_iff_circles]
      exact ⟨fun h => ⟨hsome, h⟩, fun h => h.2⟩
    · rw [if_neg hsome]
      constructor
      · intro h
        cases h
      · intro h
        exact absurd h.1 hsome

/-- In an endless reply some size, added to its position, reaches 2^64. -/
theorem EndlessReply.wraps {resp : Bytes} (h : EndlessReply trim resp) :
    ∃ pos, findText (lit "\r\n\r\n") resp 0 = some pos ∧ ¬ NoWrap trim (resp.drop (pos + 4)) := by
  obtain ⟨pos, hfind, -, hcircles⟩ := h
  refine ⟨pos, hfind, fun hno => ?_⟩
  obtain ⟨l, hl⟩ := hno.exists_trail
  exact hl.not_circles hcircles

/-- Nothing but a missing empty line makes a reply unreadable. -/
theorem readHttpResponse_eq_error {resp what : Bytes}
    (h : readHttpResponse trim resp = some (.error what)) : what = lit "bad HTTP response" := by
  unfold readHttpResponse at h
  split at h
  · exact (Except.error.inj (Option.some.inj h)).symm
  · dsimp only at h
    split at h
    · obtain ⟨decoded, -, hok⟩ := Option.map_eq_some_iff.mp h
      cases hok
    · cases h

/-- A `Location` of the accepted form starts with `https://`. -/
theorem isPrefixOf_of_redirectPattern {loc : Bytes}
    (h : (regexMatch redirectPattern loc).isSome = true) : (lit "https://").isPrefixOf loc = true := by
  obtain ⟨caps, hmatch⟩ := Option.isSome_iff_exists.mp h
  obtain ⟨host, rest, habs, -⟩ := captures_of_redirectPattern hmatch
  exact habs.isPrefixOf

/-- The redirects the source follows are the followable ones, whatever host they come from. -/
theorem followable_iff (host : Bytes) (r : HttpResponse) :
    Followable trim r ↔
      ∃ loc target, locationOf trim r = some loc ∧ redirectTarget host loc = some target := by
  have htarget : ∀ loc : Bytes, (∃ target, redirectTarget host loc = some target) ↔
      (regexMatch redirectPattern loc).isSome = true ∨ loc.head? = some 0x2F := by
    intro loc
    rw [← Option.isSome_iff_exists]
    unfold redirectTarget
    by_cases hhttps : (lit "https://").isPrefixOf loc = true
    · rw [if_pos hhttps, Option.isSome_map]
      refine ⟨Or.inl, fun hor => hor.elim id fun hslash => ?_⟩
      -- A text that starts with `https://` does not start with a slash.
      obtain ⟨rest, rfl⟩ := List.isPrefixOf_iff_prefix.mp hhttps
      cases hslash
    · rw [if_neg hhttps]
      have hno : ¬ (regexMatch redirectPattern loc).isSome = true :=
        fun h => hhttps (isPrefixOf_of_redirectPattern h)
      by_cases hslash : loc.head? = some 0x2F
      · simp [hslash]
      · simp [hslash, hno]
  unfold Followable locationOf
  by_cases hstatus : 300 ≤ r.status ∧ r.status < 400
  · rw [if_pos hstatus]
    simp only [hstatus, true_and, Option.map_eq_some_iff]
    constructor
    · intro ⟨m, hm, hor⟩
      obtain ⟨target, ht⟩ := (htarget _).mpr hor
      exact ⟨_, target, ⟨m, hm, rfl⟩, ht⟩
    · intro ⟨loc, target, ⟨m, hm, hloc⟩, ht⟩
      subst hloc
      exact ⟨m, hm, (htarget _).mp ⟨target, ht⟩⟩
  · rw [if_neg hstatus]
    constructor
    · intro ⟨hlow, hhigh, _⟩
      exact absurd ⟨hlow, hhigh⟩ hstatus
    · intro ⟨loc, target, hloc, _⟩
      cases hloc

/-- A reply has at most one reading. -/
theorem Answered.unique {e : Exchange} {r r' : HttpResponse} (h : Answered trim e r)
    (h' : Answered trim e r') : r = r' := by
  obtain ⟨resp, hreply, hread⟩ := h
  obtain ⟨resp', hreply', hread'⟩ := h'
  rw [hreply] at hreply'
  cases hreply'
  rw [hread] at hread'
  exact Except.ok.inj (Option.some.inj hread')

/-! ### How an exchange ends a call -/

/-- An exchange that is followed was answered with a followable redirect. -/
theorem followable_of_afterOutcome {e : Exchange} {next : Bytes × Bytes × Bytes}
    (h : afterOutcome trim e.host e.outcome = .inr next) :
    ∃ r, Answered trim e r ∧ Followable trim r := by
  obtain ⟨loc, host', path'⟩ := next
  obtain ⟨resp, r, hreply, hread, hloc, htarget⟩ := afterOutcome_eq_inr h
  exact ⟨r, ⟨resp, hreply, hread⟩, (followable_iff e.host r).mpr ⟨loc, _, hloc, htarget⟩⟩

/-- An exchange that ends the call was not answered with a followable redirect. -/
theorem not_followable_of_afterOutcome {e : Exchange} {result : Option (Except Bytes HttpResponse)}
    (h : afterOutcome trim e.host e.outcome = .inl result) :
    ¬ ∃ r, Answered trim e r ∧ Followable trim r := by
  intro ⟨r, ⟨resp, hreply, hread⟩, hfollowable⟩
  obtain ⟨loc, ⟨host', path'⟩, hloc, htarget⟩ := (followable_iff e.host r).mp hfollowable
  simp only [hreply, afterOutcome, hread, hloc, htarget] at h
  cases h

/-- The exchange got an endless reply. -/
def Endless (trim : Bytes → Bytes) (e : Exchange) : Prop :=
  ∃ resp, e.outcome = .reply resp ∧ EndlessReply trim resp

/-- A request that was answered did not get one of these. -/
theorem Answered.not_endless {e : Exchange} {r : HttpResponse} (h : Answered trim e r) :
    ¬ Endless trim e := by
  intro ⟨resp, hreply, hendless⟩
  obtain ⟨resp', hreply', hread⟩ := h
  rw [hreply] at hreply'
  cases hreply'
  rw [readHttpResponse_eq_none_iff.mpr hendless] at hread
  cases hread

/-- The exceptions of a connection have texts of their own. -/
theorem what_ne_tooMany (host : Bytes) (failure : ConnectFailure) :
    failure.what host ≠ lit "Too many redirects" := by
  -- The first letters differ.
  have hne : (some 0x53 : Option UInt8) ≠ some 0x54 ∧ (some 0x67 : Option UInt8) ≠ some 0x54 ∧
      (some 0x63 : Option UInt8) ≠ some 0x54 := by decide
  intro h
  have hhead := congrArg List.head? h
  cases failure with
  | sslCtxNew => exact hne.1 hhead
  | getaddrinfo text => exact hne.2.1 hhead
  | connect => exact hne.2.2 hhead
  | sslNew => exact hne.1 hhead
  | sslConnect => exact hne.1 hhead

/-- How an exchange ends a call: with an exception of its own, not at all because of an endless
reply, or with the response it was answered with. -/
theorem afterOutcome_eq_inl {e : Exchange} {result : Option (Except Bytes HttpResponse)}
    (h : afterOutcome trim e.host e.outcome = .inl result) :
    (∃ what, result = some (.error what) ∧ what ≠ lit "Too many redirects" ∧ ¬ Endless trim e) ∨
    (result = none ∧ Endless trim e) ∨
    ∃ r, result = some (.ok r) ∧ Answered trim e r := by
  cases houtcome : e.outcome with
  | failed failure =>
    rw [houtcome] at h
    refine Or.inl ⟨_, (Sum.inl.inj h).symm, what_ne_tooMany e.host failure, ?_⟩
    intro ⟨resp, hreply, _⟩
    rw [houtcome] at hreply
    cases hreply
  | broken =>
    rw [houtcome] at h
    refine Or.inl ⟨_, (Sum.inl.inj h).symm, by decide, ?_⟩
    intro ⟨resp, hreply, _⟩
    rw [houtcome] at hreply
    cases hreply
  | reply resp =>
    rw [houtcome] at h
    simp only [afterOutcome] at h
    cases hread : readHttpResponse trim resp with
    | none =>
      simp only [hread] at h
      exact Or.inr (Or.inl ⟨(Sum.inl.inj h).symm, resp, houtcome,
        readHttpResponse_eq_none_iff.mp hread⟩)
    | some read =>
      have hends : ¬ Endless trim e := by
        intro ⟨resp', hreply, hendless⟩
        rw [houtcome] at hreply
        cases hreply
        rw [readHttpResponse_eq_none_iff.mpr hendless] at hread
        cases hread
      cases read with
      | error what =>
        simp only [hread] at h
        refine Or.inl ⟨what, (Sum.inl.inj h).symm, ?_, hends⟩
        rw [readHttpResponse_eq_error hread]
        decide
      | ok r =>
        -- Whichever way the redirect is refused, the response itself is returned.
        refine Or.inr (Or.inr ⟨r, ?_, resp, houtcome, hread⟩)
        simp only [hread] at h
        cases hloc : locationOf trim r with
        | none =>
          simp only [hloc] at h
          exact (Sum.inl.inj h).symm
        | some loc =>
          cases htarget : redirectTarget e.host loc with
          | none =>
            simp only [hloc, htarget] at h
            exact (Sum.inl.inj h).symm
          | some target =>
            simp only [hloc, htarget] at h
            cases h

/-! ### The chain -/

variable {server : Server} {method extraHeaders body : Bytes}

/-- All exchanges of a list were answered with followable redirects. -/
def AllFollowable (trim : Bytes → Bytes) (trace : List Exchange) : Prop :=
  ∀ e ∈ trace, ∃ r, Answered trim e r ∧ Followable trim r

/-- A call uses up its depth on followable redirects, or ends at the first exchange that got
something else. -/
theorem httpsRequestFrom_chain {depth : Nat} {history : List Exchange} {via : Option Bytes}
    {host path : Bytes} {call : HttpCall}
    (h : httpsRequestFrom trim server method extraHeaders body depth history via host path = call) :
    (call.1.length = depth ∧ AllFollowable trim call.1 ∧
      call.2 = some (.error (lit "Too many redirects"))) ∨
    ∃ front e result, call = (front ++ [e], result) ∧ front.length < depth ∧
      AllFollowable trim front ∧ afterOutcome trim e.host e.outcome = .inl result := by
  induction depth generalizing history via host path call with
  | zero =>
    subst h
    exact Or.inl ⟨rfl, fun e he => (by cases he), rfl⟩
  | succ depth ih =>
    rw [httpsRequestFrom] at h
    generalize hsent : exchange server history via host path
      (requestText host method path extraHeaders body) = sent at h
    have hhost : sent.host = host := by
      subst hsent
      rfl
    rw [← hhost] at h
    cases hafter : afterOutcome trim sent.host sent.outcome with
    | inl result =>
      simp only [hafter] at h
      subst h
      exact Or.inr ⟨[], sent, result, rfl, Nat.succ_pos depth, fun e he => (by cases he), hafter⟩
    | inr next =>
      have hfirst := followable_of_afterOutcome hafter
      obtain ⟨loc, host', path'⟩ := next
      simp only [hafter] at h
      subst h
      have hall : ∀ trace, AllFollowable trim trace → AllFollowable trim (sent :: trace) :=
        fun trace htrace => List.forall_mem_cons.mpr ⟨hfirst, htrace⟩
      rcases ih rfl with ⟨hlen, hfollowable, hthrow⟩ | ⟨front, e, result, hcall, hlt, hfront, he⟩
      · exact Or.inl ⟨by rw [List.length_cons, hlen], hall _ hfollowable, hthrow⟩
      · refine Or.inr ⟨sent :: front, e, result, ?_, Nat.succ_lt_succ hlt, hall _ hfront, he⟩
        rw [hcall]
        rfl

/-- What a call of `https_request` promises, whatever the servers do. -/
structure RedirectSpec (trim : Bytes → Bytes) (method extraHeaders body host path : Bytes)
    (call : HttpCall) : Prop where
  /-- It ends. -/
  ends : call.2 ≠ none
  /-- It sends at most nine requests. -/
  atMostNine : call.1.length ≤ 9
  /-- It gives up exactly after nine followable redirects. -/
  tooMany : call.2 = some (.error (lit "Too many redirects")) ↔
    call.1.length = 9 ∧ AllFollowable trim call.1
  /-- It returns the first response that is no followable redirect. -/
  first : ∀ r, call.2 = some (.ok r) → ∃ front e, call.1 = front ++ [e] ∧ AllFollowable trim front ∧
    Answered trim e r ∧ ¬ Followable trim r
  /-- It starts where it was asked to. -/
  start : ∀ e ∈ call.1.head?, e.host = host ∧ e.path = path
  /-- Every request carries its method, headers and body. -/
  request : ∀ e ∈ call.1, e.request = requestText e.host method e.path extraHeaders body
  /-- Every request but the first follows the response before it, and goes to another host only
  for an https URL. -/
  hosts : call.1.IsChain fun e e' => Follows trim e e' ∧
    (e'.host ≠ e.host → ∃ loc, e'.via = some loc ∧ lit "https://" <+: loc)

/-- A redirect goes to another host only for an https URL. -/
theorem Follows.host {e e' : Exchange} (h : Follows trim e e') (hne : e'.host ≠ e.host) :
    ∃ loc, e'.via = some loc ∧ lit "https://" <+: loc := by
  obtain ⟨resp, r, loc, -, -, -, hvia, htarget⟩ := h
  refine ⟨loc, hvia, ?_⟩
  unfold redirectTarget at htarget
  by_cases hhttps : (lit "https://").isPrefixOf loc = true
  · exact List.isPrefixOf_iff_prefix.mp hhttps
  · rw [if_neg hhttps] at htarget
    split at htarget
    · exact absurd (Prod.mk.inj (Option.some.inj htarget)).1.symm hne
    · cases htarget

/-- A call keeps all it promises exactly when no reply it gets is endless. -/
theorem redirectSpec_iff (trim : Bytes → Bytes) (server : Server)
    (method extraHeaders body : Bytes) (history : List Exchange) (host path : Bytes) :
    RedirectSpec trim method extraHeaders body host path
        (httpsRequest trim server method extraHeaders body history host path) ↔
      ∀ e ∈ (httpsRequest trim server method extraHeaders body history host path).1,
        ∀ resp, e.outcome = .reply resp → ¬ EndlessReply trim resp := by
  generalize hcall : httpsRequest trim server method extraHeaders body history host path = call
  obtain ⟨htrace, -⟩ := httpsRequestFrom_spec hcall
  have hchain : call.1.IsChain fun e e' => Follows trim e e' ∧
      (e'.host ≠ e.host → ∃ loc, e'.via = some loc ∧ lit "https://" <+: loc) :=
    htrace.chain.imp fun e e' h => ⟨h, h.host⟩
  have hstart : ∀ e ∈ call.1.head?, e.host = host ∧ e.path = path :=
    fun e he => (htrace.head e he).2
  rcases httpsRequestFrom_chain hcall with ⟨hlen, hall, hthrow⟩ |
    ⟨front, e, result, rfl, hlt, hfront, hafter⟩
  · -- Nine followable redirects: the call gives up, and none of the replies is endless.
    refine ⟨fun _ x hx resp hreply hendless => ?_, fun _ => ?_⟩
    · obtain ⟨r, hanswered, -⟩ := hall x hx
      exact hanswered.not_endless ⟨resp, hreply, hendless⟩
    · exact {
        ends := by rw [hthrow]; simp
        atMostNine := Nat.le_of_eq hlen
        tooMany := ⟨fun _ => ⟨hlen, hall⟩, fun _ => hthrow⟩
        first := fun r hr => by rw [hthrow] at hr; cases hr
        start := hstart
        request := htrace.request
        hosts := hchain }
  · have hnot := not_followable_of_afterOutcome hafter
    have hshort : ¬ ((front ++ [e]).length = 9 ∧ AllFollowable trim (front ++ [e])) :=
      fun h => hnot (h.2 e (by simp))
    -- The exchange that ended the call decides; those before it were answered.
    have hendless : (∀ x ∈ front ++ [e], ∀ resp, x.outcome = .reply resp →
        ¬ EndlessReply trim resp) ↔ ¬ Endless trim e := by
      constructor
      · intro h ⟨resp, hreply, hresp⟩
        exact h e (by simp) resp hreply hresp
      · intro h x hx resp hreply hresp
        rcases List.mem_append.mp hx with hx | hx
        · obtain ⟨r, hanswered, -⟩ := hfront x hx
          exact hanswered.not_endless ⟨resp, hreply, hresp⟩
        · rw [List.mem_singleton] at hx
          exact h ⟨resp, hx ▸ hreply, hresp⟩
    rw [hendless]
    have hnine : (front ++ [e]).length ≤ 9 := by
      rw [List.length_append, List.length_singleton]
      omega
    rcases afterOutcome_eq_inl hafter with ⟨what, rfl, hwhat, hends⟩ | ⟨rfl, hend⟩ |
      ⟨r, rfl, hanswered⟩
    · refine ⟨fun _ => hends, fun _ => ?_⟩
      exact {
        ends := by simp
        atMostNine := hnine
        tooMany := ⟨fun h => absurd (Except.error.inj (Option.some.inj h)) hwhat,
          fun h => absurd h hshort⟩
        first := fun r hr => by cases hr
        start := hstart
        request := htrace.request
        hosts := hchain }
    · exact ⟨fun hspec => absurd rfl hspec.ends, fun hends => absurd hend hends⟩
    · refine ⟨fun _ => hanswered.not_endless, fun _ => ?_⟩
      exact {
        ends := by simp
        atMostNine := hnine
        tooMany := ⟨fun h => (by cases h), fun h => absurd h hshort⟩
        first := fun r' hr => by
          cases hr
          exact ⟨front, e, rfl, hfront, hanswered, fun hf => hnot ⟨r, hanswered, hf⟩⟩
        start := hstart
        request := htrace.request
        hosts := hchain }

end

/-- A server that answers every request with a chunked body whose only size is `-4`. -/
def endlessServer : Server := fun _ _ _ =>
  .reply (lit "HTTP/1.1 200 OK\r\nTransfer-Encoding: chunked\r\n\r\n-4\r\n")

/-- A call to that server does not end. -/
theorem redirectSpec_endless :
    (httpsRequest strip endlessServer (lit "GET") [] [] [] (lit "h") (lit "/")).2 = none ∧
      ¬ ∀ (server : Server) (method extraHeaders body : Bytes) (history : List Exchange)
        (host path : Bytes), RedirectSpec strip method extraHeaders body host path
          (httpsRequest strip server method extraHeaders body history host path) := by
  have hread : readHttpResponse strip
      (lit "HTTP/1.1 200 OK\r\nTransfer-Encoding: chunked\r\n\r\n-4\r\n") = none := by
    decide
  have hafter : afterOutcome strip (lit "h") (exchange endlessServer [] none (lit "h") (lit "/")
      (requestText (lit "h") (lit "GET") (lit "/") [] [])).outcome = .inl none := by
    show afterOutcome strip (lit "h")
      (.reply (lit "HTTP/1.1 200 OK\r\nTransfer-Encoding: chunked\r\n\r\n-4\r\n")) = _
    simp only [afterOutcome, hread]
  have hnone :
      (httpsRequest strip endlessServer (lit "GET") [] [] [] (lit "h") (lit "/")).2 = none := by
    rw [httpsRequest, httpsRequestFrom]
    simp only [hafter]
  exact ⟨hnone, fun h => (h endlessServer _ _ _ _ _ _).ends hnone⟩

end EjsBoundary.Proofs
