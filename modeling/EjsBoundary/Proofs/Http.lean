import EjsBoundary.Lib.Rfc3986
import EjsBoundary.Model.Backend

/-!
# `EjsBoundary.Proofs.Http`: the requests of a load

What the code lets through, and which requests follow from which. The first part inverts the
regular expressions: a reference that one of them accepts is `https://`, a host without a slash
and the rest (`Absolute`), and the captures are these parts.

The second part is about a call of `https_request`. `Follows` is one redirect, and
`httpsRequestFrom_spec` says that a call is a chain of them from its own host and path.
`load_spec` puts the two calls of a load together: it says where the first request of each comes
from.
-/

set_option autoImplicit false

namespace EjsBoundary.Proofs

open EjsBoundary.Lib
open EjsBoundary.Lib.Rfc3986 (Rooted)
open EjsBoundary.Model

/-! ### The patterns -/

/-- `https://`, a host without a slash, and the rest. -/
structure Absolute (s host rest : Bytes) : Prop where
  eq : s = lit "https://" ++ host ++ rest
  slash_notMem : 0x2F ∉ host
  rooted : Rooted rest

/-- The host is what stands before the first slash. -/
theorem Absolute.span {s host rest : Bytes} (h : Absolute s host rest) :
    (s.drop 8).takeWhile (· ≠ 0x2F) = host ∧ (s.drop 8).dropWhile (· ≠ 0x2F) = rest := by
  have hdrop : s.drop 8 = host ++ rest := by
    rw [h.eq, List.append_assoc]
    rfl
  rw [hdrop]
  refine span_append (fun x hx => ?_) (fun x hx => ?_)
  · exact decide_eq_true fun heq => h.slash_notMem (heq ▸ hx)
  · rw [h.rooted x hx]
    rfl

/-- An absolute URL begins with its scheme. -/
theorem Absolute.isPrefixOf {s host rest : Bytes} (h : Absolute s host rest) :
    (lit "https://").isPrefixOf s = true := by
  rw [List.isPrefixOf_iff_prefix, h.eq, List.append_assoc]
  exact List.prefix_append _ _

/-- A match of the pattern is the scheme, a match of the host part and one of the path part. -/
theorem mem_run_httpsPattern {host path : Regex} {s : Bytes} {caps : Captures}
    (h : ([], caps) ∈ (httpsPattern host path).run s s) :
    ∃ t, s = lit "https://" ++ t ∧ ∃ m ∈ host.run s t, ∃ caps',
      ([], caps') ∈ path.run s m.1 ∧ caps = m.2 ++ caps' := by
  obtain ⟨m₁, h₁, m₂, h₂, heq⟩ := Regex.mem_run_seq.mp h
  obtain ⟨-, rfl⟩ := Regex.mem_run_bol.mp h₁
  obtain ⟨m₃, h₃, m₄, h₄, rfl⟩ := Regex.mem_run_seq.mp h₂
  obtain ⟨hs, hcaps⟩ := Regex.mem_run_literal.mp h₃
  obtain ⟨m₅, h₅, m₆, h₆, rfl⟩ := Regex.mem_run_seq.mp h₄
  obtain ⟨m₇, h₇, m₈, h₈, rfl⟩ := Regex.mem_run_seq.mp h₆
  obtain ⟨hrest, rfl⟩ := Regex.mem_run_eol.mp h₈
  obtain ⟨rest, caps₇⟩ := m₇
  cases hrest
  refine ⟨m₃.1, hs, m₅, h₅, caps₇, h₇, ?_⟩
  simpa [hcaps] using (Prod.ext_iff.mp heq).2

/-- A matched host has no slash. -/
theorem mem_run_hostPattern {subject s : Bytes} {m : Bytes × Captures}
    (h : m ∈ hostPattern.run subject s) : ∃ host, s = host ++ m.1 ∧ 0x2F ∉ host ∧ m.2 = [] := by
  obtain ⟨host, hs, -, hall, hcaps⟩ := Regex.mem_run_plus.mp h
  exact ⟨host, hs, fun hmem => by simpa using hall _ hmem, hcaps⟩

/-- A matched path is a slash and a run of bytes without a line end. -/
theorem mem_run_pathPattern {subject s : Bytes} {m : Bytes × Captures}
    (h : m ∈ pathPattern.run subject s) :
    ∃ q, s = 0x2F :: q ++ m.1 ∧ (∀ x ∈ q, Regex.dot x = true) ∧ m.2 = [] := by
  obtain ⟨m₁, h₁, m₂, h₂, rfl⟩ := Regex.mem_run_seq.mp h
  obtain ⟨rfl, hcaps₁⟩ := Regex.mem_run_literal.mp h₁
  obtain ⟨q, hq, hall, hcaps₂⟩ := Regex.mem_run_star.mp h₂
  exact ⟨q, by rw [hq]; rfl, hall, by rw [hcaps₁, hcaps₂]; rfl⟩

/-- A path that `pathPattern` matches: a slash, and no line end after it. -/
def MatchedPath (path : Bytes) : Prop :=
  path.head? = some 0x2F ∧ ∀ x ∈ path, Regex.dot x = true

/-- Such a run behind a slash is a matched path. -/
theorem matchedPath_cons {q : Bytes} (h : ∀ x ∈ q, Regex.dot x = true) :
    MatchedPath (0x2F :: q) := by
  refine ⟨rfl, fun x hx => ?_⟩
  rcases List.mem_cons.mp hx with rfl | hx
  · decide
  · exact h x hx

/-- A matched path begins with a slash. -/
theorem MatchedPath.rooted {path : Bytes} (h : MatchedPath path) : Rooted path := by
  intro x hx
  rw [h.1] at hx
  cases hx
  rfl

/-- The first group captures the host. -/
theorem mem_run_hostGroup {subject s : Bytes} {m : Bytes × Captures}
    (h : m ∈ Regex.run subject (.group 1 hostPattern) s) :
    ∃ host, s = host ++ m.1 ∧ 0x2F ∉ host ∧ m.2 = [(1, host)] := by
  obtain ⟨m', h', host, rfl, rfl⟩ := Regex.mem_run_group.mp h
  obtain ⟨host', heq, hslash, hcaps⟩ := mem_run_hostPattern h'
  cases List.append_cancel_right heq
  exact ⟨host, rfl, hslash, by rw [hcaps]⟩

/-- The group behind it captures the rest, which is a matched path. -/
theorem mem_run_pathGroup {i : Nat} {subject s : Bytes} {caps : Captures}
    (h : ([], caps) ∈ Regex.run subject (.group i pathPattern) s) :
    MatchedPath s ∧ caps = [(i, s)] := by
  obtain ⟨⟨rest, caps'⟩, h', path, rfl, heq⟩ := Regex.mem_run_group.mp h
  obtain ⟨q, hq, hdot, hcaps⟩ := mem_run_pathPattern h'
  obtain ⟨rfl, rfl⟩ := Prod.mk.inj heq
  rw [List.append_nil] at hq ⊢
  rw [List.append_nil] at hq
  subst hq
  exact ⟨matchedPath_cons hdot, by rw [hcaps]⟩

/-- `^https://([^/]+)(/.*)$` gives the host and the path. -/
theorem captures_of_watchUrlPattern {s : Bytes} {caps : Captures}
    (h : regexMatch watchUrlPattern s = some caps) :
    ∃ host path, Absolute s host path ∧ MatchedPath path ∧ caps = [(1, host), (2, path)] := by
  obtain ⟨t, rfl, m, hm, caps', hpath, rfl⟩ := mem_run_httpsPattern (exists_run_of_regexMatch h)
  obtain ⟨host, rfl, hslash, hcaps⟩ := mem_run_hostGroup hm
  obtain ⟨hmatched, rfl⟩ := mem_run_pathGroup hpath
  exact ⟨host, m.1, ⟨(List.append_assoc _ _ _).symm, hslash, hmatched.rooted⟩, hmatched,
    by rw [hcaps]; rfl⟩

/-- `^https://[^/]+(/.*)$` gives the path. -/
theorem captures_of_absoluteJsPattern {s : Bytes} {caps : Captures}
    (h : regexMatch absoluteJsPattern s = some caps) :
    ∃ host path, Absolute s host path ∧ MatchedPath path ∧ caps = [(1, path)] := by
  obtain ⟨t, rfl, m, hm, caps', hpath, rfl⟩ := mem_run_httpsPattern (exists_run_of_regexMatch h)
  obtain ⟨host, rfl, hslash, hcaps⟩ := mem_run_hostPattern hm
  obtain ⟨hmatched, rfl⟩ := mem_run_pathGroup hpath
  exact ⟨host, m.1, ⟨(List.append_assoc _ _ _).symm, hslash, hmatched.rooted⟩, hmatched,
    by rw [hcaps]; rfl⟩

/-- `^https://([^/]+)(/.*)?$` gives the host, and the path when there is one. -/
theorem captures_of_redirectPattern {s : Bytes} {caps : Captures}
    (h : regexMatch redirectPattern s = some caps) :
    ∃ host rest, Absolute s host rest ∧
      (rest = [] ∧ caps = [(1, host)] ∨ MatchedPath rest ∧ caps = [(1, host), (2, rest)]) := by
  obtain ⟨t, rfl, m, hm, caps', hpath, rfl⟩ := mem_run_httpsPattern (exists_run_of_regexMatch h)
  obtain ⟨host, rfl, hslash, hcaps⟩ := mem_run_hostGroup hm
  rcases Regex.mem_run_opt.mp hpath with hpath | heq
  · obtain ⟨hmatched, rfl⟩ := mem_run_pathGroup hpath
    exact ⟨host, m.1, ⟨(List.append_assoc _ _ _).symm, hslash, hmatched.rooted⟩,
      Or.inr ⟨hmatched, by rw [hcaps]; rfl⟩⟩
  · obtain ⟨hrest, rfl⟩ := Prod.mk.inj heq
    refine ⟨host, m.1, ⟨(List.append_assoc _ _ _).symm, hslash, ?_⟩,
      Or.inl ⟨hrest.symm, by rw [hcaps]; rfl⟩⟩
    rw [← hrest]
    exact fun x hx => by cases hx

/-! ### References -/

/-- A watch URL that is accepted is `https://`, the host and the path. -/
theorem watchUrl_eq {watchUrl host path : Bytes}
    (hhost : extractHostFromWatchUrl watchUrl = .ok host)
    (hpath : extractPathFromWatchUrl watchUrl = .ok path) :
    Absolute watchUrl host path ∧ MatchedPath path := by
  unfold extractHostFromWatchUrl watchUrlGroup at hhost
  unfold extractPathFromWatchUrl watchUrlGroup at hpath
  cases hmatch : regexMatch watchUrlPattern watchUrl with
  | none =>
    rw [hmatch] at hhost
    cases hhost
  | some caps =>
    obtain ⟨host', path', habs, hmatched, rfl⟩ := captures_of_watchUrlPattern hmatch
    rw [hmatch] at hhost hpath
    cases hhost
    cases hpath
    exact ⟨habs, hmatched⟩

/-- The path of `base.js`: what follows the host of an absolute reference, or the reference. -/
theorem jsPathOf_cases {jsUrl jsPath : Bytes} (h : jsPathOf jsUrl = .ok jsPath) :
    (∃ host, Absolute jsUrl host jsPath ∧ MatchedPath jsPath) ∨
    ((lit "https://").isPrefixOf jsUrl = false ∧ jsPath = jsUrl) := by
  unfold jsPathOf at h
  cases hhttps : (lit "https://").isPrefixOf jsUrl with
  | true =>
    rw [hhttps, if_pos rfl] at h
    cases hmatch : regexMatch absoluteJsPattern jsUrl with
    | none =>
      rw [hmatch] at h
      cases h
    | some caps =>
      obtain ⟨host, path, habs, hmatched, rfl⟩ := captures_of_absoluteJsPattern hmatch
      rw [hmatch] at h
      cases h
      exact Or.inl ⟨host, habs, hmatched⟩
  | false =>
    rw [hhttps, if_neg Bool.false_ne_true] at h
    cases h
    exact Or.inr ⟨rfl, rfl⟩

/-- Where a redirect goes: to the host and the path of an absolute `Location`, a slash for no
path, or to a path on the same host. -/
theorem redirectTarget_cases {host loc host' path' : Bytes}
    (h : redirectTarget host loc = some (host', path')) :
    (∃ rest, Absolute loc host' rest ∧ (rest = [] ∨ MatchedPath rest) ∧
      path' = if rest = [] then [0x2F] else rest) ∨
    ((lit "https://").isPrefixOf loc = false ∧ loc.head? = some 0x2F ∧ host' = host ∧
      path' = loc) := by
  unfold redirectTarget at h
  cases hhttps : (lit "https://").isPrefixOf loc with
  | true =>
    rw [hhttps, if_pos rfl] at h
    obtain ⟨caps, hmatch, heq⟩ := Option.map_eq_some_iff.mp h
    obtain ⟨host₁, rest, habs, ⟨rfl, rfl⟩ | ⟨hmatched, rfl⟩⟩ := captures_of_redirectPattern hmatch
    · cases heq
      exact Or.inl ⟨[], habs, Or.inl rfl, rfl⟩
    · cases heq
      have hne : rest ≠ [] := by
        rintro rfl
        cases hmatched.1
      exact Or.inl ⟨rest, habs, Or.inr hmatched, (if_neg hne).symm⟩
  | false =>
    rw [hhttps, if_neg Bool.false_ne_true] at h
    split at h
    · rename_i hhead
      cases h
      exact Or.inr ⟨rfl, hhead, rfl, rfl⟩
    · cases h

/-- The reference in a watch page is not empty. -/
theorem findJsUrl_ne {html jsUrl : Bytes} (h : findJsUrl html = .ok jsUrl) : jsUrl ≠ [] := by
  unfold findJsUrl at h
  cases hsearch : regexSearch jsUrlPattern html with
  | none =>
    rw [hsearch] at h
    cases h
  | some caps =>
    obtain ⟨_, _, _, -, hrun⟩ := exists_run_of_regexSearch hsearch
    obtain ⟨m₁, h₁, m₂, h₂, heq⟩ := Regex.mem_run_seq.mp hrun
    obtain ⟨-, hcaps₁⟩ := Regex.mem_run_literal.mp h₁
    obtain ⟨m₃, h₃, m₄, -, rfl⟩ := Regex.mem_run_seq.mp h₂
    obtain ⟨m₅, h₅, text, hsplit, rfl⟩ := Regex.mem_run_group.mp h₃
    obtain ⟨text', hsplit', hne, -, -⟩ := Regex.mem_run_plus.mp h₅
    cases List.append_cancel_right (hsplit.symm.trans hsplit')
    rw [hsearch, (Prod.mk.inj heq).2, hcaps₁] at h
    cases h
    exact hne

/-- The path of `base.js` is that of the reference in the page. -/
theorem extractJsPath_eq_ok {html jsPath : Bytes}
    (h : extractJsPathFromWatchHtml html = .ok jsPath) :
    ∃ jsUrl, findJsUrl html = .ok jsUrl ∧ jsPathOf jsUrl = .ok jsPath := by
  unfold extractJsPathFromWatchHtml at h
  cases hfind : findJsUrl html with
  | error what =>
    rw [hfind] at h
    cases h
  | ok jsUrl =>
    rw [hfind] at h
    exact ⟨jsUrl, rfl, h⟩

/-- A `Location` is cut out of one line. -/
theorem locationOf_eq_some {trim : Bytes → Bytes} {r : HttpResponse} {loc : Bytes}
    (h : locationOf trim r = some loc) :
    ∃ text, loc = trim text ∧ ∀ x ∈ text, Regex.dot x = true := by
  unfold locationOf at h
  split at h
  · obtain ⟨caps, hsearch, rfl⟩ := Option.map_eq_some_iff.mp h
    obtain ⟨_, _, _, -, hrun⟩ := exists_run_of_regexSearch hsearch
    obtain ⟨m₁, h₁, m₂, h₂, heq⟩ := Regex.mem_run_seq.mp hrun
    obtain ⟨m₃, h₃, m₄, h₄, rfl⟩ := Regex.mem_run_seq.mp h₂
    obtain ⟨m₅, h₅, m₆, h₆, rfl⟩ := Regex.mem_run_seq.mp h₄
    obtain ⟨m₇, h₇, text, hsplit, rfl⟩ := Regex.mem_run_group.mp h₆
    obtain ⟨text', hsplit', -, hall, -⟩ := Regex.mem_run_plus.mp h₇
    cases List.append_cancel_right (hsplit.symm.trans hsplit')
    have hcaps : caps = (1, text) :: m₇.2 := by
      rw [(Prod.mk.inj heq).2, Regex.captures_eq_nil rfl h₁, Regex.captures_eq_nil rfl h₃,
        Regex.captures_eq_nil rfl h₅]
      rfl
    refine ⟨text, by rw [hcaps]; rfl, fun x hx => ?_⟩
    have := hall x hx
    rwa [Bool.and_comm] at this
  · cases h

/-! ### Calls -/

/-- One redirect: `e` was answered with a `Location`, and `e'` asks for what it is followed
to. -/
def Follows (trim : Bytes → Bytes) (e e' : Exchange) : Prop :=
  ∃ resp r loc, e.outcome = .reply resp ∧ readHttpResponse trim resp = some (.ok r) ∧
    locationOf trim r = some loc ∧ e'.via = some loc ∧
    redirectTarget e.host loc = some (e'.host, e'.path)

section
variable {trim : Bytes → Bytes}

/-- A request that goes on had a reply with a location that has a target. -/
theorem afterOutcome_eq_inr {host loc host' path' : Bytes} {outcome : Outcome}
    (h : afterOutcome trim host outcome = .inr (loc, host', path')) :
    ∃ resp r, outcome = .reply resp ∧ readHttpResponse trim resp = some (.ok r) ∧
      locationOf trim r = some loc ∧ redirectTarget host loc = some (host', path') := by
  cases outcome with
  | failed failure => cases h
  | broken => cases h
  | reply resp =>
    simp only [afterOutcome] at h
    split at h
    · cases h
    · cases h
    · rename_i r hread
      split at h
      · cases h
      · rename_i loc' hloc
        split at h
        · cases h
        · rename_i htarget
          cases h
          exact ⟨resp, r, rfl, hread, hloc, htarget⟩

/-- Only an answer ends a call with a response. -/
theorem afterOutcome_eq_ok {host : Bytes} {outcome : Outcome} {r : HttpResponse}
    (h : afterOutcome trim host outcome = .inl (some (.ok r))) :
    ∃ resp, outcome = .reply resp := by
  cases outcome with
  | failed failure => cases h
  | broken => cases h
  | reply resp => exact ⟨resp, rfl⟩

/-- The exchanges of a call: what each one writes, and how each follows from the one before. -/
structure CallTrace (trim : Bytes → Bytes) (method extraHeaders body : Bytes) (via : Option Bytes)
    (host path : Bytes) (trace : List Exchange) : Prop where
  head : ∀ e ∈ trace.head?, e.via = via ∧ e.host = host ∧ e.path = path
  chain : trace.IsChain (Follows trim)
  peer : ∀ e ∈ trace, e.peer = cString e.host
  request : ∀ e ∈ trace, e.request = requestText e.host method e.path extraHeaders body

variable {server : Server} {method extraHeaders body : Bytes}

/-- Every call has such a trace, and all its exchanges were answered when it returns. -/
theorem httpsRequestFrom_spec {depth : Nat} {history : List Exchange} {via : Option Bytes}
    {host path : Bytes} {call : HttpCall}
    (h : httpsRequestFrom trim server method extraHeaders body depth history via host path = call) :
    CallTrace trim method extraHeaders body via host path call.1 ∧
      ∀ r, call.2 = some (.ok r) → ∀ e ∈ call.1, ∃ resp, e.outcome = .reply resp := by
  -- One request of the chain for each unit of depth.
  induction depth generalizing history via host path call with
  | zero =>
    subst h
    exact ⟨⟨fun _ h => (by cases h), .nil, fun _ h => (by cases h), fun _ h => (by cases h)⟩,
      fun r h => by cases h⟩
  | succ depth ih =>
    rw [httpsRequestFrom] at h
    generalize hsent : exchange server history via host path
      (requestText host method path extraHeaders body) = sent at h
    have hmade : (sent.via = via ∧ sent.host = host ∧ sent.path = path) ∧
        sent.peer = cString sent.host ∧
        sent.request = requestText sent.host method sent.path extraHeaders body := by
      subst hsent
      exact ⟨⟨rfl, rfl, rfl⟩, rfl, rfl⟩
    obtain ⟨⟨hvia, rfl, rfl⟩, hpeer, hrequest⟩ := hmade
    have hhead : ∀ trace : List Exchange, ∀ e ∈ (sent :: trace).head?,
        e.via = via ∧ e.host = sent.host ∧ e.path = sent.path := by
      intro trace e he
      cases he
      exact ⟨hvia, rfl, rfl⟩
    cases hafter : afterOutcome trim sent.host sent.outcome with
    | inl result =>
      simp only [hafter] at h
      subst h
      refine ⟨⟨hhead [], .singleton sent, List.forall_mem_singleton.mpr hpeer,
        List.forall_mem_singleton.mpr hrequest⟩, fun r hr => List.forall_mem_singleton.mpr ?_⟩
      rw [show result = some (.ok r) from hr] at hafter
      exact afterOutcome_eq_ok hafter
    | inr next =>
      obtain ⟨loc, host', path'⟩ := next
      obtain ⟨resp, r', hreply, hread, hloc, htarget⟩ := afterOutcome_eq_inr hafter
      simp only [hafter] at h
      subst h
      obtain ⟨htrace, hreplied⟩ := ih rfl
      have hfollows : ∀ e ∈ List.head? _, Follows trim sent e := fun e he => by
        obtain ⟨hvia', hhost', hpath'⟩ := htrace.head e he
        exact ⟨resp, r', loc, hreply, hread, hloc, hvia', by rw [hhost', hpath']; exact htarget⟩
      exact ⟨⟨hhead _, List.isChain_cons.mpr ⟨hfollows, htrace.chain⟩,
        List.forall_mem_cons.mpr ⟨hpeer, htrace.peer⟩,
        List.forall_mem_cons.mpr ⟨hrequest, htrace.request⟩⟩,
        fun r hr => List.forall_mem_cons.mpr ⟨⟨resp, hreply⟩, hreplied r hr⟩⟩

/-- A call sends at least one request. -/
theorem httpsRequest_ne_nil {history : List Exchange} {host path : Bytes} {call : HttpCall}
    (h : httpsRequest trim server method extraHeaders body history host path = call) :
    call.1 ≠ [] := by
  subst h
  unfold httpsRequest
  rw [httpsRequestFrom]
  dsimp only
  split <;> exact List.cons_ne_nil _ _

end

/-! ### Loads -/

section
variable {trim : Bytes → Bytes} {server : Server}

/-- What passes the status check is the response itself. -/
theorem okResponse_eq_ok {what : Bytes} {result : Option (Except Bytes HttpResponse)}
    {r : HttpResponse} (h : okResponse what result = some (.ok r)) : result = some (.ok r) := by
  obtain ⟨res, rfl, hres⟩ := Option.map_eq_some_iff.mp h
  cases res with
  | error what => cases hres
  | ok r' =>
    have hres' : (if r'.status = 200 then Except.ok r' else _) = Except.ok r := hres
    split at hres'
    · rw [hres']
    · cases hres'

/-- The second call of a load, when it is made: all requests of the first were answered, and it
asks the host of the watch URL for the path of the reference in the page. -/
structure JsCall (trim : Bytes → Bytes) (host : Bytes) (load : PlayerLoad) (jsUrl jsPath : Bytes) :
    Prop where
  jsUrl_eq : load.jsUrl = some jsUrl
  jsUrl_ne : jsUrl ≠ []
  jsPath_eq : jsPathOf jsUrl = .ok jsPath
  replied : ∀ e ∈ load.watch, ∃ resp, e.outcome = .reply resp
  trace : CallTrace trim (lit "GET") jsHeaders [] none host jsPath load.js
  js_ne : load.js ≠ []

/-- What follows the watch page: nothing, or the second call. -/
theorem loadAfterWatch_cases {host : Bytes} {call : HttpCall}
    (hreplied : ∀ r, call.2 = some (.ok r) → ∀ e ∈ call.1, ∃ resp, e.outcome = .reply resp) :
    (loadAfterWatch trim server host call).watch = call.1 ∧
      ((loadAfterWatch trim server host call).js = [] ∨
        ∃ jsUrl jsPath, JsCall trim host (loadAfterWatch trim server host call) jsUrl jsPath) := by
  unfold loadAfterWatch
  split
  · exact ⟨rfl, Or.inl rfl⟩
  · exact ⟨rfl, Or.inl rfl⟩
  · rename_i r hok
    cases hextract : extractJsPathFromWatchHtml r.body with
    | error what => exact ⟨rfl, Or.inl rfl⟩
    | ok jsPath =>
      obtain ⟨jsUrl, hfind, hpath⟩ := extractJsPath_eq_ok hextract
      refine ⟨rfl, Or.inr ⟨jsUrl, jsPath, ?_⟩⟩
      exact {
        jsUrl_eq := by
          show (findJsUrl r.body).toOption = some jsUrl
          rw [hfind]
          rfl
        jsUrl_ne := findJsUrl_ne hfind
        jsPath_eq := hpath
        replied := hreplied r (okResponse_eq_ok hok)
        trace := (httpsRequestFrom_spec rfl).1
        js_ne := httpsRequest_ne_nil rfl }

/-- A load sends nothing, or the requests for the watch page, and after them those for `base.js`
if it comes to that. -/
theorem load_cases {watchUrl : Bytes} {load : PlayerLoad}
    (h : loadPlayerCodeFromWatchUrl trim server watchUrl = load) :
    (load.watch = [] ∧ load.js = []) ∨
    ∃ host path, Absolute watchUrl host path ∧ MatchedPath path ∧ load.watch ≠ [] ∧
      CallTrace trim (lit "GET") watchHeaders [] none host path load.watch ∧
      (load.js = [] ∨ ∃ jsUrl jsPath, JsCall trim host load jsUrl jsPath) := by
  subst h
  unfold loadPlayerCodeFromWatchUrl
  split
  · exact Or.inl ⟨rfl, rfl⟩
  · rename_i host hhost
    split
    · exact Or.inl ⟨rfl, rfl⟩
    · rename_i path hpath
      obtain ⟨habs, hmatched⟩ := watchUrl_eq hhost hpath
      generalize hcall : httpsRequest trim server (lit "GET") watchHeaders [] [] host path = call
      obtain ⟨htrace, hreplied⟩ := httpsRequestFrom_spec hcall
      obtain ⟨hwatch, hjs⟩ := @loadAfterWatch_cases trim server host call hreplied
      rw [← hwatch] at htrace
      have hne := httpsRequest_ne_nil hcall
      rw [← hwatch] at hne
      exact Or.inr ⟨host, path, habs, hmatched, hne, htrace, hjs⟩

end

end EjsBoundary.Proofs
