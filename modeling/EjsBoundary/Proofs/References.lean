import EjsBoundary.Proofs.Http

/-!
# `EjsBoundary.Proofs.References`: where references lead

A load follows references: the `Location` of every redirect, and the `jsUrl` of the watch page.
`FollowsReferences` says that each request goes where its reference points, resolved as RFC 3986
resolves it against the URL of the page it stands on. `followsReferences_iff` says for which
references this is so. Both pieces of code cut a reference at its first slash instead of parsing
it, and the second one also drops the host and asks the host of the watch URL, wherever the page
came from.

A redirect is right when the text before the first slash is a bare host and the text after it is
its own request target (`LocationFits`). For `jsUrl` there are two shapes that happen to lead to
the right place, and a third one where the fragment of the reference repeats its query
(`JsUrlFits`).
-/

set_option autoImplicit false

namespace EjsBoundary.Proofs

open EjsBoundary.Lib
open EjsBoundary.Lib.Rfc3986 (Rooted PlainTarget endsAuthority hostOf resolveHttps target pathOf
  queryOf queryText fragmentOf removeDotSegments)
open EjsBoundary.Model hiding queryOf

/-! ### Following a reference -/

/-- The URL of a request. -/
def urlOf (e : Exchange) : Bytes := lit "https://" ++ e.host ++ e.path

/-- Hosts compare without regard to case. -/
def SameHost (a b : Bytes) : Prop := a.map toLower = b.map toLower

/-- A request goes to a host for a target: the connection is made to the host, the request names
it, and it asks for the target. -/
def GoesTo (e : Exchange) (host target : Bytes) : Prop :=
  SameHost e.peer host ∧ SameHost e.host host ∧ e.path = target

/-- The request `e'` goes where `ref` points from the page that `e` asked for. -/
def PointsTo (e : Exchange) (ref : Bytes) (e' : Exchange) : Prop :=
  ∃ host target, resolveHttps (urlOf e) ref = some (host, target) ∧ GoesTo e' host target

/-- All requests of a load go where their references point: redirects from the request they
answer, and the first request for `base.js` from the page that was served last. -/
structure FollowsReferences (load : PlayerLoad) : Prop where
  watch : load.watch.IsChain fun e e' => ∃ loc ∈ e'.via, PointsTo e loc e'
  js : load.js.IsChain fun e e' => ∃ loc ∈ e'.via, PointsTo e loc e'
  jsUrl : ∀ page ∈ load.watch.getLast?, ∀ e ∈ load.js.head?,
    ∃ jsUrl ∈ load.jsUrl, PointsTo page jsUrl e

/-! ### References that fit -/

/-- A text with no byte that ends an authority. -/
def Unended (s : Bytes) : Prop := ∀ x ∈ s, endsAuthority x = false

/-- A host alone: no user information, no port, no query or fragment, and no NUL. -/
def BareHost (host : Bytes) : Prop := Unended host ∧ hostOf host = host ∧ 0x00 ∉ host

/-- A path on the same host, which starts with one slash. -/
def SlashPath (ref : Bytes) : Prop := ∃ s, ref = 0x2F :: s ∧ s.head? ≠ some 0x2F

/-- A `Location` that is followed right from a request to `host`. -/
inductive LocationFits (host loc : Bytes) : Prop where
  | absolute (host' rest : Bytes) (h : Absolute loc host' rest) (hhost : BareHost host')
      (hrest : PlainTarget rest)
  | path (h : SlashPath loc) (hhost : BareHost host) (hloc : PlainTarget loc)

/-- A `jsUrl` that is followed right: `asked` is the host of the watch URL and `page` the host
that served the page. An absolute one has to name the first, and a path has to mean it. In the
last case the path that is cut out is part of the fragment, and repeats the query. -/
inductive JsUrlFits (asked page jsUrl : Bytes) : Prop where
  | absolute (host path : Bytes) (h : Absolute jsUrl host path) (hpath : path ≠ [])
      (hends : Unended host) (hhost : SameHost asked (hostOf host)) (htarget : PlainTarget path)
  | path (h : SlashPath jsUrl)
      (hhost : SameHost asked (hostOf (page.takeWhile fun c => !endsAuthority c)))
      (htarget : PlainTarget jsUrl)
  | repeated (host query x : Bytes)
      (h : jsUrl = lit "https://" ++ host ++ (query ++ 0x23 :: (x ++ 0x2F :: query)))
      (hends : Unended host) (hquery : ∀ c ∈ query.head?, c = 0x3F)
      (hslash : 0x2F ∉ query ++ 0x23 :: x) (hnumber : 0x23 ∉ query)
      (hhost : SameHost asked (hostOf host))

/-- All references of a load fit. -/
structure ReferencesFit (load : PlayerLoad) : Prop where
  watch : load.watch.IsChain fun e e' => ∃ loc ∈ e'.via, LocationFits e.host loc
  js : load.js.IsChain fun e e' => ∃ loc ∈ e'.via, LocationFits e.host loc
  jsUrl : ∀ asked ∈ load.watch.head?, ∀ page ∈ load.watch.getLast?, load.js ≠ [] →
    0x00 ∉ asked.host ∧ ∃ jsUrl ∈ load.jsUrl, JsUrlFits asked.host page.host jsUrl

/-! ### Hosts -/

/-- Hosts that are the same up to case have one length. -/
theorem SameHost.length_eq {a b : Bytes} (h : SameHost a b) : a.length = b.length := by
  simpa using congrArg List.length h

/-- A connection is made to the host that is named exactly when the host has no NUL. -/
theorem goesTo_iff {e : Exchange} (hpeer : e.peer = cString e.host) (host target : Bytes) :
    GoesTo e host target ↔ 0x00 ∉ e.host ∧ SameHost e.host host ∧ e.path = target := by
  unfold GoesTo
  rw [hpeer]
  constructor
  · rintro ⟨hc, hhost, hpath⟩
    have hlen : (cString e.host).length = e.host.length := hc.length_eq.trans hhost.length_eq.symm
    have heq : cString e.host = e.host := (List.takeWhile_prefix _).eq_of_length hlen
    exact ⟨(cString_eq_self_iff _).mp heq, hhost, hpath⟩
  · rintro ⟨hzero, hhost, hpath⟩
    rw [(cString_eq_self_iff _).mpr hzero]
    exact ⟨hhost, hhost, hpath⟩

/-- The text before the first slash is cut once more where an authority ends. -/
theorem Absolute.split {s host rest : Bytes} (h : Absolute s host rest) :
    Unended (host.takeWhile fun c => !endsAuthority c) ∧
      (∀ x ∈ ((host.dropWhile fun c => !endsAuthority c) ++ rest).head?,
        endsAuthority x = true) ∧
      s = lit "https://" ++ (host.takeWhile fun c => !endsAuthority c) ++
        ((host.dropWhile fun c => !endsAuthority c) ++ rest) := by
  refine ⟨fun x hx => by simpa using List.mem_takeWhile_imp hx, fun x hx => ?_, ?_⟩
  · cases hdrop : host.dropWhile fun c => !endsAuthority c with
    | nil =>
      rw [hdrop, List.nil_append] at hx
      rw [h.rooted x hx]
      rfl
    | cons c t =>
      have hhead := List.head?_dropWhile_not (fun c => !endsAuthority c) host
      rw [hdrop] at hx hhead
      cases hx
      simpa using hhead
  · rw [h.eq, List.append_assoc, List.append_assoc, ← List.append_assoc (host.takeWhile _),
      List.takeWhile_append_dropWhile]

/-- A text that names the same host as its authority does is a host alone. -/
theorem bare_of_sameHost {host : Bytes}
    (h : SameHost host (hostOf (host.takeWhile fun c => !endsAuthority c))) :
    Unended host ∧ hostOf host = host := by
  have hhost := (Rfc3986.hostOf_sublist (host.takeWhile fun c => !endsAuthority c)).length_le
  have htake := (List.takeWhile_prefix (fun c => !endsAuthority c) (l := host))
  have hlen := h.length_eq
  have hall : host.takeWhile (fun c => !endsAuthority c) = host :=
    htake.eq_of_length (Nat.le_antisymm htake.length_le (by omega))
  rw [hall] at hlen
  refine ⟨fun x hx => ?_, (Rfc3986.hostOf_sublist host).eq_of_length hlen.symm⟩
  rw [← hall] at hx
  simpa using List.mem_takeWhile_imp hx

/-- A host without an end mark is taken whole. -/
theorem Unended.takeWhile {host : Bytes} (h : Unended host) :
    host.takeWhile (fun c => !endsAuthority c) = host :=
  List.takeWhile_eq_self_iff.mpr fun x hx => by rw [h x hx]; rfl

/-- And nothing of it is left. -/
theorem Unended.dropWhile {host : Bytes} (h : Unended host) :
    host.dropWhile (fun c => !endsAuthority c) = [] :=
  List.dropWhile_eq_nil_iff.mpr fun x hx => by rw [h x hx]; rfl

/-- The first slash cuts a URL in one way only. -/
theorem Absolute.unique {s host rest host' rest' : Bytes} (h : Absolute s host rest)
    (h' : Absolute s host' rest') : host = host' ∧ rest = rest' :=
  ⟨h.span.1.symm.trans h'.span.1, h.span.2.symm.trans h'.span.2⟩

/-- An absolute URL does not begin with a slash. -/
theorem Absolute.head_ne {s host rest : Bytes} (h : Absolute s host rest) :
    s.head? ≠ some 0x2F := by
  rw [h.eq]
  exact fun heq => by cases heq

/-! ### Redirects -/

/-- The host and the path of a request, as all but the first request for `base.js` have them. -/
structure Placed (e : Exchange) : Prop where
  slash_notMem : 0x2F ∉ e.host
  head : e.path.head? = some 0x2F

/-- A placed exchange has an absolute URL. -/
theorem Placed.absolute {e : Exchange} (h : Placed e) : Absolute (urlOf e) e.host e.path where
  eq := rfl
  slash_notMem := h.slash_notMem
  rooted := fun x hx => by
    rw [h.head] at hx
    cases hx
    rfl

/-- Where an absolute reference with nothing but a host before the slash points. -/
theorem resolve_absolute {s host rest : Bytes} (base : Bytes) (h : Absolute s host rest)
    (hends : Unended host) :
    resolveHttps base s = some (hostOf host, target ⟨some (lit "https"), some host,
      removeDotSegments (pathOf rest), queryOf rest, fragmentOf rest⟩) := by
  rw [h.eq]
  refine Rfc3986.resolveHttps_https hends (fun x hx => ?_) base
  rw [h.rooted x hx]
  rfl

/-- Where an absolute reference points: to the host of the authority. -/
theorem exists_resolve_absolute {s host rest : Bytes} (base : Bytes) (h : Absolute s host rest) :
    ∃ t, resolveHttps base s =
      some (hostOf (host.takeWhile fun c => !endsAuthority c), t) := by
  obtain ⟨hends, hrest, hsplit⟩ := h.split
  rw [hsplit]
  exact ⟨_, Rfc3986.resolveHttps_https hends hrest base⟩

/-- An absolute `Location` is followed right exactly when it has nothing but a host before the
slash and a plain target after it. -/
theorem pointsTo_absolute_iff {e e' : Exchange} {loc rest : Bytes}
    (hpeer : e'.peer = cString e'.host) (h : Absolute loc e'.host rest)
    (hpath : e'.path = if rest = [] then [0x2F] else rest) :
    PointsTo e loc e' ↔ BareHost e'.host ∧ PlainTarget rest := by
  unfold PointsTo
  simp only [goesTo_iff hpeer]
  constructor
  · rintro ⟨host, t, hresolve, hzero, hhost, ht⟩
    obtain ⟨t', hresolve'⟩ := exists_resolve_absolute (urlOf e) h
    obtain ⟨rfl, rfl⟩ := Prod.mk.inj (Option.some.inj (hresolve.symm.trans hresolve'))
    obtain ⟨hends, hbare⟩ := bare_of_sameHost hhost
    have htarget := Option.some.inj (hresolve.symm.trans (resolve_absolute (urlOf e) h hends))
    rw [(Prod.mk.inj htarget).2] at ht
    refine ⟨⟨hends, hbare, hzero⟩, ?_⟩
    rw [← Rfc3986.target_eq_iff h.rooted, ← hpath, ht]
  · rintro ⟨⟨hends, hbare, hzero⟩, hplain⟩
    refine ⟨_, _, resolve_absolute (urlOf e) h hends, hzero, ?_, ?_⟩
    · rw [hbare]
      rfl
    · rw [hpath, (Rfc3986.target_eq_iff h.rooted _ _ _).mpr hplain]

/-- Where a path points, from a page on `page`: to the host of its authority. -/
theorem resolve_slashPath {e : Exchange} (he : Placed e) {ref : Bytes} (h : SlashPath ref) :
    resolveHttps (urlOf e) ref =
      some (hostOf (e.host.takeWhile fun c => !endsAuthority c),
        target ⟨some (lit "https"), some (e.host.takeWhile fun c => !endsAuthority c),
          removeDotSegments (pathOf ref), queryOf ref, fragmentOf ref⟩) := by
  obtain ⟨s, rfl, hs⟩ := h
  obtain ⟨hends, hrest, hsplit⟩ := he.absolute.split
  rw [hsplit]
  exact Rfc3986.resolveHttps_slash hends hrest hs

/-- A request for a reference that starts with a slash, on any host: it is right when there is
no second slash, the page is on the same host, and the reference is a plain target. -/
theorem pointsTo_slash_iff {e e' : Exchange} (he : Placed e) {ref : Bytes}
    (hpeer : e'.peer = cString e'.host) (hhead : ref.head? = some 0x2F) (hpath : e'.path = ref) :
    PointsTo e ref e' ↔ 0x00 ∉ e'.host ∧ SlashPath ref ∧
      SameHost e'.host (hostOf (e.host.takeWhile fun c => !endsAuthority c)) ∧
      PlainTarget ref := by
  have hne : ref ≠ [] := by
    rintro rfl
    cases hhead
  have hrooted : Rooted ref := fun x hx => by
    rw [hhead] at hx
    cases hx
    rfl
  have hiff := Rfc3986.target_eq_iff hrooted (some (lit "https"))
    (some (e.host.takeWhile fun c => !endsAuthority c)) (fragmentOf ref)
  rw [if_neg hne] at hiff
  unfold PointsTo
  simp only [goesTo_iff hpeer]
  constructor
  · rintro ⟨host, t, hresolve, hzero, hhost, rfl⟩
    -- A second slash would name another host.
    have hslash : SlashPath ref := by
      obtain ⟨s, rfl⟩ : ∃ s, ref = 0x2F :: s := by
        cases ref with
        | nil => cases hhead
        | cons c s => exact ⟨s, by cases hhead; rfl⟩
      refine ⟨s, rfl, fun hs => ?_⟩
      obtain ⟨s', rfl⟩ : ∃ s', s = 0x2F :: s' := by
        cases s with
        | nil => cases hs
        | cons c s' => exact ⟨s', by cases hs; rfl⟩
      obtain ⟨hends, hrest, hsplit⟩ := he.absolute.split
      rw [hsplit, hpath] at hresolve
      exact Rfc3986.resolveHttps_slash_slash hends hrest s' host hresolve
    have heq := Option.some.inj (hresolve.symm.trans (resolve_slashPath he hslash))
    rw [(Prod.mk.inj heq).1] at hhost
    exact ⟨hzero, hslash, hhost, hiff.mp ((Prod.mk.inj heq).2.symm.trans hpath)⟩
  · rintro ⟨hzero, hslash, hhost, hplain⟩
    exact ⟨_, _, resolve_slashPath he hslash, hzero, hhost, hpath.trans (hiff.mpr hplain).symm⟩

/-- A redirect is right exactly when its `Location` fits. -/
theorem redirect_iff {trim : Bytes → Bytes} {e e' : Exchange} (he : Placed e)
    (hpeer : e'.peer = cString e'.host) (h : Follows trim e e') :
    (∃ loc ∈ e'.via, PointsTo e loc e') ↔ ∃ loc ∈ e'.via, LocationFits e.host loc := by
  obtain ⟨_, _, loc, -, -, -, hvia, htarget⟩ := h
  rw [hvia]
  simp only [Option.mem_def, Option.some.injEq, exists_eq_left']
  rcases redirectTarget_cases htarget with ⟨rest, habs, -, hpath⟩ | ⟨hhttps, hhead, hhost, hpath⟩
  · rw [pointsTo_absolute_iff hpeer habs hpath]
    constructor
    · rintro ⟨hhost, hrest⟩
      exact .absolute _ rest habs hhost hrest
    · intro hfits
      cases hfits with
      | absolute host' rest' habs' hhost hrest =>
        obtain ⟨rfl, rfl⟩ := habs'.unique habs
        exact ⟨hhost, hrest⟩
      | path hslash =>
        obtain ⟨s, rfl, -⟩ := hslash
        exact absurd rfl habs.head_ne
  · rw [pointsTo_slash_iff he hpeer hhead hpath, hhost]
    constructor
    · rintro ⟨hzero, hslash, hsame, hplain⟩
      obtain ⟨hends, hbare⟩ := bare_of_sameHost hsame
      exact .path hslash ⟨hends, hbare, hzero⟩ hplain
    · intro hfits
      cases hfits with
      | absolute host' rest' habs' => exact absurd hhead habs'.head_ne
      | path hslash hbare hplain =>
        refine ⟨hbare.2.2, hslash, ?_, hplain⟩
        rw [hbare.1.takeWhile, hbare.2.1]
        rfl

/-- A redirect leads to a request with a host and a path. -/
theorem placed_of_follows {trim : Bytes → Bytes} {e e' : Exchange} (h : Follows trim e e')
    (he : Placed e) : Placed e' := by
  obtain ⟨_, _, loc, -, -, -, -, htarget⟩ := h
  rcases redirectTarget_cases htarget with ⟨rest, habs, hrest, hpath⟩ | ⟨-, hhead, hhost, hpath⟩
  · refine ⟨habs.slash_notMem, ?_⟩
    rcases hrest with rfl | hmatched
    · rw [hpath]
      rfl
    · have hne : rest ≠ [] := by
        rintro rfl
        cases hmatched.1
      rw [hpath, if_neg hne]
      exact hmatched.1
  · exact ⟨hhost ▸ he.slash_notMem, hpath ▸ hhead⟩

/-- All exchanges of a chain are placed if the first is. -/
theorem placed_of_chain {trim : Bytes → Bytes} {trace : List Exchange}
    (hchain : trace.IsChain (Follows trim)) (hplaced : ∀ e ∈ trace.head?, Placed e) :
    ∀ e ∈ trace, Placed e :=
  hchain.induction Placed trace (fun _ _ h he => placed_of_follows h he) fun hne =>
    hplaced _ (List.head?_eq_some_head hne)

/-- All redirects of a call are right exactly when their references fit. -/
theorem redirects_iff {trim : Bytes → Bytes} {trace : List Exchange}
    (hpeer : ∀ e ∈ trace, e.peer = cString e.host) (hchain : trace.IsChain (Follows trim))
    (hplaced : ∀ e ∈ trace.head?, Placed e) :
    (trace.IsChain fun e e' => ∃ loc ∈ e'.via, PointsTo e loc e') ↔
      trace.IsChain fun e e' => ∃ loc ∈ e'.via, LocationFits e.host loc := by
  have hall := placed_of_chain hchain hplaced
  rw [List.isChain_iff_forall_rel_of_append_cons_cons] at hchain ⊢
  rw [List.isChain_iff_forall_rel_of_append_cons_cons]
  have hiff : ∀ a b l₁ l₂, trace = l₁ ++ a :: b :: l₂ →
      ((∃ loc ∈ b.via, PointsTo a loc b) ↔ ∃ loc ∈ b.via, LocationFits a.host loc) := by
    intro a b l₁ l₂ heq
    exact redirect_iff (hall a (by rw [heq]; simp)) (hpeer b (by rw [heq]; simp)) (hchain heq)
  exact ⟨fun h a b l₁ l₂ heq => (hiff a b l₁ l₂ heq).mp (h heq),
    fun h a b l₁ l₂ heq => (hiff a b l₁ l₂ heq).mpr (h heq)⟩

/-! ### The reference in the watch page -/

/-- What a reference with a query or a fragment right after the host asks for: a slash and the
query, which is what follows the slash in it only if the fragment repeats it. -/
theorem target_ended_iff {c : UInt8} (hc : Rfc3986.endsPath c = true) (t q : Bytes)
    (scheme authority fragment : Option Bytes) :
    target ⟨scheme, authority, removeDotSegments (pathOf (c :: t ++ 0x2F :: q)),
        queryOf (c :: t ++ 0x2F :: q), fragment⟩ = 0x2F :: q ↔
      ∃ x, c :: t = q ++ 0x23 :: x ∧ (∀ d ∈ q.head?, d = 0x3F) ∧ 0x23 ∉ q := by
  have hpath : pathOf (c :: t ++ 0x2F :: q) = [] := by
    unfold pathOf
    rw [List.cons_append, List.takeWhile_cons_of_neg (by simp [hc])]
  have hdrop : (c :: t ++ 0x2F :: q).dropWhile (fun d => !Rfc3986.endsPath d) =
      c :: (t ++ 0x2F :: q) := by
    rw [List.cons_append, List.dropWhile_cons_of_neg (by simp [hc])]
  have htarget : target ⟨scheme, authority, removeDotSegments (pathOf (c :: t ++ 0x2F :: q)),
      queryOf (c :: t ++ 0x2F :: q), fragment⟩ =
      0x2F :: queryText (queryOf (c :: t ++ 0x2F :: q)) := by
    rw [hpath]
    rfl
  rw [htarget, List.cons.injEq, and_iff_right rfl]
  unfold queryOf
  rw [hdrop]
  have hcases : c = 0x3F ∨ c = 0x23 := by simpa [Rfc3986.endsPath] using hc
  rcases hcases with rfl | rfl
  · -- A query: it ends at the first number sign.
    show 0x3F :: (t ++ 0x2F :: q).takeWhile (· ≠ 0x23) = q ↔ _
    constructor
    · intro heq
      have hnumber : 0x23 ∉ q := by
        rw [← heq]
        intro hmem
        rcases List.mem_cons.mp hmem with h | h
        · cases h
        · simpa using List.mem_takeWhile_imp h
      rcases findByte_cases 0x23 t with ⟨ht, -⟩ | ⟨y, x, rfl, hy, -⟩
      · -- Without one in front of the slash the query is longer than what follows the slash.
        have hall : 0x23 ∉ t ++ 0x2F :: q := by simp [ht, hnumber]
        rw [(span_ne_of_not_mem hall).1] at heq
        have := congrArg List.length heq
        simp only [List.length_cons, List.length_append] at this
        omega
      · rw [List.append_assoc, List.cons_append, (span_ne_append_cons _ hy).1] at heq
        subst heq
        refine ⟨x, rfl, fun d hd => ?_, hnumber⟩
        cases hd
        rfl
    · rintro ⟨x, heq, hquery, hnumber⟩
      cases q with
      | nil => cases heq
      | cons d y =>
        rw [List.cons_append] at heq
        obtain ⟨rfl, rfl⟩ := List.cons.inj heq
        have hy : 0x23 ∉ y := fun h => hnumber (List.mem_cons_of_mem _ h)
        rw [List.append_assoc, List.cons_append, (span_ne_append_cons _ hy).1]
  · -- A fragment: there is no query.
    show ([] : Bytes) = q ↔ _
    constructor
    · rintro rfl
      exact ⟨t, rfl, fun d hd => (by cases hd), List.not_mem_nil⟩
    · rintro ⟨x, heq, hquery, hnumber⟩
      cases q with
      | nil => rfl
      | cons d y =>
        obtain ⟨rfl, -⟩ := List.cons.inj heq
        cases hquery _ rfl

/-- The first request for `base.js` asks for something that starts with a slash if it is right. -/
theorem head_of_pointsTo {page e : Exchange} {ref : Bytes} (hpage : Placed page)
    (h : PointsTo page ref e) : e.path.head? = some 0x2F := by
  obtain ⟨host, t, hresolve, -, -, hpath⟩ := h
  obtain ⟨hends, hrest, hsplit⟩ := hpage.absolute.split
  have hauth : (Rfc3986.parse (urlOf page)).authority.isSome = true := by
    rw [hsplit, Rfc3986.parse_https hends hrest]
    rfl
  rw [hpath]
  exact Rfc3986.head?_of_resolveHttps hauth hresolve

/-- The absolute reference whose fragment repeats the query, and where it points. -/
theorem repeated_spec {jsUrl host query x : Bytes} (base : Bytes)
    (h : jsUrl = lit "https://" ++ host ++ (query ++ 0x23 :: (x ++ 0x2F :: query)))
    (hends : Unended host) (hquery : ∀ c ∈ query.head?, c = 0x3F)
    (hslash : 0x2F ∉ query ++ 0x23 :: x) (hnumber : 0x23 ∉ query) :
    Absolute jsUrl (host ++ (query ++ 0x23 :: x)) (0x2F :: query) ∧
      resolveHttps base jsUrl = some (hostOf host, 0x2F :: query) := by
  obtain ⟨c, t, hct⟩ := List.exists_cons_of_ne_nil
    (List.append_ne_nil_of_right_ne_nil query (List.cons_ne_nil 0x23 x))
  have hc : Rfc3986.endsPath c = true := by
    cases query with
    | nil =>
      cases hct
      rfl
    | cons d y =>
      obtain ⟨rfl, -⟩ := List.cons.inj hct
      rw [hquery d rfl]
      rfl
  have hassoc : query ++ 0x23 :: (x ++ 0x2F :: query) = c :: t ++ 0x2F :: query := by
    rw [← hct, List.append_assoc]
    rfl
  refine ⟨⟨?_, ?_, fun d hd => by cases hd; rfl⟩, ?_⟩
  · rw [h, hassoc, hct]
    simp only [List.append_assoc]
  · intro hmem
    rcases List.mem_append.mp hmem with hmem | hmem
    · cases hends _ hmem
    · exact hslash hmem
  · rw [h, hassoc, Rfc3986.resolveHttps_https hends (fun d hd => ?_) base,
      (target_ended_iff hc t query _ _ _).mpr ⟨x, hct.symm, hquery, hnumber⟩]
    cases hd
    simp only [endsAuthority, Rfc3986.endsPath, Bool.or_eq_true] at hc ⊢
    tauto

/-- An absolute `jsUrl` whose path is asked for on another host than it names is right only in
two shapes. -/
theorem jsUrlFits_of_absolute {page e : Exchange} {jsUrl host : Bytes}
    (hpeer : e.peer = cString e.host) (habs : Absolute jsUrl host e.path)
    (hmatched : MatchedPath e.path) (h : PointsTo page jsUrl e) :
    0x00 ∉ e.host ∧ JsUrlFits e.host page.host jsUrl := by
  obtain ⟨host', t, hresolve, hgoes⟩ := h
  obtain ⟨hzero, hhost, ht⟩ := (goesTo_iff hpeer _ _).mp hgoes
  refine ⟨hzero, ?_⟩
  have hne : e.path ≠ [] := fun heq => by
    rw [heq] at hmatched
    cases hmatched.1
  cases hdrop : host.dropWhile fun c => !endsAuthority c with
  | nil =>
    have hends : Unended host := fun x hx => by
      simpa using List.dropWhile_eq_nil_iff.mp hdrop x hx
    have heq := Option.some.inj (hresolve.symm.trans (resolve_absolute (urlOf page) habs hends))
    obtain ⟨rfl, htarget⟩ := Prod.mk.inj heq
    refine .absolute host e.path habs hne hends hhost ?_
    rw [← Rfc3986.target_eq_iff habs.rooted, if_neg hne, ← htarget, ht]
  | cons c rest =>
    -- The authority ends before the slash, so the slash is in the query or in the fragment.
    obtain ⟨q, hq⟩ : ∃ q, e.path = 0x2F :: q := by
      cases hpath : e.path with
      | nil => exact absurd hpath hne
      | cons d q =>
        rw [hpath] at hmatched
        exact ⟨q, by cases hmatched.1; rfl⟩
    have hsplit := habs.split
    rw [hdrop, hq] at hsplit
    obtain ⟨hends, hrest, hsplit⟩ := hsplit
    have hcmem : c ∈ host := (List.dropWhile_sublist _).subset (hdrop ▸ List.mem_cons_self)
    have hc : Rfc3986.endsPath c = true := by
      have hcends : endsAuthority c = true := hrest c rfl
      have hcslash : c ≠ 0x2F := fun heq => habs.slash_notMem (heq ▸ hcmem)
      simpa [endsAuthority, Rfc3986.endsPath, hcslash] using hcends
    have hresolve' := Rfc3986.resolveHttps_https hends hrest (urlOf page)
    rw [← hsplit] at hresolve'
    obtain ⟨rfl, htarget⟩ := Prod.mk.inj (Option.some.inj (hresolve.symm.trans hresolve'))
    have hcut := (target_ended_iff hc rest q _ _ _).mp (htarget.symm.trans (ht.symm.trans hq))
    obtain ⟨x, heq, hquery, hnumber⟩ := hcut
    refine .repeated _ q x ?_ hends hquery ?_ hnumber hhost
    · rw [hsplit, heq, List.append_assoc q]
      rfl
    · rw [← heq, ← hdrop]
      exact fun hmem => habs.slash_notMem ((List.dropWhile_sublist _).subset hmem)

/-- The first request for `base.js` is right exactly when `jsUrl` fits. -/
theorem jsUrl_iff {page e : Exchange} {jsUrl : Bytes} (hpage : Placed page)
    (hpeer : e.peer = cString e.host) (h : jsPathOf jsUrl = .ok e.path) :
    PointsTo page jsUrl e ↔ 0x00 ∉ e.host ∧ JsUrlFits e.host page.host jsUrl := by
  rcases jsPathOf_cases h with ⟨host, habs, hmatched⟩ | ⟨hhttps, hpath⟩
  · refine ⟨jsUrlFits_of_absolute hpeer habs hmatched, ?_⟩
    rintro ⟨hzero, hfits⟩
    cases hfits with
    | absolute host' path' habs' hne hends hhost hplain =>
      obtain ⟨rfl, rfl⟩ := habs.unique habs'
      refine ⟨_, _, resolve_absolute (urlOf page) habs hends,
        (goesTo_iff hpeer _ _).mpr ⟨hzero, hhost, ?_⟩⟩
      rw [(Rfc3986.target_eq_iff habs.rooted _ _ _).mpr hplain, if_neg hne]
    | path hslash =>
      obtain ⟨s, rfl, -⟩ := hslash
      exact absurd rfl habs.head_ne
    | repeated host' query x heq hends hquery hslash hnumber hhost =>
      obtain ⟨habs', hresolve⟩ := repeated_spec (urlOf page) heq hends hquery hslash hnumber
      obtain ⟨-, hpath⟩ := habs.unique habs'
      exact ⟨_, _, hresolve, (goesTo_iff hpeer _ _).mpr ⟨hzero, hhost, hpath⟩⟩
  · -- The reference itself is asked for. It is no `https://` reference.
    have hnot : ∀ host rest, ¬ Absolute jsUrl host rest := fun host rest habs => by
      rw [habs.isPrefixOf] at hhttps
      cases hhttps
    by_cases hhead : jsUrl.head? = some 0x2F
    · rw [pointsTo_slash_iff hpage hpeer hhead hpath]
      constructor
      · rintro ⟨hzero, hslash, hhost, hplain⟩
        exact ⟨hzero, .path hslash hhost hplain⟩
      · rintro ⟨hzero, hfits⟩
        cases hfits with
        | absolute host path habs => exact absurd habs (hnot _ _)
        | path hslash hhost hplain => exact ⟨hzero, hslash, hhost, hplain⟩
        | repeated host query x heq hends hquery hslash hnumber =>
          exact absurd (repeated_spec [] heq hends hquery hslash hnumber).1 (hnot _ _)
    · refine iff_of_false (fun hpoints => ?_) ?_
      · rw [← hpath] at hhead
        exact hhead (head_of_pointsTo hpage hpoints)
      · rintro ⟨-, hfits⟩
        cases hfits with
        | absolute host path habs => exact hnot _ _ habs
        | path hslash =>
          obtain ⟨s, rfl, -⟩ := hslash
          exact hhead rfl
        | repeated host query x heq hends hquery hslash hnumber =>
          exact hnot _ _ (repeated_spec [] heq hends hquery hslash hnumber).1

/-! ### Whole loads -/

/-- The second call of a load is right exactly when its references fit. If the first request is
wrong, it does not matter where the redirects after it lead. -/
theorem jsCall_iff {trim : Bytes → Bytes} {load : PlayerLoad} {host jsUrl jsPath : Bytes}
    {page first : Exchange} (hcall : JsCall trim host load jsUrl jsPath) (hhost : 0x2F ∉ host)
    (hpage : Placed page) (hfirst : load.js.head? = some first) :
    ((load.js.IsChain fun e e' => ∃ loc ∈ e'.via, PointsTo e loc e') ∧
        PointsTo page jsUrl first) ↔
      (load.js.IsChain fun e e' => ∃ loc ∈ e'.via, LocationFits e.host loc) ∧
        0x00 ∉ host ∧ JsUrlFits host page.host jsUrl := by
  obtain ⟨-, rfl, rfl⟩ := hcall.trace.head first hfirst
  have hjsUrl := jsUrl_iff hpage (hcall.trace.peer first (List.mem_of_head? hfirst))
    hcall.jsPath_eq
  have hredirects : PointsTo page jsUrl first →
      ((load.js.IsChain fun e e' => ∃ loc ∈ e'.via, PointsTo e loc e') ↔
        load.js.IsChain fun e e' => ∃ loc ∈ e'.via, LocationFits e.host loc) := by
    intro hpoints
    refine redirects_iff hcall.trace.peer hcall.trace.chain fun e he => ?_
    cases hfirst.symm.trans he
    exact ⟨hhost, head_of_pointsTo hpage hpoints⟩
  rw [← hjsUrl]
  exact and_congr_left hredirects

/-- A load goes where its references point exactly when all of them fit. -/
theorem followsReferences_iff (trim : Bytes → Bytes) (server : Server) (watchUrl : Bytes) :
    FollowsReferences (loadPlayerCodeFromWatchUrl trim server watchUrl) ↔
      ReferencesFit (loadPlayerCodeFromWatchUrl trim server watchUrl) := by
  generalize hload : loadPlayerCodeFromWatchUrl trim server watchUrl = load
  rcases load_cases hload with ⟨hwatch, hjs⟩ | ⟨host, path, habs, hmatched, hne, htrace, hjs⟩
  · -- Nothing was sent.
    refine iff_of_true ⟨?_, ?_, ?_⟩ ⟨?_, ?_, ?_⟩
    all_goals simp [hwatch, hjs]
  · have hplaced : ∀ e ∈ load.watch.head?, Placed e := fun e he => by
      obtain ⟨-, rfl, rfl⟩ := htrace.head e he
      exact ⟨habs.slash_notMem, hmatched.1⟩
    have hwatch := redirects_iff htrace.peer htrace.chain hplaced
    rcases hjs with hjs | ⟨jsUrl, jsPath, hcall⟩
    · constructor
      · rintro ⟨h, -, -⟩
        exact ⟨hwatch.mp h, by simp [hjs], by simp [hjs]⟩
      · rintro ⟨h, -, -⟩
        exact ⟨hwatch.mpr h, by simp [hjs], by simp [hjs]⟩
    · -- The requests at both ends of the first call, and the first one of the second.
      have hhead := List.head?_eq_some_head hne
      have hlast := List.getLast?_eq_some_getLast hne
      have hfirst := List.head?_eq_some_head hcall.js_ne
      have hasked := (htrace.head _ hhead).2.1
      have hpage := placed_of_chain htrace.chain hplaced _ (List.getLast_mem hne)
      have hjs := jsCall_iff hcall habs.slash_notMem hpage hfirst
      constructor
      · rintro ⟨hw, hj, hu⟩
        obtain ⟨_, hmem, hpoints⟩ := hu _ hlast _ hfirst
        cases hcall.jsUrl_eq.symm.trans hmem
        obtain ⟨hj', hzero, hfits⟩ := hjs.mp ⟨hj, hpoints⟩
        refine ⟨hwatch.mp hw, hj', fun asked haskedMem page hpageMem _ => ?_⟩
        cases hhead.symm.trans haskedMem
        cases hlast.symm.trans hpageMem
        rw [hasked]
        exact ⟨hzero, jsUrl, hcall.jsUrl_eq, hfits⟩
      · rintro ⟨hw, hj, hu⟩
        obtain ⟨hzero, _, hmem, hfits⟩ := hu _ hhead _ hlast hcall.js_ne
        cases hcall.jsUrl_eq.symm.trans hmem
        rw [hasked] at hzero hfits
        obtain ⟨hj', hpoints⟩ := hjs.mpr ⟨hj, hzero, hfits⟩
        refine ⟨hwatch.mpr hw, hj', fun page hpageMem e he => ?_⟩
        cases hlast.symm.trans hpageMem
        cases hfirst.symm.trans he
        exact ⟨jsUrl, hcall.jsUrl_eq, hpoints⟩

/-- A watch page that takes its player from a host of its own. -/
def otherHostServer : Server := fun history _ _ =>
  match history with
  | [] => .reply (lit "HTTP/1.1 200 OK\r\n\r\n\"jsUrl\":\"https://s.ytimg.com/base.js\"")
  | _ => .reply (lit "HTTP/1.1 404 Not Found\r\n\r\n")

/-- The player is asked for at the host of the watch URL, not at the host `jsUrl` names. -/
theorem followsReferences_otherHost :
    ¬ FollowsReferences (loadPlayerCodeFromWatchUrl strip otherHostServer
      (lit "https://www.youtube.com/watch")) := by
  generalize hload : loadPlayerCodeFromWatchUrl strip otherHostServer
    (lit "https://www.youtube.com/watch") = load
  have hrun : load.watch.getLast?.map urlOf = some (lit "https://www.youtube.com/watch") ∧
      load.js.head?.map Exchange.host = some (lit "www.youtube.com") ∧
      load.jsUrl = some (lit "https://s.ytimg.com/base.js") := by
    rw [← hload]
    decide
  obtain ⟨hlast, hfirst, hjsUrl⟩ := hrun
  obtain ⟨page, hpage, hurl⟩ := Option.map_eq_some_iff.mp hlast
  obtain ⟨first, hmem, hhost⟩ := Option.map_eq_some_iff.mp hfirst
  intro h
  obtain ⟨jsUrl, hjs, host, t, hresolve, -, hsame, -⟩ := h.jsUrl page hpage first hmem
  cases hjsUrl.symm.trans hjs
  have hpoints : resolveHttps (lit "https://www.youtube.com/watch")
      (lit "https://s.ytimg.com/base.js") = some (lit "s.ytimg.com", lit "/base.js") := by
    decide
  rw [hurl, hpoints] at hresolve
  cases hresolve
  rw [hhost] at hsame
  exact absurd hsame (by unfold SameHost; decide)

end EjsBoundary.Proofs
