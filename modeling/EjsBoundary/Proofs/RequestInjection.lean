import EjsBoundary.Lib.HttpMessage
import EjsBoundary.Proofs.Http

/-!
# `EjsBoundary.Proofs.RequestInjection`: what is written is one request

`https_request` writes the host and the path it is given as they are. `oneRequest_iff` says which
of them keep the text one request: a path without white space and a host without line ends. The
proof counts. A text that reads as a request has one CR and one LF for each of its lines, and if
its header names are the ones that were meant, there is no room for another.

`noInjection_iff` carries this to the three places that hosts and paths come from. A `Location` is
cut out of one line, so it brings no line end, but its path may hold blanks. The watch URL may hold
line ends in the place of the host, and `jsUrl` anything that is not a quotation mark.
-/

set_option autoImplicit false

namespace EjsBoundary.Proofs

open EjsBoundary.Lib
open EjsBoundary.Lib.HttpRequest (isLineEnd FieldOk fieldLine fieldLines)
open EjsBoundary.Model

/-! ### One request -/

/-- The names of the headers every request without a body has. -/
def baseNames : List Bytes := [lit "Host", lit "Connection", lit "User-Agent", lit "Accept"]

/-- The text is one GET request for `path`, with the headers every request has and those under
`names`, and nothing after it. -/
def OneRequest (path : Bytes) (names : List Bytes) (text : Bytes) : Prop :=
  ∃ r, HttpRequest.parse text = some r ∧ r.method = lit "GET" ∧ r.target = path ∧
    r.headers.map Prod.fst = baseNames ++ names ∧ r.body = []

/-- The headers with a fixed text. -/
def fixedFields : List (Bytes × Bytes) :=
  [(lit "Connection", lit " close"), (lit "User-Agent", 0x20 :: defaultUa),
    (lit "Accept", 0x20 :: defaultAcc)]

/-- The request that is meant. -/
def requestOf (host path : Bytes) (extra : List (Bytes × Bytes)) : HttpRequest where
  method := lit "GET"
  target := path
  headers := (lit "Host", 0x20 :: host) :: (fixedFields ++ extra)
  body := []

/-- The text that is sent is that of the one request. -/
theorem requestText_eq_render {extraHeaders : Bytes} {extra : List (Bytes × Bytes)}
    (h : extraLines extraHeaders = fieldLines extra) (host path : Bytes) :
    requestText host (lit "GET") path extraHeaders [] = (requestOf host path extra).render := by
  unfold requestText HttpRequest.render requestOf
  rw [h]
  simp only [fieldLines, fieldLine, fixedFields, List.map_cons, List.flatten_cons,
    List.append_assoc, List.cons_append, List.nil_append, bodyLines, if_true, List.append_nil]
  rfl

/-- What a host and a path have to be. -/
structure CleanFor (host path : Bytes) : Prop where
  host_clean : ∀ x ∈ host, isLineEnd x = false
  path_ne : path ≠ []
  path_clean : ∀ x ∈ path, isSpace x = false

section
variable {extra : List (Bytes × Bytes)} (hextra : ∀ field ∈ extra, FieldOk field)

include hextra in
/-- The fields behind the host are well formed. -/
theorem fixed_append_extra_ok : ∀ field ∈ fixedFields ++ extra, FieldOk field := by
  have hfixed : ∀ field ∈ fixedFields, FieldOk field := by decide
  intro field hfield
  rcases List.mem_append.mp hfield with h | h
  · exact hfixed field h
  · exact hextra field h

include hextra in
/-- With a clean host and path the request is valid. -/
theorem requestOf_valid {host path : Bytes} (h : CleanFor host path) :
    (requestOf host path extra).Valid where
  method_ne := (by decide : lit "GET" ≠ [])
  method_tchar := (by decide : ∀ x ∈ lit "GET", HttpRequest.isTchar x = true)
  target_ne := h.path_ne
  target_space := h.path_clean
  fields_ok := by
    have hname : lit "Host" ≠ [] ∧ ∀ x ∈ lit "Host", HttpRequest.isTchar x = true := by decide
    have hvalue : ∀ x ∈ 0x20 :: host, isLineEnd x = false :=
      List.forall_mem_cons.mpr ⟨by decide, h.host_clean⟩
    exact List.forall_mem_cons.mpr ⟨⟨hname.1, hname.2, hvalue⟩, fixed_append_extra_ok hextra⟩

include hextra in
/-- The line ends of the headers that are written: one for each header, and those of the host. -/
theorem count_requestOf {c : UInt8} (hc : isLineEnd c = true) (host path : Bytes) :
    (fieldLines (requestOf host path extra).headers).count c =
      host.count c + (requestOf host path extra).headers.length := by
  have hhost : (lit "Host").count c = 0 :=
    HttpRequest.count_eq_zero_of_isLineEnd hc (by decide)
  have hblank : (0x20 : UInt8) ≠ c := by
    rintro rfl
    cases hc
  show (fieldLine (lit "Host", 0x20 :: host) ++ fieldLines (fixedFields ++ extra)).count c =
    host.count c + ((fixedFields ++ extra).length + 1)
  rw [List.count_append, HttpRequest.count_fieldLine hc,
    HttpRequest.count_fieldLines hc (fixed_append_extra_ok hextra), hhost,
    List.count_cons_of_ne hblank]
  omega

include hextra in
/-- What is written is one request exactly when the path has no white space and the host no line
end. -/
theorem oneRequest_iff (host path : Bytes) :
    OneRequest path (extra.map Prod.fst) (requestOf host path extra).render ↔
      CleanFor host path := by
  constructor
  · rintro ⟨⟨method, target, headers, body⟩, hparse, rfl, rfl, hnames, rfl⟩
    obtain ⟨hvalid, hrender⟩ := HttpRequest.parse_eq_some_iff.mp hparse
    refine ⟨fun c hmem => ?_, hvalid.target_ne, hvalid.target_space⟩
    by_contra hc
    rw [Bool.not_eq_false] at hc
    -- The two texts have the same headers, line for line, and the same number of them.
    have hlines : fieldLines (requestOf host target extra).headers = fieldLines headers := by
      have h₁ := List.append_cancel_left hrender
      have h₂ := List.append_cancel_left (List.cons.inj h₁).2
      exact List.append_cancel_right (List.append_cancel_left (List.cons.inj h₂).2)
    have hlength : (requestOf host target extra).headers.length = headers.length := by
      have := congrArg List.length hnames
      simp only [List.length_map, List.length_append] at this
      rw [this]
      simp only [requestOf, List.length_cons, List.length_append]
      show 3 + extra.length + 1 = 4 + extra.length
      omega
    have hcount := count_requestOf hextra hc host target
    have hfields : (fieldLines headers).count c = headers.length :=
      HttpRequest.count_fieldLines hc hvalid.fields_ok
    rw [hlines, hlength, hfields] at hcount
    have hpos : 0 < host.count c := List.count_pos_iff.mpr hmem
    omega
  · intro h
    exact ⟨requestOf host path extra,
      HttpRequest.parse_eq_some_iff.mpr ⟨requestOf_valid hextra h, rfl⟩, rfl, rfl, rfl, rfl⟩

end

/-! ### Loads -/

/-- Whether a request was written. -/
def Written (e : Exchange) : Prop := ∀ failure, e.outcome ≠ .failed failure

/-- The headers `watchHeaders` and `jsHeaders` are the lines of. -/
def watchFields : List (Bytes × Bytes) :=
  [(lit "Accept-Language", lit " en-US,en;q=0.9"),
    (lit "Referer", lit " https://www.youtube.com/")]

def jsFields : List (Bytes × Bytes) := [(lit "Referer", lit " https://www.youtube.com/")]

/-- The headers of the watch request as lines. -/
theorem extraLines_watchHeaders : extraLines watchHeaders = fieldLines watchFields := by
  decide

/-- And those of the player request. -/
theorem extraLines_jsHeaders : extraLines jsHeaders = fieldLines jsFields := by decide

/-- Everything that a load writes is one request for the path that is meant, with the headers
that are meant. -/
structure NoInjection (load : PlayerLoad) : Prop where
  watch : ∀ e ∈ load.watch, Written e →
    OneRequest e.path [lit "Accept-Language", lit "Referer"] e.request
  js : ∀ e ∈ load.js, Written e → OneRequest e.path [lit "Referer"] e.request

/-- The text between `https://` and the first slash. -/
def refHost (ref : Bytes) : Bytes := (ref.drop 8).takeWhile (· ≠ 0x2F)

/-- What follows the host of an https reference, and all of another one. -/
def refTail (ref : Bytes) : Bytes :=
  if (lit "https://").isPrefixOf ref then (ref.drop 8).dropWhile (· ≠ 0x2F) else ref

/-- A text without white space. -/
def Unspaced (s : Bytes) : Prop := ∀ x ∈ s, isSpace x = false

/-- The texts that the written requests of a load are made from: no line end in the place of the
host of the watch URL, and no white space after the host of any of them. -/
structure SourcesClean (watchUrl : Bytes) (load : PlayerLoad) : Prop where
  watchUrl : ∀ e ∈ load.watch.head?, Written e →
    (∀ x ∈ refHost watchUrl, isLineEnd x = false) ∧ Unspaced (refTail watchUrl)
  location : ∀ e ∈ load.watch ++ load.js, Written e → ∀ loc ∈ e.via, Unspaced (refTail loc)
  jsUrl : ∀ e ∈ load.js.head?, Written e → ∀ jsUrl ∈ load.jsUrl, Unspaced (refTail jsUrl)

/-- The host of an absolute URL. -/
theorem Absolute.refHost_eq {s host rest : Bytes} (h : Absolute s host rest) :
    refHost s = host := h.span.1

/-- And what is behind it. -/
theorem Absolute.refTail_eq {s host rest : Bytes} (h : Absolute s host rest) :
    refTail s = rest := by
  unfold refTail
  rw [if_pos h.isPrefixOf]
  exact h.span.2

/-- Of another text everything is tail. -/
theorem refTail_of_not_https {s : Bytes} (h : (lit "https://").isPrefixOf s = false) :
    refTail s = s := by
  unfold refTail
  rw [h]
  rfl

section
variable {trim : Bytes → Bytes} (htrim : ∀ s, ∀ x ∈ trim s, x ∈ s)

include htrim in
/-- One redirect from a host without line ends: the request after it is clean exactly when the
rest of the `Location` has no white space. -/
theorem cleanFor_redirect_iff {e e' : Exchange} (h : Follows trim e e')
    (hhost : ∀ x ∈ e.host, isLineEnd x = false) :
    CleanFor e'.host e'.path ↔ ∀ loc ∈ e'.via, Unspaced (refTail loc) := by
  obtain ⟨_, r, loc, -, -, hloc, hvia, htarget⟩ := h
  obtain ⟨text, rfl, hdot⟩ := locationOf_eq_some hloc
  have hends : ∀ x ∈ trim text, isLineEnd x = false := fun x hx =>
    HttpRequest.isLineEnd_eq_false (by decide) (by decide) (hdot x (htrim text x hx))
  rw [hvia]
  simp only [Option.mem_def, Option.some.injEq, forall_eq']
  rcases redirectTarget_cases htarget with ⟨rest, habs, -, hpath⟩ | ⟨hhttps, hhead, heq, hpath⟩
  · have hhost' : ∀ x ∈ e'.host, isLineEnd x = false := fun x hx => hends x (by
      rw [habs.eq]
      exact List.mem_append_left _ (List.mem_append_right _ hx))
    rw [habs.refTail_eq]
    by_cases hrest : rest = []
    · rw [if_pos hrest] at hpath
      subst hrest
      refine iff_of_true ⟨hhost', ?_, ?_⟩ fun x hx => by cases hx
      all_goals rw [hpath]; decide
    · rw [if_neg hrest] at hpath
      subst hpath
      exact ⟨fun h => h.path_clean, fun h => ⟨hhost', hrest, h⟩⟩
  · rw [refTail_of_not_https hhttps, ← hpath, heq]
    have hne : e'.path ≠ [] := by
      intro hnil
      rw [hpath] at hnil
      rw [hnil] at hhead
      cases hhead
    exact ⟨fun h => h.path_clean, fun h => ⟨hhost, hne, h⟩⟩

include htrim in
/-- The requests of a call are clean exactly when the first one is and every `Location` that is
followed is. -/
theorem cleanFor_call_iff {trace : List Exchange} (hchain : trace.IsChain (Follows trim)) :
    (∀ e ∈ trace, Written e → CleanFor e.host e.path) ↔
      (∀ e ∈ trace.head?, Written e → CleanFor e.host e.path) ∧
        ∀ e ∈ trace.tail, Written e → ∀ loc ∈ e.via, Unspaced (refTail loc) := by
  induction trace with
  | nil => simp
  | cons e trace ih =>
    obtain ⟨hfollows, htail⟩ := List.isChain_cons.mp hchain
    rw [List.forall_mem_cons, ih htail, List.head?_cons, List.tail_cons]
    simp only [Option.mem_def, Option.some.injEq, forall_eq']
    refine and_congr_right fun hfirst => ?_
    cases trace with
    | nil => simp
    | cons e' trace =>
      -- A request that is followed by another was answered, so it was written.
      have hstep := hfollows e' rfl
      obtain ⟨resp, _, _, hreply, -⟩ := id hstep
      have hwritten : Written e := fun failure hfailed => by
        rw [hreply] at hfailed
        cases hfailed
      have hiff := cleanFor_redirect_iff htrim hstep (hfirst hwritten).host_clean
      simp only [List.head?_cons, Option.some.injEq, forall_eq', List.tail_cons,
        List.forall_mem_cons, hiff]
      exact Iff.rfl

/-- The requests of a call are single requests exactly when they are clean. -/
theorem oneRequest_call_iff {extraHeaders host path : Bytes} {extra : List (Bytes × Bytes)}
    {trace : List Exchange} (hextra : ∀ field ∈ extra, FieldOk field)
    (hlines : extraLines extraHeaders = fieldLines extra)
    (htrace : CallTrace trim (lit "GET") extraHeaders [] none host path trace) :
    (∀ e ∈ trace, Written e → OneRequest e.path (extra.map Prod.fst) e.request) ↔
      ∀ e ∈ trace, Written e → CleanFor e.host e.path := by
  refine forall₂_congr fun e he => imp_congr_right fun _ => ?_
  rw [htrace.request e he, requestText_eq_render hlines]
  exact oneRequest_iff hextra e.host e.path

/-- The first request of a call follows no `Location`. -/
theorem location_tail_iff {extraHeaders host path : Bytes} {trace : List Exchange}
    (htrace : CallTrace trim (lit "GET") extraHeaders [] none host path trace) :
    (∀ e ∈ trace.tail, Written e → ∀ loc ∈ e.via, Unspaced (refTail loc)) ↔
      ∀ e ∈ trace, Written e → ∀ loc ∈ e.via, Unspaced (refTail loc) := by
  cases trace with
  | nil => exact Iff.rfl
  | cons e trace =>
    obtain ⟨hvia, -, -⟩ := htrace.head e rfl
    rw [List.tail_cons, List.forall_mem_cons, hvia]
    simp

include htrim in
/-- The requests for the watch page are single requests exactly when the watch URL and every
`Location` are clean. -/
theorem watch_iff {watchUrl host path : Bytes} {trace : List Exchange}
    (habs : Absolute watchUrl host path) (hpath : MatchedPath path)
    (htrace : CallTrace trim (lit "GET") watchHeaders [] none host path trace) :
    (∀ e ∈ trace, Written e →
        OneRequest e.path [lit "Accept-Language", lit "Referer"] e.request) ↔
      (∀ e ∈ trace.head?, Written e →
        (∀ x ∈ refHost watchUrl, isLineEnd x = false) ∧ Unspaced (refTail watchUrl)) ∧
      ∀ e ∈ trace, Written e → ∀ loc ∈ e.via, Unspaced (refTail loc) := by
  have hne : path ≠ [] := by
    rintro rfl
    cases hpath.1
  have hfields : ∀ field ∈ watchFields, FieldOk field := by decide
  refine (oneRequest_call_iff hfields extraLines_watchHeaders htrace).trans ?_
  rw [cleanFor_call_iff htrim htrace.chain, location_tail_iff htrace]
  refine and_congr_left fun _ => forall₂_congr fun e he => imp_congr_right fun _ => ?_
  obtain ⟨-, rfl, rfl⟩ := htrace.head e he
  rw [habs.refHost_eq, habs.refTail_eq]
  exact ⟨fun h => ⟨h.host_clean, h.path_clean⟩, fun h => ⟨h.1, hne, h.2⟩⟩

include htrim in
/-- The requests for `base.js` are single requests exactly when `jsUrl` and every `Location` are
clean, given that the host of the watch URL is. -/
theorem js_iff {host jsUrl jsPath : Bytes} {load : PlayerLoad}
    (hcall : JsCall trim host load jsUrl jsPath) (hhost : ∀ x ∈ host, isLineEnd x = false) :
    (∀ e ∈ load.js, Written e → OneRequest e.path [lit "Referer"] e.request) ↔
      (∀ e ∈ load.js.head?, Written e → ∀ jsUrl ∈ load.jsUrl, Unspaced (refTail jsUrl)) ∧
      ∀ e ∈ load.js, Written e → ∀ loc ∈ e.via, Unspaced (refTail loc) := by
  have htail : refTail jsUrl = jsPath ∧ jsPath ≠ [] := by
    rcases jsPathOf_cases hcall.jsPath_eq with ⟨_, habs, hmatched⟩ | ⟨hhttps, rfl⟩
    · refine ⟨habs.refTail_eq, ?_⟩
      rintro rfl
      cases hmatched.1
    · exact ⟨refTail_of_not_https hhttps, hcall.jsUrl_ne⟩
  have hfields : ∀ field ∈ jsFields, FieldOk field := by decide
  refine (oneRequest_call_iff hfields extraLines_jsHeaders hcall.trace).trans ?_
  rw [cleanFor_call_iff htrim hcall.trace.chain, location_tail_iff hcall.trace]
  refine and_congr_left fun _ => forall₂_congr fun e he => imp_congr_right fun _ => ?_
  obtain ⟨-, rfl, rfl⟩ := hcall.trace.head e he
  simp only [hcall.jsUrl_eq, Option.mem_def, Option.some.injEq, forall_eq', htail.1]
  exact ⟨fun h => h.path_clean, fun h => ⟨hhost, htail.2, h⟩⟩

end

/-- A load writes single requests exactly when the texts they are made from are clean. What is
relied on of `trim` is that it only takes bytes away. -/
theorem noInjection_iff {trim : Bytes → Bytes} (htrim : ∀ s, ∀ x ∈ trim s, x ∈ s)
    (server : Server) (watchUrl : Bytes) :
    NoInjection (loadPlayerCodeFromWatchUrl trim server watchUrl) ↔
      SourcesClean watchUrl (loadPlayerCodeFromWatchUrl trim server watchUrl) := by
  generalize hload : loadPlayerCodeFromWatchUrl trim server watchUrl = load
  rcases load_cases hload with ⟨hwatch, hjs⟩ | ⟨host, path, habs, hmatched, hne, htrace, hjs⟩
  · -- Nothing was sent.
    refine iff_of_true ⟨?_, ?_⟩ ⟨?_, ?_, ?_⟩
    all_goals simp [hwatch, hjs]
  · have hwatch := watch_iff htrim habs hmatched htrace
    rcases hjs with hjs | ⟨jsUrl, jsPath, hcall⟩
    · constructor
      · rintro ⟨h, -⟩
        obtain ⟨hurl, hloc⟩ := hwatch.mp h
        exact ⟨hurl, by simpa [hjs] using hloc, by simp [hjs]⟩
      · rintro ⟨hurl, hloc, -⟩
        rw [hjs, List.append_nil] at hloc
        exact ⟨hwatch.mpr ⟨hurl, hloc⟩, by simp [hjs]⟩
    · -- The first request was answered, so the watch URL is clean on both sides.
      have hhead := List.head?_eq_some_head hne
      obtain ⟨resp, hreply⟩ := hcall.replied _ (List.head_mem hne)
      have hwritten : Written (load.watch.head hne) := fun failure hfailed => by
        rw [hreply] at hfailed
        cases hfailed
      constructor
      · rintro ⟨hw, hj⟩
        obtain ⟨hurl, hloc⟩ := hwatch.mp hw
        have hhost := (hurl _ hhead hwritten).1
        rw [habs.refHost_eq] at hhost
        obtain ⟨hjsUrl, hjsLoc⟩ := (js_iff htrim hcall hhost).mp hj
        exact ⟨hurl, List.forall_mem_append.mpr ⟨hloc, hjsLoc⟩, hjsUrl⟩
      · rintro ⟨hurl, hloc, hjsUrl⟩
        obtain ⟨hloc, hjsLoc⟩ := List.forall_mem_append.mp hloc
        have hhost := (hurl _ hhead hwritten).1
        rw [habs.refHost_eq] at hhost
        exact ⟨hwatch.mpr ⟨hurl, hloc⟩, (js_iff htrim hcall hhost).mpr ⟨hjsUrl, hjsLoc⟩⟩

/-- A watch page that has moved, with a path for `jsUrl`. -/
def movedServer : Server := fun history _ _ =>
  match history.length with
  | 0 => .reply (lit "HTTP/1.1 302 Found\r\nLocation: https://m.youtube.com/w \r\n\r\n")
  | 1 => .reply (lit "HTTP/1.1 200 OK\r\n\r\n\"jsUrl\":\"/base.js\"")
  | _ => .reply (lit "HTTP/1.1 200 OK\r\n\r\nvar x;")

/-- All three requests of this load are single requests. -/
theorem noInjection_moved :
    NoInjection (loadPlayerCodeFromWatchUrl strip movedServer (lit "https://www.youtube.com/w")) ∧
      (loadPlayerCodeFromWatchUrl strip movedServer
        (lit "https://www.youtube.com/w")).js.length = 1 := by
  generalize hload : loadPlayerCodeFromWatchUrl strip movedServer
    (lit "https://www.youtube.com/w") = load
  have hrun : (∀ e ∈ load.watch ++ load.js, ∀ loc ∈ e.via, ∀ x ∈ refTail loc, isSpace x = false) ∧
      (∀ jsUrl ∈ load.jsUrl, ∀ x ∈ refTail jsUrl, isSpace x = false) ∧ load.js.length = 1 := by
    rw [← hload]
    decide
  have hurl : (∀ x ∈ refHost (lit "https://www.youtube.com/w"), isLineEnd x = false) ∧
      ∀ x ∈ refTail (lit "https://www.youtube.com/w"), isSpace x = false := by decide
  have hclean : SourcesClean (lit "https://www.youtube.com/w") load :=
    ⟨fun _ _ _ => hurl, fun e he _ => hrun.1 e he, fun _ _ _ => hrun.2.1⟩
  rw [← hload] at hclean
  have hone := (noInjection_iff (fun s x hx => mem_of_mem_strip hx) movedServer _).mpr hclean
  rw [hload] at hone
  exact ⟨hone, hrun.2.2⟩

/-- A watch page whose reference ends the request line early. -/
def lineEndServer : Server := fun history _ _ =>
  match history with
  | [] => .reply (lit "HTTP/1.1 200 OK\r\n\r\n\"jsUrl\":\"/b HTTP/1.1\r\nX: y\"")
  | _ => .reply (lit "HTTP/1.1 200 OK\r\n\r\nvar x;")

/-- A `jsUrl` with a line end writes a header of its own. -/
theorem noInjection_lineEnd :
    ¬ NoInjection
      (loadPlayerCodeFromWatchUrl strip lineEndServer (lit "https://www.youtube.com/w")) := by
  generalize hload : loadPlayerCodeFromWatchUrl strip lineEndServer
    (lit "https://www.youtube.com/w") = load
  have hrun : load.js.head?.map (fun e => (e.request, e.outcome)) =
      some (requestText (lit "www.youtube.com") (lit "GET") (lit "/b HTTP/1.1\r\nX: y") jsHeaders
        [],
        .reply (lit "HTTP/1.1 200 OK\r\n\r\nvar x;")) := by
    rw [← hload]
    decide +kernel
  obtain ⟨e, hmem, heq⟩ := Option.map_eq_some_iff.mp hrun
  obtain ⟨hrequest, houtcome⟩ := Prod.mk.inj heq
  have hwritten : Written e := fun failure hfailed => by
    rw [houtcome] at hfailed
    cases hfailed
  -- The reader sees a header before those that are meant.
  have hnames : (HttpRequest.parse (requestText (lit "www.youtube.com") (lit "GET")
      (lit "/b HTTP/1.1\r\nX: y") jsHeaders [])).map (fun r => r.headers.map Prod.fst) =
      some [lit "X", lit "Host", lit "Connection", lit "User-Agent", lit "Accept",
        lit "Referer"] := by
    decide +kernel
  intro h
  obtain ⟨r, hparse, -, -, hmeant, -⟩ := h.js e (List.mem_of_head? hmem) hwritten
  rw [hrequest] at hparse
  rw [hparse, Option.map_some, hmeant] at hnames
  exact absurd hnames (by decide)

end EjsBoundary.Proofs
