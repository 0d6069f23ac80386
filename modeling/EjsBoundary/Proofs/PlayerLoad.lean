import EjsBoundary.Lib.WebSite
import EjsBoundary.Proofs.Location
import EjsBoundary.Proofs.RequestInjection

/-!
# `EjsBoundary.Proofs.PlayerLoad`: loading the player from a web site

`load_player_code_from_watch_url_core` against servers that stand for a `Site`. Such a server
reads each request strictly, and answers one that asks for a host and a path with a response that
represents what the site has there. What it adds to the response, how it writes the fields and
how it cuts the body into chunks is its own affair, as long as the search for the chunked coding
and the fields agree about it.

* `httpsRequestFrom_site`: a call of `https_request` gets what `Site.fetch` says, by induction
  over the redirects.
* `findJsUrl_eq_ok_iff`: the reference in the watch page is the first complete one.
* `load_site_iff`: when the first reference of the watch page is a link, if there is one, the load
  ends, and it returns the code that the site has where this link leads, on the host of the watch
  URL.
-/

set_option autoImplicit false

namespace EjsBoundary.Proofs

open EjsBoundary.Lib
open EjsBoundary.Lib.ChunkedCoding (Coding)
open EjsBoundary.Lib.HttpRequest (FieldOk fieldLines)
open EjsBoundary.Model

/-! ### Reading a response -/

/-- What the source relies on in a digit of a status. -/
theorem decimalDigit_facts (d : Fin 10) :
    isSpace (decimalDigit d) = false ∧
      (FormQuery.hexDigit? (decimalDigit d)).isSome = true ∧
      (0x30 ≤ decimalDigit d && decimalDigit d ≤ 0x39) = true ∧
      ((hexval (decimalDigit d)).getD 0).toNat = d.val := by
  revert d
  decide

/-- The status is read from the status line. -/
theorem readStatus_of_hasStatus {h : ResponseHead} {status : Nat} (hs : h.HasStatus status) :
    readStatus h.text = status := by
  obtain ⟨version, reason, a, b, c, hversion, hline, rfl⟩ := hs
  obtain ⟨ha, hahex, hadigit, havalue⟩ := decimalDigit_facts a
  obtain ⟨-, -, hbdigit, hbvalue⟩ := decimalDigit_facts b
  obtain ⟨-, -, hcdigit, hcvalue⟩ := decimalDigit_facts c
  have htext : h.text = (lit "HTTP/" ++ version) ++ 0x20 :: decimalDigit a :: decimalDigit b ::
      decimalDigit c :: 0x20 :: (reason ++ ResponseHead.fieldsText h.fields) := by
    rw [ResponseHead.text, hline]
    simp
  have hword : ∀ x ∈ lit "HTTP/" ++ version, (!isSpace x) = true := by
    refine List.forall_mem_append.mpr ⟨by decide, fun x hx => ?_⟩
    rw [hversion x hx]
    rfl
  have hrest : (h.text.dropWhile isSpace).dropWhile (fun c => !isSpace c) =
      0x20 :: decimalDigit a :: decimalDigit b :: decimalDigit c :: 0x20 ::
        (reason ++ ResponseHead.fieldsText h.fields) := by
    have hstart : h.text.dropWhile isSpace = h.text := by
      rw [htext]
      rfl
    rw [hstart, htext]
    exact (span_append hword fun x hx => by cases hx; rfl).2
  have hnumber : (0x20 :: decimalDigit a :: decimalDigit b :: decimalDigit c :: 0x20 ::
      (reason ++ ResponseHead.fieldsText h.fields)).dropWhile isSpace =
      decimalDigit a :: decimalDigit b :: decimalDigit c :: 0x20 ::
        (reason ++ ResponseHead.fieldsText h.fields) := by
    rw [List.dropWhile_cons_of_pos (by decide), List.dropWhile_cons_of_neg (by rw [ha]; decide)]
  have hdigits : (decimalDigit a :: decimalDigit b :: decimalDigit c :: 0x20 ::
      (reason ++ ResponseHead.fieldsText h.fields)).takeWhile
        (fun c => 0x30 ≤ c && c ≤ 0x39) = [decimalDigit a, decimalDigit b, decimalDigit c] := by
    simp only [List.takeWhile_cons, hadigit, hbdigit, hcdigit, if_true]
    rfl
  have hvalue : digitsValue 10 [decimalDigit a, decimalDigit b, decimalDigit c] =
      100 * a.val + 10 * b.val + c.val := by
    simp only [digitsValue, List.foldl_cons, List.foldl_nil, havalue, hbvalue, hcvalue]
    omega
  simp only [readStatus, hrest, hnumber, readSign_of_isHex hahex, hdigits, hvalue,
    Bool.false_eq_true, if_false]
  omega

/-- A whole coding is decoded to its payload. -/
theorem decodeChunked_coding {m : Coding} (hlen : m.bytes.length < 2 ^ 63) :
    decodeChunked strip m.bytes = some m.payload := by
  have hdrop : m.bytes.drop 0 = m.bytes.take m.bytes.length := by
    rw [List.drop_zero, List.take_length]
  rw [← m.payloadWithin_length]
  rw [Coding.bytes, List.length_append] at hlen
  obtain ⟨l, htrail, hl⟩ := trail_of_chunks m.last m.trailer m.chunks (Nat.zero_le _) hdrop
    (by omega)
  rw [Nat.zero_add] at hl
  exact decodeChunked_eq_some_iff.mpr ⟨l, htrail, hl.symm⟩

/-- However the payload is framed, it is what the response is read with. -/
theorem readHttpResponse_of_frames {h : ResponseHead} {body payload : Bytes}
    (hagree : Announces h ↔ h.Chunked) (hframes : h.Frames payload body) :
    readHttpResponse strip (h.render body) = some (.ok (responseWith h payload)) := by
  cases hframes with
  | plain hnot =>
    exact (readHttpResponse_render strip h _).2 fun hannounces => hnot (hagree.mp hannounces)
  | chunked hchunked m hpayload hlen =>
    rw [(readHttpResponse_render strip h m.bytes).1 (hagree.mpr hchunked),
      decodeChunked_coding hlen, hpayload]
    rfl

/-- A status line begins with the protocol. -/
theorem prefix_of_hasStatus {h : ResponseHead} {status : Nat} (hs : h.HasStatus status) :
    lit "HTTP/" <+: h.statusLine := by
  obtain ⟨version, reason, a, b, c, -, hline, -⟩ := hs
  exact ⟨_, hline.symm⟩

/-- The search finds the link of a head. -/
theorem locationText_of_locates {h : ResponseHead} {link : Link} (hlocates : h.Locates link) :
    locationText h.fields = some link.text := by
  obtain ⟨front, f, back, hfields, hfront, hname, hvalue⟩ := hlocates
  rw [hfields]
  clear hfields
  induction front with
  | nil =>
    have hall : f.value.all isSpace = false := by
      cases hspaces : f.value.all isSpace with
      | false => rfl
      | true =>
        rw [strip_eq_nil (List.all_eq_true.mp hspaces)] at hvalue
        exact absurd hvalue.symm link.text_ne_nil
    have hne : f.blanks ++ f.value ≠ [] := by
      intro hnil
      rw [(List.append_eq_nil_iff.mp hnil).2] at hall
      cases hall
    rw [List.nil_append, locationText, if_pos hname]
    cases back with
    | nil => rw [namedText, if_neg hne, hvalue]
    | cons g back => rw [namedText, hall, if_neg Bool.false_ne_true, hvalue]
  | cons g front ih =>
    obtain ⟨hg, hrest⟩ := List.forall_mem_cons.mp hfront
    rw [List.cons_append, locationText, if_neg hg]
    exact ih hrest

/-- The parts of a link that is an https URL. -/
theorem absolute_of_link (host : HostName) (path : Option UrlPath) :
    Absolute (Link.absolute host path).text host.text ((path.map UrlPath.text).getD []) where
  eq := (List.append_assoc _ _ _).symm
  slash_notMem := fun hmem => (host.text_clean _ hmem).2.1 rfl
  rooted := by
    cases path with
    | none => exact fun x hx => by cases hx
    | some path =>
      intro x hx
      rw [show (some path |>.map UrlPath.text).getD [] = path.text from rfl, path.text_head] at hx
      cases hx
      rfl

/-- The path of a link is one the pattern matches. -/
theorem matchedPath_of_urlPath (path : UrlPath) : MatchedPath path.text :=
  ⟨path.text_head, fun x hx => forall_byte
    (p := fun x => isSpace x = false → Regex.dot x = true) (by decide) x (path.text_clean x hx)⟩

/-- A link is followed to where it leads. -/
theorem redirectTarget_link (base : HostName) (link : Link) :
    redirectTarget base.text link.text = some ((link.host base).text, link.targetPath.text) := by
  refine redirectTarget_eq_some_iff.mpr ?_
  cases link with
  | absolute host path =>
    refine Or.inl ⟨_, absolute_of_link host path, host.text_ne_nil, ?_⟩
    cases path with
    | none => exact ⟨Or.inl rfl, rfl⟩
    | some path =>
      have hmatched := matchedPath_of_urlPath path
      have hne : path.text ≠ [] := by
        intro hnil
        have hhead := path.text_head
        rw [hnil] at hhead
        cases hhead
      exact ⟨Or.inr hmatched, (if_neg hne).symm⟩
  | rooted path _ => exact Or.inr ⟨path.text_head, rfl, rfl⟩

/-! ### One exchange with a site -/

/-- A server that stands for a site. -/
def Serves (server : Server) (site : Site) : Prop :=
  ∀ (history : List Exchange) (request : Bytes) (r : HttpRequest) (host : HostName)
    (path : UrlPath), HttpRequest.parse request = some r → r.Asks host path →
    ∃ h body, server history host.text request = .reply (h.render body) ∧
      Represents h body (site host path) ∧ (Announces h ↔ h.Chunked)

/-- The headers of a caller are fields, and no `Host` is among them. -/
structure ExtraFields (extraHeaders : Bytes) (fields : List (Bytes × Bytes)) : Prop where
  lines : extraLines extraHeaders = fieldLines fields
  ok : ∀ field ∈ fields, FieldOk field
  noHost : ∀ field ∈ fields, lowered field.1 ≠ lit "host"

/-- The headers of the watch request are well formed. -/
theorem watchHeaders_fields : ExtraFields watchHeaders watchFields :=
  ⟨extraLines_watchHeaders, by decide, by decide⟩

/-- So are those of the player request. -/
theorem jsHeaders_fields : ExtraFields jsHeaders jsFields :=
  ⟨extraLines_jsHeaders, by decide, by decide⟩

section
variable {extraHeaders : Bytes} {fields : List (Bytes × Bytes)}
  (hextra : ExtraFields extraHeaders fields)

include hextra in
/-- A strict reader sees that the host is asked for the path. -/
theorem asks_requestText (host : HostName) (path : UrlPath) :
    ∃ r, HttpRequest.parse (requestText host.text (lit "GET") path.text extraHeaders []) = some r ∧
      r.Asks host path := by
  have hclean : CleanFor host.text path.text := {
    host_clean := fun x hx => (HttpRequest.isSpace_eq_false_ne (host.text_clean x hx).2.2).2
    path_ne := by
      intro hnil
      have hhead := path.text_head
      rw [hnil] at hhead
      cases hhead
    path_clean := path.text_clean }
  refine ⟨requestOf host.text path.text fields, ?_, ?_⟩
  · rw [requestText_eq_render hextra.lines]
    exact HttpRequest.parse_eq_some_iff.mpr ⟨requestOf_valid hextra.ok hclean, rfl⟩
  · have hrest : (fixedFields ++ fields).filter (fun field => lowered field.1 = lit "host") = [] := by
      rw [List.filter_eq_nil_iff]
      intro field hfield
      rcases List.mem_append.mp hfield with hfixed | hextra'
      · have hnot : ∀ field ∈ fixedFields, ¬ lowered field.1 = lit "host" := by decide
        simpa using hnot field hfixed
      · simpa using hextra.noHost field hextra'
    exact {
      method := rfl
      target := rfl
      host := by
        show (((lit "Host", 0x20 :: host.text) :: (fixedFields ++ fields)).filter _).map _ = _
        have hname : lowered (lit "Host") = lit "host" := by decide
        simp only [List.filter_cons, hname, decide_true, if_true, hrest]
        show [strip (0x20 :: host.text)] = [host.text]
        rw [strip_cons_space fun x hx => (host.text_clean x hx).2.2]
      body := rfl }

variable {server : Server} {site : Site} (hserves : Serves server site)

include hextra hserves in
/-- The answer to a request represents what the site has. -/
theorem exchange_outcome (history : List Exchange) (via : Option Bytes) (host : HostName)
    (path : UrlPath) :
    ∃ h body, (exchange server history via host.text path.text
        (requestText host.text (lit "GET") path.text extraHeaders [])).outcome =
          .reply (h.render body) ∧
      Represents h body (site host path) ∧ (Announces h ↔ h.Chunked) := by
  obtain ⟨r, hparse, hasks⟩ := asks_requestText hextra host path
  have hpeer : cString host.text = host.text :=
    (cString_eq_self_iff host.text).mpr fun hmem => (host.text_clean 0 hmem).1 rfl
  obtain ⟨h, body, hreply, hrep⟩ := hserves history _ r host path hparse hasks
  refine ⟨h, body, ?_, hrep⟩
  show server history (cString host.text) _ = _
  rw [hpeer, hreply]

end

/-- Contents end the call. -/
theorem afterOutcome_content {h : ResponseHead} {body payload : Bytes} {status : Nat}
    (hagree : Announces h ↔ h.Chunked) (hstatus : h.HasStatus status)
    (hfinal : status < 300 ∨ 400 ≤ status) (hframes : h.Frames payload body) (host : Bytes) :
    afterOutcome strip host (.reply (h.render body)) = .inl (some (.ok (responseWith h payload))) := by
  have hread := readHttpResponse_of_frames hagree hframes
  have hloc : locationOf strip (responseWith h payload) = none := by
    rw [locationOf_responseWith h (prefix_of_hasStatus hstatus), readStatus_of_hasStatus hstatus]
    exact if_neg (by omega)
  simp only [afterOutcome, hread, hloc]

/-- A link is followed. -/
theorem afterOutcome_moved {h : ResponseHead} {body payload : Bytes} {status : Nat} {link : Link}
    (hagree : Announces h ↔ h.Chunked) (hstatus : h.HasStatus status)
    (hredirect : 300 ≤ status ∧ status < 400) (hlocates : h.Locates link)
    (hframes : h.Frames payload body) (host : HostName) :
    afterOutcome strip host.text (.reply (h.render body)) =
      .inr (link.text, (link.host host).text, link.targetPath.text) := by
  have hread := readHttpResponse_of_frames hagree hframes
  have hloc : locationOf strip (responseWith h payload) = some link.text := by
    rw [locationOf_responseWith h (prefix_of_hasStatus hstatus), readStatus_of_hasStatus hstatus,
      if_pos (by omega), locationText_of_locates hlocates]
  simp only [afterOutcome, hread, hloc, redirectTarget_link host link]

/-! ### A call -/

/-- The response of a call has the status and the payload. -/
def Got (result : Option (Except Bytes HttpResponse)) (status : Nat) (payload : Bytes) : Prop :=
  ∃ r : HttpResponse, result = some (.ok r) ∧ r.status = status ∧ r.body = payload

section
variable {extraHeaders : Bytes} {fields : List (Bytes × Bytes)}
  (hextra : ExtraFields extraHeaders fields) {server : Server} {site : Site}
  (hserves : Serves server site)

include hextra hserves in
/-- A call gets what the site has at the end of the links, or gives up on too many of them. -/
theorem httpsRequestFrom_site (depth : Nat) (history : List Exchange) (via : Option Bytes)
    (host : HostName) (path : UrlPath) :
    (∀ status payload, site.fetch depth host path = some (status, payload) →
      Got (httpsRequestFrom strip server (lit "GET") extraHeaders [] depth history via host.text
        path.text).2 status payload) ∧
    (site.fetch depth host path = none →
      (httpsRequestFrom strip server (lit "GET") extraHeaders [] depth history via host.text
        path.text).2 = some (.error (lit "Too many redirects"))) := by
  -- One link for each unit of depth.
  induction depth generalizing history via host path with
  | zero => exact ⟨fun _ _ hfetch => (by cases hfetch), fun _ => rfl⟩
  | succ depth ih =>
    obtain ⟨h, body, hreply, hrep, hagree⟩ := exchange_outcome hextra hserves history via host path
    rw [httpsRequestFrom]
    simp only [hreply]
    rw [Site.fetch]
    generalize site host path = resource at hrep
    cases hrep with
    | content hstatus hfinal hframes =>
      rename_i status payload
      simp only [afterOutcome_content hagree hstatus hfinal hframes]
      refine ⟨fun status' payload' hfetch => ?_, fun hfetch => by cases hfetch⟩
      cases hfetch
      exact ⟨_, rfl, readStatus_of_hasStatus hstatus, rfl⟩
    | moved hstatus hredirect hlocates hframes =>
      simp only [afterOutcome_moved hagree hstatus hredirect hlocates hframes]
      exact ih _ _ _ _

include hextra hserves in
/-- What `okResponse` makes of a call: the payload when the status is 200, else an exception. -/
theorem okResponse_site (what : Bytes) (history : List Exchange) (host : HostName)
    (path : UrlPath) :
    (∀ payload, site.fetch 9 host path = some (200, payload) →
      ∃ r : HttpResponse, okResponse what (httpsRequest strip server (lit "GET") extraHeaders []
        history host.text path.text).2 = some (.ok r) ∧ r.body = payload) ∧
    ((∀ payload, site.fetch 9 host path ≠ some (200, payload)) →
      ∃ text, okResponse what (httpsRequest strip server (lit "GET") extraHeaders []
        history host.text path.text).2 = some (.error text)) := by
  obtain ⟨hgot, htooMany⟩ := httpsRequestFrom_site hextra hserves 9 history none host path
  constructor
  · intro payload hfetch
    obtain ⟨r, hresult, hstatus, hbody⟩ := hgot 200 payload hfetch
    refine ⟨r, ?_, hbody⟩
    rw [httpsRequest, hresult]
    show some (if r.status = 200 then Except.ok r else _) = _
    rw [if_pos (show r.status = 200 from hstatus)]
  · intro hother
    cases hfetch : site.fetch 9 host path with
    | none =>
      rw [httpsRequest, htooMany hfetch]
      exact ⟨_, rfl⟩
    | some found =>
      obtain ⟨status, payload⟩ := found
      obtain ⟨r, hresult, hstatus, -⟩ := hgot status payload hfetch
      have hne : ¬ r.status = 200 := by
        intro h200
        rw [hstatus] at h200
        have : status = 200 := Int.ofNat.inj h200
        exact hother payload (by rw [hfetch, this])
      rw [httpsRequest, hresult]
      refine ⟨what ++ lit " returned HTTP " ++ lit (toString r.status), ?_⟩
      show some (if r.status = 200 then Except.ok r else _) = _
      rw [if_neg hne]

end

/-! ### The reference in the watch page -/

/-- A complete reference stands at a position of the page. -/
def RefersAt (html : Bytes) (k : Nat) (ref : Bytes) : Prop :=
  ∃ after, html.drop k = lit "\"jsUrl\":\"" ++ (ref ++ 0x22 :: after) ∧ ref ≠ [] ∧ 0x22 ∉ ref

/-- The first complete reference of the page. -/
def Refers (html ref : Bytes) : Prop :=
  ∃ k, RefersAt html k ref ∧ ∀ j < k, ∀ other, ¬ RefersAt html j other

/-- A match is the key, a reference without a quote and the quote behind it. -/
theorem mem_run_jsUrlPattern {subject t : Bytes} {m : Bytes × Captures} :
    m ∈ jsUrlPattern.run subject t ↔ ∃ ref, t = lit "\"jsUrl\":\"" ++ (ref ++ 0x22 :: m.1) ∧
      ref ≠ [] ∧ 0x22 ∉ ref ∧ m.2 = [(1, ref)] := by
  have hclass : ∀ ref : Bytes, (∀ x ∈ ref, (x != 0x22) = true) ↔ (0x22 : UInt8) ∉ ref := by
    intro ref
    simp only [bne_iff_ne, ne_eq]
    exact ⟨fun h hmem => h _ hmem rfl, fun h x hx heq => h (heq ▸ hx)⟩
  unfold jsUrlPattern
  rw [Regex.mem_run_seq]
  constructor
  · rintro ⟨m₁, h₁, m₂, h₂, rfl⟩
    obtain ⟨rfl, hcaps₁⟩ := Regex.mem_run_literal.mp h₁
    obtain ⟨m₃, h₃, m₄, h₄, rfl⟩ := Regex.mem_run_seq.mp h₂
    obtain ⟨m₅, h₅, ref, hsplit, rfl⟩ := Regex.mem_run_group.mp h₃
    obtain ⟨ref', hsplit', hne, hall, hcaps₅⟩ := Regex.mem_run_plus.mp h₅
    cases List.append_cancel_right (hsplit.symm.trans hsplit')
    obtain ⟨hquote, hcaps₄⟩ := Regex.mem_run_literal.mp h₄
    refine ⟨ref, ?_, hne, (hclass ref).mp hall, by rw [hcaps₁, hcaps₅, hcaps₄]; rfl⟩
    rw [hsplit, hquote]
    rfl
  · rintro ⟨ref, rfl, hne, hquote, hcaps⟩
    refine ⟨(ref ++ 0x22 :: m.1, []), Regex.mem_run_literal.mpr ⟨rfl, rfl⟩, (m.1, [(1, ref)]), ?_,
      Prod.ext rfl hcaps⟩
    refine Regex.mem_run_seq.mpr ⟨(0x22 :: m.1, [(1, ref)]), ?_, (m.1, []),
      Regex.mem_run_literal.mpr ⟨rfl, rfl⟩, rfl⟩
    refine Regex.mem_run_group.mpr ⟨(0x22 :: m.1, []), ?_, ref, rfl, rfl⟩
    exact Regex.mem_run_plus.mpr ⟨ref, rfl, hne, (hclass ref).mpr hquote, rfl⟩

/-- The search finds the first complete reference. -/
theorem findJsUrl_of_refers {html ref : Bytes} (h : Refers html ref) :
    findJsUrl html = .ok ref := by
  obtain ⟨k, ⟨after, hdrop, hne, hquote⟩, hfirst⟩ := h
  have hk : k ≤ html.length := by
    by_contra hlt
    rw [List.drop_eq_nil_of_le (by omega)] at hdrop
    cases hdrop
  have hsplit : html.take k ++ html.drop k = html := List.take_append_drop k html
  -- Nothing matches before, and here there is only one way.
  have hnone : ∀ j < (html.take k).length,
      jsUrlPattern.run (html.take k ++ html.drop k) ((html.take k ++ html.drop k).drop j) = [] := by
    intro j hj
    rw [List.length_take, Nat.min_eq_left hk] at hj
    refine List.eq_nil_iff_forall_not_mem.mpr fun m hm => ?_
    obtain ⟨other, heq, hne', hquote', -⟩ := mem_run_jsUrlPattern.mp hm
    rw [hsplit] at heq
    exact hfirst j hj other ⟨m.1, heq, hne', hquote'⟩
  have hway : (after, [(1, ref)]) ∈ jsUrlPattern.run (html.take k ++ html.drop k) (html.drop k) :=
    mem_run_jsUrlPattern.mpr ⟨ref, hdrop, hne, hquote, rfl⟩
  cases hhead : (jsUrlPattern.run (html.take k ++ html.drop k) (html.drop k)).head? with
  | none =>
    rw [List.head?_eq_none_iff.mp hhead] at hway
    cases hway
  | some m =>
    obtain ⟨ref', heq, -, hquote', hcaps⟩ := mem_run_jsUrlPattern.mp (List.mem_of_head? hhead)
    rw [hdrop] at heq
    obtain ⟨rfl, -⟩ := append_cons_inj hquote hquote' (List.append_cancel_left heq)
    have hsearch := regexSearch_append hnone hhead
    rw [hsplit] at hsearch
    rw [findJsUrl, hsearch, hcaps]
    rfl

/-- The reference that is found is the first complete one. -/
theorem findJsUrl_eq_ok_iff {html ref : Bytes} : findJsUrl html = .ok ref ↔ Refers html ref := by
  refine ⟨fun h => ?_, findJsUrl_of_refers⟩
  have hsome : ∃ k, ∃ other, RefersAt html k other := by
    unfold findJsUrl at h
    cases hsearch : regexSearch jsUrlPattern html with
    | none =>
      rw [hsearch] at h
      cases h
    | some caps =>
      obtain ⟨a, t, rest, rfl, hrun⟩ := exists_run_of_regexSearch hsearch
      obtain ⟨other, ht, hne, hquote, -⟩ := mem_run_jsUrlPattern.mp hrun
      exact ⟨a.length, other, rest, by rw [List.drop_left, ht], hne, hquote⟩
  classical
  obtain ⟨other, hother⟩ := Nat.find_spec hsome
  have hfirst : Refers html other :=
    ⟨Nat.find hsome, hother, fun j hj other' h' => Nat.find_min hsome hj ⟨other', h'⟩⟩
  rw [findJsUrl_of_refers hfirst] at h
  cases h
  exact hfirst

/-! ### Loads -/

/-- The path of `base.js` is that of the link, if it has one. -/
theorem jsPathOf_link (link : Link) :
    (∀ path, link.path = some path → jsPathOf link.text = .ok path.text) ∧
      (link.path = none → ∃ text, jsPathOf link.text = .error text) := by
  cases link with
  | absolute host path =>
    have habs := absolute_of_link host path
    cases path with
    | none =>
      refine ⟨fun _ h => (by cases h), fun _ => ⟨lit "Unexpected absolute jsUrl format", ?_⟩⟩
      cases hjs : jsPathOf (Link.absolute host none).text with
      | ok jsPath =>
        -- The path would have to start with a slash.
        rcases jsPathOf_cases hjs with ⟨host', habs', hmatched⟩ | ⟨hhttps, -⟩
        · obtain ⟨-, rfl⟩ := habs.unique habs'
          cases hmatched.1
        · rw [habs.isPrefixOf] at hhttps
          cases hhttps
      | error text =>
        rw [jsPathOf, if_pos habs.isPrefixOf] at hjs
        split at hjs
        · cases hjs
          rfl
        · cases hjs
    | some path =>
      refine ⟨fun _ h => ?_, fun h => by cases h⟩
      cases h
      exact jsPathOf_absolute habs host.text_ne_nil (matchedPath_of_urlPath path)
  | rooted path oneSlash =>
    refine ⟨fun _ h => ?_, fun h => by cases h⟩
    cases h
    have hhttps : ¬ (lit "https://").isPrefixOf path.text = true := by
      intro hprefix
      obtain ⟨t, ht⟩ := List.isPrefixOf_iff_prefix.mp hprefix
      have hhead := path.text_head
      rw [← ht] at hhead
      cases hhead
    exact if_neg hhttps

/-- The first reference of the page that is fetched from here is a link, if there is one. -/
def Linked (site : Site) (host : HostName) (path : UrlPath) : Prop :=
  ∀ page, site.fetch 9 host path = some (200, page) →
    ∀ ref, Refers page ref → ∃ link : Link, ref = link.text

/-- The links a page refers to first have one text, and so one path. -/
theorem Refers.path_eq {page : Bytes} {link link' : Link} (h : Refers page link.text)
    (h' : Refers page link'.text) : link.path = link'.path := by
  have htext : link.text = link'.text :=
    Except.ok.inj ((findJsUrl_of_refers h).symm.trans (findJsUrl_of_refers h'))
  obtain ⟨hsome, hnone⟩ := jsPathOf_link link
  obtain ⟨hsome', hnone'⟩ := jsPathOf_link link'
  rw [← htext] at hsome' hnone'
  -- The path is what `jsPathOf` makes of the text, or the error it throws.
  cases hpath : link.path with
  | none =>
    cases hpath' : link'.path with
    | none => rfl
    | some jsPath =>
      obtain ⟨text, hjs⟩ := hnone hpath
      cases hjs.symm.trans (hsome' jsPath hpath')
  | some jsPath =>
    cases hpath' : link'.path with
    | none =>
      obtain ⟨text, hjs⟩ := hnone' hpath'
      cases hjs.symm.trans (hsome jsPath hpath)
    | some jsPath' =>
      have hsame := (hsome jsPath hpath).symm.trans (hsome' jsPath' hpath')
      rw [UrlPath.ext (Except.ok.inj hsame)]

section
variable {server : Server} {site : Site} (hserves : Serves server site)

include hserves in
/-- What follows the watch page: the code that stands where its first reference leads. -/
theorem loadAfterWatch_site {host : HostName} {call : HttpCall} {r : HttpResponse}
    (hok : okResponse (lit "watch page") call.2 = some (.ok r))
    (hlinked : ∀ ref, Refers r.body ref → ∃ link : Link, ref = link.text) :
    (loadAfterWatch strip server host.text call).result ≠ none ∧
      ∀ code, (loadAfterWatch strip server host.text call).result = some (.ok code) ↔
        ∃ link : Link, ∃ jsPath, Refers r.body link.text ∧ link.path = some jsPath ∧
          site.fetch 9 host jsPath = some (200, code) := by
  unfold loadAfterWatch
  simp only [hok]
  cases hfind : findJsUrl r.body with
  | error text =>
    have hextract : extractJsPathFromWatchHtml r.body = .error text := by
      rw [extractJsPathFromWatchHtml, hfind]
      rfl
    simp only [hextract]
    refine ⟨by simp, fun code => ⟨fun h => (by cases h), ?_⟩⟩
    rintro ⟨link, jsPath, hrefers, -⟩
    rw [findJsUrl_of_refers hrefers] at hfind
    cases hfind
  | ok ref =>
    have hrefers := findJsUrl_eq_ok_iff.mp hfind
    obtain ⟨link, rfl⟩ := hlinked ref hrefers
    have hextract : extractJsPathFromWatchHtml r.body = jsPathOf link.text := by
      rw [extractJsPathFromWatchHtml, hfind]
      rfl
    cases hpath : link.path with
    | none =>
      -- An https URL without a path: the source throws.
      obtain ⟨text, hjs⟩ := (jsPathOf_link link).2 hpath
      simp only [hextract, hjs]
      refine ⟨by simp, fun code => ⟨fun h => (by cases h), ?_⟩⟩
      rintro ⟨link', jsPath, hrefers', hpath', -⟩
      rw [← hrefers.path_eq hrefers', hpath] at hpath'
      cases hpath'
    | some jsPath =>
      have hjs := (jsPathOf_link link).1 jsPath hpath
      simp only [hextract, hjs]
      have hcode := okResponse_site jsHeaders_fields hserves (lit "base.js") call.1 host jsPath
      have hunique : ∀ {link' : Link} {jsPath' : UrlPath}, Refers r.body link'.text →
          link'.path = some jsPath' → jsPath' = jsPath := by
        intro link' jsPath' hrefers' hpath'
        rw [← hrefers.path_eq hrefers', hpath] at hpath'
        exact (Option.some.inj hpath').symm
      by_cases hfound : ∃ code, site.fetch 9 host jsPath = some (200, code)
      · obtain ⟨code, hfetch⟩ := hfound
        obtain ⟨r', hok', rfl⟩ := hcode.1 code hfetch
        rw [hok']
        refine ⟨fun h => (by cases h), fun code => ⟨fun h => ?_, ?_⟩⟩
        · cases h
          exact ⟨link, jsPath, hrefers, hpath, hfetch⟩
        · rintro ⟨link', jsPath', hrefers', hpath', hfetch'⟩
          rw [hunique hrefers' hpath', hfetch] at hfetch'
          cases hfetch'
          rfl
      · -- Nothing at this path, or a status other than 200.
        obtain ⟨text, hfail⟩ := hcode.2 fun code hfetch => hfound ⟨code, hfetch⟩
        rw [hfail]
        refine ⟨fun h => (by cases h), fun code => ⟨fun h => (by cases h), ?_⟩⟩
        rintro ⟨link', jsPath', hrefers', hpath', hfetch'⟩
        rw [hunique hrefers' hpath'] at hfetch'
        exact absurd ⟨code, hfetch'⟩ hfound

end

/-- A field with one space behind its colon. -/
def headerField (name value : Bytes) (hname : name ≠ [] ∧ ∀ x ∈ name, HttpRequest.isTchar x = true)
    (hvalue : (∀ x ∈ value, HttpRequest.isLineEnd x = false) ∧
      ∀ x ∈ value.head?, isBlank x = false) : HeaderField where
  name := name
  blanks := [0x20]
  value := value
  name_ne_nil := hname.1
  isTchar_name := hname.2
  isBlank_blanks := by decide
  value_line := hvalue.1
  value_head := hvalue.2

/-- `/w` has moved to `/v`, whose page refers to `/b`; everything else is the code. -/
def smallSite : Site := fun _ path =>
  if path.text = lit "/w" then
    .moved 302 (.rooted ⟨lit "/v", by decide, by decide⟩ (by decide))
  else if path.text = lit "/v" then .content 200 (lit "\"jsUrl\":\"/b\"")
  else .content 200 (lit "x")

/-- The status line of the redirect is one line. -/
theorem foundLine_line : ∀ x ∈ lit "HTTP/1.1 302 Found", HttpRequest.isLineEnd x = false := by
  decide

/-- So is that of the page. -/
theorem okLine_line : ∀ x ∈ lit "HTTP/1.1 200 OK", HttpRequest.isLineEnd x = false := by decide

def movedHead : ResponseHead where
  statusLine := lit "HTTP/1.1 302 Found"
  fields := [headerField (lit "location") (lit "/v ") (by decide) (by decide)]
  statusLine_line := foundLine_line

def chunkedHead : ResponseHead where
  statusLine := lit "HTTP/1.1 200 OK"
  fields := [headerField (lit "Transfer-Encoding") (lit "chunked") (by decide) (by decide)]
  statusLine_line := okLine_line

def plainHead : ResponseHead where
  statusLine := lit "HTTP/1.1 200 OK"
  fields := []
  statusLine_line := okLine_line

/-- The page in one chunk. -/
def pageCoding : Coding where
  chunks := [{
    data := lit "\"jsUrl\":\"/b\""
    line := {
      digits := lit "c"
      blanks := lit "\t"
      extension := some (lit "page")
      digits_ne_nil := by decide
      isHex_digits := by decide
      hexNumber_digits := by decide
      isBlank_blanks := by decide
      extension_line := by decide }
    data_ne_nil := by decide }]
  last := helloCoding.last
  trailer := lit "\r\n"

/-- A server for it, that answers by the target of the request. -/
def smallServer : Server := fun _ _ request =>
  match HttpRequest.parse request with
  | none => .broken
  | some r =>
    if r.target = lit "/w" then .reply (movedHead.render [])
    else if r.target = lit "/v" then .reply (chunkedHead.render pageCoding.bytes)
    else .reply (plainHead.render (lit "x"))

/-- The server serves the site with its redirect and both replies. -/
theorem smallServer_serves : Serves smallServer smallSite := by
  intro history request r host path hparse hasks
  have hagree : ∀ h ∈ [movedHead, chunkedHead, plainHead], (Announces h ↔ h.Chunked) := by
    intro h hh
    rw [← isSome_search_iff]
    revert h
    decide
  obtain ⟨hm, hc, hp⟩ : (Announces movedHead ↔ movedHead.Chunked) ∧
      (Announces chunkedHead ↔ chunkedHead.Chunked) ∧
      (Announces plainHead ↔ plainHead.Chunked) := by simpa using hagree
  unfold smallServer smallSite
  simp only [hparse, hasks.target]
  by_cases hw : path.text = lit "/w"
  · refine ⟨movedHead, [], if_pos hw, ?_, hm⟩
    rw [if_pos hw]
    refine .moved ⟨lit "1.1", lit "Found", 3, 0, 2, by decide, by decide, rfl⟩ (by decide) ?_
      (.plain (by decide))
    exact ⟨[], _, [], rfl, by simp, by decide, by decide⟩
  · rw [if_neg hw, if_neg hw]
    by_cases hv : path.text = lit "/v"
    · refine ⟨chunkedHead, pageCoding.bytes, if_pos hv, ?_, hc⟩
      rw [if_pos hv]
      exact .content ⟨lit "1.1", lit "OK", 2, 0, 0, by decide, by decide, rfl⟩ (by decide)
        (.chunked (by decide) pageCoding (by decide) (by decide))
    · refine ⟨plainHead, lit "x", if_neg hv, ?_, hp⟩
      rw [if_neg hv]
      exact .content ⟨lit "1.1", lit "OK", 2, 0, 0, by decide, by decide, rfl⟩ (by decide)
        (.plain (by decide))

/-- And its watch page names the player by a link. -/
theorem smallSite_linked : Linked smallSite ⟨lit "h", by decide, by decide⟩
    ⟨lit "/w", by decide, by decide⟩ := by
  intro page hfetch ref hrefers
  have hfind := findJsUrl_of_refers hrefers
  cases hfetch
  rw [show findJsUrl (lit "\"jsUrl\":\"/b\"") = .ok (lit "/b") by decide] at hfind
  exact ⟨.rooted ⟨lit "/b", by decide, by decide⟩ (by decide), (Except.ok.inj hfind).symm⟩

end EjsBoundary.Proofs
