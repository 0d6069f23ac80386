import EjsBoundary.Lib.ResponseHead
import EjsBoundary.Proofs.DecodeChunked

/-!
# `EjsBoundary.Proofs.ChunkedDetection`: when a body is de-chunked

`https_request` decides the framing of a body by one search for `transfer-encoding: chunked` in
the lower case head. `ResponseHead.Chunked` is the decision the header fields ask for. The two
differ in both directions: the search wants exactly one space behind the colon and `chunked` as
the first coding, and it is content with a longer field name, a longer coding, or the text in
any value or in the status line.

`Announces` says in terms of the fields what the search finds (`isSome_search_iff`), and
`chunkedHandling_iff` that a head is handled right for every body exactly when the two
decisions agree on it.
-/

set_option autoImplicit false

namespace EjsBoundary.Proofs

open EjsBoundary.Lib
open EjsBoundary.Model

/-! ### What the search finds -/

/-- The text the source searches for. -/
def chunkedText : Bytes := lit "transfer-encoding: chunked"

/-- The field makes the search succeed: by a name that ends in `transfer-encoding`, one space and
a value that starts with `chunked`, or by a value that holds the whole text. -/
def FieldAnnounces (f : HeaderField) : Prop :=
  (lit "transfer-encoding" <:+ lowered f.name ∧ f.blanks = [0x20] ∧
    lit "chunked" <+: lowered f.value) ∨
  chunkedText <:+: lowered f.value

/-- The head makes the search succeed. -/
def Announces (h : ResponseHead) : Prop :=
  chunkedText <:+: lowered h.statusLine ∨ ∃ f ∈ h.fields, FieldAnnounces f

/-- The text stands inside a field line exactly if the field announces it. -/
theorem infix_fieldText_iff (f : HeaderField) :
    chunkedText <:+: lowered f.text ↔ FieldAnnounces f := by
  -- The text cut at its colon: `transfer-encoding`, and then a space and `chunked`.
  have hcut := @ResponseHead.infix_field_iff f 0x74 (lit "ransfer-encoding") (lit " chunked")
    (by decide) (by decide)
  have hblank := @ResponseHead.blank_prefix_iff f 0x63 (lit "hunked") (by decide)
  show lit "transfer-encoding" ++ 0x3A :: lit " chunked" <:+: lowered f.text ↔ _
  refine hcut.trans ?_
  refine or_congr (and_congr Iff.rfl ?_) Iff.rfl
  exact hblank

/-- What the search in the head finds, in terms of its lines. -/
theorem isSome_search_iff (h : ResponseHead) :
    (findText chunkedText (h.text.map toLower) 0).isSome = true ↔ Announces h := by
  rw [isSome_findText_iff]
  show chunkedText <:+: lowered h.text ↔ _
  rw [ResponseHead.infix_text_iff h (by decide) (by decide) (by decide)]
  unfold Announces
  simp only [infix_fieldText_iff]

/-! ### The response -/

/-- The response with a given body. -/
def responseWith (h : ResponseHead) (body : Bytes) : HttpResponse :=
  { status := readStatus h.text, headers := h.text, body := body }

/-- A response is read as its head with the body behind the empty line, decoded when the search
succeeds. -/
theorem readHttpResponse_render (trim : Bytes → Bytes) (h : ResponseHead) (body : Bytes) :
    (Announces h → readHttpResponse trim (h.render body) =
      (decodeChunked trim body).map fun body => .ok (responseWith h body)) ∧
    (¬ Announces h → readHttpResponse trim (h.render body) = some (.ok (responseWith h body))) := by
  have hfind := h.findText_render body
  have htake : (h.render body).take h.text.length = h.text := by
    rw [ResponseHead.render_eq, List.take_left]
  have hdrop : (h.render body).drop (h.text.length + 4) = body := by
    rw [ResponseHead.render_eq, ← List.drop_drop, List.drop_left]
    rfl
  unfold readHttpResponse
  rw [hfind]
  simp only [htake, hdrop]
  rw [← isSome_search_iff]
  constructor
  · intro hsome
    exact if_pos hsome
  · intro hnone
    exact if_neg hnone

/-- The body of a response is decoded when its fields say it is chunked, and kept otherwise. -/
def HandledRight (trim : Bytes → Bytes) (h : ResponseHead) : Prop :=
  ∀ body,
    (h.Chunked → readHttpResponse trim (h.render body) =
      (decodeChunked trim body).map fun body => .ok (responseWith h body)) ∧
    (¬ h.Chunked → readHttpResponse trim (h.render body) = some (.ok (responseWith h body)))

/-- A body without a line end decodes to nothing. -/
theorem decodeChunked_of_not_mem {trim : Bytes → Bytes} {body : Bytes}
    (h : (0x0A : UInt8) ∉ body) : decodeChunked trim body = some [] :=
  decodeChunked_eq_some_iff.mpr ⟨[], .stop (chunkTurn_of_not_mem h), rfl⟩

/-- A head is handled right with every body exactly when the search succeeds on it just if its
fields announce a chunked body. -/
theorem chunkedHandling_iff (trim : Bytes → Bytes) (h : ResponseHead) :
    HandledRight trim h ↔ (Announces h ↔ h.Chunked) := by
  constructor
  · intro hright
    -- The one byte `x` tells a decoded body from one that is kept.
    have hx : decodeChunked trim (lit "x") = some [] := decodeChunked_of_not_mem (by decide)
    have hne : some (Except.ok (responseWith h [])) ≠
        (some (.ok (responseWith h (lit "x"))) : Option (Except Bytes HttpResponse)) := by
      intro heq
      have hbody := congrArg HttpResponse.body (Except.ok.inj (Option.some.inj heq))
      cases hbody
    obtain ⟨hchunked, hplain⟩ := hright (lit "x")
    obtain ⟨hfound, hmissed⟩ := readHttpResponse_render trim h (lit "x")
    rw [hx, Option.map_some] at hchunked hfound
    constructor
    · intro hannounces
      by_contra hnot
      exact hne ((hfound hannounces).symm.trans (hplain hnot))
    · intro hchunks
      by_contra hnot
      exact hne ((hchunked hchunks).symm.trans (hmissed hnot))
  · intro hagree body
    obtain ⟨hfound, hmissed⟩ := readHttpResponse_render trim h body
    exact ⟨fun hchunks => hfound (hagree.mpr hchunks),
      fun hnot => hmissed fun hannounces => hnot (hagree.mp hannounces)⟩

/-- A head whose field has no space behind its colon, which is optional. -/
def noSpaceHead : ResponseHead where
  statusLine := lit "HTTP/1.1 200 OK"
  fields := [{
    name := lit "Transfer-Encoding"
    blanks := []
    value := lit "chunked"
    name_ne_nil := by decide
    isTchar_name := by decide
    isBlank_blanks := by decide
    value_line := by decide
    value_head := by decide }]
  statusLine_line := by decide

/-- `Transfer-Encoding:chunked`: the body `5 CRLF hello CRLF 0 CRLF CRLF` is kept with its size
lines. -/
theorem chunkedHandling_noSpace :
    readHttpResponse strip (noSpaceHead.render (lit "5\r\nhello\r\n0\r\n\r\n")) =
        some (.ok (responseWith noSpaceHead (lit "5\r\nhello\r\n0\r\n\r\n"))) ∧
      decodeChunked strip (lit "5\r\nhello\r\n0\r\n\r\n") = some (lit "hello") ∧
      noSpaceHead.Chunked ∧ ¬ ∀ h : ResponseHead, HandledRight strip h := by
  have hmissed : ¬ Announces noSpaceHead := by
    rw [← isSome_search_iff]
    decide
  have hkept := (readHttpResponse_render strip noSpaceHead (lit "5\r\nhello\r\n0\r\n\r\n")).2 hmissed
  have hhello : decodeChunked strip (lit "5\r\nhello\r\n0\r\n\r\n") = some (lit "hello") := by decide
  have hchunked : noSpaceHead.Chunked := by decide
  refine ⟨hkept, hhello, hchunked, fun hall => ?_⟩
  have hdecoded := (hall noSpaceHead (lit "5\r\nhello\r\n0\r\n\r\n")).1 hchunked
  rw [hkept, hhello] at hdecoded
  have hbody := congrArg HttpResponse.body (Except.ok.inj (Option.some.inj hdecoded))
  exact absurd hbody (by decide)

end EjsBoundary.Proofs
