import EjsBoundary.Lib.Framing
import EjsBoundary.Proofs.RequestInjection

/-!
# `EjsBoundary.Proofs.RequestFraming`: the body of a request arrives

`https_request` takes any method, header lines and body, and writes `Content-Type` and
`Content-Length` when there is a body. `call_framed_iff` says when a server that reads a connection
as `HttpRequest.readNext` does gets, from every request of a call, the method, the headers and the
body that the caller gave, with nothing left of it on the connection: exactly when the hosts and
paths are clean, as in `EjsBoundary.Proofs.RequestInjection`. A redirect changes neither the method
nor the body.
-/

set_option autoImplicit false

namespace EjsBoundary.Proofs

open EjsBoundary.Lib
open EjsBoundary.Lib.HttpRequest (isLineEnd FieldOk fieldLine fieldLines valuesOf bodyLength? readNext)
open EjsBoundary.Model

/-! ### The request that is meant -/

/-- The headers that go with a body. -/
def bodyFields (body : Bytes) : List (Bytes × Bytes) :=
  if body = [] then []
  else [(lit "Content-Type", lit " application/json"),
    (lit "Content-Length", 0x20 :: lit (toString body.length))]

/-- The request that a call of `https_request` is for. -/
def messageOf (host method path : Bytes) (extra : List (Bytes × Bytes)) (body : Bytes) :
    HttpRequest where
  method := method
  target := path
  headers := (lit "Host", 0x20 :: host) :: (fixedFields ++ (bodyFields body ++ extra))
  body := body

/-- The lines for the body are fields. -/
theorem bodyLines_eq_fieldLines (body : Bytes) : bodyLines body = fieldLines (bodyFields body) := by
  unfold bodyLines bodyFields
  by_cases h : body = []
  · rw [if_pos h, if_pos h]
    rfl
  · rw [if_neg h, if_neg h]
    simp only [fieldLines, fieldLine, List.map_cons, List.map_nil, List.flatten_cons,
      List.flatten_nil, List.append_assoc, List.append_nil, List.cons_append]
    rfl

/-- The text that is sent is that of the message. -/
theorem requestText_eq_messageOf {extraHeaders : Bytes} {extra : List (Bytes × Bytes)}
    (h : extraLines extraHeaders = fieldLines extra) (host method path body : Bytes) :
    requestText host method path extraHeaders body =
      (messageOf host method path extra body).render := by
  unfold requestText HttpRequest.render messageOf
  rw [h, bodyLines_eq_fieldLines]
  simp only [fieldLines, fieldLine, fixedFields, List.map_cons, List.map_append, List.flatten_cons,
    List.flatten_append, List.append_assoc, List.cons_append, List.nil_append]
  rfl

/-! ### One request -/

/-- Whether a header of this name says where the body ends. -/
def framesBody (name : Bytes) : Bool :=
  name.map toLower = lit "transfer-encoding" || name.map toLower = lit "content-length"

section
variable {method : Bytes} {extra : List (Bytes × Bytes)}
  (hmethod : method ≠ [] ∧ ∀ x ∈ method, HttpRequest.isTchar x = true)
  (hextra : ∀ field ∈ extra, FieldOk field) (hplain : ∀ field ∈ extra, framesBody field.1 = false)

/-- A digit is no white space. -/
theorem isSpace_of_isDecimal {c : UInt8} (h : isDecimal c = true) : isSpace c = false := by
  have hall : ∀ x : UInt8, isDecimal x = true → isSpace x = false :=
    forall_byte (p := fun x => isDecimal x = true → isSpace x = false) (by decide)
  exact hall c h

/-- So a number has none. -/
theorem unspaced_toString (n : Nat) : ∀ x ∈ lit (toString n), isSpace x = false := by
  intro x hx
  rw [lit_toString] at hx
  exact isSpace_of_isDecimal (isDecimal_of_mem_encode (isDigit_toDigits n) x hx)

/-- The fields for the body are well formed. -/
theorem fieldOk_bodyFields (body : Bytes) : ∀ field ∈ bodyFields body, FieldOk field := by
  have htype : FieldOk (lit "Content-Type", lit " application/json") := by decide
  have hname : lit "Content-Length" ≠ [] ∧
      ∀ x ∈ lit "Content-Length", HttpRequest.isTchar x = true := by decide
  have hvalue : ∀ x ∈ 0x20 :: lit (toString body.length), isLineEnd x = false :=
    List.forall_mem_cons.mpr ⟨by decide, fun x hx =>
      (HttpRequest.isSpace_eq_false_ne (unspaced_toString body.length x hx)).2⟩
  unfold bodyFields
  split
  · intro field hfield
    cases hfield
  · exact List.forall_mem_cons.mpr ⟨htype, List.forall_mem_singleton.mpr
      ⟨hname.1, hname.2, hvalue⟩⟩

include hextra in
/-- So are all fields behind the host. -/
theorem fieldOk_messageOf_tail (body : Bytes) :
    ∀ field ∈ fixedFields ++ (bodyFields body ++ extra), FieldOk field := by
  refine fixed_append_extra_ok fun field hfield => ?_
  rcases List.mem_append.mp hfield with h | h
  · exact fieldOk_bodyFields body field h
  · exact hextra field h

include hmethod hextra in
/-- The request that is meant is one exactly when host and path are clean. -/
theorem messageOf_valid_iff (host path body : Bytes) :
    (messageOf host method path extra body).Valid ↔ CleanFor host path := by
  constructor
  · intro h
    obtain ⟨-, -, hvalue⟩ := h.fields_ok _ List.mem_cons_self
    exact ⟨fun x hx => hvalue x (List.mem_cons_of_mem 0x20 hx), h.target_ne, h.target_space⟩
  · intro h
    have hname : lit "Host" ≠ [] ∧ ∀ x ∈ lit "Host", HttpRequest.isTchar x = true := by decide
    have hvalue : ∀ x ∈ 0x20 :: host, isLineEnd x = false :=
      List.forall_mem_cons.mpr ⟨by decide, h.host_clean⟩
    exact ⟨hmethod.1, hmethod.2, h.path_ne, h.path_clean, List.forall_mem_cons.mpr
      ⟨⟨hname.1, hname.2, hvalue⟩, fieldOk_messageOf_tail hextra body⟩⟩

/-- A header that says nothing about the length is not found under these names. -/
theorem valuesOf_eq_nil {name : Bytes} (hname : name = lit "transfer-encoding" ∨
    name = lit "content-length") {fields : List (Bytes × Bytes)}
    (h : ∀ field ∈ fields, framesBody field.1 = false) : valuesOf name fields = [] := by
  rw [valuesOf, List.map_eq_nil_iff, List.filter_eq_nil_iff]
  intro field hfield
  have hnot := h field hfield
  rw [framesBody, Bool.or_eq_false_iff, decide_eq_false_iff_not, decide_eq_false_iff_not] at hnot
  rw [decide_eq_true_iff]
  rintro heq
  rcases hname with rfl | rfl
  · exact hnot.1 heq
  · exact hnot.2 heq

include hplain in
/-- The headers say how long the body is. -/
theorem bodyLength?_messageOf (host path body : Bytes) :
    bodyLength? (messageOf host method path extra body).headers = some body.length := by
  -- The headers fall into those of every request, those of the body and those of the caller.
  have hsplit : ∀ name, valuesOf name (messageOf host method path extra body).headers =
      valuesOf name ((lit "Host", 0x20 :: host) :: fixedFields) ++
        (valuesOf name (bodyFields body) ++ valuesOf name extra) := by
    intro name
    simp only [messageOf, valuesOf, ← List.map_append, ← List.filter_append, List.cons_append]
  have hhost : framesBody (lit "Host") = false := by decide
  have hfixed : ∀ field ∈ (lit "Host", 0x20 :: host) :: fixedFields,
      framesBody field.1 = false := List.forall_mem_cons.mpr ⟨hhost, by decide⟩
  have hcoding : valuesOf (lit "transfer-encoding") (bodyFields body) = [] := by
    unfold bodyFields
    split
    · rfl
    · rfl
  rw [bodyLength?, hsplit, hsplit, valuesOf_eq_nil (Or.inl rfl) hfixed,
    valuesOf_eq_nil (Or.inr rfl) hfixed, valuesOf_eq_nil (Or.inl rfl) hplain,
    valuesOf_eq_nil (Or.inr rfl) hplain, hcoding, List.append_nil, List.nil_append, if_neg (by simp)]
  unfold bodyFields
  by_cases hbody : body = []
  · rw [if_pos hbody, hbody]
    rfl
  · rw [if_neg hbody]
    -- `Content-Length` is the only one of its name.
    show decimal? (strip (0x20 :: lit (toString body.length))) = some body.length
    rw [strip_cons_space (unspaced_toString body.length), decimal?_toString]

include hmethod hextra hplain in
/-- A server gets the request that is meant, and what was written after it, exactly when host and
path are clean. -/
theorem readNext_requestText_iff {extraHeaders : Bytes}
    (hlines : extraLines extraHeaders = fieldLines extra) (host path body : Bytes) :
    (∀ later, readNext (requestText host method path extraHeaders body ++ later) =
      some (messageOf host method path extra body, later)) ↔ CleanFor host path := by
  rw [requestText_eq_messageOf hlines, ← messageOf_valid_iff hmethod hextra host path body]
  constructor
  · intro h
    exact (HttpRequest.readNext_eq_some_iff.mp (h [])).1
  · intro h later
    exact HttpRequest.readNext_eq_some_iff.mpr
      ⟨h, bodyLength?_messageOf hplain host path body, rfl⟩

end

/-! ### The requests of a call -/

/-- Every request that a call has written arrives as the one that the caller asked for, at the host
and path where the redirects had led. -/
def Arrives (method : Bytes) (extra : List (Bytes × Bytes)) (body : Bytes) (trace : List Exchange) :
    Prop :=
  ∀ e ∈ trace, Written e → ∀ later, readNext (e.request ++ later) =
    some (messageOf e.host method e.path extra body, later)

/-- The body of a call arrives with every request exactly when the first host and path are clean and
no `Location` that was followed has white space after its host. -/
theorem call_framed_iff {trim : Bytes → Bytes} (htrim : ∀ s, ∀ x ∈ trim s, x ∈ s) (server : Server)
    {method extraHeaders : Bytes} {extra : List (Bytes × Bytes)}
    (hmethod : method ≠ [] ∧ ∀ x ∈ method, HttpRequest.isTchar x = true)
    (hextra : ∀ field ∈ extra, FieldOk field) (hplain : ∀ field ∈ extra, framesBody field.1 = false)
    (hlines : extraLines extraHeaders = fieldLines extra) (body : Bytes) (history : List Exchange)
    (host path : Bytes) :
    let trace := (httpsRequest trim server method extraHeaders body history host path).1
    Arrives method extra body trace ↔
      (∀ e ∈ trace.head?, Written e → CleanFor host path) ∧
        ∀ e ∈ trace.tail, Written e → ∀ loc ∈ e.via, Unspaced (refTail loc) := by
  intro trace
  have htrace : CallTrace trim method extraHeaders body none host path trace :=
    (httpsRequestFrom_spec rfl).1
  have hread : Arrives method extra body trace ↔
      ∀ e ∈ trace, Written e → CleanFor e.host e.path := by
    -- Every request of the call is written from the same method, headers and body.
    refine forall₂_congr fun e he => imp_congr_right fun _ => ?_
    rw [htrace.request e he]
    exact readNext_requestText_iff hmethod hextra hplain hlines e.host e.path body
  rw [hread, cleanFor_call_iff htrim htrace.chain]
  refine and_congr_left fun _ => forall₂_congr fun e he => ?_
  obtain ⟨-, hhost, hpath⟩ := htrace.head e he
  rw [hhost, hpath]

/-- A POST whose page has moved writes its body twice. -/
theorem call_framed_post :
    let trace := (httpsRequest strip movedServer (lit "POST") (lit "Origin: null")
      (lit "\x7b\"a\":1\x7d\r\n") [] (lit "www.youtube.com") (lit "/w")).1
    Arrives (lit "POST") [(lit "Origin", lit " null")] (lit "\x7b\"a\":1\x7d\r\n") trace ∧
      trace.length = 2 := by
  intro trace
  have hrun : (∀ e ∈ trace, ∀ loc ∈ e.via, ∀ x ∈ refTail loc, isSpace x = false) ∧
      trace.length = 2 := by decide
  have hfirst : CleanFor (lit "www.youtube.com") (lit "/w") :=
    ⟨by decide, by decide, by decide⟩
  refine ⟨(call_framed_iff (fun s x hx => mem_of_mem_strip hx) movedServer (by decide) (by decide)
    (by decide) (by decide) _ [] _ _).mpr ⟨fun _ _ _ => hfirst, fun e he _ => ?_⟩, hrun.2⟩
  exact hrun.1 e (List.mem_of_mem_tail he)

end EjsBoundary.Proofs
