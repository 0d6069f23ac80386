import EjsBoundary.Lib.HttpMessage

/-!
# `EjsBoundary.Lib.ResponseHead`: the head of an HTTP response

A status line and header fields, as a server may write them: a field is a name that is a token,
a colon, any number of blanks, and a value that starts with no blank and holds no line end.
`ResponseHead.render` puts a body behind the head. `ResponseHead.Chunked` says how the body is
framed: some `Transfer-Encoding` field names `chunked` as its last coding.

* `findText_render`: the first empty line of a response is the one behind its head.
* `infix_text_iff`: a text without line ends occurs in a head when it occurs in one of its lines.
* `infix_field_iff`: a text with a colon occurs in the line of a field around the first colon, or
  in its value.
-/

set_option autoImplicit false

namespace EjsBoundary.Lib

open HttpRequest (isTchar isLineEnd isTchar_ne isLineEnd_eq_true_iff)

/-- A text in lower case. -/
def lowered (s : Bytes) : Bytes := s.map toLower

/-- The blanks of a header: space and tab. -/
def isBlank (c : UInt8) : Bool := c == 0x20 || c == 0x09

/-- A header field as it is written. -/
structure HeaderField where
  /-- The name. -/
  name : Bytes
  /-- The blanks behind the colon. -/
  blanks : Bytes
  /-- The value. -/
  value : Bytes
  name_ne_nil : name ≠ []
  isTchar_name : ∀ x ∈ name, isTchar x = true
  isBlank_blanks : ∀ x ∈ blanks, isBlank x = true
  value_line : ∀ x ∈ value, isLineEnd x = false
  value_head : ∀ x ∈ value.head?, isBlank x = false

/-- The line of a field, without its line end. -/
def HeaderField.text (f : HeaderField) : Bytes := f.name ++ 0x3A :: (f.blanks ++ f.value)

/-- The codings a value lists: the parts between the commas, without blanks at their ends; an
empty part is none. -/
def codings (value : Bytes) : List Bytes :=
  ((value.splitOn 0x2C).map fun part => (part.dropWhile isBlank).rdropWhile isBlank).filter
    fun coding => !coding.isEmpty

/-- The field announces a chunked body. -/
def HeaderField.Chunked (f : HeaderField) : Prop :=
  lowered f.name = lit "transfer-encoding" ∧
    (codings f.value).getLast?.map lowered = some (lit "chunked")

instance (f : HeaderField) : Decidable f.Chunked := inferInstanceAs (Decidable (_ ∧ _))

/-- A status line and header fields. -/
structure ResponseHead where
  /-- The status line. -/
  statusLine : Bytes
  /-- The fields. -/
  fields : List HeaderField
  statusLine_line : ∀ x ∈ statusLine, isLineEnd x = false

namespace ResponseHead

/-- A response: the lines of the head with their line ends, an empty line and the body. -/
def render (h : ResponseHead) (body : Bytes) : Bytes :=
  h.statusLine ++ (lit "\r\n" ++ (h.fields.flatMap (fun f => f.text ++ lit "\r\n") ++
    (lit "\r\n" ++ body)))

/-- The lines of the fields, each behind a line end. -/
def fieldsText (fields : List HeaderField) : Bytes := fields.flatMap fun f => lit "\r\n" ++ f.text

/-- The head without its last line end. -/
def text (h : ResponseHead) : Bytes := h.statusLine ++ fieldsText h.fields

/-- Some field announces a chunked body. -/
def Chunked (h : ResponseHead) : Prop := ∃ f ∈ h.fields, f.Chunked

instance (h : ResponseHead) : Decidable h.Chunked :=
  inferInstanceAs (Decidable (∃ f ∈ h.fields, f.Chunked))

/-! ### Where a head ends -/

/-- The line ends between the fields can be read behind each field or in front of it. -/
theorem lineEnd_flatMap (fields : List HeaderField) (rest : Bytes) :
    lit "\r\n" ++ (fields.flatMap (fun f => f.text ++ lit "\r\n") ++ rest) =
      fieldsText fields ++ (lit "\r\n" ++ rest) := by
  unfold fieldsText
  induction fields with
  | nil => rfl
  | cons f fields ih =>
    simp only [List.flatMap_cons, List.append_assoc]
    rw [← ih]

/-- A response is its head, an empty line and the body. -/
theorem render_eq (h : ResponseHead) (body : Bytes) :
    h.render body = h.text ++ (lit "\r\n\r\n" ++ body) := by
  unfold render text
  rw [lineEnd_flatMap, List.append_assoc]
  rfl

/-- The text of a field is one line. -/
theorem HeaderField.text_line (f : HeaderField) : ∀ x ∈ f.text, isLineEnd x = false := by
  intro x hx
  unfold HeaderField.text at hx
  rw [List.mem_append, List.mem_cons, List.mem_append] at hx
  rcases hx with hname | rfl | hblank | hvalue
  · exact (isTchar_ne (f.isTchar_name x hname)).2.2
  · decide
  · refine HttpRequest.isLineEnd_eq_false (by decide) (by decide) (f.isBlank_blanks x hblank)
  · exact f.value_line x hvalue

/-- No empty line starts inside a line, or at its end when another line follows. -/
theorem not_prefix_emptyLine {row rest : Bytes} (hrow : ∀ x ∈ row, isLineEnd x = false)
    (hrest : ∀ x ∈ rest.head?, x ≠ 0x0D) :
    ∀ k < (row ++ lit "\r\n").length, ¬ lit "\r\n\r\n" <+: (row ++ lit "\r\n" ++ rest).drop k := by
  intro k hk hfound
  rw [List.length_append] at hk
  rw [List.append_assoc] at hfound
  by_cases hin : k < row.length
  · -- A byte of the line is no CR.
    rw [List.drop_append_of_le_length (Nat.le_of_lt hin), List.drop_eq_getElem_cons hin,
      List.cons_append] at hfound
    have hcr : (0x0D : UInt8) = row[k] := (List.cons_prefix_cons.mp hfound).1
    have := hrow _ (List.getElem_mem hin)
    rw [← hcr] at this
    exact absurd this (by decide)
  · obtain ⟨j, rfl⟩ := Nat.exists_eq_add_of_le (Nat.le_of_not_lt hin)
    rw [← List.drop_drop, List.drop_left] at hfound
    have hj : j < 2 := Nat.lt_of_add_lt_add_left hk
    match j, hj with
    | 0, _ =>
      -- The line end is there, and then the next line would have to start with CR.
      obtain ⟨t, ht⟩ := hfound
      have hsplit : rest = 0x0D :: 0x0A :: t :=
        (List.cons.inj (List.cons.inj ht).2).2.symm
      exact hrest 0x0D (by rw [hsplit]; rfl) rfl
    | 1, _ =>
      have hlf : (0x0D : UInt8) = 0x0A := (List.cons_prefix_cons.mp hfound).1
      exact absurd hlf (by decide)

/-- The text of the fields begins with that of the first. -/
theorem fieldsText_cons (f : HeaderField) (fields : List HeaderField) :
    fieldsText (f :: fields) = lit "\r\n" ++ (f.text ++ fieldsText fields) := by
  simp [fieldsText]

/-- From the line of a field on, the first empty line is the one behind the last field. -/
theorem findText_fields {row : Bytes} (hrow : ∀ x ∈ row, isLineEnd x = false)
    (fields : List HeaderField) (body : Bytes) :
    findText (lit "\r\n\r\n") (row ++ (fieldsText fields ++ (lit "\r\n\r\n" ++ body))) 0 =
      some (row ++ fieldsText fields).length := by
  induction fields generalizing row with
  | nil =>
    have hcr : (0x0D : UInt8) ∉ row := fun hmem => absurd (hrow _ hmem) (by decide)
    rw [show fieldsText [] = [] from rfl, List.nil_append, List.append_nil]
    exact @findText_append 0x0D [0x0A, 0x0D, 0x0A] row body hcr
  | cons f fields ih =>
    have hhead : ∀ x ∈ (f.text ++ (fieldsText fields ++ (lit "\r\n\r\n" ++ body))).head?,
        x ≠ 0x0D := by
      obtain ⟨c, cs, hname⟩ := List.exists_cons_of_ne_nil f.name_ne_nil
      intro x hx heq
      rw [HeaderField.text, hname] at hx
      have hc : c = x := Option.some.inj hx
      have hline := HeaderField.text_line f c (by rw [HeaderField.text, hname]; simp)
      rw [hc, heq] at hline
      exact absurd hline (by decide)
    have hskip := findText_skip (not_prefix_emptyLine hrow hhead)
    rw [ih (HeaderField.text_line f)] at hskip
    have hsplit : row ++ (fieldsText (f :: fields) ++ (lit "\r\n\r\n" ++ body)) =
        row ++ lit "\r\n" ++ (f.text ++ (fieldsText fields ++ (lit "\r\n\r\n" ++ body))) := by
      simp [fieldsText_cons]
    rw [hsplit, hskip, fieldsText_cons]
    simp only [Option.map_some, List.length_append]
    congr 1
    omega

/-- The first empty line of a response is the one behind its head. -/
theorem findText_render (h : ResponseHead) (body : Bytes) :
    findText (lit "\r\n\r\n") (h.render body) 0 = some h.text.length := by
  rw [render_eq, text, List.append_assoc]
  exact findText_fields h.statusLine_line h.fields body

/-! ### What occurs in a head -/

/-- Lower case changes no byte that is not a letter, and makes no other byte one of these. -/
theorem toLower_eq_iff (x : UInt8) :
    (toLower x = 0x0D ↔ x = 0x0D) ∧ (toLower x = 0x0A ↔ x = 0x0A) ∧
      (toLower x = 0x3A ↔ x = 0x3A) ∧ (toLower x = 0x20 ↔ x = 0x20) :=
  forall_byte (p := fun x => (toLower x = 0x0D ↔ x = 0x0D) ∧ (toLower x = 0x0A ↔ x = 0x0A) ∧
    (toLower x = 0x3A ↔ x = 0x3A) ∧ (toLower x = 0x20 ↔ x = 0x20)) (by decide) x

/-- A text without line ends occurs in a head when it occurs in one of its lines. -/
theorem infix_text_iff (h : ResponseHead) {pattern : Bytes} (hne : pattern ≠ [])
    (hcr : (0x0D : UInt8) ∉ pattern) (hlf : (0x0A : UInt8) ∉ pattern) :
    pattern <:+: lowered h.text ↔
      pattern <:+: lowered h.statusLine ∨ ∃ f ∈ h.fields, pattern <:+: lowered f.text := by
  unfold text
  generalize h.statusLine = row
  generalize h.fields = fields
  induction fields generalizing row with
  | nil => simp [fieldsText]
  | cons f fields ih =>
    have hlines : lowered (row ++ fieldsText (f :: fields)) =
        lowered row ++ 0x0D :: ([] ++ 0x0A :: lowered (f.text ++ fieldsText fields)) := by
      rw [fieldsText_cons]
      simp [lowered, show lit "\r\n" = [0x0D, 0x0A] from rfl, show toLower 0x0D = 0x0D from rfl,
        show toLower 0x0A = 0x0A from rfl]
    have hnil : ¬ pattern <:+: ([] : Bytes) := fun hocc => hne (List.infix_nil.mp hocc)
    rw [hlines, infix_append_cons_iff hcr, infix_append_cons_iff hlf, ih]
    simp [hnil]

/-- A text with a colon occurs in the line of a field around the first colon, or in its value. -/
theorem infix_field_iff (f : HeaderField) {c : UInt8} {before after : Bytes}
    (hbefore : (0x3A : UInt8) ∉ c :: before) (hc : isBlank c = false) :
    (c :: before) ++ 0x3A :: after <:+: lowered f.text ↔
      (c :: before <:+ lowered f.name ∧ after <+: lowered f.blanks ++ lowered f.value) ∨
        (c :: before) ++ 0x3A :: after <:+: lowered f.value := by
  have hname : (0x3A : UInt8) ∉ lowered f.name := by
    intro hmem
    obtain ⟨x, hx, hcolon⟩ := List.mem_map.mp hmem
    rw [(toLower_eq_iff x).2.2.1] at hcolon
    exact (isTchar_ne (f.isTchar_name x hx)).1 hcolon
  have hblanks : c ∉ lowered f.blanks := by
    intro hmem
    obtain ⟨x, hx, heq⟩ := List.mem_map.mp hmem
    have hblank : isBlank (toLower x) = true := forall_byte
      (p := fun x => isBlank x = true → isBlank (toLower x) = true) (by decide) x
      (f.isBlank_blanks x hx)
    rw [heq, hc] at hblank
    cases hblank
  have htext : lowered f.text =
      lowered f.name ++ 0x3A :: (lowered f.blanks ++ lowered f.value) := by
    simp [lowered, HeaderField.text, show toLower 0x3A = 0x3A from rfl]
  rw [htext, infix_cut_iff hbefore hname, List.cons_append, infix_append_of_not_mem hblanks]

/-- One space and then a word: the blanks are that space, and the value starts with the word. -/
theorem blank_prefix_iff (f : HeaderField) {c : UInt8} {word : Bytes} (hc : isBlank c = false) :
    0x20 :: c :: word <+: lowered f.blanks ++ lowered f.value ↔
      f.blanks = [0x20] ∧ c :: word <+: lowered f.value := by
  constructor
  · intro hfound
    cases hb : f.blanks with
    | nil =>
      -- The value would have to start with the space.
      rw [hb] at hfound
      cases hv : f.value with
      | nil => rw [hv] at hfound; simp [lowered] at hfound
      | cons x value =>
        rw [hv] at hfound
        have hx : (0x20 : UInt8) = toLower x := (List.cons_prefix_cons.mp hfound).1
        have hspace : x = 0x20 := (toLower_eq_iff x).2.2.2.mp hx.symm
        have hhead := f.value_head x (by rw [hv]; rfl)
        rw [hspace] at hhead
        exact absurd hhead (by decide)
    | cons b blanks =>
      rw [hb] at hfound
      obtain ⟨hspace, hrest⟩ := List.cons_prefix_cons.mp hfound
      have hb20 : b = 0x20 := (toLower_eq_iff b).2.2.2.mp hspace.symm
      cases blanks with
      | nil => exact ⟨by rw [hb20], hrest⟩
      | cons b' blanks =>
        have hcb : c = toLower b' := (List.cons_prefix_cons.mp hrest).1
        have hblank : isBlank (toLower b') = true := forall_byte
          (p := fun x => isBlank x = true → isBlank (toLower x) = true) (by decide) b'
          (f.isBlank_blanks b' (by rw [hb]; simp))
        rw [← hcb, hc] at hblank
        cases hblank
  · intro ⟨hb, hword⟩
    rw [hb]
    exact List.cons_prefix_cons.mpr ⟨rfl, hword⟩

end ResponseHead

end EjsBoundary.Lib
