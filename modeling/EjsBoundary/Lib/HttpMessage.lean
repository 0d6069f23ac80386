import EjsBoundary.Lib.Bytes

/-!
# `EjsBoundary.Lib.HttpMessage`: reading an HTTP/1.1 request strictly

A request is a request line, header fields and an empty line, each ended by CR LF, and then the
body. `HttpRequest.parse` reads that and nothing else: a CR or LF that is not part of a line
end, a request line of other than three fields, a target with white space in it, or a field
name that is no token make it fail. What stands after the empty line is the body; a reader of
one request without a body wants it empty.

`render` writes a request. `parse_eq_some_iff` says that the reader accepts exactly the texts of
valid requests, and `count_fieldLines` counts the line ends of the fields.
-/

set_option autoImplicit false

namespace EjsBoundary.Lib

/-- A request as its reader sees it. A field value is all that follows the colon. -/
structure HttpRequest where
  method : Bytes
  target : Bytes
  headers : List (Bytes × Bytes)
  body : Bytes
  deriving DecidableEq

namespace HttpRequest

def isLineEnd (c : UInt8) : Bool := c == 0x0D || c == 0x0A

/-- The bytes a token is made of. -/
def isTchar (c : UInt8) : Bool :=
  (0x30 ≤ c && c ≤ 0x39) || (0x41 ≤ c && c ≤ 0x5A) || (0x61 ≤ c && c ≤ 0x7A) ||
    -- The marks ! # $ % & ' * + - . ^ _ ` | ~
    [0x21, 0x23, 0x24, 0x25, 0x26, 0x27, 0x2A, 0x2B, 0x2D, 0x2E, 0x5E, 0x5F, 0x60, 0x7C,
      0x7E].contains c

/-- The first line, and what follows its CR LF. -/
def takeLine (s : Bytes) : Option (Bytes × Bytes) :=
  match s.dropWhile fun c => !isLineEnd c with
  | 0x0D :: 0x0A :: rest => some (s.takeWhile fun c => !isLineEnd c, rest)
  | _ => none

/-- Method and target of an HTTP/1.1 request line. -/
def parseRequestLine (line : Bytes) : Option (Bytes × Bytes) :=
  match line.splitOn 0x20 with
  | [method, target, version] =>
    if method ≠ [] ∧ target ≠ [] ∧ method.all isTchar ∧ target.all (!isSpace ·) ∧
        version = lit "HTTP/1.1" then
      some (method, target)
    else none
  | _ => none

/-- Name and value of a header field. -/
def parseField (line : Bytes) : Option (Bytes × Bytes) :=
  match line.dropWhile (· ≠ 0x3A) with
  | 0x3A :: value =>
    let name := line.takeWhile (· ≠ 0x3A)
    if name ≠ [] ∧ name.all isTchar then some (name, value) else none
  | _ => none

/-- The header fields up to the empty line, and what follows it. -/
def parseFields : Nat → Bytes → Option (List (Bytes × Bytes) × Bytes)
  | 0, _ => none
  | n + 1, s => do
    let (line, rest) ← takeLine s
    if line = [] then return ([], rest)
    let field ← parseField line
    let (fields, body) ← parseFields n rest
    return (field :: fields, body)

/-- The request a byte string is. -/
def parse (s : Bytes) : Option HttpRequest := do
  let (line, rest) ← takeLine s
  let (method, target) ← parseRequestLine line
  let (headers, body) ← parseFields (rest.length + 1) rest
  return { method, target, headers, body }

/-! ### Writing -/

/-- The line of a field. -/
def fieldLine (field : Bytes × Bytes) : Bytes := field.1 ++ 0x3A :: (field.2 ++ lit "\r\n")

/-- The lines of the fields, one after the other. -/
def fieldLines (fields : List (Bytes × Bytes)) : Bytes := (fields.map fieldLine).flatten

/-- The text of a request. -/
def render (r : HttpRequest) : Bytes :=
  r.method ++ 0x20 :: (r.target ++ 0x20 :: (lit "HTTP/1.1\r\n" ++
    (fieldLines r.headers ++ (lit "\r\n" ++ r.body))))

/-- A field whose name is a token and whose value has no line end. -/
def FieldOk (field : Bytes × Bytes) : Prop :=
  field.1 ≠ [] ∧ (∀ x ∈ field.1, isTchar x = true) ∧ ∀ x ∈ field.2, isLineEnd x = false

instance (field : Bytes × Bytes) : Decidable (FieldOk field) :=
  inferInstanceAs (Decidable (_ ∧ _ ∧ _))

/-- A request whose method is a token, whose target has no white space and whose fields are
fields. -/
structure Valid (r : HttpRequest) : Prop where
  method_ne : r.method ≠ []
  method_tchar : ∀ x ∈ r.method, isTchar x = true
  target_ne : r.target ≠ []
  target_space : ∀ x ∈ r.target, isSpace x = false
  fields_ok : ∀ field ∈ r.headers, FieldOk field

/-! ### Lines -/

/-- A line end is a carriage return or a line feed. -/
theorem isLineEnd_eq_true_iff {c : UInt8} : isLineEnd c = true ↔ c = 0x0D ∨ c = 0x0A := by
  simp [isLineEnd]

/-- A byte that passes a test no line end passes is none. -/
theorem isLineEnd_eq_false {p : UInt8 → Bool} (hcr : p 0x0D = false) (hlf : p 0x0A = false)
    {x : UInt8} (h : p x = true) : isLineEnd x = false := by
  rw [← Bool.not_eq_true, isLineEnd_eq_true_iff]
  rintro (rfl | rfl)
  · rw [hcr] at h
    cases h
  · rw [hlf] at h
    cases h

/-- A token byte is no colon, no blank and no line end. -/
theorem isTchar_ne {x : UInt8} (h : isTchar x = true) :
    x ≠ 0x3A ∧ x ≠ 0x20 ∧ isLineEnd x = false := by
  refine ⟨?_, ?_, isLineEnd_eq_false (by decide) (by decide) h⟩
  · rintro rfl
    exact absurd h (by decide)
  · rintro rfl
    exact absurd h (by decide)

/-- A byte that is no white space is no blank and no line end. -/
theorem isSpace_eq_false_ne {x : UInt8} (h : isSpace x = false) :
    x ≠ 0x20 ∧ isLineEnd x = false := by
  refine ⟨?_, isLineEnd_eq_false (p := fun c => !isSpace c) (by decide) (by decide) (by simp [h])⟩
  rintro rfl
  exact absurd h (by decide)

/-- Taking a line: the bytes before the first CR LF, with no other line end among them. -/
theorem takeLine_eq_some_iff {s l rest : Bytes} :
    takeLine s = some (l, rest) ↔
      s = l ++ 0x0D :: 0x0A :: rest ∧ ∀ x ∈ l, isLineEnd x = false := by
  constructor
  · intro h
    have hsplit := List.takeWhile_append_dropWhile (p := fun c => !isLineEnd c) (l := s)
    unfold takeLine at h
    split at h
    · rename_i rest' hdrop
      obtain ⟨rfl, rfl⟩ := Prod.mk.inj (Option.some.inj h)
      rw [hdrop] at hsplit
      exact ⟨hsplit.symm, fun x hx => by simpa using List.mem_takeWhile_imp hx⟩
    · cases h
  · rintro ⟨rfl, h⟩
    obtain ⟨htake, hdrop⟩ := span_append (p := fun c => !isLineEnd c) (a := l)
      (b := 0x0D :: 0x0A :: rest) (by simpa using h) (by
        intro x hx
        cases hx
        decide)
    unfold takeLine
    rw [hdrop, htake]
    rfl

/-- A request line is a token, a target without white space and the version, one blank apart. -/
theorem parseRequestLine_eq_some_iff {line method target : Bytes} :
    parseRequestLine line = some (method, target) ↔
      line = method ++ 0x20 :: (target ++ 0x20 :: lit "HTTP/1.1") ∧
      (method ≠ [] ∧ ∀ x ∈ method, isTchar x = true) ∧
      target ≠ [] ∧ ∀ x ∈ target, isSpace x = false := by
  constructor
  · intro h
    have hjoin : [0x20].intercalate (line.splitOn 0x20) = line := List.intercalate_splitOn 0x20
    unfold parseRequestLine at h
    split at h
    · rename_i method' target' version hsplit
      split_ifs at h with hcond
      · obtain ⟨rfl, rfl⟩ := Prod.mk.inj (Option.some.inj h)
        obtain ⟨hm, ht, hmethod, htarget, rfl⟩ := hcond
        rw [hsplit] at hjoin
        exact ⟨by rw [← hjoin]; rfl, ⟨hm, List.all_eq_true.mp hmethod⟩, ht,
          fun x hx => by simpa using List.all_eq_true.mp htarget x hx⟩
    · cases h
  · rintro ⟨rfl, ⟨hm, hmethod⟩, ht, htarget⟩
    have hm20 : 0x20 ∉ method := fun hx => (isTchar_ne (hmethod _ hx)).2.1 rfl
    have ht20 : 0x20 ∉ target := fun hx => (isSpace_eq_false_ne (htarget _ hx)).1 rfl
    unfold parseRequestLine
    rw [List.splitOn_append_cons_self_of_not_mem hm20,
      List.splitOn_append_cons_self_of_not_mem ht20, List.splitOn_eq_singleton (by decide)]
    exact if_pos ⟨hm, ht, List.all_eq_true.mpr hmethod,
      List.all_eq_true.mpr fun x hx => by rw [htarget x hx]; rfl, rfl⟩

/-- A field line is a token, a colon and a value. -/
theorem parseField_eq_some_iff {line : Bytes} {field : Bytes × Bytes} :
    parseField line = some field ↔
      line = field.1 ++ 0x3A :: field.2 ∧ field.1 ≠ [] ∧ ∀ x ∈ field.1, isTchar x = true := by
  constructor
  · intro h
    have hsplit := List.takeWhile_append_dropWhile (p := fun x : UInt8 => decide (x ≠ 0x3A))
      (l := line)
    unfold parseField at h
    split at h
    · rename_i value hdrop
      rw [hdrop] at hsplit
      obtain ⟨hcond, heq⟩ := Option.ite_none_right_eq_some.mp h
      cases heq
      exact ⟨hsplit.symm, hcond.1, List.all_eq_true.mp hcond.2⟩
    · cases h
  · rintro ⟨rfl, hne, hname⟩
    have hcolon : 0x3A ∉ field.1 := fun hx => (isTchar_ne (hname _ hx)).1 rfl
    obtain ⟨htake, hdrop⟩ := span_ne_append_cons field.2 hcolon
    unfold parseField
    rw [hdrop, htake]
    exact if_pos ⟨hne, List.all_eq_true.mpr hname⟩

/-- What one turn of the loop over the fields does. -/
theorem parseFields_succ_eq_some_iff {n : Nat} {s body : Bytes} {fields : List (Bytes × Bytes)} :
    parseFields (n + 1) s = some (fields, body) ↔ ∃ line rest, takeLine s = some (line, rest) ∧
      (line = [] ∧ fields = [] ∧ body = rest ∨
        line ≠ [] ∧ ∃ field tail, parseField line = some field ∧
          parseFields n rest = some (tail, body) ∧ field :: tail = fields) := by
  rw [parseFields]
  cases takeLine s with
  | none => simp
  | some p =>
    obtain ⟨line, rest⟩ := p
    by_cases hline : line = []
    · simp [hline, eq_comm]
    · simp [hline, Option.bind_eq_some_iff]

/-- The loop reads fields that were written, and only those. -/
theorem parseFields_eq_some {body : Bytes} : ∀ {n : Nat} {s : Bytes} {fields : List (Bytes × Bytes)},
    parseFields n s = some (fields, body) →
      s = fieldLines fields ++ (lit "\r\n" ++ body) ∧ ∀ field ∈ fields, FieldOk field := by
  intro n
  induction n with
  | zero =>
    intro s fields h
    cases h
  | succ n ih =>
    intro s fields h
    obtain ⟨line, rest, hline, hcase⟩ := parseFields_succ_eq_some_iff.mp h
    obtain ⟨rfl, hends⟩ := takeLine_eq_some_iff.mp hline
    rcases hcase with ⟨rfl, rfl, rfl⟩ | ⟨-, field, tail, hfield, htail, rfl⟩
    · exact ⟨rfl, fun _ hf => by cases hf⟩
    · obtain ⟨rfl, hne, hname⟩ := parseField_eq_some_iff.mp hfield
      obtain ⟨rfl, hok⟩ := ih htail
      have hvalue : ∀ x ∈ field.2, isLineEnd x = false := fun x hx =>
        hends x (List.mem_append_right _ (List.mem_cons_of_mem _ hx))
      refine ⟨?_, List.forall_mem_cons.mpr ⟨⟨hne, hname, hvalue⟩, hok⟩⟩
      simp only [fieldLines, fieldLine, List.map_cons, List.flatten_cons, List.append_assoc,
        List.cons_append]
      rfl

/-- Well-formed fields are read back as they were written, up to the empty line. -/
theorem parseFields_fieldLines (body : Bytes) : ∀ {fields : List (Bytes × Bytes)} {n : Nat},
    (∀ field ∈ fields, FieldOk field) → fields.length < n →
      parseFields n (fieldLines fields ++ (lit "\r\n" ++ body)) = some (fields, body) := by
  intro fields
  induction fields with
  | nil =>
    intro n _ hn
    obtain ⟨n, rfl⟩ := Nat.exists_eq_succ_of_ne_zero (Nat.ne_of_gt hn)
    have hline : takeLine (lit "\r\n" ++ body) = some ([], body) :=
      takeLine_eq_some_iff.mpr ⟨rfl, fun _ h => by cases h⟩
    exact parseFields_succ_eq_some_iff.mpr ⟨[], body, hline, Or.inl ⟨rfl, rfl, rfl⟩⟩
  | cons field fields ih =>
    intro n hok hn
    obtain ⟨n, rfl⟩ := Nat.exists_eq_succ_of_ne_zero (Nat.ne_of_gt (Nat.zero_lt_of_lt hn))
    obtain ⟨⟨hne, hname, hvalue⟩, htail⟩ := List.forall_mem_cons.mp hok
    have hrest := ih htail (Nat.lt_of_succ_lt_succ hn)
    have hline : takeLine (fieldLines (field :: fields) ++ (lit "\r\n" ++ body)) =
        some (field.1 ++ 0x3A :: field.2, fieldLines fields ++ (lit "\r\n" ++ body)) := by
      refine takeLine_eq_some_iff.mpr ⟨?_, ?_⟩
      · simp only [fieldLines, fieldLine, List.map_cons, List.flatten_cons, List.append_assoc,
          List.cons_append]
        rfl
      · intro x hx
        rcases List.mem_append.mp hx with hx | hx
        · exact (isTchar_ne (hname x hx)).2.2
        · rcases List.mem_cons.mp hx with rfl | hx
          · decide
          · exact hvalue x hx
    exact parseFields_succ_eq_some_iff.mpr ⟨_, _, hline, Or.inr ⟨by simp, field, fields,
      parseField_eq_some_iff.mpr ⟨rfl, hne, hname⟩, hrest, rfl⟩⟩

/-- Every field takes at least one byte. -/
theorem length_le_fieldLines (fields : List (Bytes × Bytes)) :
    fields.length ≤ (fieldLines fields).length := by
  unfold fieldLines
  induction fields with
  | nil => exact Nat.le_refl 0
  | cons field fields ih =>
    simp only [List.map_cons, List.flatten_cons, List.length_append, fieldLine, List.length_cons]
    omega

/-! ### Requests -/

/-- The reader accepts exactly the texts of valid requests. -/
theorem parse_eq_some_iff {s : Bytes} {r : HttpRequest} :
    parse s = some r ↔ r.Valid ∧ s = r.render := by
  obtain ⟨method, target, headers, body⟩ := r
  have hline : ∀ rest : Bytes, method ++ 0x20 :: (target ++ 0x20 :: (lit "HTTP/1.1\r\n" ++ rest)) =
      (method ++ 0x20 :: (target ++ 0x20 :: lit "HTTP/1.1")) ++ 0x0D :: 0x0A :: rest := by
    intro rest
    simp only [List.append_assoc, List.cons_append]
    rfl
  unfold parse
  simp only [Option.bind_eq_bind, Option.bind_eq_some_iff, Prod.exists]
  constructor
  · rintro ⟨line, rest, hl, method', target', hreq, headers', body', hfields, heq⟩
    cases heq
    obtain ⟨rfl, -⟩ := takeLine_eq_some_iff.mp hl
    obtain ⟨rfl, ⟨hm, hmethod⟩, ht, htarget⟩ := parseRequestLine_eq_some_iff.mp hreq
    obtain ⟨rfl, hok⟩ := parseFields_eq_some hfields
    exact ⟨⟨hm, hmethod, ht, htarget, hok⟩, (hline _).symm⟩
  · rintro ⟨⟨hm, hmethod, ht, htarget, hok⟩, rfl⟩
    have hends : ∀ x ∈ method ++ 0x20 :: (target ++ 0x20 :: lit "HTTP/1.1"),
        isLineEnd x = false := by
      intro x hx
      rcases List.mem_append.mp hx with hx | hx
      · exact (isTchar_ne (hmethod x hx)).2.2
      · rcases List.mem_cons.mp hx with rfl | hx
        · decide
        · rcases List.mem_append.mp hx with hx | hx
          · exact (isSpace_eq_false_ne (htarget x hx)).2
          · exact (by decide : ∀ y ∈ 0x20 :: lit "HTTP/1.1", isLineEnd y = false) x hx
    refine ⟨_, _, takeLine_eq_some_iff.mpr ⟨hline _, hends⟩, method, target,
      parseRequestLine_eq_some_iff.mpr ⟨rfl, ⟨hm, hmethod⟩, ht, htarget⟩, headers, body, ?_, rfl⟩
    refine parseFields_fieldLines body hok ?_
    have := length_le_fieldLines headers
    simp only [List.length_append]
    omega

section
variable {c : UInt8} (hc : isLineEnd c = true)

include hc in
/-- A text without line ends counts none. -/
theorem count_eq_zero_of_isLineEnd {s : Bytes} (h : ∀ x ∈ s, isLineEnd x = false) :
    s.count c = 0 := by
  refine List.count_eq_zero.mpr fun hmem => ?_
  rw [h c hmem] at hc
  cases hc

include hc in
/-- The line of a field holds one CR and one LF besides those of the field. -/
theorem count_fieldLine (field : Bytes × Bytes) :
    (fieldLine field).count c = field.1.count c + field.2.count c + 1 := by
  have hcrlf : (lit "\r\n").count c = 1 ∧ c ≠ 0x3A := by
    rcases isLineEnd_eq_true_iff.mp hc with rfl | rfl
    · decide
    · decide
  unfold fieldLine
  rw [List.count_append, List.count_cons_of_ne hcrlf.2.symm, List.count_append, hcrlf.1]
  omega

include hc in
/-- The lines of fields hold one CR and one LF for each field. -/
theorem count_fieldLines {fields : List (Bytes × Bytes)} (h : ∀ field ∈ fields, FieldOk field) :
    (fieldLines fields).count c = fields.length := by
  unfold fieldLines
  induction fields with
  | nil => rfl
  | cons field fields ih =>
    obtain ⟨⟨-, hname, hvalue⟩, htail⟩ := List.forall_mem_cons.mp h
    have hname' : ∀ x ∈ field.1, isLineEnd x = false := fun x hx => (isTchar_ne (hname x hx)).2.2
    rw [List.map_cons, List.flatten_cons, List.count_append, count_fieldLine hc, ih htail,
      count_eq_zero_of_isLineEnd hc hname', count_eq_zero_of_isLineEnd hc hvalue,
      List.length_cons]
    omega

end

end HttpRequest

end EjsBoundary.Lib
