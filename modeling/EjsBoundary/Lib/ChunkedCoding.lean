import EjsBoundary.Lib.FormQuery

/-!
# `EjsBoundary.Lib.ChunkedCoding`: the chunked coding of HTTP

A payload written as chunks: for each chunk a line with its size in hexadecimal, the data, and a
line end; at the end a line with the size zero and a trailer. The coding leaves the writer free
in how a size line looks (the case of the digits, leading zeros, blanks, an extension), and a
`SizeLine` holds one of these ways. Only lines that name the right size can be built, so a
`Coding` is a correct one.

`Coding.payloadWithin n` is what a reader that has seen the first `n` bytes can know: the data of
the chunks that lie wholly within them.
-/

set_option autoImplicit false

namespace EjsBoundary.Lib.ChunkedCoding

open EjsBoundary.Lib

/-- The number hexadecimal digits of either case write, the most significant first. -/
def hexNumber (digits : Bytes) : Nat :=
  digits.foldl (fun v d => v * 16 + (FormQuery.hexDigit? d).getD 0) 0

/-- The two bytes that end a line. -/
def lineEnd : Bytes := [0x0D, 0x0A]

/-- A size line: digits, blanks and perhaps an extension. -/
structure SizeLine (size : Nat) where
  /-- The digits. -/
  digits : Bytes
  /-- Spaces and tabs after the digits. -/
  blanks : Bytes
  /-- What follows the semicolon. -/
  extension : Option Bytes
  digits_ne_nil : digits ≠ []
  isHex_digits : ∀ d ∈ digits, (FormQuery.hexDigit? d).isSome = true
  hexNumber_digits : hexNumber digits = size
  isBlank_blanks : ∀ b ∈ blanks, b = 0x20 ∨ b = 0x09
  extension_line : ∀ ext ∈ extension, (0x0D : UInt8) ∉ ext ∧ (0x0A : UInt8) ∉ ext

/-- The extension with its semicolon. -/
def SizeLine.extensionText {size : Nat} (line : SizeLine size) : Bytes :=
  match line.extension with
  | none => []
  | some ext => 0x3B :: ext

/-- The text of a size line, without its line end. -/
def SizeLine.text {size : Nat} (line : SizeLine size) : Bytes :=
  line.digits ++ (line.blanks ++ line.extensionText)

/-- A chunk with a way to write its size. -/
structure Chunk where
  /-- The data. -/
  data : Bytes
  /-- The size line. -/
  line : SizeLine data.length
  data_ne_nil : data ≠ []

/-- The bytes of a chunk before its data. -/
def Chunk.head (c : Chunk) : Bytes := c.line.text ++ lineEnd

/-- The bytes of a chunk. -/
def Chunk.bytes (c : Chunk) : Bytes := c.head ++ (c.data ++ lineEnd)

/-- A payload in chunked coding. -/
structure Coding where
  /-- The chunks. -/
  chunks : List Chunk
  /-- The line of the last chunk, which has no data. -/
  last : SizeLine 0
  /-- Whatever follows that line. -/
  trailer : Bytes

/-- The bytes after the chunks. -/
def Coding.ending (m : Coding) : Bytes := m.last.text ++ (lineEnd ++ m.trailer)

/-- The bytes of a coding. -/
def Coding.bytes (m : Coding) : Bytes := m.chunks.flatMap Chunk.bytes ++ m.ending

/-- The payload. -/
def Coding.payload (m : Coding) : Bytes := m.chunks.flatMap Chunk.data

/-- The chunks of a list that starts at a position, each with the position just behind its
data. -/
def dataEnds : (start : Nat) → List Chunk → List (Nat × Chunk)
  | _, [] => []
  | start, c :: cs =>
    (start + c.head.length + c.data.length, c) :: dataEnds (start + c.bytes.length) cs

/-- The data of the chunks that lie wholly within the first `n` bytes. -/
def Coding.payloadWithin (m : Coding) (n : Nat) : Bytes :=
  ((dataEnds 0 m.chunks).filter fun p => p.1 ≤ n).flatMap fun p => p.2.data

/-- A chunk is as long as its size line, its data and a line end. -/
theorem Chunk.length_bytes (c : Chunk) :
    c.bytes.length = c.head.length + c.data.length + 2 := by
  simp [Chunk.bytes, lineEnd]
  omega

/-- The data of the chunks lies within their bytes. -/
theorem filter_dataEnds_of_le {cs : List Chunk} {start n : Nat}
    (h : start + (cs.flatMap Chunk.bytes).length ≤ n) :
    ((dataEnds start cs).filter fun p => p.1 ≤ n).flatMap (fun p => p.2.data) =
      cs.flatMap Chunk.data := by
  induction cs generalizing start with
  | nil => rfl
  | cons c cs ih =>
    have hbytes := c.length_bytes
    rw [List.flatMap_cons, List.length_append] at h
    rw [dataEnds, List.filter_cons, if_pos (by simp only [decide_eq_true_eq]; omega),
      List.flatMap_cons, List.flatMap_cons, ih (by omega)]

/-- Within all its bytes lies the whole payload. -/
theorem Coding.payloadWithin_length (m : Coding) : m.payloadWithin m.bytes.length = m.payload :=
  filter_dataEnds_of_le (by simp [Coding.bytes])

/-! ### Size lines -/

/-- No digit is a byte that means something else in a size line: a line end, a semicolon, a sign,
white space or the mark of a hexadecimal number. -/
theorem ne_of_isHex (d : UInt8) (h : (FormQuery.hexDigit? d).isSome = true) :
    d ∉ ([0x0D, 0x0A, 0x3B, 0x2D, 0x2B] : Bytes) ∧ isSpace d = false ∧ toLower d ≠ 0x78 :=
  forall_byte (p := fun d => (FormQuery.hexDigit? d).isSome = true →
    d ∉ ([0x0D, 0x0A, 0x3B, 0x2D, 0x2B] : Bytes) ∧ isSpace d = false ∧ toLower d ≠ 0x78)
    (by decide) d h

/-- A size line holds no byte of a line end. -/
theorem SizeLine.not_mem_text {size : Nat} (line : SizeLine size) :
    (0x0D : UInt8) ∉ line.text ∧ (0x0A : UInt8) ∉ line.text := by
  have hmem : ∀ c ∈ line.text, c ≠ 0x0D ∧ c ≠ 0x0A := by
    intro c hc
    unfold SizeLine.text SizeLine.extensionText at hc
    rw [List.mem_append, List.mem_append] at hc
    rcases hc with hdigit | hblank | hext
    · have hne := (ne_of_isHex c (line.isHex_digits c hdigit)).1
      exact ⟨fun heq => hne (by rw [heq]; decide), fun heq => hne (by rw [heq]; decide)⟩
    · rcases line.isBlank_blanks c hblank with rfl | rfl
      · decide
      · decide
    · cases hx : line.extension with
      | none => rw [hx] at hext; cases hext
      | some ext =>
        rw [hx, List.mem_cons] at hext
        obtain ⟨hcr, hlf⟩ := line.extension_line ext hx
        rcases hext with rfl | hext
        · decide
        · exact ⟨fun heq => hcr (heq ▸ hext), fun heq => hlf (heq ▸ hext)⟩
  exact ⟨fun hc => (hmem _ hc).1 rfl, fun hc => (hmem _ hc).2 rfl⟩

/-- Whatever is cut off inside a size line or its line end holds no line end. -/
theorem SizeLine.not_mem_take {size : Nat} (line : SizeLine size) (rest : Bytes) {n : Nat}
    (h : n < line.text.length + 2) : (0x0A : UInt8) ∉ (line.text ++ (lineEnd ++ rest)).take n := by
  have hcut : (line.text ++ (lineEnd ++ rest)).take n = (line.text ++ [0x0D]).take n := by
    show (line.text ++ ([0x0D] ++ (0x0A :: rest))).take n = _
    rw [← List.append_assoc, List.take_append_of_le_length (by simp; omega)]
  rw [hcut]
  intro hmem
  have := List.mem_of_mem_take hmem
  rw [List.mem_append, List.mem_singleton] at this
  rcases this with htext | hcr
  · exact line.not_mem_text.2 htext
  · exact absurd hcr (by decide)

end EjsBoundary.Lib.ChunkedCoding
