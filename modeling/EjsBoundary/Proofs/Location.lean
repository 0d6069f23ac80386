import EjsBoundary.Proofs.RedirectChain
import EjsBoundary.Proofs.References

/-!
# `EjsBoundary.Proofs.Location`: which `Location` a head asks for

`https_request` looks for the `Location` of a redirect with one search over the whole head:
`(?:\r\n|^)Location:\s*([^\r\n]+)`. `locationText` says what the search finds in terms of the
fields: the value of the first field of that name, in whatever case it is written. The one
surprise is a field without a value. White space is any white space, so `\s*` runs over the line
end, and the whole next line is taken for the `Location`.

`reply_followed_iff` puts this together with the form a `Location` must have, and says for every reply
whether it is followed, and to where.
-/

set_option autoImplicit false

namespace EjsBoundary.Proofs

open EjsBoundary.Lib
open EjsBoundary.Lib.HttpRequest (isLineEnd isTchar)
open EjsBoundary.Lib.ResponseHead (fieldsText)
open EjsBoundary.Model

/-! ### The search, by the fields -/

/-- What the search makes of a field with the name, trimmed: its value, or the next line if there
is no value. -/
def namedText (f : HeaderField) : List HeaderField → Option Bytes
  | [] => if f.blanks ++ f.value = [] then none else some (strip f.value)
  -- `\s*` takes the line end too.
  | g :: _ => if f.value.all isSpace then some (strip g.text) else some (strip f.value)

/-- What the search finds, trimmed. -/
def locationText : List HeaderField → Option Bytes
  | [] => none
  | f :: fields =>
    if lowered f.name = lit "location" then namedText f fields else locationText fields

/-- Bytes that are the same without regard to case. -/
theorem forall₂_toLower_iff {text word : Bytes} :
    List.Forall₂ (fun c x => (toLower x == toLower c) = true) text word ↔
      lowered word = lowered text := by
  unfold lowered
  have hsame : ∀ c x : UInt8, ((toLower x == toLower c) = true) = (toLower c = toLower x) := by
    intro c x
    rw [beq_iff_eq]
    exact propext eq_comm
  rw [eq_comm, ← List.forall₂_eq_eq_eq, List.forall₂_map_left_iff, List.forall₂_map_right_iff]
  simp only [hsame]

/-- A way to match: a line end or the start of the text, the name in any case, white space and
some of a line. -/
theorem mem_run_locationPattern {subject t : Bytes} {m : Bytes × Captures} :
    m ∈ locationPattern.run subject t ↔ ∃ mark word blanks text,
      t = mark ++ (word ++ (blanks ++ (text ++ m.1))) ∧
      (mark = lit "\r\n" ∨ mark = [] ∧ t.length = subject.length) ∧
      lowered word = lit "location:" ∧ (∀ x ∈ blanks, isSpace x = true) ∧
      text ≠ [] ∧ (∀ x ∈ text, isLineEnd x = false) ∧ m.2 = [(1, text)] := by
  have hword : ∀ word : Bytes, List.Forall₂ (fun c x => (toLower x == toLower c) = true)
      (lit "Location:") word ↔ lowered word = lit "location:" := fun word => forall₂_toLower_iff
  have hline : ∀ x : UInt8, (x != 0x0D && x != 0x0A) = true ↔ isLineEnd x = false := by
    intro x
    simp [isLineEnd]
  unfold locationPattern
  rw [Regex.mem_run_seq]
  constructor
  · rintro ⟨m₁, h₁, m₂, h₂, rfl⟩
    obtain ⟨m₃, h₃, m₄, h₄, rfl⟩ := Regex.mem_run_seq.mp h₂
    obtain ⟨m₅, h₅, m₆, h₆, rfl⟩ := Regex.mem_run_seq.mp h₄
    obtain ⟨word, hm₁, hsame, hcaps₃⟩ := Regex.mem_run_literalBy.mp h₃
    obtain ⟨blanks, hm₃, hblanks, hcaps₅⟩ := Regex.mem_run_star.mp h₅
    obtain ⟨m₇, h₇, text, hm₅, rfl⟩ := Regex.mem_run_group.mp h₆
    obtain ⟨text', hm₅', hne, hall, hcaps₇⟩ := Regex.mem_run_plus.mp h₇
    cases List.append_cancel_right (hm₅.symm.trans hm₅')
    have hrest : m₁.1 = word ++ (blanks ++ (text ++ m₇.1)) := by rw [hm₁, hm₃, hm₅]
    have hall' : ∀ x ∈ text, isLineEnd x = false := fun x hx => (hline x).mp (hall x hx)
    rcases Regex.mem_run_alt.mp h₁ with hmark | hbol
    · obtain ⟨ht, hcaps₁⟩ := Regex.mem_run_literal.mp hmark
      exact ⟨lit "\r\n", word, blanks, text, by rw [ht, hrest], Or.inl rfl, (hword word).mp hsame,
        hblanks, hne, hall', by rw [hcaps₁, hcaps₃, hcaps₅, hcaps₇]; rfl⟩
    · obtain ⟨hlen, rfl⟩ := Regex.mem_run_bol.mp hbol
      exact ⟨[], word, blanks, text, hrest, Or.inr ⟨rfl, hlen⟩, (hword word).mp hsame,
        hblanks, hne, hall', by rw [hcaps₃, hcaps₅, hcaps₇]; rfl⟩
  · rintro ⟨mark, word, blanks, text, ht, hmark, hname, hblanks, hne, hall, hcaps⟩
    refine ⟨(word ++ (blanks ++ (text ++ m.1)), []), ?_, (m.1, [(1, text)]), ?_,
      Prod.ext rfl hcaps⟩
    · rw [Regex.mem_run_alt]
      rcases hmark with rfl | ⟨rfl, hlen⟩
      · exact Or.inl (Regex.mem_run_literal.mpr ⟨ht, rfl⟩)
      · exact Or.inr (Regex.mem_run_bol.mpr ⟨hlen, by rw [ht]; rfl⟩)
    · refine Regex.mem_run_seq.mpr ⟨(blanks ++ (text ++ m.1), []),
        Regex.mem_run_literalBy.mpr ⟨word, rfl, (hword word).mpr hname, rfl⟩,
        (m.1, [(1, text)]), ?_, rfl⟩
      refine Regex.mem_run_seq.mpr ⟨(text ++ m.1, []),
        Regex.mem_run_star.mpr ⟨blanks, rfl, hblanks, rfl⟩, (m.1, [(1, text)]), ?_, rfl⟩
      refine Regex.mem_run_group.mpr ⟨(m.1, []), ?_, text, rfl, rfl⟩
      exact Regex.mem_run_plus.mpr ⟨text, rfl, hne, fun x hx => (hline x).mpr (hall x hx), rfl⟩

/-- Where a line end and the name stand, the search takes the first line with something on it. -/
theorem head?_run_locationPattern {subject name after line rest : Bytes} {c : UInt8}
    (hname : lowered name = lit "location") (hafter : after.dropWhile isSpace = c :: line ++ rest)
    (hline : ∀ x ∈ c :: line, isLineEnd x = false) (hrest : ∀ x ∈ rest.head?, isLineEnd x = true) :
    (locationPattern.run subject (lit "\r\n" ++ (name ++ 0x3A :: after))).head? =
      some (rest, [(1, c :: line)]) := by
  have hword : lowered (name ++ [0x3A]) = lowered (lit "Location:") := by
    unfold lowered at hname ⊢
    rw [List.map_append, hname]
    rfl
  have hclass : ∀ x : UInt8, (x != 0x0D && x != 0x0A) = !isLineEnd x := by
    intro x
    simp [isLineEnd, bne]
  have hplus : (Regex.run subject (.group 1 (.plus fun x => x != 0x0D && x != 0x0A))
      (c :: line ++ rest)).head? = some (rest, [(1, c :: line)]) := by
    refine Regex.head?_run_group ?_
    have hc : (c != 0x0D && c != 0x0A) = true := by
      rw [hclass, hline c List.mem_cons_self]
      rfl
    rw [List.cons_append, Regex.head?_run_plus hc, (span_append (fun x hx => ?_) fun x hx => ?_).2]
    · rw [hclass, hline x (List.mem_cons_of_mem c hx)]
      rfl
    · rw [hclass, hrest x hx]
      rfl
  have hstar : (Regex.run subject (.star isSpace) after).head? = some (c :: line ++ rest, []) := by
    rw [Regex.head?_run_star, hafter]
  have hlit := @Regex.head?_run_literalBy subject _ _ _ (forall₂_toLower_iff.mpr hword) after
  rw [List.append_assoc, List.singleton_append] at hlit
  have hmark : (Regex.run subject (.alt (.literal (lit "\r\n")) .bol)
      (lit "\r\n" ++ (name ++ 0x3A :: after))).head? = some (name ++ 0x3A :: after, []) :=
    Regex.head?_run_alt_left (Regex.head?_run_literal _ _)
  exact Regex.head?_run_seq hmark (Regex.head?_run_seq hlit (Regex.head?_run_seq hstar hplus))

/-- A way to match at the line of a field: the field has the name, and the text is behind its
colon. -/
theorem mem_run_line {subject name after : Bytes} {m : Bytes × Captures}
    (hcolon : (0x3A : UInt8) ∉ name)
    (h : m ∈ locationPattern.run subject (lit "\r\n" ++ (name ++ 0x3A :: after))) :
    lowered name = lit "location" ∧ ∃ blanks text, after = blanks ++ (text ++ m.1) ∧
      text ≠ [] ∧ m.2 = [(1, text)] := by
  obtain ⟨mark, word, blanks, text, heq, hmark, hword, -, hne, -, hcaps⟩ :=
    mem_run_locationPattern.mp h
  obtain ⟨w, e, rfl, hw, he⟩ : ∃ w e, word = w ++ e ∧ lowered w = lit "location" ∧
      lowered e = [0x3A] := by
    obtain ⟨w, e, rfl, hw, he⟩ := List.map_eq_append_iff.mp
      (show lowered word = lit "location" ++ [0x3A] from hword)
    exact ⟨w, e, rfl, hw, he⟩
  obtain ⟨x, rfl, hx⟩ := List.map_eq_singleton_iff.mp he
  cases ((ResponseHead.toLower_eq_iff x).2.2.1).mp hx
  have hwcolon : (0x3A : UInt8) ∉ w := by
    intro hmem
    have : (0x3A : UInt8) ∈ lowered w := List.mem_map.mpr ⟨0x3A, hmem, rfl⟩
    rw [hw] at this
    exact absurd this (by decide)
  rcases hmark with rfl | ⟨rfl, -⟩
  · have hline := List.append_cancel_left heq
    rw [List.append_assoc, List.singleton_append] at hline
    obtain ⟨rfl, rfl⟩ := append_cons_inj hcolon hwcolon hline
    exact ⟨hw, blanks, text, rfl, hne, hcaps⟩
  · -- The text starts with CR, which no letter is in any case.
    cases w with
    | nil => cases hw
    | cons c w =>
      have hc : c = 0x0D := (List.cons.inj heq).1.symm
      rw [hc] at hw
      cases (List.cons.inj hw).1

/-- Nothing matches where neither a line end stands nor the text starts. -/
theorem run_eq_nil {subject t : Bytes} (hmark : ¬ lit "\r\n" <+: t)
    (hstart : t.length = subject.length → ¬ lit "location:" <+: lowered t) :
    locationPattern.run subject t = [] := by
  refine List.eq_nil_iff_forall_not_mem.mpr fun m hm => ?_
  obtain ⟨mark, word, blanks, text, heq, hcase, hword, -⟩ := mem_run_locationPattern.mp hm
  rcases hcase with rfl | ⟨rfl, hlen⟩
  · exact hmark ⟨_, heq.symm⟩
  · refine hstart hlen ⟨lowered (blanks ++ (text ++ m.1)), ?_⟩
    rw [heq, ← hword, List.nil_append]
    exact List.map_append.symm

/-! ### From line to line -/

/-- The search in a tail of the text. -/
def searchFrom (subject t : Bytes) : Option Captures :=
  t.tails.findSome? fun u => (locationPattern.run subject u).head?.map (·.2)

/-- Nothing is found inside a line. -/
theorem searchFrom_row {subject row rest : Bytes} (hrow : ∀ x ∈ row, isLineEnd x = false)
    (hle : (row ++ rest).length ≤ subject.length)
    (hstart : (row ++ rest).length = subject.length → ¬ lit "location:" <+: lowered (row ++ rest)) :
    searchFrom subject (row ++ rest) = searchFrom subject rest := by
  refine findSome?_tails_append fun k hk => ?_
  have hnil : locationPattern.run subject ((row ++ rest).drop k) = [] := by
    refine run_eq_nil ?_ fun hlen => ?_
    · rw [List.drop_append_of_le_length (Nat.le_of_lt hk), List.drop_eq_getElem_cons hk]
      intro hmark
      have hcr : (0x0D : UInt8) = row[k] := (List.cons_prefix_cons.mp hmark).1
      have := hrow _ (List.getElem_mem hk)
      rw [← hcr] at this
      exact absurd this (by decide)
    · cases k with
      | zero => exact hstart hlen
      | succ k =>
        rw [List.length_drop] at hlen
        rw [List.length_append] at hle hlen
        omega
  rw [hnil]
  rfl

/-- Where a line end has no way, the search goes on in the line behind it. -/
theorem searchFrom_lineEnd {subject rest : Bytes}
    (hle : (lit "\r\n" ++ rest).length ≤ subject.length)
    (hnil : locationPattern.run subject (lit "\r\n" ++ rest) = []) :
    searchFrom subject (lit "\r\n" ++ rest) = searchFrom subject rest := by
  refine findSome?_tails_append fun k hk => ?_
  match k, hk with
  | 0, _ =>
    rw [List.drop_zero, hnil]
    rfl
  | 1, _ =>
    have hlf : locationPattern.run subject (0x0A :: rest) = [] := by
      refine run_eq_nil (fun hmark => ?_) fun hlen => ?_
      · exact absurd (List.cons_prefix_cons.mp hmark).1 (by decide)
      · have : (lit "\r\n" ++ rest).length = rest.length + 2 := by
          rw [List.length_append]
          exact Nat.add_comm _ _
        rw [List.length_cons] at hlen
        omega
    show ((locationPattern.run subject (0x0A :: rest)).head?.map _) = none
    rw [hlf]
    rfl

/-- The best way at the front of a tail is what the search in it gives. -/
theorem searchFrom_of_head? {subject t : Bytes} {m : Bytes × Captures}
    (h : (locationPattern.run subject t).head? = some m) : searchFrom subject t = some m.2 :=
  findSome?_tails_of_some (by rw [h]; rfl)

/-- The name of a field has no colon. -/
theorem not_mem_name (f : HeaderField) : (0x3A : UInt8) ∉ f.name :=
  fun hmem => (HttpRequest.isTchar_ne (f.isTchar_name _ hmem)).1 rfl

/-- A blank or a tab is white space. -/
theorem isSpace_of_isBlank {x : UInt8} (h : isBlank x = true) : isSpace x = true :=
  forall_byte (p := fun x => isBlank x = true → isSpace x = true) (by decide) x h

/-- A byte of a token is not. -/
theorem isSpace_of_isTchar {x : UInt8} (h : isTchar x = true) : isSpace x = false :=
  forall_byte (p := fun x => isTchar x = true → isSpace x = false) (by decide) x h

/-- What follows the fields of a line is the end or another line end. -/
theorem head?_fieldsText (fields : List HeaderField) :
    ∀ x ∈ (fieldsText fields).head?, isLineEnd x = true := by
  cases fields with
  | nil => exact fun x hx => by cases hx
  | cons f fields =>
    intro x hx
    rw [ResponseHead.fieldsText_cons] at hx
    cases hx
    rfl

/-- The text of a field, part by part. -/
theorem fieldText_append (f : HeaderField) (rest : Bytes) :
    f.text ++ rest = f.name ++ 0x3A :: (f.blanks ++ (f.value ++ rest)) := by
  simp [HeaderField.text]

/-- The line of a field starts with no white space. -/
theorem dropWhile_fieldText (f : HeaderField) (rest : Bytes) :
    ∃ c line, f.text = c :: line ∧ (f.text ++ rest).dropWhile isSpace = c :: line ++ rest := by
  obtain ⟨c, name, hname⟩ := List.exists_cons_of_ne_nil f.name_ne_nil
  have hc : isSpace c = false :=
    isSpace_of_isTchar (f.isTchar_name c (by rw [hname]; exact List.mem_cons_self))
  have htext : f.text = c :: (name ++ 0x3A :: (f.blanks ++ f.value)) := by
    rw [HeaderField.text, hname]
    rfl
  refine ⟨c, _, htext, ?_⟩
  rw [htext, List.cons_append, List.dropWhile_cons, hc]
  rfl

/-- White space in front is passed over. -/
theorem dropWhile_append_of_all {a : Bytes} (h : ∀ x ∈ a, isSpace x = true) (b : Bytes) :
    (a ++ b).dropWhile isSpace = b.dropWhile isSpace := by
  rw [List.dropWhile_append, List.dropWhile_eq_nil_iff.mpr h]
  rfl

/-- Stripping the front first changes nothing. -/
theorem strip_dropWhile (s : Bytes) : strip (s.dropWhile isSpace) = strip s := by
  unfold strip
  rw [List.dropWhile_idempotent]

/-- White space alone strips to nothing. -/
theorem strip_eq_nil {s : Bytes} (h : ∀ x ∈ s, isSpace x = true) : strip s = [] := by
  unfold strip
  rw [List.dropWhile_eq_nil_iff.mpr h]
  rfl

/-- The value of a field with the name, when there is one. -/
theorem search_value {subject : Bytes} (f : HeaderField) (fields : List HeaderField)
    (hname : lowered f.name = lit "location") (hvalue : f.value.all isSpace = false) :
    (searchFrom subject (lit "\r\n" ++ (f.text ++ fieldsText fields))).map
        (fun m => strip ((m.lookup 1).getD [])) = some (strip f.value) := by
  have hblanks : ∀ x ∈ f.blanks, isSpace x = true :=
    fun x hx => isSpace_of_isBlank (f.isBlank_blanks x hx)
  have hafter : (f.blanks ++ (f.value ++ fieldsText fields)).dropWhile isSpace =
      f.value.dropWhile isSpace ++ fieldsText fields := by
    rw [dropWhile_append_of_all hblanks, List.dropWhile_append, if_neg]
    rw [List.isEmpty_iff, List.dropWhile_eq_nil_iff, ← List.all_eq_true, hvalue]
    exact Bool.false_ne_true
  cases hdrop : f.value.dropWhile isSpace with
  | nil =>
    rw [List.all_eq_true.mpr (List.dropWhile_eq_nil_iff.mp hdrop)] at hvalue
    cases hvalue
  | cons c line =>
    rw [hdrop] at hafter
    have hline : ∀ x ∈ c :: line, isLineEnd x = false := fun x hx =>
      f.value_line x ((List.dropWhile_sublist isSpace).subset (hdrop ▸ hx))
    rw [fieldText_append, searchFrom_of_head? (head?_run_locationPattern hname hafter hline
      (head?_fieldsText fields))]
    show some (strip (c :: line)) = some (strip f.value)
    rw [← hdrop, strip_dropWhile]

/-- The line behind a field with the name, when that has no value. -/
theorem search_nextLine {subject : Bytes} (f g : HeaderField) (fields : List HeaderField)
    (hname : lowered f.name = lit "location") (hvalue : f.value.all isSpace = true) :
    (searchFrom subject (lit "\r\n" ++ (f.text ++ fieldsText (g :: fields)))).map
        (fun m => strip ((m.lookup 1).getD [])) = some (strip g.text) := by
  have hspaces : ∀ x ∈ f.blanks ++ f.value, isSpace x = true :=
    List.forall_mem_append.mpr
      ⟨fun x hx => isSpace_of_isBlank (f.isBlank_blanks x hx), List.all_eq_true.mp hvalue⟩
  obtain ⟨c, line, hg, hdrop⟩ := dropWhile_fieldText g (fieldsText fields)
  -- The line end is white space, and the next line starts with none.
  have hafter : (f.blanks ++ (f.value ++ fieldsText (g :: fields))).dropWhile isSpace =
      c :: line ++ fieldsText fields := by
    rw [← List.append_assoc, dropWhile_append_of_all hspaces, ResponseHead.fieldsText_cons,
      dropWhile_append_of_all (by decide), hdrop]
  rw [fieldText_append, searchFrom_of_head? (head?_run_locationPattern hname hafter
    (hg ▸ ResponseHead.HeaderField.text_line g) (head?_fieldsText fields))]
  show some (strip (c :: line)) = some (strip g.text)
  rw [hg]

/-- A last field with the name and no value: white space is found, if there is any. -/
theorem search_lastBlank {subject : Bytes} (f : HeaderField)
    (hname : lowered f.name = lit "location") (hvalue : f.value.all isSpace = true)
    (hne : f.blanks ++ f.value ≠ []) :
    (searchFrom subject (lit "\r\n" ++ (f.text ++ fieldsText []))).map
        (fun m => strip ((m.lookup 1).getD [])) = some (strip f.value) := by
  have hspaces : ∀ x ∈ f.blanks ++ f.value, isSpace x = true :=
    List.forall_mem_append.mpr
      ⟨fun x hx => isSpace_of_isBlank (f.isBlank_blanks x hx), List.all_eq_true.mp hvalue⟩
  have hlines : ∀ x ∈ f.blanks ++ f.value, isLineEnd x = false := fun x hx =>
    ResponseHead.HeaderField.text_line f x
      (List.mem_append_right _ (List.mem_cons_of_mem _ hx))
  rw [fieldText_append, show fieldsText [] = [] from rfl, List.append_nil]
  -- Some way there is; whichever is the best, it takes nothing but white space.
  have hway : ([], [(1, f.blanks ++ f.value)]) ∈ locationPattern.run subject
      (lit "\r\n" ++ (f.name ++ 0x3A :: (f.blanks ++ f.value))) := by
    refine mem_run_locationPattern.mpr ⟨lit "\r\n", f.name ++ [0x3A], [], f.blanks ++ f.value,
      by simp, Or.inl rfl, ?_, by simp, hne, hlines, rfl⟩
    unfold lowered at hname ⊢
    rw [List.map_append, hname]
    rfl
  cases hhead : (locationPattern.run subject
      (lit "\r\n" ++ (f.name ++ 0x3A :: (f.blanks ++ f.value)))).head? with
  | none =>
    rw [List.head?_eq_none_iff.mp hhead] at hway
    cases hway
  | some m =>
    obtain ⟨-, blanks, text, hsplit, -, hcaps⟩ :=
      mem_run_line (not_mem_name f) (List.mem_of_head? hhead)
    have htext : ∀ x ∈ text, isSpace x = true := fun x hx =>
      hspaces x (by rw [hsplit]; exact List.mem_append_right _ (List.mem_append_left _ hx))
    rw [searchFrom_of_head? hhead, hcaps, strip_eq_nil (List.all_eq_true.mp hvalue)]
    show some (strip text) = some []
    rw [strip_eq_nil htext]

/-- From any line on, the search finds what the fields behind it say. -/
theorem search_fields {subject row : Bytes} (fields : List HeaderField)
    (hrow : ∀ x ∈ row, isLineEnd x = false)
    (hle : (row ++ fieldsText fields).length ≤ subject.length)
    (hstart : (row ++ fieldsText fields).length = subject.length →
      ¬ lit "location:" <+: lowered (row ++ fieldsText fields)) :
    (searchFrom subject (row ++ fieldsText fields)).map
        (fun m => strip ((m.lookup 1).getD [])) = locationText fields := by
  induction fields generalizing row with
  | nil =>
    have hnil : locationPattern.run subject [] = [] :=
      run_eq_nil (by decide) fun _ => by decide
    rw [searchFrom_row hrow hle hstart]
    show (List.findSome? (fun u => (locationPattern.run subject u).head?.map (·.2)) [[]]).map _ = _
    rw [List.findSome?_cons, hnil]
    rfl
  | cons f fields ih =>
    rw [searchFrom_row hrow hle hstart]
    rw [ResponseHead.fieldsText_cons] at hle ⊢
    have hle' : (lit "\r\n" ++ (f.text ++ fieldsText fields)).length ≤ subject.length := by
      rw [List.length_append] at hle
      omega
    -- A line without a way is left for the next one.
    have hskip : locationPattern.run subject (lit "\r\n" ++ (f.text ++ fieldsText fields)) = [] →
        (searchFrom subject (lit "\r\n" ++ (f.text ++ fieldsText fields))).map
          (fun m => strip ((m.lookup 1).getD [])) = locationText fields := by
      intro hnil
      rw [searchFrom_lineEnd hle' hnil]
      rw [List.length_append, show (lit "\r\n").length = 2 from rfl] at hle'
      exact ih (ResponseHead.HeaderField.text_line f) (by omega) fun hlen => by omega
    rw [locationText]
    by_cases hname : lowered f.name = lit "location"
    · rw [if_pos hname]
      cases hvalue : f.value.all isSpace with
      | false =>
        -- The pattern takes the value of this line.
        rw [search_value f fields hname hvalue]
        cases fields with
        | nil =>
          have hne : f.blanks ++ f.value ≠ [] := by
            intro hnil
            rw [(List.append_eq_nil_iff.mp hnil).2] at hvalue
            cases hvalue
          rw [namedText, if_neg hne]
        | cons g fields =>
          rw [namedText, hvalue]
          rfl
      | true =>
        -- There is nothing but white space: `\s*` goes on to the next line, if there is one.
        cases fields with
        | nil =>
          by_cases hne : f.blanks ++ f.value = []
          · rw [namedText, if_pos hne]
            refine hskip (List.eq_nil_iff_forall_not_mem.mpr fun m hm => ?_)
            rw [fieldText_append] at hm
            obtain ⟨-, blanks, text, hsplit, htext, -⟩ := mem_run_line (not_mem_name f) hm
            rw [← List.append_assoc, hne] at hsplit
            have hnil := (List.append_eq_nil_iff.mp hsplit.symm).2
            exact htext (List.append_eq_nil_iff.mp hnil).1
          · rw [namedText, if_neg hne]
            exact search_lastBlank f hname hvalue hne
        | cons g fields =>
          rw [namedText, hvalue]
          exact search_nextLine f g fields hname hvalue
    · rw [if_neg hname]
      refine hskip (List.eq_nil_iff_forall_not_mem.mpr fun m hm => ?_)
      rw [fieldText_append] at hm
      exact hname (mem_run_line (not_mem_name f) hm).1

/-! ### What the patterns accept -/

/-- The scheme and matches of both parts are a match of the pattern. -/
theorem mem_run_httpsPattern_of {host path : Regex} {s a rest : Bytes} {caps caps' : Captures}
    (hs : s = lit "https://" ++ (a ++ rest)) (hhost : (rest, caps) ∈ host.run s (a ++ rest))
    (hpath : ([], caps') ∈ path.run s rest) :
    ([], caps ++ caps') ∈ (httpsPattern host path).run s s := by
  have hend : ([], caps') ∈ Regex.run s (.seq path .eol) rest :=
    Regex.mem_run_seq.mpr ⟨_, hpath, _, Regex.mem_run_eol.mpr ⟨rfl, rfl⟩, by simp⟩
  have hrest : ([], caps ++ caps') ∈ Regex.run s (.seq host (.seq path .eol)) (a ++ rest) :=
    Regex.mem_run_seq.mpr ⟨_, hhost, _, hend, rfl⟩
  have hmark : (a ++ rest, []) ∈ Regex.run s (.literal (lit "https://")) s :=
    Regex.mem_run_literal.mpr ⟨hs, rfl⟩
  refine Regex.mem_run_seq.mpr ⟨_, Regex.mem_run_bol.mpr ⟨rfl, rfl⟩, ([], caps ++ caps'), ?_, rfl⟩
  exact Regex.mem_run_seq.mpr ⟨_, hmark, _, hrest, rfl⟩

/-- A text without a slash is a matched host. -/
theorem mem_run_hostPattern_of {subject host : Bytes} (hne : host ≠ []) (hslash : 0x2F ∉ host)
    (rest : Bytes) : (rest, []) ∈ hostPattern.run subject (host ++ rest) := by
  refine Regex.mem_run_plus.mpr ⟨host, rfl, hne, fun x hx => ?_, rfl⟩
  simp only [bne_iff_ne, ne_eq]
  rintro rfl
  exact hslash hx

/-- And the group captures it. -/
theorem mem_run_hostGroup_of {subject host : Bytes} (hne : host ≠ []) (hslash : 0x2F ∉ host)
    (rest : Bytes) :
    (rest, [(1, host)]) ∈ Regex.run subject (.group 1 hostPattern) (host ++ rest) :=
  Regex.mem_run_group.mpr ⟨_, mem_run_hostPattern_of hne hslash rest, host, rfl, rfl⟩

/-- A matched path is captured whole. -/
theorem mem_run_pathGroup_of {i : Nat} {subject path : Bytes} (h : MatchedPath path) :
    ([], [(i, path)]) ∈ Regex.run subject (.group i pathPattern) path := by
  obtain ⟨hhead, hdot⟩ := h
  cases path with
  | nil => cases hhead
  | cons c q =>
    cases hhead
    have hrest : ([], []) ∈ Regex.run subject (.star Regex.dot) q :=
      Regex.mem_run_star.mpr ⟨q, by simp, fun x hx => hdot x (List.mem_cons_of_mem _ hx), rfl⟩
    have hpath : ([], []) ∈ pathPattern.run subject (0x2F :: q) :=
      Regex.mem_run_seq.mpr ⟨(q, []), Regex.mem_run_literal.mpr ⟨rfl, rfl⟩, _, hrest, rfl⟩
    exact Regex.mem_run_group.mpr ⟨_, hpath, 0x2F :: q, by simp, rfl⟩

/-- An absolute URL is the scheme, the host and the rest. -/
theorem Absolute.eq_append {s host rest : Bytes} (h : Absolute s host rest) :
    s = lit "https://" ++ (host ++ rest) :=
  h.eq.trans (List.append_assoc _ _ _)

/-- The host that `[^/]+` matches is not empty. -/
theorem host_ne_of_httpsPattern {path : Regex} {s host rest : Bytes} {caps : Captures}
    (h : ([], caps) ∈ (httpsPattern (.group 1 hostPattern) path).run s s)
    (habs : Absolute s host rest) : host ≠ [] := by
  obtain ⟨t, rfl, m, hm, -⟩ := mem_run_httpsPattern h
  obtain ⟨m', hm', -⟩ := Regex.mem_run_group.mp hm
  obtain ⟨a, rfl, hne, hall, -⟩ := Regex.mem_run_plus.mp hm'
  obtain ⟨c, a', rfl⟩ := List.exists_cons_of_ne_nil hne
  have hsplit : c :: a' ++ m'.1 = host ++ rest := List.append_cancel_left habs.eq_append
  rintro rfl
  have hc : c = 0x2F := habs.rooted c (by rw [← List.nil_append rest, ← hsplit]; rfl)
  exact absurd (hall c List.mem_cons_self) (by rw [hc]; decide)

/-- A watch URL of the form is taken apart into its host and its path. -/
theorem extract_of_absolute {watchUrl host path : Bytes} (habs : Absolute watchUrl host path)
    (hne : host ≠ []) (hpath : MatchedPath path) :
    extractHostFromWatchUrl watchUrl = .ok host ∧ extractPathFromWatchUrl watchUrl = .ok path := by
  obtain ⟨caps, hmatch⟩ := isSome_regexMatch (mem_run_httpsPattern_of
    habs.eq_append (mem_run_hostGroup_of hne habs.slash_notMem path)
    (mem_run_pathGroup_of (i := 2) hpath))
  have hmatch' : regexMatch watchUrlPattern watchUrl = some caps := hmatch
  obtain ⟨host', path', habs', -, rfl⟩ := captures_of_watchUrlPattern hmatch'
  obtain ⟨rfl, rfl⟩ := habs.unique habs'
  constructor
  · rw [extractHostFromWatchUrl, watchUrlGroup, hmatch']
    rfl
  · rw [extractPathFromWatchUrl, watchUrlGroup, hmatch']
    rfl

/-- The path of an absolute reference to `base.js`. -/
theorem jsPathOf_absolute {jsUrl host path : Bytes} (habs : Absolute jsUrl host path)
    (hne : host ≠ []) (hpath : MatchedPath path) : jsPathOf jsUrl = .ok path := by
  obtain ⟨caps, hmatch⟩ := isSome_regexMatch (mem_run_httpsPattern_of
    habs.eq_append (mem_run_hostPattern_of hne habs.slash_notMem path)
    (mem_run_pathGroup_of (i := 1) hpath))
  have hmatch' : regexMatch absoluteJsPattern jsUrl = some caps := hmatch
  obtain ⟨host', path', habs', -, rfl⟩ := captures_of_absoluteJsPattern hmatch'
  obtain ⟨rfl, rfl⟩ := habs.unique habs'
  rw [jsPathOf, if_pos habs.isPrefixOf, hmatch']
  rfl

/-- A `Location` is followed exactly when it is `https://`, a host that is not empty and a path or
nothing, or when it starts with a slash. -/
theorem redirectTarget_eq_some_iff {host loc host' path' : Bytes} :
    redirectTarget host loc = some (host', path') ↔
      (∃ rest, Absolute loc host' rest ∧ host' ≠ [] ∧ (rest = [] ∨ MatchedPath rest) ∧
        path' = if rest = [] then [0x2F] else rest) ∨
      (loc.head? = some 0x2F ∧ host' = host ∧ path' = loc) := by
  constructor
  · intro h
    rcases redirectTarget_cases h with ⟨rest, habs, hrest, hpath⟩ | ⟨-, hhead, hhost, hpath⟩
    · refine Or.inl ⟨rest, habs, ?_, hrest, hpath⟩
      rw [redirectTarget, if_pos habs.isPrefixOf] at h
      obtain ⟨caps, hmatch, -⟩ := Option.map_eq_some_iff.mp h
      exact host_ne_of_httpsPattern (exists_run_of_regexMatch hmatch) habs
    · exact Or.inr ⟨hhead, hhost, hpath⟩
  · rintro (⟨rest, habs, hne, hrest, rfl⟩ | ⟨hhead, rfl, rfl⟩)
    · have hway : ∃ caps, ([], caps) ∈ redirectPattern.run loc loc := by
        have hhost := @mem_run_hostGroup_of loc host' hne habs.slash_notMem rest
        rcases hrest with rfl | hmatched
        · exact ⟨_, mem_run_httpsPattern_of habs.eq_append hhost (Regex.mem_run_opt.mpr (Or.inr rfl))⟩
        · exact ⟨_, mem_run_httpsPattern_of habs.eq_append hhost
            (Regex.mem_run_opt.mpr (Or.inl (mem_run_pathGroup_of hmatched)))⟩
      obtain ⟨caps₀, hway⟩ := hway
      obtain ⟨caps, hmatch⟩ := isSome_regexMatch hway
      obtain ⟨host₁, rest₁, habs₁, hcaps⟩ := captures_of_redirectPattern hmatch
      obtain ⟨rfl, rfl⟩ := habs.unique habs₁
      rw [redirectTarget, if_pos habs.isPrefixOf, hmatch]
      rcases hcaps with ⟨rfl, rfl⟩ | ⟨hmatched, rfl⟩
      · rfl
      · have hne' : rest ≠ [] := by
          rintro rfl
          cases hmatched.1
        rw [if_neg hne']
        rfl
    · have hhttps : ¬ (lit "https://").isPrefixOf path' = true := by
        intro hprefix
        obtain ⟨t, rfl⟩ := List.isPrefixOf_iff_prefix.mp hprefix
        cases hhead
      rw [redirectTarget, if_neg hhttps, if_pos hhead]

/-! ### Which replies are followed -/

/-- The `Location` of a response, by its status and its fields. -/
theorem locationOf_responseWith (h : ResponseHead) (hline : lit "HTTP/" <+: h.statusLine)
    (body : Bytes) :
    locationOf strip (responseWith h body) =
      if 300 ≤ readStatus h.text ∧ readStatus h.text < 400 then locationText h.fields else none := by
  have hsearch : (regexSearch locationPattern h.text).map
      (fun m => strip ((m.lookup 1).getD [])) = locationText h.fields := by
    refine search_fields h.fields h.statusLine_line (Nat.le_refl _) fun _ hfound => ?_
    -- A status line starts with another letter.
    obtain ⟨rest, hrest⟩ := hline
    rw [← hrest] at hfound
    exact absurd (List.cons_prefix_cons.mp hfound).1 (by decide)
  unfold locationOf
  show (if 300 ≤ readStatus h.text ∧ readStatus h.text < 400 then _ else none) = _
  rw [← hsearch]
  rfl

/-- A reply is read unless its body is taken for chunked and does not end. -/
theorem readHttpResponse_render_eq_ok {h : ResponseHead} {body : Bytes} {r : HttpResponse}
    (hread : readHttpResponse strip (h.render body) = some (.ok r)) :
    ∃ decoded, r = responseWith h decoded := by
  obtain ⟨hchunked, hplain⟩ := readHttpResponse_render strip h body
  by_cases hannounces : Announces h
  · rw [hchunked hannounces] at hread
    obtain ⟨decoded, -, hr⟩ := Option.map_eq_some_iff.mp hread
    exact ⟨decoded, (Except.ok.inj hr).symm⟩
  · rw [hplain hannounces] at hread
    exact ⟨body, (Except.ok.inj (Option.some.inj hread)).symm⟩

/-- A reply is read if its body is not one on which the chunk loop is endless. -/
theorem exists_readHttpResponse_render {h : ResponseHead} {body : Bytes}
    (hends : Announces h → decodeChunked strip body ≠ none) :
    ∃ decoded, readHttpResponse strip (h.render body) = some (.ok (responseWith h decoded)) := by
  obtain ⟨hchunked, hplain⟩ := readHttpResponse_render strip h body
  by_cases hannounces : Announces h
  · obtain ⟨decoded, hdecoded⟩ := Option.ne_none_iff_exists'.mp (hends hannounces)
    exact ⟨decoded, by rw [hchunked hannounces, hdecoded]; rfl⟩
  · exact ⟨body, hplain hannounces⟩

/-- A reply is followed exactly when its body can be read, its status is one of redirection, and
the `Location` its fields give is an https URL or starts with a slash; and this says to where. -/
theorem reply_followed_iff (h : ResponseHead) (hline : lit "HTTP/" <+: h.statusLine)
    (body host loc host' path' : Bytes) :
    afterOutcome strip host (.reply (h.render body)) = .inr (loc, host', path') ↔
      (Announces h → decodeChunked strip body ≠ none) ∧
      300 ≤ readStatus h.text ∧ readStatus h.text < 400 ∧ locationText h.fields = some loc ∧
      ((∃ rest, Absolute loc host' rest ∧ host' ≠ [] ∧ (rest = [] ∨ MatchedPath rest) ∧
          path' = if rest = [] then [0x2F] else rest) ∨
        (loc.head? = some 0x2F ∧ host' = host ∧ path' = loc)) := by
  rw [← redirectTarget_eq_some_iff]
  constructor
  · intro hafter
    obtain ⟨resp, r, hreply, hread, hloc, htarget⟩ := afterOutcome_eq_inr hafter
    cases hreply
    obtain ⟨decoded, rfl⟩ := readHttpResponse_render_eq_ok hread
    rw [locationOf_responseWith h hline] at hloc
    obtain ⟨hstatus, hloc⟩ := Option.ite_none_right_eq_some.mp hloc
    refine ⟨fun hannounces hnone => ?_, hstatus.1, hstatus.2, hloc, htarget⟩
    rw [(readHttpResponse_render strip h body).1 hannounces, hnone] at hread
    cases hread
  · rintro ⟨hends, hlow, hhigh, hloc, htarget⟩
    obtain ⟨decoded, hread⟩ := exists_readHttpResponse_render hends
    have hlocation : locationOf strip (responseWith h decoded) = some loc := by
      rw [locationOf_responseWith h hline, if_pos ⟨hlow, hhigh⟩, hloc]
    simp only [afterOutcome, hread, hlocation, htarget]

/-- No blanks are blanks. -/
theorem isBlank_of_mem_nil : ∀ x ∈ ([] : Bytes), isBlank x = true := by decide

/-- A redirect whose `Location` has no value, with a field behind it whose name is `https`. -/
def emptyLocationHead : ResponseHead where
  statusLine := lit "HTTP/1.1 302 Found"
  fields := [{
      name := lit "Location"
      blanks := []
      value := []
      name_ne_nil := by decide
      isTchar_name := by decide
      isBlank_blanks := isBlank_of_mem_nil
      value_line := by decide
      value_head := by decide },
    { name := lit "https"
      blanks := []
      value := lit "//h/x"
      name_ne_nil := by decide
      isTchar_name := by decide
      isBlank_blanks := isBlank_of_mem_nil
      value_line := by decide
      value_head := by decide }]
  statusLine_line := by decide

/-- The line `https://h/x` behind an empty `Location` is followed. -/
theorem reply_followed_emptyLocation :
    emptyLocationHead.text = lit "HTTP/1.1 302 Found\r\nLocation:\r\nhttps://h/x" ∧
      afterOutcome strip (lit "www") (.reply (emptyLocationHead.render [])) =
        .inr (lit "https://h/x", lit "h", lit "/x") := by
  have hplain : ¬ Announces emptyLocationHead := by
    rw [← isSome_search_iff]
    decide
  have habs : Absolute (lit "https://h/x") (lit "h") (lit "/x") :=
    ⟨by decide, by decide, fun x hx => by cases hx; rfl⟩
  have hpath : MatchedPath (lit "/x") := ⟨rfl, by decide⟩
  refine ⟨by decide, (reply_followed_iff emptyLocationHead (by decide) [] _ _ _ _).mpr ?_⟩
  exact ⟨fun h => absurd h hplain, by decide, by decide, by decide,
    Or.inl ⟨lit "/x", habs, by decide, Or.inr hpath, by decide⟩⟩

end EjsBoundary.Proofs
