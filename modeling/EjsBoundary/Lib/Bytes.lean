import Mathlib.Data.List.DropRight
import Mathlib.Tactic

/-!
# `EjsBoundary.Lib.Bytes`: byte strings

A byte string is the list of its bytes. This module gives the few `std::string` and
`std::istream` operations a parser of text protocols is written with, and the lemmas
that read them as list equations:

* `findByte` is the first position of a byte. `findByte_cases` turns a call into the
  decomposition `a ++ c :: b` with `c ∉ a`, so a proof never counts positions.
* `getlines` is the list of lines a `getline` loop with a custom delimiter visits. It
  differs from `List.splitOn` in one way: an empty last line is not visited.
  `getlines_filter_nonempty` says that this is the only difference.
* `strip` removes white space at both ends.
-/

set_option autoImplicit false

namespace EjsBoundary.Lib

/-- A byte string: the contents of a `std::string`. -/
abbrev Bytes := List UInt8

/-- The bytes of a source literal, UTF-8 encoded as in the compiled program. -/
def lit (s : String) : Bytes := s.toUTF8.data.toList

/-- A statement about the bytes of a text is decided by going through the text, not through all
bytes there are. -/
instance {p : UInt8 → Prop} [DecidablePred p] (s : Bytes) : Decidable (∀ x ∈ s, p x) :=
  List.decidableBAll p s

instance decidableForallMemByte {p : UInt8 → Prop} [DecidablePred p] (o : Option UInt8) :
    Decidable (∀ x ∈ o, p x) :=
  Option.decidableForallMem o

/-- A statement about every byte is a finite check, one digit after the other. -/
theorem forall_byte {p : UInt8 → Prop} (h : ∀ hi < 16, ∀ lo < 16, p (UInt8.ofNat (16 * hi + lo)))
    (c : UInt8) : p c := by
  have hlt : c.toNat < 256 := UInt8.toNat_lt_size c
  have hc := h (c.toNat / 16) (by omega) (c.toNat % 16) (by omega)
  rwa [Nat.div_add_mod, UInt8.ofNat_toNat] at hc

/-! ### Searching for a byte -/

/-- The first position of `c` in `s`, `none` for `npos`. -/
def findByte (c : UInt8) (s : Bytes) : Option Nat := s.findIdx? (· == c)

/-- A byte that does not occur is not found. -/
theorem findByte_eq_none {c : UInt8} {s : Bytes} (h : c ∉ s) : findByte c s = none := by
  rw [findByte, List.findIdx?_eq_none_iff]
  intro x hx
  simp only [beq_eq_false_iff_ne, ne_eq]
  rintro rfl
  exact h hx

/-- The first occurrence is found at the length of the text before it. -/
theorem findByte_append_cons {c : UInt8} {a : Bytes} (b : Bytes) (h : c ∉ a) :
    findByte c (a ++ c :: b) = some a.length := by
  unfold findByte
  induction a with
  | nil => simp [List.findIdx?_cons]
  | cons x a ih =>
    have hx : (x == c) = false := by
      simp only [beq_eq_false_iff_ne, ne_eq]
      rintro rfl
      exact h List.mem_cons_self
    have ha : c ∉ a := fun hc => h (List.mem_cons_of_mem x hc)
    rw [List.cons_append, List.findIdx?_cons, hx, ih ha]
    rfl

/-- Every call of `findByte` either finds nothing, or cuts the text at the first
occurrence. -/
theorem findByte_cases (c : UInt8) (s : Bytes) :
    (c ∉ s ∧ findByte c s = none) ∨
    ∃ a b, s = a ++ c :: b ∧ c ∉ a ∧ findByte c s = some a.length := by
  by_cases h : c ∈ s
  · obtain ⟨a, b, hs, ha⟩ := List.eq_append_cons_of_mem h
    exact Or.inr ⟨a, b, hs, ha, by rw [hs]; exact findByte_append_cons b ha⟩
  · exact Or.inl ⟨h, findByte_eq_none h⟩

/-- Cutting with `takeWhile` and `dropWhile` at a place where the predicate first fails. -/
theorem span_append {p : UInt8 → Bool} {a b : Bytes} (ha : ∀ x ∈ a, p x = true)
    (hb : ∀ x ∈ b.head?, p x = false) :
    (a ++ b).takeWhile p = a ∧ (a ++ b).dropWhile p = b := by
  rw [List.takeWhile_append_of_pos ha, List.dropWhile_append_of_pos ha]
  cases b with
  | nil => simp
  | cons x b => simp [hb x rfl]

/-- Cutting with `takeWhile` and `dropWhile` when the byte does not occur. -/
theorem span_ne_of_not_mem {c : UInt8} {s : Bytes} (h : c ∉ s) :
    s.takeWhile (· ≠ c) = s ∧ s.dropWhile (· ≠ c) = [] := by
  have hne : ∀ x ∈ s, decide (x ≠ c) = true := fun x hx => by
    simpa using fun heq : x = c => h (heq ▸ hx)
  exact ⟨List.takeWhile_eq_self_iff.mpr hne, List.dropWhile_eq_nil_iff.mpr hne⟩

/-- Cutting with `takeWhile` and `dropWhile` at the first occurrence. -/
theorem span_ne_append_cons {c : UInt8} {a : Bytes} (b : Bytes) (h : c ∉ a) :
    (a ++ c :: b).takeWhile (· ≠ c) = a ∧ (a ++ c :: b).dropWhile (· ≠ c) = c :: b := by
  have hne : ∀ x ∈ a, decide (x ≠ c) = true := fun x hx => by
    simpa using fun heq : x = c => h (heq ▸ hx)
  rw [List.takeWhile_append_of_pos hne, List.dropWhile_append_of_pos hne]
  simp

/-! ### Searching for a text -/

/-- The first position of `text` in `s` from `i` on: `s.find(text, i)`. -/
def findText (text s : Bytes) (i : Nat) : Option Nat :=
  ((s.drop i).tails.findIdx? fun t => text.isPrefixOf t).map (i + ·)

/-- A search from a position is a search in what follows it. -/
theorem findText_drop (text s : Bytes) (i : Nat) :
    findText text s i = (findText text (s.drop i) 0).map (i + ·) := by
  unfold findText
  rw [List.drop_zero, Option.map_map]
  congr 1
  funext e
  simp

/-- Where a search finds the text, the text stands. -/
theorem prefix_of_findText {text s : Bytes} {i e : Nat} (h : findText text s i = some e) :
    i ≤ e ∧ text <+: s.drop e := by
  obtain ⟨k, hk, rfl⟩ := Option.map_eq_some_iff.mp h
  obtain ⟨hlt, hp, -⟩ := List.findIdx?_eq_some_iff_getElem.mp hk
  rw [List.getElem_tails, List.isPrefixOf_iff_prefix, List.drop_drop] at hp
  exact ⟨Nat.le_add_right i k, hp⟩

/-- A search finds something exactly in a text that contains it. -/
theorem isSome_findText_iff (text s : Bytes) :
    (findText text s 0).isSome = true ↔ text <:+: s := by
  unfold findText
  rw [List.drop_zero, Option.isSome_map, List.findIdx?_isSome, List.any_eq_true]
  simp only [List.mem_tails, List.isPrefixOf_iff_prefix, List.infix_iff_prefix_suffix,
    and_comm]

/-- A text with a byte that does not occur is not found. -/
theorem findText_eq_none {text s : Bytes} {c : UInt8} (hc : c ∈ text) (h : c ∉ s) :
    findText text s 0 = none := by
  rw [← Option.not_isSome_iff_eq_none, isSome_findText_iff]
  exact fun hocc => h (hocc.subset hc)

/-- A search in a text goes byte by byte. -/
theorem findText_cons (text : Bytes) (x : UInt8) (s : Bytes) :
    findText text (x :: s) 0 =
      if text.isPrefixOf (x :: s) then some 0 else (findText text s 0).map (· + 1) := by
  unfold findText
  rw [List.drop_zero, List.drop_zero, List.tails_cons, List.findIdx?_cons]
  split
  · rfl
  · rw [Option.map_map, Option.map_map]
    congr 1

/-- A search passes over a text where the searched one starts nowhere. -/
theorem findText_skip {text a b : Bytes} (h : ∀ k < a.length, ¬ text <+: (a ++ b).drop k) :
    findText text (a ++ b) 0 = (findText text b 0).map (a.length + ·) := by
  induction a with
  | nil => simp
  | cons x a ih =>
    have hhead : ¬ text.isPrefixOf (x :: (a ++ b)) = true := by
      rw [List.isPrefixOf_iff_prefix]
      exact h 0 (by simp)
    rw [List.cons_append, findText_cons, if_neg hhead,
      ih fun k hk => h (k + 1) (Nat.succ_lt_succ hk), Option.map_map]
    congr 1
    funext e
    simp only [Function.comp_apply, List.length_cons]
    omega

/-- The first occurrence is found behind bytes that cannot start the text. -/
theorem findText_append {c : UInt8} {text a : Bytes} (b : Bytes) (h : c ∉ a) :
    findText (c :: text) (a ++ ((c :: text) ++ b)) 0 = some a.length := by
  have hzero : findText (c :: text) ((c :: text) ++ b) 0 = some 0 := by
    rw [List.cons_append, findText_cons, if_pos (by simp)]
  rw [findText_skip, hzero]
  · rfl
  · intro k hk hfound
    rw [List.drop_append_of_le_length (Nat.le_of_lt hk), List.drop_eq_getElem_cons hk,
      List.cons_append, List.cons_prefix_cons] at hfound
    exact h (hfound.1 ▸ List.getElem_mem hk)

/-- `findText` gives the first position from `i` on where the text stands. -/
theorem findText_eq_some_iff {text s : Bytes} (hne : text ≠ []) {i e : Nat} :
    findText text s i = some e ↔
      i ≤ e ∧ text <+: s.drop e ∧ ∀ k, i ≤ k → k < e → ¬ text <+: s.drop k := by
  unfold findText
  constructor
  · intro h
    obtain ⟨k, hk, rfl⟩ := Option.map_eq_some_iff.mp h
    obtain ⟨hlt, hp, hmin⟩ := List.findIdx?_eq_some_iff_getElem.mp hk
    rw [List.getElem_tails, List.isPrefixOf_iff_prefix, List.drop_drop] at hp
    refine ⟨Nat.le_add_right i k, hp, fun j hij hjk hfound => ?_⟩
    obtain ⟨m, rfl⟩ := Nat.exists_eq_add_of_le hij
    refine hmin m (by omega) ?_
    rwa [List.getElem_tails, List.isPrefixOf_iff_prefix, List.drop_drop]
  · rintro ⟨hie, hfound, hmin⟩
    obtain ⟨k, rfl⟩ := Nat.exists_eq_add_of_le hie
    have hlt : i + k < s.length := by
      by_contra hge
      rw [List.drop_eq_nil_of_le (by omega)] at hfound
      exact hne (List.prefix_nil.mp hfound)
    refine Option.map_eq_some_iff.mpr ⟨k, List.findIdx?_eq_some_iff_getElem.mpr ⟨?_, ?_, ?_⟩, rfl⟩
    · rw [List.length_tails, List.length_drop]
      omega
    · rwa [List.getElem_tails, List.isPrefixOf_iff_prefix, List.drop_drop]
    · intro j hj
      rw [List.getElem_tails, List.isPrefixOf_iff_prefix, List.drop_drop]
      exact hmin (i + j) (by omega) (by omega)

/-- Bytes that lie within the first `n` are the same there. -/
theorem take_drop_take {s : Bytes} {n i len : Nat} (h : i + len ≤ n) :
    ((s.take n).drop i).take len = (s.drop i).take len := by
  rw [List.drop_take, List.take_take, Nat.min_eq_left (by omega)]

/-- A text stands at a position of the first `n` bytes when it stands there and ends within them. -/
theorem prefix_drop_take_iff {text s : Bytes} {n i : Nat} (hne : text ≠ []) :
    text <+: (s.take n).drop i ↔ text <+: s.drop i ∧ i + text.length ≤ n := by
  have hpos := List.length_pos_iff.mpr hne
  rw [List.drop_take, List.prefix_take_iff]
  constructor
  · rintro ⟨hfound, hle⟩
    exact ⟨hfound, by omega⟩
  · rintro ⟨hfound, hle⟩
    exact ⟨hfound, by omega⟩

/-- What is found in the first bytes is found in the whole. -/
theorem findText_of_take {text s : Bytes} (hne : text ≠ []) {n i e : Nat}
    (h : findText text (s.take n) i = some e) :
    findText text s i = some e ∧ e + text.length ≤ n := by
  obtain ⟨hie, hfound, hmin⟩ := (findText_eq_some_iff hne).mp h
  obtain ⟨hfound, hle⟩ := (prefix_drop_take_iff hne).mp hfound
  refine ⟨(findText_eq_some_iff hne).mpr ⟨hie, hfound, fun k hik hke hk => ?_⟩, hle⟩
  exact hmin k hik hke ((prefix_drop_take_iff hne).mpr ⟨hk, by omega⟩)

/-- What is found in the whole, and ends within the first bytes, is found there. -/
theorem findText_take {text s : Bytes} (hne : text ≠ []) {n i e : Nat}
    (h : findText text s i = some e) (hle : e + text.length ≤ n) :
    findText text (s.take n) i = some e := by
  obtain ⟨hie, hfound, hmin⟩ := (findText_eq_some_iff hne).mp h
  refine (findText_eq_some_iff hne).mpr ⟨hie, (prefix_drop_take_iff hne).mpr ⟨hfound, hle⟩, ?_⟩
  intro k hik hke hk
  exact hmin k hik hke ((prefix_drop_take_iff hne).mp hk).1

/-! ### Occurrences and separators -/

/-- The first separator cuts a text in only one way. -/
theorem append_cons_inj {c : UInt8} {a a' b b' : Bytes} (ha : c ∉ a) (ha' : c ∉ a')
    (h : a ++ c :: b = a' ++ c :: b') : a = a' ∧ b = b' := by
  obtain ⟨htake, hdrop⟩ := span_ne_append_cons b ha
  obtain ⟨htake', hdrop'⟩ := span_ne_append_cons b' ha'
  rw [h] at htake hdrop
  exact ⟨htake.symm.trans htake', (List.cons.inj (hdrop.symm.trans hdrop')).2⟩

/-- A text without the separator occurs on one of its sides. -/
theorem infix_append_cons_iff {c : UInt8} {text : Bytes} (h : c ∉ text) (a b : Bytes) :
    text <:+: a ++ c :: b ↔ text <:+: a ∨ text <:+: b := by
  constructor
  · intro ⟨s, t, heq⟩
    -- Where the text ends: within `a`, or behind the separator.
    rcases List.append_eq_append_iff.mp heq with ⟨a', ha, -⟩ | ⟨d, hd, ht⟩
    · exact Or.inl ⟨s, a', ha.symm⟩
    · cases d with
      | nil => exact Or.inl ⟨s, [], by rw [hd]; simp⟩
      | cons x d =>
        rw [List.cons_append, List.cons.injEq] at ht
        obtain ⟨rfl, rfl⟩ := ht
        rcases List.append_eq_append_iff.mp hd with ⟨a', -, htext⟩ | ⟨e, -, he⟩
        · exact absurd (by rw [htext]; simp) h
        · cases e with
          | nil =>
            rw [List.nil_append] at he
            exact absurd (by rw [← he]; exact List.mem_cons_self) h
          | cons y e =>
            rw [List.cons_append, List.cons.injEq] at he
            exact Or.inr ⟨e, t, by rw [he.2]⟩
  · rintro (hocc | hocc)
    · exact hocc.trans (List.prefix_append a (c :: b)).isInfix
    · exact hocc.trans ((List.suffix_cons c b).trans (List.suffix_append a (c :: b))).isInfix

/-- A text with the separator in it occurs at the first separator, or behind it. -/
theorem infix_cut_iff {c : UInt8} {u v a b : Bytes} (hu : c ∉ u) (ha : c ∉ a) :
    u ++ c :: v <:+: a ++ c :: b ↔ (u <:+ a ∧ v <+: b) ∨ u ++ c :: v <:+: b := by
  constructor
  · intro ⟨s, t, heq⟩
    by_cases hs : c ∈ s
    · obtain ⟨s₁, s₂, rfl, hs₁⟩ := List.eq_append_cons_of_mem hs
      rw [List.append_assoc, List.append_assoc, List.cons_append, ← List.append_assoc] at heq
      exact Or.inr ⟨s₂, t, (append_cons_inj hs₁ ha heq).2⟩
    · have hsu : c ∉ s ++ u := by simp [hs, hu]
      have heq' : (s ++ u) ++ c :: (v ++ t) = a ++ c :: b := by rw [← heq]; simp
      obtain ⟨hfst, hsnd⟩ := append_cons_inj hsu ha heq'
      exact Or.inl ⟨⟨s, hfst⟩, ⟨t, hsnd⟩⟩
  · rintro (⟨⟨s, rfl⟩, ⟨t, rfl⟩⟩ | hocc)
    · exact ⟨s, t, by simp⟩
    · exact hocc.trans ((List.suffix_cons c b).trans (List.suffix_append a (c :: b))).isInfix

/-- Bytes that cannot start a text may be passed over. -/
theorem infix_append_of_not_mem {c : UInt8} {text a : Bytes} (h : c ∉ a) (b : Bytes) :
    c :: text <:+: a ++ b ↔ c :: text <:+: b := by
  induction a with
  | nil => rfl
  | cons x a ih =>
    rw [List.cons_append, List.infix_cons_iff, ih fun hc => h (List.mem_cons_of_mem x hc),
      List.cons_prefix_cons]
    constructor
    · rintro (⟨rfl, -⟩ | hocc)
      · exact absurd List.mem_cons_self h
      · exact hocc
    · exact Or.inr

/-! ### Lines -/

/-- The lines a loop `while (std::getline(ss, line, c))` visits. Reaching the end of the
stream with nothing extracted ends the loop, so the empty line after a trailing delimiter
is not visited. -/
def getlines (c : UInt8) : Bytes → List Bytes
  | [] => []
  | b :: bs =>
    if b = c then [] :: getlines c bs
    else match getlines c bs with
      | [] => [[b]]
      | line :: lines => (b :: line) :: lines

/-- A line without a delimiter, then a delimiter: the loop visits the line and goes on
after the delimiter. -/
theorem getlines_append_cons {c : UInt8} {a : Bytes} (b : Bytes) (h : c ∉ a) :
    getlines c (a ++ c :: b) = a :: getlines c b := by
  induction a with
  | nil => simp [getlines]
  | cons x a ih =>
    have hx : x ≠ c := by
      rintro rfl
      exact h List.mem_cons_self
    have ha : c ∉ a := fun hc => h (List.mem_cons_of_mem x hc)
    rw [List.cons_append, getlines, if_neg hx, ih ha]

/-- A last line without a delimiter is visited unless it is empty. -/
theorem getlines_of_not_mem {c : UInt8} {a : Bytes} (h : c ∉ a) (hne : a ≠ []) :
    getlines c a = [a] := by
  induction a with
  | nil => exact absurd rfl hne
  | cons x a ih =>
    have hx : x ≠ c := by
      rintro rfl
      exact h List.mem_cons_self
    have ha : c ∉ a := fun hc => h (List.mem_cons_of_mem x hc)
    cases a with
    | nil => simp [getlines, hx]
    | cons y a => rw [getlines, if_neg hx, ih ha (by simp)]

/-- Joining non-empty lines with the delimiter and reading them back gives the lines. -/
theorem getlines_intercalate {c : UInt8} :
    ∀ (lines : List Bytes), (∀ l ∈ lines, c ∉ l) → (∀ l ∈ lines, l ≠ []) →
      getlines c ([c].intercalate lines) = lines := by
  intro lines
  induction lines with
  | nil => intro _ _; rfl
  | cons l lines ih =>
    intro hc hne
    have hl : c ∉ l := hc l List.mem_cons_self
    cases lines with
    | nil =>
      rw [List.intercalate_singleton]
      exact getlines_of_not_mem hl (hne l List.mem_cons_self)
    | cons l' lines =>
      have hrec := ih (fun x hx => hc x (List.mem_cons_of_mem l hx))
        (fun x hx => hne x (List.mem_cons_of_mem l hx))
      rw [List.intercalate_cons_cons, List.append_assoc, List.singleton_append,
        getlines_append_cons _ hl, hrec]

/-- Up to empty lines, the `getline` loop visits the pieces of `List.splitOn`. -/
theorem getlines_filter_nonempty (c : UInt8) (s : Bytes) :
    (getlines c s).filter (fun l => !l.isEmpty) =
      (s.splitOn c).filter (fun l => !l.isEmpty) := by
  -- Strong induction on the length: `findByte_cases` peels one line at a time.
  induction hn : s.length using Nat.strong_induction_on generalizing s with
  | _ n ih =>
    subst hn
    rcases findByte_cases c s with ⟨hc, -⟩ | ⟨a, b, rfl, ha, -⟩
    · rw [List.splitOn_eq_singleton hc]
      cases s with
      | nil => rfl
      | cons x s => rw [getlines_of_not_mem hc (by simp)]
    · rw [getlines_append_cons b ha, List.splitOn_append_cons_self_of_not_mem ha,
        List.filter_cons, List.filter_cons, ih b.length (by simp; omega) b rfl]

/-! ### Classes of bytes -/

/-- `tolower` in the C locale. -/
def toLower (c : UInt8) : UInt8 := if 0x41 ≤ c ∧ c ≤ 0x5A then c + 0x20 else c

/-- The bytes `isspace` accepts in the C locale: space, and the five controls from
horizontal tab to carriage return. -/
def isSpace (c : UInt8) : Bool := c == 0x20 || (0x09 ≤ c && c ≤ 0x0D)

/-- The text without the white space at its two ends. -/
def strip (s : Bytes) : Bytes := (s.dropWhile isSpace).rdropWhile isSpace

/-- Stripping only takes bytes away. -/
theorem mem_of_mem_strip {c : UInt8} {s : Bytes} (h : c ∈ strip s) : c ∈ s :=
  (List.dropWhile_sublist isSpace).subset ((List.rdropWhile_prefix isSpace _).subset h)

/-- A blank before a text without white space is taken off. -/
theorem strip_cons_space {s : Bytes} (h : ∀ x ∈ s, isSpace x = false) : strip (0x20 :: s) = s := by
  have hdrop : (0x20 :: s).dropWhile isSpace = s := by
    rw [List.dropWhile_cons_of_pos (by decide), List.dropWhile_eq_self_iff]
    intro hlen
    rw [h _ (List.getElem_mem hlen)]
    exact Bool.false_ne_true
  rw [strip, hdrop, List.rdropWhile_eq_self_iff]
  intro hne
  rw [h _ (List.getLast_mem hne)]
  exact Bool.false_ne_true

end EjsBoundary.Lib
