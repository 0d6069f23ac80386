import EjsBoundary.Lib.Bytes

/-!
# `EjsBoundary.Lib.Regex`: ECMAScript regular expressions over bytes

The part of `std::regex` (ECMAScript grammar) that matches by backtracking over classes of
bytes. `Regex.run` lists the ways an expression matches at the front of a text, best first, as
the backtracking search of ECMAScript meets them: what is left of the text, and the captures.
`regexMatch` takes the first way that uses up the text, `regexSearch` the first way at the
leftmost position.

Repetition is over a class of bytes (`star`), which is all that a flat pattern needs and makes
`run` structural. Proofs do not follow the order of the list: the `mem_run_*` lemmas say what a
member of it is, and a flat pattern leaves little to choose.
-/

set_option autoImplicit false

namespace EjsBoundary.Lib

/-- A regular expression. -/
inductive Regex where
  | eps
  | byte (p : UInt8 → Bool)
  | star (p : UInt8 → Bool)
  | seq (a b : Regex)
  | alt (a b : Regex)
  | opt (a : Regex)
  | group (i : Nat) (a : Regex)
  | bol
  | eol

/-- The captures of a match, by the number of the group. -/
abbrev Captures := List (Nat × Bytes)

namespace Regex

/-- One or more bytes of a class. -/
def plus (p : UInt8 → Bool) : Regex := .seq (.byte p) (.star p)

/-- The bytes of `s`, each as `same` compares it. -/
def literalBy (same : UInt8 → UInt8 → Bool) (s : Bytes) : Regex :=
  s.foldr (fun c r => .seq (.byte fun x => same c x) r) .eps

/-- The bytes of `s`. -/
def literal (s : Bytes) : Regex := literalBy (fun c x => x == c) s

/-- `.`: any byte but a line terminator. -/
def dot (c : UInt8) : Bool := c != 0x0A && c != 0x0D

/-- What a greedy run over a class can leave, the longest run first. -/
def starRests (p : UInt8 → Bool) : Bytes → List Bytes
  | [] => [[]]
  | c :: s => if p c then starRests p s ++ [c :: s] else [c :: s]

/-- The ways to match at the front of `s`, best first. `subject` is the whole text: `^` holds
where nothing of it has been used. -/
def run (subject : Bytes) : Regex → Bytes → List (Bytes × Captures)
  | .eps, s => [(s, [])]
  | .byte _, [] => []
  | .byte p, c :: s => if p c then [(s, [])] else []
  | .star p, s => (starRests p s).map fun rest => (rest, [])
  | .seq a b, s => (run subject a s).flatMap fun m =>
      (run subject b m.1).map fun m' => (m'.1, m.2 ++ m'.2)
  | .alt a b, s => run subject a s ++ run subject b s
  | .opt a, s => run subject a s ++ [(s, [])]
  | .group i a, s => (run subject a s).map fun m =>
      (m.1, (i, s.take (s.length - m.1.length)) :: m.2)
  | .bol, s => if s.length = subject.length then [(s, [])] else []
  | .eol, s => if s = [] then [(s, [])] else []

end Regex

/-- `std::regex_match`: the captures of the first way to match all of `s`. -/
def regexMatch (r : Regex) (s : Bytes) : Option Captures :=
  ((r.run s s).find? fun m => m.1 = []).map (·.2)

/-- `std::regex_search`: the captures of the first way at the leftmost position. -/
def regexSearch (r : Regex) (s : Bytes) : Option Captures :=
  s.tails.findSome? fun t => (r.run s t).head?.map (·.2)

/-! ### What a match is -/

namespace Regex

variable {subject : Bytes}

/-- A class uses one byte of it. -/
theorem run_byte_cons (p : UInt8 → Bool) (c : UInt8) (s : Bytes) :
    run subject (.byte p) (c :: s) = if p c then [(s, [])] else [] := rfl

/-- A star tries its rests in their order, and captures nothing. -/
theorem run_star (p : UInt8 → Bool) (s : Bytes) :
    run subject (.star p) s = (starRests p s).map fun rest => (rest, []) := rfl

/-- A sequence runs its second part behind every match of its first. -/
theorem run_seq (a b : Regex) (s : Bytes) :
    run subject (.seq a b) s = (run subject a s).flatMap fun m =>
      (run subject b m.1).map fun m' => (m'.1, m.2 ++ m'.2) := rfl

/-- An option is tried before it is left out. -/
theorem run_opt (a : Regex) (s : Bytes) :
    run subject (.opt a) s = run subject a s ++ [(s, [])] := rfl

/-- A group adds the text its body used to the captures. -/
theorem run_group (i : Nat) (a : Regex) (s : Bytes) :
    run subject (.group i a) s = (run subject a s).map fun m =>
      (m.1, (i, s.take (s.length - m.1.length)) :: m.2) := rfl

/-- `^` matches only where all of the subject is left. -/
theorem run_bol (s : Bytes) :
    run subject .bol s = if s.length = subject.length then [(s, [])] else [] := rfl

/-- `$` matches only where nothing is left. -/
theorem run_eol (s : Bytes) : run subject .eol s = if s = [] then [(s, [])] else [] := rfl

/-- A match of a class is one byte of it. -/
theorem mem_run_byte {p : UInt8 → Bool} {s : Bytes} {m : Bytes × Captures} :
    m ∈ run subject (.byte p) s ↔ ∃ c, p c = true ∧ s = c :: m.1 ∧ m.2 = [] := by
  cases s with
  | nil =>
    show m ∈ [] ↔ _
    simp
  | cons c s =>
    rw [run_byte_cons]
    by_cases hc : p c = true
    · simp only [if_pos hc, List.mem_singleton, List.cons.injEq]
      constructor
      · rintro rfl
        exact ⟨c, hc, ⟨rfl, rfl⟩, rfl⟩
      · rintro ⟨_, -, ⟨-, rfl⟩, hm⟩
        exact Prod.ext rfl hm
    · simp only [if_neg hc, List.not_mem_nil, List.cons.injEq, false_iff]
      rintro ⟨_, hp, ⟨rfl, -⟩, -⟩
      exact hc hp

/-- What a greedy run can leave: any rest behind a run of bytes of the class. -/
theorem mem_starRests {p : UInt8 → Bool} {s rest : Bytes} :
    rest ∈ starRests p s ↔ ∃ a, s = a ++ rest ∧ ∀ x ∈ a, p x = true := by
  induction s with
  | nil =>
    simp only [starRests, List.mem_singleton]
    constructor
    · rintro rfl
      exact ⟨[], rfl, by simp⟩
    · rintro ⟨a, h, -⟩
      exact (List.append_eq_nil_iff.mp h.symm).2
  | cons c s ih =>
    have hnil : c :: s = [] ++ (c :: s) := rfl
    by_cases hc : p c = true
    · rw [starRests, if_pos hc, List.mem_append, ih, List.mem_singleton]
      constructor
      · rintro (⟨a, rfl, ha⟩ | rfl)
        · exact ⟨c :: a, rfl, by simpa [hc] using ha⟩
        · exact ⟨[], hnil, by simp⟩
      · rintro ⟨a, h, ha⟩
        cases a with
        | nil => exact Or.inr h.symm
        | cons x a =>
          obtain ⟨rfl, rfl⟩ := List.cons.inj h
          exact Or.inl ⟨a, rfl, fun y hy => ha y (List.mem_cons_of_mem _ hy)⟩
    · rw [starRests, if_neg hc, List.mem_singleton]
      constructor
      · rintro rfl
        exact ⟨[], hnil, by simp⟩
      · rintro ⟨a, h, ha⟩
        cases a with
        | nil => exact h.symm
        | cons x a =>
          obtain ⟨rfl, rfl⟩ := List.cons.inj h
          exact absurd (ha _ List.mem_cons_self) hc

/-- A match of a star is any run of bytes of its class. -/
theorem mem_run_star {p : UInt8 → Bool} {s : Bytes} {m : Bytes × Captures} :
    m ∈ run subject (.star p) s ↔ ∃ a, s = a ++ m.1 ∧ (∀ x ∈ a, p x = true) ∧ m.2 = [] := by
  simp only [run_star, List.mem_map, mem_starRests]
  constructor
  · rintro ⟨rest, ⟨a, hs, ha⟩, rfl⟩
    exact ⟨a, hs, ha, rfl⟩
  · rintro ⟨a, hs, ha, hm⟩
    exact ⟨m.1, ⟨a, hs, ha⟩, Prod.ext rfl hm.symm⟩

/-- A match of a sequence is a match of its first part and one of its second behind it. -/
theorem mem_run_seq {a b : Regex} {s : Bytes} {m : Bytes × Captures} :
    m ∈ run subject (.seq a b) s ↔ ∃ m₁ ∈ run subject a s, ∃ m₂ ∈ run subject b m₁.1,
      m = (m₂.1, m₁.2 ++ m₂.2) := by
  simp only [run_seq, List.mem_flatMap, List.mem_map, eq_comm]

/-- A class, one or more times. -/
theorem mem_run_plus {p : UInt8 → Bool} {s : Bytes} {m : Bytes × Captures} :
    m ∈ run subject (plus p) s ↔
      ∃ a, s = a ++ m.1 ∧ a ≠ [] ∧ (∀ x ∈ a, p x = true) ∧ m.2 = [] := by
  unfold plus
  rw [mem_run_seq]
  constructor
  · rintro ⟨m₁, h₁, m₂, h₂, rfl⟩
    obtain ⟨c, hc, rfl, hcaps⟩ := mem_run_byte.mp h₁
    obtain ⟨a, ha, hall, hcaps'⟩ := mem_run_star.mp h₂
    refine ⟨c :: a, by simp [ha], by simp, ?_, by simp [hcaps, hcaps']⟩
    intro x hx
    rcases List.mem_cons.mp hx with rfl | hx
    · exact hc
    · exact hall x hx
  · rintro ⟨a, hs, hne, hall, hm⟩
    obtain ⟨c, a', rfl⟩ := List.exists_cons_of_ne_nil hne
    refine ⟨(a' ++ m.1, []), mem_run_byte.mpr ⟨c, hall c List.mem_cons_self, hs, rfl⟩,
      (m.1, []), mem_run_star.mpr ⟨a', rfl, fun x hx => hall x (List.mem_cons_of_mem c hx), rfl⟩,
      Prod.ext rfl (by simpa using hm)⟩

/-- A match of a literal is its text. -/
theorem mem_run_literal {text s : Bytes} {m : Bytes × Captures} :
    m ∈ run subject (literal text) s ↔ s = text ++ m.1 ∧ m.2 = [] := by
  unfold literal
  induction text generalizing s m with
  | nil =>
    show m ∈ [(s, [])] ↔ _
    rw [List.mem_singleton]
    constructor
    · rintro rfl
      exact ⟨rfl, rfl⟩
    · rintro ⟨hs, hm⟩
      exact Prod.ext hs.symm hm
  | cons c text ih =>
    show m ∈ run subject (.seq (.byte fun x => x == c) (literalBy _ text)) s ↔ _
    rw [mem_run_seq]
    constructor
    · rintro ⟨m₁, h₁, m₂, h₂, rfl⟩
      obtain ⟨x, hx, rfl, hcaps⟩ := mem_run_byte.mp h₁
      obtain ⟨hrest, hcaps'⟩ := ih.mp h₂
      have hxc : x = c := by simpa using hx
      exact ⟨by rw [hxc, hrest]; rfl, by simp [hcaps, hcaps']⟩
    · rintro ⟨rfl, hm⟩
      refine ⟨(text ++ m.1, []), mem_run_byte.mpr ⟨c, by simp, rfl, rfl⟩, (m.1, []), ?_,
        Prod.ext rfl (by simpa using hm)⟩
      exact ih.mpr ⟨rfl, rfl⟩

/-- A match of `^` is empty, at the beginning of the subject. -/
theorem mem_run_bol {s : Bytes} {m : Bytes × Captures} :
    m ∈ run subject .bol s ↔ s.length = subject.length ∧ m = (s, []) := by
  rw [run_bol]
  by_cases h : s.length = subject.length <;> simp [h]

/-- A match of `$` is empty, at the end. -/
theorem mem_run_eol {s : Bytes} {m : Bytes × Captures} :
    m ∈ run subject .eol s ↔ s = [] ∧ m = ([], []) := by
  rw [run_eol]
  by_cases h : s = [] <;> simp [h]

/-- A match of an option is a match of its body, or empty. -/
theorem mem_run_opt {a : Regex} {s : Bytes} {m : Bytes × Captures} :
    m ∈ run subject (.opt a) s ↔ m ∈ run subject a s ∨ m = (s, []) := by
  rw [run_opt, List.mem_append, List.mem_singleton]

/-- A match leaves the end of the text. -/
theorem suffix_of_mem_run {a : Regex} {s : Bytes} {m : Bytes × Captures}
    (h : m ∈ run subject a s) : ∃ u, s = u ++ m.1 := by
  induction a generalizing s m with
  | eps =>
    cases List.mem_singleton.mp h
    exact ⟨[], rfl⟩
  | byte p =>
    obtain ⟨c, -, hs, -⟩ := mem_run_byte.mp h
    exact ⟨[c], hs⟩
  | star p =>
    obtain ⟨u, hs, -⟩ := mem_run_star.mp h
    exact ⟨u, hs⟩
  | seq a b iha ihb =>
    obtain ⟨m₁, h₁, m₂, h₂, rfl⟩ := mem_run_seq.mp h
    obtain ⟨u, hu⟩ := iha h₁
    obtain ⟨v, hv⟩ := ihb h₂
    exact ⟨u ++ v, by rw [hu, hv, List.append_assoc]⟩
  | alt a b iha ihb =>
    rcases List.mem_append.mp h with h | h
    · exact iha h
    · exact ihb h
  | opt a iha =>
    rcases mem_run_opt.mp h with h | rfl
    · exact iha h
    · exact ⟨[], rfl⟩
  | group i a iha =>
    obtain ⟨m', h', rfl⟩ := List.mem_map.mp h
    exact iha (m := m') h'
  | bol =>
    obtain ⟨-, rfl⟩ := mem_run_bol.mp h
    exact ⟨[], rfl⟩
  | eol =>
    obtain ⟨rfl, rfl⟩ := mem_run_eol.mp h
    exact ⟨[], rfl⟩

/-- Whether an expression is without groups. -/
def groupFree : Regex → Bool
  | .seq a b => groupFree a && groupFree b
  | .alt a b => groupFree a && groupFree b
  | .opt a => groupFree a
  | .group _ _ => false
  | _ => true

/-- Without groups nothing is captured. -/
theorem captures_eq_nil {a : Regex} {s : Bytes} {m : Bytes × Captures}
    (hfree : groupFree a = true) (h : m ∈ run subject a s) : m.2 = [] := by
  induction a generalizing s m with
  | eps =>
    cases List.mem_singleton.mp h
    rfl
  | byte p => exact (mem_run_byte.mp h).elim fun _ hc => hc.2.2
  | star p => exact (mem_run_star.mp h).elim fun _ ha => ha.2.2
  | seq a b iha ihb =>
    obtain ⟨hfa, hfb⟩ := Bool.and_eq_true_iff.mp hfree
    obtain ⟨m₁, h₁, m₂, h₂, rfl⟩ := mem_run_seq.mp h
    show m₁.2 ++ m₂.2 = []
    rw [iha hfa h₁, ihb hfb h₂]
    rfl
  | alt a b iha ihb =>
    obtain ⟨hfa, hfb⟩ := Bool.and_eq_true_iff.mp hfree
    rcases List.mem_append.mp h with h | h
    · exact iha hfa h
    · exact ihb hfb h
  | opt a iha =>
    rcases mem_run_opt.mp h with h | rfl
    · exact iha hfree h
    · rfl
  | group i a => cases hfree
  | bol => rw [(mem_run_bol.mp h).2]
  | eol => rw [(mem_run_eol.mp h).2]

/-- A group captures what it uses. -/
theorem mem_run_group {i : Nat} {a : Regex} {s : Bytes} {m : Bytes × Captures} :
    m ∈ run subject (.group i a) s ↔ ∃ m' ∈ run subject a s, ∃ u, s = u ++ m'.1 ∧
      m = (m'.1, (i, u) :: m'.2) := by
  have htake : ∀ u rest : Bytes, (u ++ rest).take ((u ++ rest).length - rest.length) = u := by
    intro u rest
    rw [List.length_append, Nat.add_sub_cancel, List.take_left]
  simp only [run_group, List.mem_map]
  constructor
  · rintro ⟨m', h', rfl⟩
    obtain ⟨u, rfl⟩ := suffix_of_mem_run h'
    exact ⟨m', h', u, rfl, by rw [htake]⟩
  · rintro ⟨m', h', u, rfl, rfl⟩
    exact ⟨m', h', by rw [htake]⟩

/-- A match of an alternative is one of either part. -/
theorem mem_run_alt {a b : Regex} {s : Bytes} {m : Bytes × Captures} :
    m ∈ run subject (.alt a b) s ↔ m ∈ run subject a s ∨ m ∈ run subject b s := by
  show m ∈ run subject a s ++ run subject b s ↔ _
  exact List.mem_append

/-- A match of a compared literal is a text that agrees with it byte by byte. -/
theorem mem_run_literalBy {same : UInt8 → UInt8 → Bool} {text s : Bytes} {m : Bytes × Captures} :
    m ∈ run subject (literalBy same text) s ↔
      ∃ u, s = u ++ m.1 ∧ List.Forall₂ (fun c x => same c x = true) text u ∧ m.2 = [] := by
  induction text generalizing s m with
  | nil =>
    show m ∈ [(s, [])] ↔ _
    rw [List.mem_singleton]
    constructor
    · rintro rfl
      exact ⟨[], rfl, .nil, rfl⟩
    · rintro ⟨u, hs, hu, hm⟩
      cases hu
      exact Prod.ext hs.symm hm
  | cons c text ih =>
    show m ∈ run subject (.seq (.byte fun x => same c x) (literalBy same text)) s ↔ _
    rw [mem_run_seq]
    constructor
    · rintro ⟨m₁, h₁, m₂, h₂, rfl⟩
      obtain ⟨x, hx, rfl, hcaps⟩ := mem_run_byte.mp h₁
      obtain ⟨u, hrest, hu, hcaps'⟩ := ih.mp h₂
      exact ⟨x :: u, by rw [hrest]; rfl, .cons hx hu, by simp [hcaps, hcaps']⟩
    · rintro ⟨u, rfl, hu, hm⟩
      cases hu with
      | cons hx hu =>
        rename_i x u
        refine ⟨(u ++ m.1, []), mem_run_byte.mpr ⟨x, hx, rfl, rfl⟩, (m.1, []), ?_,
          Prod.ext rfl (by simpa using hm)⟩
        exact ih.mpr ⟨u, rfl, hu, rfl⟩

/-! ### The best way -/

/-- The best way of a sequence, when the best way of its first part can go on. -/
theorem head?_run_seq {a b : Regex} {s : Bytes} {m m' : Bytes × Captures}
    (ha : (run subject a s).head? = some m) (hb : (run subject b m.1).head? = some m') :
    (run subject (.seq a b) s).head? = some (m'.1, m.2 ++ m'.2) := by
  obtain ⟨ms, hms⟩ := List.head?_eq_some_iff.mp ha
  obtain ⟨ms', hms'⟩ := List.head?_eq_some_iff.mp hb
  rw [run_seq, hms, List.flatMap_cons, hms']
  rfl

/-- The best match of an alternative is that of its first part, if it has one. -/
theorem head?_run_alt_left {a b : Regex} {s : Bytes} {m : Bytes × Captures}
    (ha : (run subject a s).head? = some m) : (run subject (.alt a b) s).head? = some m := by
  show (run subject a s ++ run subject b s).head? = some m
  rw [List.head?_append, ha]
  rfl

/-- The best match of a group is that of its body, captured. -/
theorem head?_run_group {i : Nat} {a : Regex} {u rest : Bytes} {caps : Captures}
    (ha : (run subject a (u ++ rest)).head? = some (rest, caps)) :
    (run subject (.group i a) (u ++ rest)).head? = some (rest, (i, u) :: caps) := by
  rw [run_group, List.head?_map, ha, Option.map_some]
  simp

/-- The best run over a class is the longest. -/
theorem head?_starRests (p : UInt8 → Bool) (s : Bytes) :
    (starRests p s).head? = some (s.dropWhile p) := by
  induction s with
  | nil => rfl
  | cons c s ih =>
    by_cases hc : p c = true
    · rw [starRests, if_pos hc, List.head?_append, ih, List.dropWhile_cons_of_pos hc]
      rfl
    · rw [starRests, if_neg hc, List.dropWhile_cons_of_neg hc]
      rfl

/-- The best match of a star takes every byte of the class in front. -/
theorem head?_run_star (p : UInt8 → Bool) (s : Bytes) :
    (run subject (.star p) s).head? = some (s.dropWhile p, []) := by
  rw [run_star, List.head?_map, head?_starRests]
  rfl

/-- So does that of a class one or more times. -/
theorem head?_run_plus {p : UInt8 → Bool} {c : UInt8} (hc : p c = true) (s : Bytes) :
    (run subject (plus p) (c :: s)).head? = some (s.dropWhile p, []) := by
  have hbyte : (run subject (.byte p) (c :: s)).head? = some (s, []) := by
    rw [run_byte_cons, if_pos hc]
    rfl
  exact head?_run_seq hbyte (head?_run_star p s)

/-- The best match of a compared literal on a text that agrees with it. -/
theorem head?_run_literalBy {same : UInt8 → UInt8 → Bool} {text u : Bytes}
    (h : List.Forall₂ (fun c x => same c x = true) text u) (rest : Bytes) :
    (run subject (literalBy same text) (u ++ rest)).head? = some (rest, []) := by
  induction h with
  | nil => rfl
  | cons hx _ ih =>
    rename_i c x text u _
    have hbyte : (run subject (.byte fun x => same c x) (x :: (u ++ rest))).head? =
        some (u ++ rest, []) := by
      rw [run_byte_cons, if_pos hx]
      rfl
    exact head?_run_seq hbyte ih

/-- The best match of a literal on its own text. -/
theorem head?_run_literal (text rest : Bytes) :
    (run subject (literal text) (text ++ rest)).head? = some (rest, []) := by
  refine head?_run_literalBy (List.forall₂_same.mpr fun x _ => ?_) rest
  exact beq_self_eq_true x

end Regex

/-- The captures of a match come from a way to match all of the text. -/
theorem exists_run_of_regexMatch {r : Regex} {s : Bytes} {caps : Captures}
    (h : regexMatch r s = some caps) : ([], caps) ∈ r.run s s := by
  obtain ⟨m, hm, rfl⟩ := Option.map_eq_some_iff.mp h
  have hrest : m.1 = [] := by simpa using List.find?_some hm
  rw [← hrest]
  exact List.mem_of_find?_eq_some hm

/-- The captures of a search come from a way to match at the front of a tail of the text. -/
theorem exists_run_of_regexSearch {r : Regex} {s : Bytes} {caps : Captures}
    (h : regexSearch r s = some caps) : ∃ a t rest, s = a ++ t ∧ (rest, caps) ∈ r.run s t := by
  obtain ⟨t, ht, hhead⟩ := List.exists_of_findSome?_eq_some h
  obtain ⟨m, hm, rfl⟩ := Option.map_eq_some_iff.mp hhead
  obtain ⟨a, ha⟩ := (List.mem_tails t s).mp ht
  exact ⟨a, t, m.1, ha.symm, List.mem_of_head? hm⟩

/-- A text that can be used up is matched. -/
theorem isSome_regexMatch {r : Regex} {s : Bytes} {caps : Captures} (h : ([], caps) ∈ r.run s s) :
    ∃ caps', regexMatch r s = some caps' := by
  have hfind : ((r.run s s).find? fun m => m.1 = []).isSome = true :=
    List.find?_isSome.mpr ⟨_, h, by simp⟩
  obtain ⟨m, hm⟩ := Option.isSome_iff_exists.mp hfind
  exact ⟨m.2, by rw [regexMatch, hm]; rfl⟩

/-- The tails of `a ++ t` before `t` give nothing to a search that finds nothing in them. -/
theorem findSome?_tails_append {β : Type} {f : Bytes → Option β} {a t : Bytes}
    (h : ∀ k < a.length, f ((a ++ t).drop k) = none) :
    (a ++ t).tails.findSome? f = t.tails.findSome? f := by
  induction a with
  | nil => rfl
  | cons c a ih =>
    have hfirst : f (c :: (a ++ t)) = none := h 0 (Nat.succ_pos _)
    rw [List.cons_append, List.tails_cons, List.findSome?_cons_of_isNone (by rw [hfirst]; rfl)]
    exact ih fun k hk => h (k + 1) (Nat.succ_lt_succ hk)

/-- A search that finds something in the whole text finds that. -/
theorem findSome?_tails_of_some {β : Type} {f : Bytes → Option β} {t : Bytes} {b : β}
    (h : f t = some b) : t.tails.findSome? f = some b := by
  cases t with
  | nil =>
    show List.findSome? f [[]] = _
    rw [List.findSome?_cons, h]
  | cons c t => rw [List.tails_cons, List.findSome?_cons, h]

/-- A search finds the best way at the first position that has one. -/
theorem regexSearch_append {r : Regex} {a t : Bytes} {m : Bytes × Captures}
    (hnone : ∀ k < a.length, r.run (a ++ t) ((a ++ t).drop k) = [])
    (hhead : (r.run (a ++ t) t).head? = some m) : regexSearch r (a ++ t) = some m.2 := by
  unfold regexSearch
  rw [findSome?_tails_append fun k hk => by rw [hnone k hk]; rfl]
  exact findSome?_tails_of_some (by rw [hhead]; rfl)

end EjsBoundary.Lib
