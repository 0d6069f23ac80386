import EjsBoundary.Lib.ChunkedCoding
import EjsBoundary.Lib.Loop
import EjsBoundary.Model.Http
import EjsBoundary.Proofs.UrlQuery

/-!
# `EjsBoundary.Proofs.DecodeChunked`: what `decode_chunked` takes out of a body

One turn of the loop is `chunkTurn`: the size line at the position, the piece of the body it
names and the position to go on at. `decodeChunked_eq_some_iff` reads the whole function as a
trail of such turns, and says that its fuel is enough: without a trail the loop does not end.

* `decodeChunked_inOrder_iff`: the loop ends and the pieces it takes are disjoint and in
  increasing order exactly when no size line it comes to names a size that wraps around 2^64 at
  its position. `decodeChunked_endless` is a body on which it turns forever.
* `decodeChunked_take`: on the first `n` bytes of a payload in chunked coding, however its size
  lines are written, the loop returns the chunks that lie wholly within them.
-/

set_option autoImplicit false

namespace EjsBoundary.Proofs

open EjsBoundary.Lib
open EjsBoundary.Model
open EjsBoundary.Lib.ChunkedCoding (SizeLine Chunk Coding lineEnd hexNumber dataEnds)

/-! ### One turn of the loop -/

/-- The size line at a position: where its line end is, and the size it names. -/
def sizeLine (trim : Bytes → Bytes) (body : Bytes) (i : Nat) : Option (Nat × Nat) :=
  (findText (lit "\r\n") body i).bind fun e =>
    (stoul16 ((trim ((body.drop i).take (e - i))).takeWhile (· ≠ 0x3B))).map fun len => (e, len)

/-- The position behind a line end that stands here, else this one. -/
def skipLineEnd (body : Bytes) (i : Nat) : Nat :=
  if i + 2 ≤ body.length ∧ (body.drop i).take 2 = lit "\r\n" then i + 2 else i

/-- One turn: the start and the length of the piece that is taken, and the position to go on
at. -/
def chunkTurn (trim : Bytes → Bytes) (body : Bytes) (i : Nat) : Option ((Nat × Nat) × Nat) :=
  if i < body.length then
    (sizeLine trim body i).bind fun p =>
      if p.2 = 0 ∨ body.length < (p.1 + 2 + p.2) % 2 ^ 64 then none
      else some ((p.1 + 2, p.2), skipLineEnd body ((p.1 + 2 + p.2) % 2 ^ 64))
  else none

/-- The bytes of a piece: `append(body, start, len)`, which stops at the end of the body. -/
def piece (body : Bytes) (p : Nat × Nat) : Bytes := (body.drop p.1).take p.2

/-- Without turns left there is no result. -/
theorem decodeChunkedFrom_zero (trim : Bytes → Bytes) (body : Bytes) (i : Nat) (out : Bytes) :
    decodeChunkedFrom trim body 0 i out = none := rfl

/-- The loop is its turns. -/
theorem decodeChunkedFrom_succ (trim : Bytes → Bytes) (body : Bytes) (n i : Nat) (out : Bytes) :
    decodeChunkedFrom trim body (n + 1) i out =
      match chunkTurn trim body i with
      | none => some out
      | some (p, j) => decodeChunkedFrom trim body n j (out ++ piece body p) := by
  rw [decodeChunkedFrom, chunkTurn, sizeLine]
  by_cases hi : i < body.length
  · rw [if_pos hi, if_pos hi]
    cases findText (lit "\r\n") body i with
    | none => rfl
    | some e =>
      simp only [Option.bind_some]
      cases stoul16 ((trim ((body.drop i).take (e - i))).takeWhile (· ≠ 0x3B)) with
      | none => rfl
      | some len =>
        simp only [Option.map_some, Option.bind_some]
        by_cases hstop : len = 0 ∨ body.length < (e + 2 + len) % 2 ^ 64
        · rw [if_pos hstop, if_pos hstop]
        · rw [if_neg hstop, if_neg hstop]
          simp only [skipLineEnd, piece]
          split <;> rfl
  · rw [if_neg hi, if_neg hi]

/-- What a turn that goes on has found. -/
theorem chunkTurn_eq_some {trim : Bytes → Bytes} {body : Bytes} {i j : Nat} {p : Nat × Nat}
    (h : chunkTurn trim body i = some (p, j)) :
    ∃ e, i < body.length ∧ sizeLine trim body i = some (e, p.2) ∧ p.1 = e + 2 ∧ p.2 ≠ 0 ∧
      (p.1 + p.2) % 2 ^ 64 ≤ body.length ∧ j = skipLineEnd body ((p.1 + p.2) % 2 ^ 64) := by
  unfold chunkTurn at h
  by_cases hi : i < body.length
  · rw [if_pos hi] at h
    obtain ⟨⟨e, len⟩, hline, hrest⟩ := Option.bind_eq_some_iff.mp h
    by_cases hstop : len = 0 ∨ body.length < (e + 2 + len) % 2 ^ 64
    · rw [if_pos hstop] at hrest
      cases hrest
    · rw [if_neg hstop, Option.some.injEq, Prod.mk.injEq] at hrest
      obtain ⟨rfl, rfl⟩ := hrest
      exact ⟨e, hi, hline, rfl, fun h0 => hstop (Or.inl h0),
        Nat.le_of_not_lt fun hlt => hstop (Or.inr hlt), rfl⟩
  · rw [if_neg hi] at h
    cases h

/-- A size line ends inside the body, not before the position it is looked for at. -/
theorem sizeLine_bounds {trim : Bytes → Bytes} {body : Bytes} {i e len : Nat}
    (h : sizeLine trim body i = some (e, len)) : i ≤ e ∧ e + 2 ≤ body.length := by
  obtain ⟨e', he, hlen⟩ := Option.bind_eq_some_iff.mp h
  obtain ⟨len', -, heq⟩ := Option.map_eq_some_iff.mp hlen
  rw [Prod.mk.injEq] at heq
  obtain ⟨rfl, -⟩ := heq
  obtain ⟨hie, hfound⟩ := prefix_of_findText he
  have hle : 2 ≤ (body.drop e').length := hfound.length_le
  rw [List.length_drop] at hle
  exact ⟨hie, by omega⟩

/-- Skipping a line end never goes back and stays inside the body. -/
theorem skipLineEnd_bounds {body : Bytes} {i : Nat} (h : i ≤ body.length) :
    i ≤ skipLineEnd body i ∧ skipLineEnd body i ≤ body.length := by
  unfold skipLineEnd
  split
  · omega
  · omega

/-! ### The loop as a trail -/

/-- With some fuel the loop returns exactly when it ends within that many turns, and then it
returns the pieces they take. -/
theorem decodeChunkedFrom_eq_some_iff {trim : Bytes → Bytes} {body : Bytes} {n i : Nat}
    {out r : Bytes} :
    decodeChunkedFrom trim body n i out = some r ↔
      ∃ l, Trail (chunkTurn trim body) i l ∧ l.length < n ∧
        r = out ++ (l.map Prod.snd).flatMap (piece body) := by
  induction n generalizing i out with
  | zero =>
    rw [decodeChunkedFrom_zero]
    simp
  | succ n ih =>
    rw [decodeChunkedFrom_succ]
    cases hturn : chunkTurn trim body i with
    | none =>
      constructor
      · intro h
        cases h
        exact ⟨[], .stop hturn, Nat.succ_pos n, by simp⟩
      · intro ⟨l, hl, _, hr⟩
        rw [hl.unique (.stop hturn)] at hr
        simp [hr]
    | some q =>
      obtain ⟨p, j⟩ := q
      constructor
      · intro h
        obtain ⟨l, hl, hlt, hr⟩ := ih.mp h
        refine ⟨(i, p) :: l, .go hturn hl, Nat.succ_lt_succ hlt, ?_⟩
        rw [hr, List.map_cons, List.flatMap_cons, List.append_assoc]
      · intro ⟨l, hl, hlt, hr⟩
        cases hl with
        | stop hstop => rw [hturn] at hstop; cases hstop
        | @go _ j' p' l hgo hrest =>
          rw [hturn, Option.some.injEq, Prod.mk.injEq] at hgo
          obtain ⟨rfl, rfl⟩ := hgo
          refine ih.mpr ⟨l, hrest, Nat.lt_of_succ_lt_succ hlt, ?_⟩
          rw [hr, List.map_cons, List.flatMap_cons, List.append_assoc]

/-- `decode_chunked` returns exactly when its loop ends: the fuel of the model is never short. -/
theorem decodeChunked_eq_some_iff {trim : Bytes → Bytes} {body r : Bytes} :
    decodeChunked trim body = some r ↔
      ∃ l, Trail (chunkTurn trim body) 0 l ∧ r = (l.map Prod.snd).flatMap (piece body) := by
  unfold decodeChunked
  rw [decodeChunkedFrom_eq_some_iff]
  constructor
  · intro ⟨l, hl, _, hr⟩
    exact ⟨l, hl, by simpa using hr⟩
  · intro ⟨l, hl, hr⟩
    have hbound : l.length ≤ body.length :=
      hl.length_le fun i p j hturn => (chunkTurn_eq_some hturn).choose_spec.1
    exact ⟨l, hl, Nat.lt_succ_of_le hbound, by simpa using hr⟩

/-- A call without a result turns forever: no number of turns is enough. -/
theorem decodeChunked_eq_none_iff {trim : Bytes → Bytes} {body : Bytes} :
    decodeChunked trim body = none ↔ ∀ n, decodeChunkedFrom trim body n 0 [] = none := by
  constructor
  · intro h n
    by_contra hsome
    obtain ⟨r, hr⟩ := Option.ne_none_iff_exists'.mp hsome
    obtain ⟨l, hl, -, hl'⟩ := decodeChunkedFrom_eq_some_iff.mp hr
    have hcall : decodeChunked trim body = some r :=
      decodeChunked_eq_some_iff.mpr ⟨l, hl, by simpa using hl'⟩
    rw [h] at hcall
    cases hcall
  · intro h
    exact h (body.length + 1)

/-- The loop turns forever exactly when a size leads it back to a position it was at. -/
theorem decodeChunked_eq_none_iff_circles {trim : Bytes → Bytes} {body : Bytes} :
    decodeChunked trim body = none ↔ Circles (chunkTurn trim body) 0 := by
  have hstates : ∀ i p j, chunkTurn trim body i = some (p, j) → i ∈ Finset.range body.length :=
    fun i p j hturn => Finset.mem_range.mpr (chunkTurn_eq_some hturn).choose_spec.1
  rw [← not_iff_not, ← exists_trail_iff hstates, ← ne_eq, Option.ne_none_iff_exists']
  constructor
  · intro ⟨r, hr⟩
    obtain ⟨l, hl, -⟩ := decodeChunked_eq_some_iff.mp hr
    exact ⟨l, hl⟩
  · intro ⟨l, hl⟩
    exact ⟨_, decodeChunked_eq_some_iff.mpr ⟨l, hl, rfl⟩⟩

/-! ### Disjoint pieces in increasing order -/

/-- The pieces lie within the body, each behind the ones before it. -/
def InOrder (body : Bytes) (pieces : List (Nat × Nat)) : Prop :=
  (∀ p ∈ pieces, p.1 + p.2 ≤ body.length) ∧ pieces.Pairwise fun p q => p.1 + p.2 ≤ q.1

/-- The loop ends, and these are the pieces it takes. -/
def Takes (trim : Bytes → Bytes) (body : Bytes) (pieces : List (Nat × Nat)) : Prop :=
  ∃ l, Trail (chunkTurn trim body) 0 l ∧ pieces = l.map Prod.snd

/-- No size line the loop comes to names a size that, added to the position behind the line,
reaches 2^64. -/
def NoWrap (trim : Bytes → Bytes) (body : Bytes) : Prop :=
  ∀ i e len, Reached (chunkTurn trim body) 0 i → i < body.length →
    sizeLine trim body i = some (e, len) → e + 2 + len < 2 ^ 64

/-- A turn that does not wrap takes a piece of the body behind the position, and goes on behind
the piece. -/
theorem chunkTurn_forward {trim : Bytes → Bytes} {body : Bytes} {i j : Nat} {p : Nat × Nat}
    (h : chunkTurn trim body i = some (p, j)) (hwrap : p.1 + p.2 < 2 ^ 64) :
    i < p.1 ∧ p.1 + p.2 ≤ body.length ∧ p.1 + p.2 ≤ j ∧ i < body.length := by
  obtain ⟨e, hi, hline, hstart, -, hle, hj⟩ := chunkTurn_eq_some h
  rw [Nat.mod_eq_of_lt hwrap] at hle hj
  have hbounds := sizeLine_bounds hline
  have hskip := skipLineEnd_bounds hle
  rw [← hj] at hskip
  omega

/-- A turn that the loop takes does not wrap either. -/
theorem NoWrap.turn_lt {trim : Bytes → Bytes} {body : Bytes} (h : NoWrap trim body) {i j : Nat}
    {p : Nat × Nat} (hreach : Reached (chunkTurn trim body) 0 i)
    (hturn : chunkTurn trim body i = some (p, j)) : p.1 + p.2 < 2 ^ 64 := by
  obtain ⟨e, hi, hline, hstart, -⟩ := chunkTurn_eq_some hturn
  rw [hstart]
  exact h i e p.2 hreach hi hline

/-- Without a size that wraps, what is left of the body gets shorter in every turn. -/
theorem NoWrap.exists_trail {trim : Bytes → Bytes} {body : Bytes} (h : NoWrap trim body) :
    ∃ l, Trail (chunkTurn trim body) 0 l := by
  refine Lib.exists_trail (fun i => body.length - i) fun i p j hreach hturn => ?_
  have hforward := chunkTurn_forward hturn (h.turn_lt hreach hturn)
  omega

/-- The pieces of a loop none of whose turns wraps, from any position. -/
theorem inOrder_of_trail {trim : Bytes → Bytes} {body : Bytes} {i : Nat}
    {l : List (Nat × (Nat × Nat))} (h : Trail (chunkTurn trim body) i l)
    (hwrap : ∀ t p, (t, p) ∈ l → p.1 + p.2 < 2 ^ 64) :
    InOrder body (l.map Prod.snd) ∧ ∀ p ∈ l.map Prod.snd, i ≤ p.1 := by
  -- The second part is what carries the order through the induction.
  induction h with
  | stop _ => simp [InOrder]
  | @go i j p l hturn _ ih =>
    obtain ⟨hstart, hend, hnext, -⟩ := chunkTurn_forward hturn (hwrap i p List.mem_cons_self)
    obtain ⟨⟨hwithin, hpairs⟩, hbehind⟩ :=
      ih fun t q hq => hwrap t q (List.mem_cons_of_mem _ hq)
    rw [List.map_cons]
    refine ⟨⟨?_, ?_⟩, ?_⟩
    · intro q hq
      rcases List.mem_cons.mp hq with rfl | hq
      · exact hend
      · exact hwithin q hq
    · refine List.pairwise_cons.mpr ⟨fun q hq => ?_, hpairs⟩
      show p.1 + p.2 ≤ q.1
      have := hbehind q hq
      omega
    · intro q hq
      rcases List.mem_cons.mp hq with rfl | hq
      · omega
      · have := hbehind q hq
        omega

/-- Pieces in order, put together, leave bytes of the body out and add none. -/
theorem InOrder.sublist {body : Bytes} {pieces : List (Nat × Nat)} (h : InOrder body pieces)
    {s : Nat} (hs : ∀ p ∈ pieces, s ≤ p.1) :
    (pieces.flatMap (piece body)).Sublist (body.drop s) := by
  induction pieces generalizing s with
  | nil => exact List.nil_sublist _
  | cons p pieces ih =>
    obtain ⟨hwithin, hpairs⟩ := h
    rw [List.pairwise_cons] at hpairs
    have hp := hs p List.mem_cons_self
    have hrest := ih ⟨fun q hq => hwithin q (List.mem_cons_of_mem p hq), hpairs.2⟩ hpairs.1
    -- The text from `s` on is what is passed over, the piece, and the text behind it.
    have hcut : body.drop s = (body.drop s).take (p.1 - s) ++
        (piece body p ++ body.drop (p.1 + p.2)) := by
      conv_lhs => rw [← List.take_append_drop (p.1 - s) (body.drop s)]
      rw [List.drop_drop, show s + (p.1 - s) = p.1 by omega, piece]
      conv_lhs => rw [← List.take_append_drop p.2 (body.drop p.1), List.drop_drop]
    rw [hcut, List.flatMap_cons]
    exact (List.Sublist.append_left hrest _).trans (List.sublist_append_right _ _)

/-- A number is read into 64 bits. -/
theorem stoul16_lt {s : Bytes} {len : Nat} (h : stoul16 s = some len) : len < 2 ^ 64 := by
  unfold stoul16 at h
  split at h
  simp only [] at h
  split at h
  · cases h
  · rename_i hok
    rw [Option.some.injEq] at h
    rw [← h]
    split
    · exact Nat.mod_lt _ (by decide)
    · omega

/-- A size fits into 64 bits. -/
theorem sizeLine_lt {trim : Bytes → Bytes} {body : Bytes} {i e len : Nat}
    (h : sizeLine trim body i = some (e, len)) : len < 2 ^ 64 := by
  obtain ⟨e', -, hlen⟩ := Option.bind_eq_some_iff.mp h
  obtain ⟨len', hnumber, heq⟩ := Option.map_eq_some_iff.mp hlen
  rw [Prod.mk.injEq] at heq
  exact heq.2 ▸ stoul16_lt hnumber

/-- A size line that wraps passes the length check: the sum falls back before the line's end. -/
theorem chunkTurn_of_wrap {trim : Bytes → Bytes} {body : Bytes} {i e len : Nat}
    (hlen : body.length < 2 ^ 64) (hi : i < body.length)
    (hline : sizeLine trim body i = some (e, len)) (hwrap : 2 ^ 64 ≤ e + 2 + len) :
    ∃ j, chunkTurn trim body i = some ((e + 2, len), j) := by
  have hbounds := sizeLine_bounds hline
  have hlt := sizeLine_lt hline
  have hmod : (e + 2 + len) % 2 ^ 64 = e + 2 + len - 2 ^ 64 := by
    rw [Nat.mod_eq_sub_mod hwrap, Nat.mod_eq_of_lt (by omega)]
  refine ⟨skipLineEnd body ((e + 2 + len) % 2 ^ 64), ?_⟩
  unfold chunkTurn
  rw [if_pos hi, hline, Option.bind_some, if_neg (by omega)]

/-- The loop ends and returns disjoint pieces of the body in increasing order, of the sizes their
lines name, exactly when no size line it comes to wraps. `std::string` holds fewer than 2^64
bytes. -/
theorem decodeChunked_inOrder_iff (trim : Bytes → Bytes) {body : Bytes}
    (hlen : body.length < 2 ^ 64) :
    (∃ out pieces, decodeChunked trim body = some out ∧ Takes trim body pieces ∧
      out = pieces.flatMap (piece body) ∧ InOrder body pieces ∧ out.length ≤ body.length) ↔
      NoWrap trim body := by
  constructor
  · intro ⟨out, pieces, _, ⟨l, htrail, hpieces⟩, _, hinOrder, _⟩ i e len hreach hi hline
    by_contra hwrap
    obtain ⟨j, hturn⟩ := chunkTurn_of_wrap hlen hi hline (Nat.le_of_not_lt hwrap)
    have hmem : (e + 2, len) ∈ pieces := by
      rw [hpieces]
      exact List.mem_map_of_mem (f := Prod.snd) (htrail.mem_of_reached hreach hturn)
    have hwithin := hinOrder.1 _ hmem
    omega
  · intro hno
    obtain ⟨l, htrail⟩ := hno.exists_trail
    have hwrap : ∀ t p, (t, p) ∈ l → p.1 + p.2 < 2 ^ 64 := by
      intro t p hmem
      obtain ⟨hreach, t', hturn⟩ := htrail.reached hmem
      exact hno.turn_lt hreach hturn
    obtain ⟨hinOrder, hbehind⟩ := inOrder_of_trail htrail hwrap
    refine ⟨(l.map Prod.snd).flatMap (piece body), l.map Prod.snd,
      decodeChunked_eq_some_iff.mpr ⟨l, htrail, rfl⟩, ⟨l, htrail, rfl⟩, rfl, hinOrder, ?_⟩
    exact (hinOrder.sublist hbehind).length_le

/-- A body with two chunks. The second has an extension. -/
def abcdeBody : Bytes := lit "3\r\nabc\r\n2;x\r\nde\r\n0\r\n\r\n"

/-- The result is made of the two chunks, one behind the other. -/
theorem decodeChunked_inOrder_abcde : ∃ pieces, Takes strip abcdeBody pieces ∧
    lit "abcde" = pieces.flatMap (piece abcdeBody) ∧ InOrder abcdeBody pieces := by
  -- No size line wraps, wherever in the body one begins.
  have hsizes : ∀ i < abcdeBody.length, ∀ p ∈ sizeLine strip abcdeBody i,
      p.1 + 2 + p.2 < 2 ^ 64 := by decide
  have hno : NoWrap strip abcdeBody := fun i e len _ hi hline => hsizes i hi (e, len) hline
  obtain ⟨out, pieces, hout, htakes, heq, hinOrder, -⟩ :=
    (decodeChunked_inOrder_iff strip (show abcdeBody.length < 2 ^ 64 by decide)).mpr hno
  have habcde : decodeChunked strip abcdeBody = some (lit "abcde") := by decide
  cases habcde.symm.trans hout
  exact ⟨pieces, htakes, heq, hinOrder⟩

/-- The body `-4` and a line end: the size is 2^64 - 4, behind the line the sum is zero, and the
loop is where it began. It never ends, so it returns nothing at all. -/
theorem decodeChunked_endless :
    (∀ n, decodeChunkedFrom strip (lit "-4\r\n") n 0 [] = none) ∧
      ¬ ∀ body : Bytes, body.length < 2 ^ 63 →
        ∃ out pieces, decodeChunked strip body = some out ∧
          out = pieces.flatMap (piece body) ∧ InOrder body pieces ∧
          out.length ≤ body.length := by
  have hnone : decodeChunked strip (lit "-4\r\n") = none := by decide
  refine ⟨decodeChunked_eq_none_iff.mp hnone, fun h => ?_⟩
  obtain ⟨out, pieces, hsome, -⟩ := h (lit "-4\r\n") (by decide)
  rw [hnone] at hsome
  cases hsome

/-! ### Reading a size line -/

/-- The digits of the source and of the coding have the same values. -/
theorem hexval_toNat (d : UInt8) :
    (hexval d).isSome = (FormQuery.hexDigit? d).isSome ∧
      ((hexval d).getD 0).toNat = (FormQuery.hexDigit? d).getD 0 :=
  forall_byte (p := fun d => (hexval d).isSome = (FormQuery.hexDigit? d).isSome ∧
    ((hexval d).getD 0).toNat = (FormQuery.hexDigit? d).getD 0) (by decide) d

/-- So the number the source reads is that of the coding. -/
theorem digitsValue_eq_hexNumber (digits : Bytes) : digitsValue 16 digits = hexNumber digits := by
  unfold digitsValue hexNumber
  simp only [fun d => (hexval_toNat d).2]

/-- Blanks behind a text that ends in no blank are taken off with whatever is taken off behind
them. -/
theorem rdropWhile_append {p : UInt8 → Bool} {a : Bytes} (ha : ∀ x ∈ a.getLast?, p x = false)
    (b : Bytes) : (a ++ b).rdropWhile p = a ++ b.rdropWhile p := by
  have hkeep : a.reverse.dropWhile p = a.reverse := by
    cases hrev : a.reverse with
    | nil => rfl
    | cons x rest =>
      have hx : p x = false := ha x (by rw [← List.head?_reverse, hrev]; rfl)
      rw [List.dropWhile_cons, hx]
      rfl
  unfold List.rdropWhile
  rw [List.reverse_append, List.dropWhile_append]
  split
  · rename_i hempty
    rw [hkeep, List.reverse_reverse, List.isEmpty_iff.mp hempty]
    simp
  · rw [List.reverse_append, List.reverse_reverse]

/-- A size line without its white space at the ends and its extension: the digits, and blanks
that may be left. -/
theorem strip_sizeLine {size : Nat} (line : SizeLine size) :
    ∃ tail, (∀ b ∈ tail, isSpace b = true) ∧
      (strip line.text).takeWhile (· ≠ 0x3B) = line.digits ++ tail := by
  have hdigit : ∀ d ∈ line.digits, d ≠ 0x3B ∧ isSpace d = false := by
    intro d hd
    obtain ⟨hne, hspace, -⟩ := ChunkedCoding.ne_of_isHex d (line.isHex_digits d hd)
    exact ⟨fun heq => hne (by rw [heq]; decide), hspace⟩
  have hblank : ∀ b ∈ line.blanks, b ≠ 0x3B ∧ isSpace b = true := by
    intro b hb
    rcases line.isBlank_blanks b hb with rfl | rfl
    · decide
    · decide
  -- The first and the last digit keep what is between them.
  have hstrip : strip line.text =
      line.digits ++ (line.blanks ++ line.extensionText).rdropWhile isSpace := by
    obtain ⟨d, ds, hds⟩ := List.exists_cons_of_ne_nil line.digits_ne_nil
    have hd : isSpace d = false := (hdigit d (hds ▸ List.mem_cons_self)).2
    have hdrop : line.text.dropWhile isSpace = line.text := by
      rw [SizeLine.text, hds, List.cons_append, List.dropWhile_cons, hd]
      rfl
    unfold strip
    rw [hdrop, SizeLine.text, rdropWhile_append]
    intro x hx
    exact (hdigit x (List.mem_of_getLast? hx)).2
  have hplain : ∀ {x : UInt8}, x ≠ 0x3B → decide (x ≠ 0x3B) = true := fun hx => by simp [hx]
  rw [hstrip, SizeLine.extensionText]
  cases line.extension with
  | none =>
    have hall : (line.blanks ++ ([] : Bytes)).rdropWhile isSpace = [] := by
      rw [List.append_nil, List.rdropWhile_eq_nil_iff]
      exact fun b hb => (hblank b hb).2
    refine ⟨[], by simp, ?_⟩
    show (line.digits ++ (line.blanks ++ ([] : Bytes)).rdropWhile isSpace).takeWhile _ = _
    rw [hall, List.append_nil]
    exact List.takeWhile_eq_self_iff.mpr fun d hd => hplain (hdigit d hd).1
  | some ext =>
    refine ⟨line.blanks, fun b hb => (hblank b hb).2, ?_⟩
    have hsemi : (line.blanks ++ 0x3B :: ext).rdropWhile isSpace =
        (line.blanks ++ [0x3B]) ++ ext.rdropWhile isSpace := by
      rw [← List.singleton_append, ← List.append_assoc, rdropWhile_append]
      intro x hx
      rw [List.getLast?_append_cons, List.getLast?_singleton, Option.mem_some_iff] at hx
      exact hx ▸ (by decide)
    simp only [hsemi]
    rw [← List.append_assoc, ← List.append_assoc, List.append_assoc _ [0x3B]]
    refine (span_append (fun x hx => ?_) ?_).1
    · rcases List.mem_append.mp hx with hx | hx
      · exact hplain (hdigit x hx).1
      · exact hplain (hblank x hx).1
    · intro x hx
      rw [List.singleton_append, List.head?_cons, Option.mem_some_iff] at hx
      simp [← hx]

/-- A text that starts with a digit has no sign. -/
theorem readSign_of_isHex {d : UInt8} (h : (FormQuery.hexDigit? d).isSome = true) (s : Bytes) :
    readSign (d :: s) = (false, d :: s) := by
  have hne := (ChunkedCoding.ne_of_isHex d h).1
  unfold readSign
  split
  · rename_i heq
    rw [List.cons.injEq] at heq
    exact absurd (by rw [heq.1]; decide) hne
  · rename_i heq
    rw [List.cons.injEq] at heq
    exact absurd (by rw [heq.1]; decide) hne
  · rfl

/-- Nothing is skipped in a text whose second byte is not the letter of the mark. -/
theorem skipHexMark_eq_self {s : Bytes} (h : ∀ x ∈ s.tail.head?, toLower x ≠ 0x78) :
    skipHexMark s = s := by
  unfold skipHexMark
  split
  · rename_i x c rest
    rw [if_neg fun hand => h x rfl hand.1]
  · rfl

/-- `stoul` reads digits with white space behind them as the number they write. -/
theorem stoul16_digits {digits tail : Bytes} (hne : digits ≠ [])
    (hhex : ∀ d ∈ digits, (FormQuery.hexDigit? d).isSome = true)
    (htail : ∀ b ∈ tail, isSpace b = true) (hlt : hexNumber digits < 2 ^ 64) :
    stoul16 (digits ++ tail) = some (hexNumber digits) := by
  obtain ⟨d, ds, rfl⟩ := List.exists_cons_of_ne_nil hne
  have hdhex := hhex d List.mem_cons_self
  have hspace : isSpace d = false := (ChunkedCoding.ne_of_isHex d hdhex).2.1
  have htailByte : ∀ b, isSpace b = true → toLower b ≠ 0x78 ∧ (hexval b).isSome = false :=
    fun b => forall_byte (p := fun b => isSpace b = true →
      toLower b ≠ 0x78 ∧ (hexval b).isSome = false) (by decide) b
  have hdrop : ((d :: ds) ++ tail).dropWhile isSpace = (d :: ds) ++ tail := by
    rw [List.cons_append, List.dropWhile_cons, hspace]
    rfl
  have hmark : skipHexMark ((d :: ds) ++ tail) = (d :: ds) ++ tail := by
    refine skipHexMark_eq_self fun x hx => ?_
    have hx' : x ∈ ds ++ tail := List.mem_of_mem_head? hx
    rcases List.mem_append.mp hx' with hds | hblank
    · exact (ChunkedCoding.ne_of_isHex x (hhex x (List.mem_cons_of_mem d hds))).2.2
    · exact (htailByte x (htail x hblank)).1
  have htake : ((d :: ds) ++ tail).takeWhile (fun c => (hexval c).isSome) = d :: ds := by
    refine (span_append (fun x hx => ?_) (fun x hx => ?_)).1
    · rw [(hexval_toNat x).1]
      exact hhex x hx
    · exact (htailByte x (htail x (List.mem_of_mem_head? hx))).2
  have hsign : readSign (((d :: ds) ++ tail).dropWhile isSpace) = (false, (d :: ds) ++ tail) := by
    rw [hdrop]
    exact readSign_of_isHex hdhex _
  simp only [stoul16, hsign, hmark, htake, digitsValue_eq_hexNumber]
  rw [if_neg]
  · rfl
  · rintro (hnil | hbig)
    · cases hnil
    · omega

/-- A whole size line stands at the position: it names its size. -/
theorem sizeLine_of_drop {body after : Bytes} {i size : Nat} (line : SizeLine size)
    (hdrop : body.drop i = line.text ++ (lineEnd ++ after)) (hsize : size < 2 ^ 64) :
    sizeLine strip body i = some (i + line.text.length, size) := by
  have hfind : findText (lit "\r\n") body i = some (i + line.text.length) := by
    have h := @findText_append 0x0D [0x0A] line.text after line.not_mem_text.1
    rw [findText_drop, hdrop]
    show Option.map _ (findText [0x0D, 0x0A] (line.text ++ ([0x0D, 0x0A] ++ after)) 0) = _
    rw [h]
    rfl
  obtain ⟨tail, htail, hstrip⟩ := strip_sizeLine line
  unfold sizeLine
  have hnumber : hexNumber line.digits < 2 ^ 64 := by
    rw [line.hexNumber_digits]
    exact hsize
  rw [hfind, Option.bind_some, Nat.add_sub_cancel_left, hdrop, List.take_left, hstrip,
    stoul16_digits line.digits_ne_nil line.isHex_digits htail hnumber, line.hexNumber_digits]
  rfl

/-! ### Turns over a coding that may be cut off -/

/-- The loop stops where no line end follows. -/
theorem chunkTurn_of_not_mem {trim : Bytes → Bytes} {body : Bytes} {i : Nat}
    (h : (0x0A : UInt8) ∉ body.drop i) : chunkTurn trim body i = none := by
  unfold chunkTurn
  split
  · have hnone : findText (lit "\r\n") body i = none := by
      rw [findText_drop, findText_eq_none (c := 0x0A) (by decide) h]
      rfl
    rw [sizeLine, hnone]
    rfl
  · rfl

/-- The loop stops at a size line of zero. -/
theorem chunkTurn_of_last {body after : Bytes} {i : Nat} (line : SizeLine 0)
    (hdrop : body.drop i = line.text ++ (lineEnd ++ after)) :
    chunkTurn strip body i = none := by
  unfold chunkTurn
  split
  · rw [sizeLine_of_drop line hdrop (by decide), Option.bind_some, if_pos (Or.inl rfl)]
  · rfl

/-- A body is as long as what was read and what is left. -/
theorem length_of_drop {body rest : Bytes} {i : Nat} (hi : i ≤ body.length)
    (hdrop : body.drop i = rest) : body.length = i + rest.length := by
  rw [← hdrop, List.length_drop]
  omega

/-- The loop stops at a chunk whose data is cut off. -/
theorem chunkTurn_of_cut {c : Chunk} {body part : Bytes} {i : Nat} (hi : i ≤ body.length)
    (hdrop : body.drop i = c.head ++ part) (hpart : part.length < c.data.length)
    (hlen : i + c.head.length + c.data.length < 2 ^ 64) : chunkTurn strip body i = none := by
  have hbody := length_of_drop hi hdrop
  have hhead : c.head.length = c.line.text.length + 2 := by simp [Chunk.head, lineEnd]
  have hline := sizeLine_of_drop c.line (by rw [hdrop, Chunk.head, List.append_assoc])
    (show c.data.length < 2 ^ 64 by omega)
  unfold chunkTurn
  split
  · rw [hline, Option.bind_some, Nat.mod_eq_of_lt (by omega), if_pos]
    rw [List.length_append] at hbody
    exact Or.inr (by omega)
  · rfl

/-- The loop takes the data of a chunk that is there. -/
theorem chunkTurn_of_data {c : Chunk} {body after : Bytes} {i : Nat} (hi : i ≤ body.length)
    (hdrop : body.drop i = c.head ++ (c.data ++ after))
    (hlen : i + c.head.length + c.data.length < 2 ^ 64) :
    chunkTurn strip body i = some ((i + c.head.length, c.data.length),
        skipLineEnd body (i + c.head.length + c.data.length)) ∧
      piece body (i + c.head.length, c.data.length) = c.data := by
  have hbody := length_of_drop hi hdrop
  have hhead : c.head.length = c.line.text.length + 2 := by simp [Chunk.head, lineEnd]
  have hdata : 0 < c.data.length := List.length_pos_iff.mpr c.data_ne_nil
  have hline := sizeLine_of_drop c.line (by rw [hdrop, Chunk.head, List.append_assoc])
    (show c.data.length < 2 ^ 64 by omega)
  have hsum : i + c.line.text.length + 2 + c.data.length =
      i + c.head.length + c.data.length := by omega
  rw [List.length_append, List.length_append] at hbody
  refine ⟨?_, ?_⟩
  · unfold chunkTurn
    rw [if_pos (by omega), hline, Option.bind_some]
    show (if _ = 0 ∨ body.length < (i + c.line.text.length + 2 + c.data.length) % 2 ^ 64 then none
      else some ((i + c.line.text.length + 2, c.data.length),
        skipLineEnd body ((i + c.line.text.length + 2 + c.data.length) % 2 ^ 64))) = _
    rw [hsum, Nat.mod_eq_of_lt hlen, if_neg (by omega), hhead, Nat.add_assoc]
  · unfold piece
    rw [← List.drop_drop, hdrop, List.drop_left, List.take_left]

/-- Behind a chunk that is there as a whole the loop goes on at the next one. -/
theorem skipLineEnd_of_chunk {c : Chunk} {body after : Bytes} {i : Nat} (hi : i ≤ body.length)
    (hdrop : body.drop i = c.head ++ (c.data ++ (lineEnd ++ after))) :
    skipLineEnd body (i + c.head.length + c.data.length) = i + c.bytes.length ∧
      body.drop (i + c.bytes.length) = after := by
  have hbody := length_of_drop hi hdrop
  have hbehind : body.drop (i + c.head.length + c.data.length) = lineEnd ++ after := by
    rw [← List.drop_drop, ← List.drop_drop, hdrop, List.drop_left, List.drop_left]
  have hnext : i + c.bytes.length = i + c.head.length + c.data.length + 2 := by
    rw [c.length_bytes]
    omega
  rw [List.length_append, List.length_append, List.length_append,
    show lineEnd.length = 2 from rfl] at hbody
  rw [hnext]
  refine ⟨?_, ?_⟩
  · rw [skipLineEnd, if_pos]
    refine ⟨by omega, ?_⟩
    rw [hbehind]
    rfl
  · rw [← List.drop_drop, hbehind]
    rfl

/-- Behind the data of a chunk whose line end is cut off the loop stops. -/
theorem chunkTurn_of_cutLineEnd {c : Chunk} {body after : Bytes} {i m : Nat} (hm : m < 2)
    (hi : i ≤ body.length)
    (hdrop : body.drop i = c.head ++ (c.data ++ (lineEnd ++ after).take m)) :
    chunkTurn strip body (skipLineEnd body (i + c.head.length + c.data.length)) = none := by
  have hbody := length_of_drop hi hdrop
  have hbehind : body.drop (i + c.head.length + c.data.length) = (lineEnd ++ after).take m := by
    rw [← List.drop_drop, ← List.drop_drop, hdrop, List.drop_left, List.drop_left]
  have hskip : skipLineEnd body (i + c.head.length + c.data.length) =
      i + c.head.length + c.data.length := by
    rw [skipLineEnd, if_neg]
    intro hboth
    rw [List.length_append, List.length_append, List.length_take] at hbody
    omega
  rw [hskip]
  refine chunkTurn_of_not_mem ?_
  -- Nothing is left, or the first of the two bytes.
  rw [hbehind, List.take_append_of_le_length (by simp [lineEnd]; omega)]
  rcases (by omega : m = 0 ∨ m = 1) with hzero | hone
  · rw [hzero]
    decide
  · rw [hone]
    decide

/-- The chunks of a list do not end before it starts. -/
theorem le_of_mem_dataEnds {cs : List Chunk} {start : Nat} {p : Nat × Chunk}
    (h : p ∈ dataEnds start cs) : start ≤ p.1 := by
  induction cs generalizing start with
  | nil => cases h
  | cons c cs ih =>
    rcases List.mem_cons.mp h with rfl | h
    · show start ≤ start + c.head.length + c.data.length
      omega
    · have := ih h
      omega

/-- Chunks that start behind the cut are not within it. -/
theorem filter_dataEnds_eq_nil {cs : List Chunk} {start n : Nat} (h : n < start) :
    (dataEnds start cs).filter (fun p => p.1 ≤ n) = [] := by
  rw [List.filter_eq_nil_iff]
  intro p hp
  have := le_of_mem_dataEnds hp
  simp only [decide_eq_true_eq]
  omega

/-- The text of a coding from one of its chunks on. -/
theorem chunks_cons_append (c : Chunk) (cs : List Chunk) (ending : Bytes) :
    (c :: cs).flatMap Chunk.bytes ++ ending =
      c.head ++ (c.data ++ (lineEnd ++ (cs.flatMap Chunk.bytes ++ ending))) := by
  simp only [List.flatMap_cons, Chunk.bytes, List.append_assoc]

/-- The text of a coding cut off behind the data of its first chunk. -/
theorem take_chunk (c : Chunk) (rest : Bytes) (m : Nat) :
    (c.head ++ (c.data ++ rest)).take (c.head.length + c.data.length + m) =
      c.head ++ (c.data ++ rest.take m) := by
  rw [List.take_append, List.take_of_length_le (by omega), List.take_append,
    List.take_of_length_le (by omega),
    show c.head.length + c.data.length + m - c.head.length - c.data.length = m by omega]

/-- The loop stops at a chunk that is cut off before the end of its data. -/
theorem chunkTurn_of_cutChunk {c : Chunk} {body rest : Bytes} {i k : Nat} (hi : i ≤ body.length)
    (hdrop : body.drop i = (c.head ++ (c.data ++ rest)).take k)
    (hk : k < c.head.length + c.data.length)
    (hlen : i + c.head.length + c.data.length < 2 ^ 64) : chunkTurn strip body i = none := by
  have hhead : c.head.length = c.line.text.length + 2 := by simp [Chunk.head, lineEnd]
  by_cases hline : k < c.line.text.length + 2
  · -- The cut is inside the size line.
    rw [Chunk.head, List.append_assoc] at hdrop
    exact chunkTurn_of_not_mem (hdrop ▸ c.line.not_mem_take _ hline)
  · -- The cut is inside the data.
    have hcut : body.drop i = c.head ++ c.data.take (k - c.head.length) := by
      rw [hdrop, List.take_append, List.take_of_length_le (by omega), List.take_append,
        show k - c.head.length - c.data.length = 0 by omega, List.take_zero, List.append_nil]
    refine chunkTurn_of_cut hi hcut ?_ hlen
    rw [List.length_take]
    omega

/-- The loop stops at the last size line, cut off or not. -/
theorem chunkTurn_of_ending {body trailer : Bytes} {i k : Nat} (last : SizeLine 0)
    (hdrop : body.drop i = (last.text ++ (lineEnd ++ trailer)).take k) :
    chunkTurn strip body i = none := by
  by_cases hk : k < last.text.length + 2
  · exact chunkTurn_of_not_mem (hdrop ▸ last.not_mem_take trailer hk)
  · have hline : body.drop i =
        last.text ++ (lineEnd ++ trailer.take (k - last.text.length - 2)) := by
      rw [hdrop, List.take_append, List.take_append, List.take_of_length_le (by omega),
        List.take_of_length_le (by simp [lineEnd]; omega)]
      rfl
    exact chunkTurn_of_last last hline

/-- From the start of a chunk the loop takes the chunks that are left and not cut off. -/
theorem trail_of_chunks (last : SizeLine 0) (trailer : Bytes) (cs : List Chunk) {body : Bytes}
    {i k : Nat} (hi : i ≤ body.length)
    (hdrop : body.drop i =
      (cs.flatMap Chunk.bytes ++ (last.text ++ (lineEnd ++ trailer))).take k)
    (hlen : i + (cs.flatMap Chunk.bytes).length < 2 ^ 63) :
    ∃ l, Trail (chunkTurn strip body) i l ∧
      (l.map Prod.snd).flatMap (piece body) =
        ((dataEnds i cs).filter fun p => p.1 ≤ i + k).flatMap fun p => p.2.data := by
  induction cs generalizing i k with
  | nil => exact ⟨[], .stop (chunkTurn_of_ending last hdrop), rfl⟩
  | cons c cs ih =>
    have hbytes := c.length_bytes
    rw [List.flatMap_cons, List.length_append] at hlen
    rw [chunks_cons_append] at hdrop
    have hfirst : dataEnds i (c :: cs) =
      (i + c.head.length + c.data.length, c) :: dataEnds (i + c.bytes.length) cs := rfl
    by_cases hdata : c.head.length + c.data.length ≤ k
    · obtain ⟨m, rfl⟩ := Nat.exists_eq_add_of_le hdata
      rw [take_chunk] at hdrop
      obtain ⟨hturn, hpiece⟩ := chunkTurn_of_data hi hdrop (by omega)
      rw [hfirst, List.filter_cons, if_pos (by simp only [decide_eq_true_eq]; omega),
        List.flatMap_cons]
      -- How much of the line end is there decides where the loop goes on.
      by_cases hm : m < 2
      · refine ⟨[(i, (i + c.head.length, c.data.length))],
          .go hturn (.stop (chunkTurn_of_cutLineEnd hm hi hdrop)), ?_⟩
        rw [filter_dataEnds_eq_nil (by omega)]
        simp [hpiece]
      · obtain ⟨m, rfl⟩ := Nat.exists_eq_add_of_le (Nat.le_of_not_lt hm)
        have hlines : ∀ after : Bytes, (lineEnd ++ after).take (2 + m) = lineEnd ++ after.take m :=
          fun after => @List.take_length_add_append _ lineEnd after m
        rw [hlines] at hdrop
        obtain ⟨hskip, hrest⟩ := skipLineEnd_of_chunk hi hdrop
        have hbody := length_of_drop hi hdrop
        rw [List.length_append, List.length_append, List.length_append,
          show lineEnd.length = 2 from rfl] at hbody
        obtain ⟨l, htrail, hl⟩ := ih (by omega) hrest (by omega)
        refine ⟨(i, (i + c.head.length, c.data.length)) :: l, .go (hskip ▸ hturn) htrail, ?_⟩
        rw [List.map_cons, List.flatMap_cons, hpiece, hl,
          show i + c.bytes.length + m = i + (c.head.length + c.data.length + (2 + m)) by omega]
    · refine ⟨[], .stop (chunkTurn_of_cutChunk hi hdrop (by omega) (by omega)), ?_⟩
      rw [hfirst, List.filter_cons, if_neg (by simp only [decide_eq_true_eq]; omega),
        filter_dataEnds_eq_nil (by omega)]
      rfl

/-- Of the first `n` bytes of a payload in chunked coding, `decode_chunked` returns the chunks
whose data lies wholly within them, and of the whole coding the whole payload. -/
theorem decodeChunked_take {trim : Bytes → Bytes} (htrim : trim = strip) {m : Coding}
    (hlen : m.bytes.length < 2 ^ 63) :
    (∀ n, decodeChunked trim (m.bytes.take n) = some (m.payloadWithin n)) ∧
      decodeChunked trim m.bytes = some m.payload := by
  subst htrim
  have hcut : ∀ n, decodeChunked strip (m.bytes.take n) = some (m.payloadWithin n) := by
    intro n
    rw [Coding.bytes, List.length_append] at hlen
    obtain ⟨l, htrail, hl⟩ := @trail_of_chunks m.last m.trailer m.chunks (m.bytes.take n) 0 n
      (Nat.zero_le _) List.drop_zero (by omega)
    rw [Nat.zero_add] at hl
    exact decodeChunked_eq_some_iff.mpr ⟨l, htrail, hl.symm⟩
  refine ⟨hcut, ?_⟩
  have hwhole := hcut m.bytes.length
  rw [List.take_length] at hwhole
  rw [hwhole, Coding.payloadWithin_length]

/-- The payload `hello` in one chunk whose size is written `05 ;x`. -/
def helloCoding : Coding where
  chunks := [{
    data := lit "hello"
    line := {
      digits := lit "05"
      blanks := lit " "
      extension := some (lit "x")
      digits_ne_nil := by decide
      isHex_digits := by decide
      hexNumber_digits := by decide
      isBlank_blanks := by decide
      extension_line := by decide }
    data_ne_nil := by decide }]
  last := {
    digits := lit "0"
    blanks := []
    extension := none
    digits_ne_nil := by decide
    isHex_digits := by decide
    hexNumber_digits := by decide
    isBlank_blanks := by decide
    extension_line := by decide }
  trailer := lit "\r\n"

/-- The coding of `hello`, cut off behind its data: the line end that is missing does no harm. -/
theorem decodeChunked_take_hello :
    helloCoding.bytes = lit "05 ;x\r\nhello\r\n0\r\n\r\n" ∧
      decodeChunked strip (helloCoding.bytes.take 12) = some (helloCoding.payloadWithin 12) ∧
      helloCoding.payloadWithin 12 = lit "hello" :=
  ⟨by decide, (decodeChunked_take rfl (by decide)).1 12, by decide⟩

end EjsBoundary.Proofs
