import EjsBoundary.Model.QuickJsStrings
import EjsBoundary.Proofs.QuickJsJson

/-!
# `EjsBoundary.Proofs.QuickJsStrings`: strings survive the boundary

`newStringLen_toCStringLen2`: what `JS_ToCStringLen2` writes for a string, `JS_NewStringLen` reads
as the same string, whichever way QuickJS keeps it. A surrogate that is not one of a pair comes
back too, although its bytes are not UTF-8.

`meaning_jsToJson_again` carries this to values. A value that came out of the engine and goes in
again, as the preprocessed player does, comes out as it was.
-/

set_option autoImplicit false

namespace EjsBoundary.Proofs

open EjsBoundary.Lib
open EjsBoundary.Model

/-! ### One code point -/

/-- A byte keeps a number below 256. -/
theorem toNat_ofNat_byte {n : Nat} (h : n < 256) : (UInt8.ofNat n).toNat = n :=
  UInt8.toNat_ofNat_of_lt h

/-- A following byte adds its six bits. -/
theorem readContinuation_tail (l bits n : Nat) (rest : Bytes) :
    readContinuation (l + 1) bits (UInt8.ofNat (0x80 + n % 0x40) :: rest) =
      readContinuation l (bits * 0x40 + n % 0x40) rest := by
  have hnat : (UInt8.ofNat (0x80 + n % 0x40)).toNat = 0x80 + n % 0x40 :=
    toNat_ofNat_byte (by omega)
  have hcont : isContinuation (UInt8.ofNat (0x80 + n % 0x40)) = true := by
    rw [isContinuation, hnat, Bool.and_eq_true, decide_eq_true_eq, decide_eq_true_eq]
    omega
  have hbits : (0x80 + n % 0x40) % 0x40 = n % 0x40 := by omega
  rw [readContinuation, if_pos hcont, hnat, hbits]

/-- A code point of more than one byte. -/
theorem unicodeFromUtf8_lead {n l bits least c : Nat} {s rest : Bytes} (hn : 0x80 ≤ n)
    (hbyte : n < 0x100) (hlead : leadByte n = some (l, bits, least))
    (hread : readContinuation l bits s = some (c, rest)) (hleast : least ≤ c) :
    unicodeFromUtf8 (UInt8.ofNat n :: s) = some (c, rest) := by
  have hnat : (UInt8.ofNat n).toNat = n := toNat_ofNat_byte hbyte
  have hle : ¬ c < least := by omega
  rw [unicodeFromUtf8, hnat, if_neg (by omega), hlead]
  simp only [Option.bind_eq_bind, Option.bind_some, hread]
  rw [if_neg hle]

/-- What `unicode_to_utf8` writes, `unicode_from_utf8` reads, and it stops right behind it. -/
theorem unicodeFromUtf8_unicodeToUtf8 {n : Nat} (h : n < 0x110000) (rest : Bytes) :
    unicodeFromUtf8 (unicodeToUtf8 n ++ rest) = some (n, rest) := by
  unfold unicodeToUtf8
  dsimp only
  split
  · rename_i h1
    have hnat : (UInt8.ofNat n).toNat = n := toNat_ofNat_byte (by omega)
    rw [List.singleton_append, unicodeFromUtf8, hnat, if_pos h1]
  split
  · rename_i h1 h2
    have hlead : leadByte (0xC0 + n / 2 ^ 6) = some (1, n / 2 ^ 6, 0x80) := by
      rw [leadByte, if_pos (by omega), show (0xC0 + n / 2 ^ 6) % 0x20 = n / 2 ^ 6 by omega]
    refine unicodeFromUtf8_lead (by omega) (by omega) hlead ?_ (by omega)
    show readContinuation 1 _ (_ :: rest) = _
    rw [readContinuation_tail, readContinuation]
    exact congrArg (fun c => some (c, rest)) (by omega)
  split
  · rename_i h1 h2 h3
    have hlead : leadByte (0xE0 + n / 2 ^ 12) = some (2, n / 2 ^ 12, 0x800) := by
      rw [leadByte, if_neg (by omega), if_pos (by omega),
        show (0xE0 + n / 2 ^ 12) % 0x10 = n / 2 ^ 12 by omega]
    refine unicodeFromUtf8_lead (by omega) (by omega) hlead ?_ (by omega)
    show readContinuation 2 _ (_ :: _ :: rest) = _
    rw [readContinuation_tail, readContinuation_tail, readContinuation]
    exact congrArg (fun c => some (c, rest)) (by omega)
  split
  · rename_i h1 h2 h3 h4
    have hlead : leadByte (0xF0 + n / 2 ^ 18) = some (3, n / 2 ^ 18, 0x10000) := by
      rw [leadByte, if_neg (by omega), if_neg (by omega), if_pos (by omega),
        show (0xF0 + n / 2 ^ 18) % 0x08 = n / 2 ^ 18 by omega]
    refine unicodeFromUtf8_lead (by omega) (by omega) hlead ?_ (by omega)
    show readContinuation 3 _ (_ :: _ :: _ :: rest) = _
    rw [readContinuation_tail, readContinuation_tail, readContinuation_tail, readContinuation]
    exact congrArg (fun c => some (c, rest)) (by omega)
  · omega

/-- `unicode_to_utf8` is UTF-8, extended to the surrogates. -/
theorem unicodeToUtf8_eq {n : Nat} (h : n < 0x110000) : unicodeToUtf8 n = Utf16.codePointBytes n := by
  have htail (m : Nat) : 0x80 + m % 0x40 = m % 0x40 + 0x80 := Nat.add_comm _ _
  unfold Utf16.codePointBytes
  by_cases hvalid : n.isValidChar
  · have hval : (Char.ofNat n).val.toNat = n := by
      rw [Char.ofNat, dif_pos hvalid]
      rfl
    rw [if_pos hvalid]
    unfold unicodeToUtf8 String.utf8EncodeChar
    dsimp only
    rw [hval, Nat.pow_zero, Nat.div_one, htail, htail, htail]
    by_cases h1 : n < 0x80
    · rw [if_pos h1, if_pos (show n ≤ 0x7F by omega)]
    rw [if_neg h1, if_neg (show ¬ n ≤ 0x7F by omega)]
    by_cases h2 : n < 0x800
    · have hlead : 0xC0 + n / 2 ^ 6 = n / 64 % 0x20 + 0xC0 := by omega
      rw [if_pos h2, if_pos (show n ≤ 0x7FF by omega), hlead]
    rw [if_neg h2, if_neg (show ¬ n ≤ 0x7FF by omega)]
    by_cases h3 : n < 0x10000
    · have hlead : 0xE0 + n / 2 ^ 12 = n / 4096 % 0x10 + 0xE0 := by omega
      rw [if_pos h3, if_pos (show n ≤ 0xFFFF by omega), hlead]
      rfl
    · have hlead : 0xF0 + n / 2 ^ 18 = n / 262144 % 0x08 + 0xF0 := by omega
      rw [if_neg h3, if_neg (show ¬ n ≤ 0xFFFF by omega), if_pos (show n < 0x200000 by omega), hlead]
      rfl
  · -- What is left is a surrogate.
    have hsurrogate : 0xD800 ≤ n ∧ n < 0xE000 := by
      unfold Nat.isValidChar at hvalid
      omega
    rw [if_neg hvalid, unicodeToUtf8, if_neg (by omega), if_neg (by omega), if_pos (by omega)]
    dsimp only
    rw [Nat.pow_zero, Nat.div_one]
    rfl

/-! ### `JS_ToCStringLen2` -/

/-- A code unit that is not one of a pair is a code point of its own. -/
theorem codeUnits_toNat (u : UInt16) : codeUnits u.toNat = [u] := by
  rw [codeUnits, if_pos u.toNat_lt, UInt16.ofNat_toNat]

/-- A surrogate pair is the code point it stands for. -/
theorem codeUnits_pairValue {hi lo : UInt16} (h : (Utf16.isHigh hi && Utf16.isLow lo) = true) :
    Utf16.pairValue hi lo < 0x110000 ∧ codeUnits (Utf16.pairValue hi lo) = [hi, lo] := by
  rw [Bool.and_eq_true, Utf16.isHigh, Utf16.isLow, Bool.and_eq_true, Bool.and_eq_true,
    decide_eq_true_eq, decide_eq_true_eq, decide_eq_true_eq, decide_eq_true_eq] at h
  have hhigh : 0xD800 + (Utf16.pairValue hi lo - 0x10000) / 0x400 = hi.toNat := by
    unfold Utf16.pairValue
    omega
  have hlow : 0xDC00 + (Utf16.pairValue hi lo - 0x10000) % 0x400 = lo.toNat := by
    unfold Utf16.pairValue
    omega
  have hrange : 0x10000 ≤ Utf16.pairValue hi lo ∧ Utf16.pairValue hi lo < 0x110000 := by
    unfold Utf16.pairValue
    omega
  refine ⟨hrange.2, ?_⟩
  rw [codeUnits, if_neg (Nat.not_lt.mpr hrange.1), Utf16.high, Utf16.low, hhigh, hlow,
    UInt16.ofNat_toNat, UInt16.ofNat_toNat]

/-- What is at the front of a string: its code point, the code units of it, and what follows. -/
theorem frontCodePoint_spec {s : JsString} (h : s ≠ []) :
    (frontCodePoint s).1 < 0x110000 ∧ (frontCodePoint s).2.length < s.length ∧
    codeUnits (frontCodePoint s).1 ++ (frontCodePoint s).2 = s ∧
    Utf16.toUtf8 s =
      Utf16.codePointBytes (frontCodePoint s).1 ++ Utf16.toUtf8 (frontCodePoint s).2 := by
  have hunit (u : UInt16) : u.toNat < 0x110000 := by
    have := u.toNat_lt
    omega
  cases s with
  | nil => exact absurd rfl h
  | cons hi rest =>
    cases rest with
    | nil =>
      refine ⟨hunit hi, Nat.one_pos, ?_, (List.append_nil _).symm⟩
      rw [frontCodePoint, codeUnits_toNat]
      rfl
    | cons lo rest =>
      rw [frontCodePoint, Utf16.toUtf8]
      by_cases hpair : (Utf16.isHigh hi && Utf16.isLow lo) = true
      · obtain ⟨hlt, hunits⟩ := codeUnits_pairValue hpair
        rw [if_pos hpair, if_pos hpair]
        refine ⟨hlt, ?_, ?_, rfl⟩
        · show rest.length < rest.length + 1 + 1
          omega
        · rw [hunits]
          rfl
      · rw [if_neg hpair, if_neg hpair]
        refine ⟨hunit hi, Nat.lt_succ_self _, ?_, rfl⟩
        rw [codeUnits_toNat]
        rfl

/-- The loop over 16-bit code units writes UTF-8, extended to lone surrogates. -/
theorem wideToUtf8_eq (n : Nat) (s : JsString) (h : s.length ≤ n) :
    wideToUtf8 n s = Utf16.toUtf8 s := by
  induction n generalizing s with
  | zero =>
    rw [List.length_eq_zero_iff.mp (Nat.le_zero.mp h)]
    rfl
  | succ n ih =>
    rw [wideToUtf8]
    split
    · rename_i hnil
      rw [hnil, Utf16.toUtf8]
    · rename_i hne
      obtain ⟨hlt, hlen, -, hutf8⟩ := frontCodePoint_spec hne
      rw [hutf8, ih _ (by omega), unicodeToUtf8_eq hlt]

/-- So does the loop over 8-bit ones. -/
theorem narrowToUtf8_eq (s : Bytes) :
    narrowToUtf8 s = Utf16.toUtf8 (s.map fun c => .ofNat c.toNat) := by
  induction s with
  | nil => rfl
  | cons c s ih =>
    have hlt := c.toNat_lt
    have hunit : (UInt16.ofNat c.toNat).toNat = c.toNat := UInt16.toNat_ofNat_of_lt' (by
      show _ < 65536
      omega)
    have hnot : Utf16.isHigh (.ofNat c.toNat) = false := by
      rw [Utf16.isHigh, hunit, Bool.and_eq_false_iff, decide_eq_false_iff_not]
      omega
    rw [List.map_cons, Utf16.toUtf8_of_not_high hnot, hunit, ← unicodeToUtf8_eq (by omega), ← ih,
      narrowToUtf8, unicodeToUtf8]
    dsimp only
    split
    · rw [UInt8.ofNat_toNat]
      rfl
    · rw [if_pos (by omega), Nat.pow_zero, Nat.div_one]
      rfl

/-- However a string is kept, it is written as UTF-8, extended to lone surrogates. -/
theorem toCStringLen2_eq (rep : JsStringRep) : toCStringLen2 rep = Utf16.toUtf8 rep.units := by
  cases rep with
  | narrow s => exact narrowToUtf8_eq s
  | wide s => exact wideToUtf8_eq s.length s (Nat.le_refl _)

/-! ### `JS_NewStringLen` -/

/-- One turn reads one code point. -/
theorem newStringTurn_codePoint {n : Nat} (h : n < 0x110000) (rest : Bytes) :
    newStringTurn (Utf16.codePointBytes n ++ rest) = (codeUnits n, rest) := by
  rw [newStringTurn, ← unicodeToUtf8_eq h, unicodeFromUtf8_unicodeToUtf8 h]
  exact if_pos (by omega)

/-- Every code point takes a byte. -/
theorem codePointBytes_length_pos (n : Nat) : 0 < (Utf16.codePointBytes n).length := by
  unfold Utf16.codePointBytes
  split
  · rw [String.length_utf8EncodeChar]
    exact Char.utf8Size_pos _
  · exact Nat.succ_pos _

/-- The loop reads back what was written, when it has a turn for each byte. -/
theorem newStringFrom_toUtf8 (n : Nat) (s : JsString) (h : (Utf16.toUtf8 s).length ≤ n) :
    newStringFrom n (Utf16.toUtf8 s) = s := by
  induction n generalizing s with
  | zero =>
    by_cases hs : s = []
    · rw [hs]
      rfl
    · obtain ⟨-, -, -, hutf8⟩ := frontCodePoint_spec hs
      have hpos := codePointBytes_length_pos (frontCodePoint s).1
      rw [hutf8, List.length_append] at h
      omega
  | succ n ih =>
    by_cases hs : s = []
    · rw [hs]
      rfl
    · obtain ⟨hlt, -, hunits, hutf8⟩ := frontCodePoint_spec hs
      have hpos := codePointBytes_length_pos (frontCodePoint s).1
      rw [hutf8, List.length_append] at h
      have hne : Utf16.codePointBytes (frontCodePoint s).1 ++ Utf16.toUtf8 (frontCodePoint s).2 ≠ [] :=
        List.append_ne_nil_of_left_ne_nil (List.ne_nil_of_length_pos hpos) _
      rw [hutf8, newStringFrom, if_neg hne, newStringTurn_codePoint hlt]
      show codeUnits (frontCodePoint s).1 ++ newStringFrom n (Utf16.toUtf8 (frontCodePoint s).2) = s
      rw [ih _ (by omega), hunits]

/-- A string written as UTF-8 is read back. -/
theorem newStringLen_toUtf8 (s : JsString) : newStringLen (Utf16.toUtf8 s) = s :=
  newStringFrom_toUtf8 _ s (Nat.le_refl _)

/-- Every string that QuickJS hands out comes back as itself, however it is kept. -/
theorem newStringLen_toCStringLen2 (rep : JsStringRep) :
    newStringLen (toCStringLen2 rep) = rep.units := by
  rw [toCStringLen2_eq, newStringLen_toUtf8]

/-- `newString` is `JS_NewString`, on bytes that are not UTF-8 too. -/
theorem newString_newStringLen (s : Bytes) : newString newStringLen s = newStringLen (cString s) := by
  unfold newString
  split
  · rename_i text htext
    obtain ⟨text', henc⟩ := Utf8.exists_encode_of_isSome (by rw [htext]; rfl)
    rw [← henc, Utf8.decode?_encode, Option.some.injEq] at htext
    rw [← henc, htext, ← Utf16.toUtf8_encode, newStringLen_toUtf8]
  · rfl

/-! ### A `char *` to a string -/

/-- A code unit other than NUL is written without the byte NUL. -/
theorem zero_mem_codePointBytes_iff {n : Nat} (h : n < 0x110000) :
    (0 : UInt8) ∈ Utf16.codePointBytes n ↔ n = 0 := by
  unfold Utf16.codePointBytes
  by_cases hvalid : n.isValidChar
  · have hback : (Char.ofNat n).toNat = n := by
      rw [Char.ofNat, dif_pos hvalid]
      rfl
    rw [if_pos hvalid, Utf8.zero_mem_utf8EncodeChar_iff]
    constructor
    · intro hzero
      rw [hzero] at hback
      exact hback.symm
    · rintro rfl
      rfl
  · have hrange : 0xD800 ≤ n ∧ n < 0xE000 := by
      unfold Nat.isValidChar at hvalid
      omega
    have hbyte {m : Nat} (hpos : 0 < m) (hm : m < 256) : (0 : UInt8) ≠ UInt8.ofNat m := by
      intro hzero
      have hnat := congrArg UInt8.toNat hzero
      rw [toNat_ofNat_byte hm] at hnat
      exact absurd hnat (Nat.ne_of_lt hpos)
    rw [if_neg hvalid]
    simp only [List.mem_cons, List.not_mem_nil, or_false]
    refine iff_of_false ?_ (by omega)
    rintro (h1 | h1 | h1)
    · exact hbyte (by omega) (by omega) h1
    · exact hbyte (by omega) (by omega) h1
    · exact hbyte (by omega) (by omega) h1

/-- A part without NUL in front stays. -/
theorem cString_append_of_not_mem {a : Bytes} (h : (0 : UInt8) ∉ a) (b : Bytes) :
    cString (a ++ b) = a ++ cString b := by
  refine List.takeWhile_append_of_pos fun x hx => ?_
  simp only [ne_eq, decide_eq_true_eq]
  rintro rfl
  exact h hx

/-- A `char *` to a string shows the string before its first NUL. -/
theorem cString_toUtf8 (s : JsString) :
    cString (Utf16.toUtf8 s) = Utf16.toUtf8 (s.takeWhile (· ≠ 0)) := by
  have hunit {u : UInt16} (hu : u ≠ 0) : (0 : UInt8) ∉ Utf16.codePointBytes u.toNat := by
    have hlt := u.toNat_lt
    rw [zero_mem_codePointBytes_iff (by omega)]
    exact fun hzero => hu (UInt16.toNat_inj.mp hzero)
  induction s using Utf16.toUtf8.induct with
  | case1 => rfl
  | case2 u =>
    by_cases hu : u = 0
    · rw [hu]
      rfl
    · rw [List.takeWhile_cons_of_pos (by simpa using hu)]
      exact (cString_eq_self_iff _).mpr (hunit hu)
  | case3 hi lo rest hpair ih =>
    have hpos := hpair
    rw [Bool.and_eq_true, Utf16.isHigh, Utf16.isLow, Bool.and_eq_true, Bool.and_eq_true,
      decide_eq_true_eq, decide_eq_true_eq] at hpos
    have hhi : hi ≠ 0 := by
      rintro rfl
      exact absurd hpos.1.1 (by decide)
    have hlo : lo ≠ 0 := by
      rintro rfl
      exact absurd hpos.2.1 (by decide)
    have hzero : (0 : UInt8) ∉ Utf16.codePointBytes (Utf16.pairValue hi lo) := by
      rw [zero_mem_codePointBytes_iff (codeUnits_pairValue hpair).1]
      unfold Utf16.pairValue
      omega
    rw [List.takeWhile_cons_of_pos (by simpa using hhi),
      List.takeWhile_cons_of_pos (by simpa using hlo), Utf16.toUtf8, if_pos hpair,
      cString_append_of_not_mem hzero, ih, Utf16.toUtf8, if_pos hpair]
  | case4 hi lo rest hpair ih =>
    by_cases hhi : hi = 0
    · rw [hhi]
      rfl
    · rw [List.takeWhile_cons_of_pos (by simpa using hhi), Utf16.toUtf8, if_neg hpair,
        cString_append_of_not_mem (hunit hhi), ih]
      -- What follows is cut too, and then still makes no pair with the first code unit.
      by_cases hlo : lo = 0
      · rw [hlo]
        exact List.append_nil _
      · rw [List.takeWhile_cons_of_pos (by simpa using hlo), Utf16.toUtf8, if_neg hpair]

/-- What a `char *` showed of a string is shown again. -/
theorem toCString_newString_toCString (s : JsString) :
    toCString (newString newStringLen (toCString s)) = toCString s := by
  have hcut : cString (toCString s) = toCString s := by
    refine (cString_eq_self_iff _).mpr fun hzero => ?_
    exact absurd (List.mem_takeWhile_imp hzero) (by simp)
  rw [newString_newStringLen, hcut]
  show cString (Utf16.toUtf8 (newStringLen (cString (Utf16.toUtf8 s)))) = _
  rw [cString_toUtf8 s, newStringLen_toUtf8, ← cString_toUtf8]
  exact hcut

/-! ### Values -/

/-- Own keys, at any depth, that are not `__proto__` behind a `char *`. -/
inductive ProtoFree : JsValue → Prop where
  | undefined : ProtoFree .undefined
  | null : ProtoFree .null
  | bool (b : Bool) : ProtoFree (.bool b)
  | int (i : Int) : ProtoFree (.int i)
  | float64 (d : Double) : ProtoFree (.float64 d)
  | string (s : JsString) : ProtoFree (.string s)
  | array {elems : List JsValue} (h : ∀ v ∈ elems, ProtoFree v) : ProtoFree (.array elems)
  | object {props : List (JsString × JsValue)}
      (hkeys : ∀ p ∈ props, toCString p.1 ≠ lit "__proto__")
      (h : ∀ p ∈ props, ProtoFree p.2) : ProtoFree (.object props)
  | other : ProtoFree .other

/-- The members that an object becomes. -/
def membersOf (props : List (JsString × JsValue)) : List (Bytes × Json) :=
  (ofEntries ((ownProperties (jsToJsonProps props)).map fun p => (toCString p.1, p.2))).toList

/-- Each of them is one of the properties. -/
theorem mem_membersOf {props : List (JsString × JsValue)} {m : Bytes × Json}
    (h : m ∈ membersOf props) : ∃ p ∈ props, m = (toCString p.1, jsToJsonQjs p.2) := by
  obtain ⟨q, hq, rfl⟩ := List.mem_map.mp (mem_of_mem_toList_ofEntries h)
  rw [(ownProperties_perm _).mem_iff, jsToJsonProps_eq] at hq
  obtain ⟨p, hp, rfl⟩ := List.mem_map.mp hq
  exact ⟨p, hp, rfl⟩

section
variable {props : List (JsString × JsValue)}

/-- An object becomes the object of its members. -/
theorem jsToJson_object : jsToJsonQjs (.object props) = .object (membersOf props) := by
  rw [jsToJsonQjs, membersOf]

/-- The members are in the order of their keys. -/
theorem membersOf_sorted : (membersOf props).Pairwise fun a b => compare a.1 b.1 = .lt :=
  Std.ExtTreeMap.ordered_keys_toList

/-- The members of an object are found under the keys that a `char *` shows. -/
theorem lookup_membersOf {p : JsString × JsValue} (hp : p ∈ props)
    (hone : ∀ q ∈ props, toCString q.1 = toCString p.1 → q = p) :
    (membersOf props).lookup (toCString p.1) = some (jsToJsonQjs p.2) := by
  have hmem : ∀ q, q ∈ ownProperties (jsToJsonProps props) ↔
      ∃ p ∈ props, (p.1, jsToJsonQjs p.2) = q := by
    intro q
    rw [(ownProperties_perm _).mem_iff, jsToJsonProps_eq]
    exact List.mem_map
  rw [membersOf, lookup_eq_some_iff_mem (pairwise_ne_toList _),
    Std.ExtTreeMap.mem_toList_iff_getElem?_eq_some, getElem?_ofEntries]
  refine lookup_eq_some_of_mem (List.mem_reverse.mpr (List.mem_map.mpr ?_)) fun kv hkv hkey => ?_
  · exact ⟨_, (hmem _).mpr ⟨p, hp, rfl⟩, rfl⟩
  · obtain ⟨q, hq, rfl⟩ := List.mem_map.mp (List.mem_reverse.mp hkv)
    obtain ⟨p', hp', rfl⟩ := (hmem q).mp hq
    rw [hone p' hp' hkey]

/-- What an object becomes, when its members are known in key order. -/
theorem jsToJson_object_eq {members : List (Bytes × Json)}
    (hsorted : members.Pairwise fun a b => compare a.1 b.1 = .lt)
    (hperm : (props.map fun p => (toCString p.1, jsToJsonQjs p.2)).Perm members) :
    jsToJsonQjs (.object props) = .object members := by
  rw [jsToJson_object]
  refine congrArg Json.object (toList_ofEntries_of_perm hsorted ?_)
  refine ((ownProperties_perm _).map _).trans ?_
  rw [jsToJsonProps_eq, List.map_map]
  exact hperm

/-- The key of a member was read from a `char *` before. -/
theorem membersOf_key {m : Bytes × Json} (h : m ∈ membersOf props) :
    toCString (newString newStringLen m.1) = m.1 := by
  obtain ⟨p, -, rfl⟩ := mem_membersOf h
  exact toCString_newString_toCString p.1

/-- No member is called `__proto__` if no property reads so. -/
theorem membersOf_ne_proto (hkeys : ∀ p ∈ props, toCString p.1 ≠ lit "__proto__")
    {m : Bytes × Json} (h : m ∈ membersOf props) : m.1 ≠ lit "__proto__" := by
  obtain ⟨p, hp, rfl⟩ := mem_membersOf h
  exact hkeys p hp

end

/-- A value that came out of the engine and goes in again comes out with the same meaning. -/
theorem meaning_jsToJson_again {v : JsValue} (h : ProtoFree v) :
    (jsToJsonQjs (jsonToJsQjs newStringLen (jsToJsonQjs v))).meaning = (jsToJsonQjs v).meaning := by
  induction h with
  | undefined => rfl
  | null => rfl
  | bool b => rfl
  | int i => exact meaning_real _
  | float64 d => exact meaning_real _
  | string s =>
    rw [jsToJsonQjs, jsonToJsQjs, jsToJsonQjs, toCString_newString_toCString]
  | array _ ih =>
    rw [jsToJsonQjs, jsonToJsQjs, jsonToJsElems_eq, jsToJsonQjs, jsToJsonElems_eq, jsToJsonElems_eq,
      List.map_map, List.map_map, Json.meaning, Json.meaning, Json.meaningElems_eq,
      Json.meaningElems_eq, List.map_map, List.map_map]
    exact congrArg Json.Meaning.array (List.map_congr_left ih)
  | object hkeys _ ih =>
    rw [jsToJson_object, jsToJson_jsonToJs_members newStringLen membersOf_sorted
        (fun _ hm => membersOf_key hm) (fun _ hm => membersOf_ne_proto hkeys hm),
      Json.meaning, Json.meaning, Json.meaningMembers_eq, Json.meaningMembers_eq, List.map_map]
    refine congrArg Json.Meaning.object (List.map_congr_left fun m hm => ?_)
    obtain ⟨p, hp, rfl⟩ := mem_membersOf hm
    exact congrArg (Prod.mk (toCString p.1)) (ih p hp)
  | other => rfl

/-- A number has no keys. -/
theorem protoFree_numberToJs (v : Json) : ProtoFree (numberToJs v) := by
  have hfloat (d : Double) : ProtoFree (newFloat64 d) := by
    unfold newFloat64
    split
    · split
      · exact .int _
      · exact .float64 _
    · exact .float64 _
  unfold numberToJs
  split
  · exact .int _
  split
  · unfold newUint32
    split
    · exact .int _
    · exact .float64 _
  split
  · exact hfloat _
  · exact hfloat _

/-- Going in again makes no key `__proto__`. -/
theorem protoFree_again {v : JsValue} (h : ProtoFree v) :
    ProtoFree (jsonToJsQjs newStringLen (jsToJsonQjs v)) := by
  induction h with
  | undefined => exact .null
  | null => exact .null
  | bool b => exact .bool b
  | int i => exact protoFree_numberToJs _
  | float64 d => exact protoFree_numberToJs _
  | string s => exact .string _
  | array _ ih =>
    rw [jsToJsonQjs, jsonToJsQjs, jsonToJsElems_eq, jsToJsonElems_eq, List.map_map]
    refine .array fun w hw => ?_
    obtain ⟨v, hv, rfl⟩ := List.mem_map.mp hw
    exact ih v hv
  | object hkeys _ ih =>
    rw [jsToJson_object, jsonToJs_object newStringLen membersOf_sorted
        (fun _ hm => membersOf_key hm) (fun _ hm => membersOf_ne_proto hkeys hm)]
    refine .object (fun q hq => ?_) fun q hq => ?_
    · obtain ⟨m, hm, rfl⟩ := List.mem_map.mp hq
      show toCString (newString newStringLen m.1) ≠ _
      rw [membersOf_key hm]
      exact membersOf_ne_proto hkeys hm
    · obtain ⟨m, hm, rfl⟩ := List.mem_map.mp hq
      obtain ⟨p, hp, rfl⟩ := mem_membersOf hm
      exact ih p hp
  | other => exact .null

/-- However often a value goes in and out of the engine, it keeps the meaning it first came out
with. -/
theorem meaning_trips {v : JsValue} (h : ProtoFree v) (n : Nat) :
    ((fun json => jsToJsonQjs (jsonToJsQjs newStringLen json))^[n] (jsToJsonQjs v)).meaning =
      (jsToJsonQjs v).meaning := by
  induction n generalizing v with
  | zero => rfl
  | succ n ih => rw [Function.iterate_succ_apply, ih (protoFree_again h), meaning_jsToJson_again h]

/-- A surrogate that is alone, a text with a NUL in it, and two keys that a `char *` does not tell
apart. -/
def oddValue : JsValue :=
  .object
    [([0x61], .string [0xD83D]),
     ([0x61, 0, 0x62], .array [.undefined, .float64 (Double.ofInt 0), .string [0x78, 0, 0x79]]),
     ([0x31], .other)]

/-- Two trips of a value with a lone surrogate, a NUL and leaves that JSON does not have. -/
theorem meaning_trips_odd : ProtoFree oddValue ∧
    ((fun json => jsToJsonQjs (jsonToJsQjs newStringLen json))^[2] (jsToJsonQjs oddValue)).meaning =
      (jsToJsonQjs oddValue).meaning := by
  have hodd : ProtoFree oddValue := by
    refine .object (by decide) ?_
    simp only [List.forall_mem_cons, List.not_mem_nil, false_imp_iff, implies_true, and_true]
    refine ⟨.string _, .array ?_, .other⟩
    simp only [List.forall_mem_cons, List.not_mem_nil, false_imp_iff, implies_true, and_true]
    exact ⟨.undefined, .float64 _, .string _⟩
  exact ⟨hodd, meaning_trips hodd 2⟩

end EjsBoundary.Proofs
