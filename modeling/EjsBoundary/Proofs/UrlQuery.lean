import EjsBoundary.Lib.FormQuery
import EjsBoundary.Model.UrlQuery

/-!
# `EjsBoundary.Proofs.UrlQuery`: what a rewritten query reads back as

`writeParams` encodes every key and value once; `parseQueryString` decodes twice. So the
two are not inverse to each other. What they are is `parseQueryString_writeParams`:
writing a map and parsing it back applies **one** pass of `decodeOnce` to every key and
value (`rekey decodeOnce decodeOnce`), and where two keys meet the later one in byte order
wins. Every law about `setOrReplaceQueryParam` in this development goes through that
equation:

* `queryParamFromUrl_setOrReplace_iff`: when get-after-set gives the value back;
* `setOrReplace_frame_iff`: when the other parameters keep their standard reading
  (`EjsBoundary.Lib.FormQuery`);
* `setOrReplace_comm_iff`: when two sets commute.

The other half is `read_writeParams`: a server, which decodes once, reads exactly the map
that was written. The writer is right; it is the second decoding pass on the way in that
changes parameters.
-/

set_option autoImplicit false

namespace EjsBoundary.Proofs

open EjsBoundary.Lib
open EjsBoundary.Model
open Std (ExtTreeMap)

/-! ### Bytes and digits -/

/-- The two digits `urlencode` writes for a byte decode to that byte. -/
theorem hexval_hexUpper (c : UInt8) :
    hexval (hexUpper (c >>> 4)) = some (c >>> 4) ∧
      hexval (hexUpper (c &&& 0x0F)) = some (c &&& 0x0F) ∧
      (((c >>> 4) <<< 4) ||| (c &&& 0x0F)) = c :=
  forall_byte (p := fun c => hexval (hexUpper (c >>> 4)) = some (c >>> 4) ∧
    hexval (hexUpper (c &&& 0x0F)) = some (c &&& 0x0F) ∧
    (((c >>> 4) <<< 4) ||| (c &&& 0x0F)) = c) (by decide) c

/-- No byte `urlencode` writes is a separator, and an unreserved byte is neither `%` nor
`+`. -/
theorem urlencodeByte_bytes (c : UInt8) :
    (∀ x ∈ urlencodeByte c, x ≠ 0x26 ∧ x ≠ 0x3D) ∧
      (isUnreserved c = true → c ≠ 0x25 ∧ plusToSpace c = c) :=
  forall_byte (p := fun c => (∀ x ∈ urlencodeByte c, x ≠ 0x26 ∧ x ≠ 0x3D) ∧
    (isUnreserved c = true → c ≠ 0x25 ∧ plusToSpace c = c)) (by decide) c

/-- An encoded text has no separator. -/
theorem not_mem_urlencode (s : Bytes) :
    (0x26 : UInt8) ∉ urlencode s ∧ (0x3D : UInt8) ∉ urlencode s := by
  constructor
  all_goals
    intro h
    obtain ⟨c, -, hc⟩ := List.mem_flatMap.mp h
    have := (urlencodeByte_bytes c).1 _ hc
    simp at this

/-! ### One decoding pass -/

/-- A byte other than `%` is copied, `+` as a space. -/
theorem decodeOnce_cons_of_ne {c : UInt8} (h : c ≠ 0x25) (rest : Bytes) :
    decodeOnce (c :: rest) = plusToSpace c :: decodeOnce rest := by
  match rest with
  | [] => rfl
  | [_] => rfl
  | _ :: _ :: _ => rw [decodeOnce, if_neg h]

/-- An escape is replaced by its byte. -/
theorem decodeOnce_escape {h l hi lo : UInt8} (hh : hexval h = some hi)
    (hl : hexval l = some lo) (rest : Bytes) :
    decodeOnce (0x25 :: h :: l :: rest) = ((hi <<< 4) ||| lo) :: decodeOnce rest := by
  rw [decodeOnce, if_pos rfl]
  simp only [hh, hl]

/-- One decoding pass undoes the encoding. -/
theorem decodeOnce_urlencode (s : Bytes) : decodeOnce (urlencode s) = s := by
  induction s with
  | nil => rfl
  | cons c s ih =>
    show decodeOnce (urlencodeByte c ++ urlencode s) = c :: s
    unfold urlencodeByte
    by_cases hc : isUnreserved c = true
    · obtain ⟨hne, hplus⟩ := (urlencodeByte_bytes c).2 hc
      rw [if_pos hc, List.singleton_append, decodeOnce_cons_of_ne hne, hplus, ih]
    · obtain ⟨hhi, hlo, hbyte⟩ := hexval_hexUpper c
      rw [if_neg hc]
      show decodeOnce (0x25 :: hexUpper (c >>> 4) :: hexUpper (c &&& 0x0F) :: urlencode s) = _
      rw [decodeOnce_escape hhi hlo, hbyte, ih]

/-- The digit tests agree with the standard ones, and so do the bytes two digits give. -/
theorem hexval_eq (c : UInt8) :
    hexval c = (FormQuery.hexDigit? c).map UInt8.ofNat ∧ ∀ n ∈ FormQuery.hexDigit? c, n < 16 :=
  forall_byte (p := fun c => hexval c = (FormQuery.hexDigit? c).map UInt8.ofNat ∧
    ∀ n ∈ FormQuery.hexDigit? c, n < 16) (by decide) c

/-- An escape is two hexadecimal digits. -/
theorem escape?_eq (h l : UInt8) (rest : Bytes) :
    FormQuery.escape? (0x25 :: h :: l :: rest) =
      (hexval h).bind fun hi => (hexval l).map fun lo => (hi <<< 4) ||| lo := by
  have hbyte : ∀ hi < 16, ∀ lo < 16, UInt8.ofNat (16 * hi + lo) =
      ((UInt8.ofNat hi <<< 4) ||| UInt8.ofNat lo) := by decide
  obtain ⟨hh, hhlt⟩ := hexval_eq h
  obtain ⟨hl, hllt⟩ := hexval_eq l
  rw [hh, hl]
  show ((FormQuery.hexDigit? h).bind fun hi => (FormQuery.hexDigit? l).bind fun lo =>
    some (UInt8.ofNat (16 * hi + lo))) = _
  cases hi : FormQuery.hexDigit? h with
  | none => rfl
  | some hi' =>
    cases lo : FormQuery.hexDigit? l with
    | none => rfl
    | some lo' =>
      show some (UInt8.ofNat (16 * hi' + lo')) = some _
      rw [hbyte hi' (hhlt hi' hi) lo' (hllt lo' lo)]

/-- Only a percent sign begins one. -/
theorem escape?_of_ne {c : UInt8} (h : c ≠ 0x25) (rest : Bytes) :
    FormQuery.escape? (c :: rest) = none := by
  unfold FormQuery.escape?
  split
  · rename_i heq
    exact absurd (List.cons.inj heq).1 h
  · rfl

/-- The decoder of the source is the standard one. -/
theorem decodeOnce_eq_decode (s : Bytes) : decodeOnce s = FormQuery.decode s := by
  show decodeOnce s = FormQuery.decodeFrom 0 s
  -- Along `decodeOnce`'s own recursion: an escape is three bytes on both sides.
  induction s using decodeOnce.induct with
  | case1 => rfl
  | case2 c => simp [decodeOnce, FormQuery.decodeFrom, FormQuery.escape?, plusToSpace]
  | case3 c d => simp [decodeOnce, FormQuery.decodeFrom, FormQuery.escape?, plusToSpace]
  | case4 h l rest hi lo hl hh ih =>
    have hsome : FormQuery.escape? (0x25 :: h :: l :: rest) = some ((hi <<< 4) ||| lo) := by
      rw [escape?_eq, hh, hl]
      rfl
    rw [decodeOnce_escape hh hl, ih]
    simp only [FormQuery.decodeFrom, hsome]
  | case5 h l rest hno ih =>
    have hnone : FormQuery.escape? (0x25 :: h :: l :: rest) = none := by
      rw [escape?_eq]
      cases hh : hexval h with
      | none => rfl
      | some hi =>
        cases hl : hexval l with
        | none => rfl
        | some lo => exact absurd hl (hno hi lo hh)
    have hstep : decodeOnce (0x25 :: h :: l :: rest) =
        plusToSpace 0x25 :: decodeOnce (h :: l :: rest) := by
      rw [decodeOnce, if_pos rfl]
      split
      · rename_i hi lo hh hl
        exact absurd hl (hno hi lo hh)
      · rfl
    rw [hstep, ih]
    conv_rhs => rw [FormQuery.decodeFrom, hnone]
    rfl
  | case6 c h l rest hc ih =>
    rw [decodeOnce_cons_of_ne hc, ih]
    conv_rhs => rw [FormQuery.decodeFrom, escape?_of_ne hc]
    rfl

/-! ### Pieces of a query -/

/-- A piece is cut at its first `=`, in the source as in the standard reading. -/
theorem pair_eq_parsePart (part : Bytes) : FormQuery.pair part = parsePart decodeOnce part := by
  unfold FormQuery.pair parsePart
  simp only [← decodeOnce_eq_decode]
  rcases findByte_cases 0x3D part with ⟨hne, hfind⟩ | ⟨a, b, rfl, ha, hfind⟩
  · obtain ⟨htake, hdrop⟩ := span_ne_of_not_mem hne
    rw [hfind, htake, hdrop]
    rfl
  · obtain ⟨htake, hdrop⟩ := span_ne_append_cons b ha
    rw [hfind, htake, hdrop]
    simp

/-- Cutting an encoded pair at its first `=` separates the encoded key from the encoded
value, for any decoder. -/
theorem parsePart_encodePair (decode : Bytes → Bytes) (kv : Bytes × Bytes) :
    parsePart decode (encodePair kv) = (decode (urlencode kv.1), decode (urlencode kv.2)) := by
  have hfind : findByte 0x3D (encodePair kv) = some (urlencode kv.1).length :=
    findByte_append_cons _ (not_mem_urlencode kv.1).2
  unfold parsePart
  rw [hfind]
  simp [encodePair]

/-- A pair always has its equals sign. -/
theorem encodePair_ne_nil (kv : Bytes × Bytes) : encodePair kv ≠ [] := by
  simp [encodePair]

/-- A pair has no ampersand. -/
theorem not_mem_encodePair (kv : Bytes × Bytes) : (0x26 : UInt8) ∉ encodePair kv := by
  have hk := (not_mem_urlencode kv.1).1
  have hv := (not_mem_urlencode kv.2).1
  simp [encodePair, hk, hv]

/-- The `getline` loop visits exactly the pieces that were written. -/
theorem getlines_writeParams (params : Params) :
    getlines 0x26 (writeParams params) = params.toList.map encodePair := by
  refine getlines_intercalate _ ?_ ?_
  all_goals
    intro piece hpiece
    obtain ⟨kv, -, rfl⟩ := List.mem_map.mp hpiece
  · exact not_mem_encodePair kv
  · exact encodePair_ne_nil kv

/-! ### Writing a map and reading it back -/

/-- The parser reads a written map with one decoding pass on every key and value. -/
theorem parseQueryString_writeParams (params : Params) :
    parseQueryString (writeParams params) = rekey decodeOnce decodeOnce params := by
  unfold parseQueryString rekey
  rw [getlines_writeParams, List.map_map]
  congr 1
  refine List.map_congr_left fun kv _ => ?_
  show parsePart safeDoubleDecode (encodePair kv) = Prod.map decodeOnce decodeOnce kv
  rw [parsePart_encodePair]
  simp only [safeDoubleDecode, decodeOnce_urlencode]
  rfl

/-- A server reads a written map as it is. -/
theorem read_writeParams (params : Params) (k : Bytes) :
    FormQuery.read (writeParams params) k = params[k]? := by
  have hpieces : FormQuery.pieces (writeParams params) = params.toList.map encodePair := by
    unfold FormQuery.pieces
    rw [← getlines_filter_nonempty, getlines_writeParams, List.filter_eq_self]
    intro piece hpiece
    obtain ⟨kv, -, rfl⟩ := List.mem_map.mp hpiece
    simp [encodePair_ne_nil]
  have hpairs : (params.toList.map encodePair).map FormQuery.pair = params.toList := by
    rw [List.map_map]
    conv_rhs => rw [← List.map_id params.toList]
    refine List.map_congr_left fun kv _ => ?_
    show FormQuery.pair (encodePair kv) = kv
    rw [pair_eq_parsePart, parsePart_encodePair, decodeOnce_urlencode, decodeOnce_urlencode]
  unfold FormQuery.read
  rw [hpieces, hpairs, lookup_reverse_toList]

/-! ### The query of a rewritten URL -/

/-- The part before the query has no question mark. -/
theorem not_mem_baseOf (url : Bytes) : (0x3F : UInt8) ∉ baseOf url := by
  unfold baseOf
  rcases findByte_cases 0x3F url with ⟨hne, hfind⟩ | ⟨a, b, rfl, ha, hfind⟩
  · rw [hfind]
    exact hne
  · rw [hfind]
    simpa using ha

/-- The query is what stands behind the first question mark. -/
theorem queryOf_append_cons {base : Bytes} (h : (0x3F : UInt8) ∉ base) (qs : Bytes) :
    queryOf (base ++ 0x3F :: qs) = some qs := by
  unfold queryOf
  rw [findByte_append_cons qs h]
  simp

/-- The new query holds the old parameters and the new one. -/
theorem queryOf_setOrReplace (url key value : Bytes) :
    queryOf (setOrReplaceQueryParam url key value) =
      some (writeParams ((paramsOf url).insert key value)) :=
  queryOf_append_cons (not_mem_baseOf url) _

/-- The part before the query stays. -/
theorem baseOf_setOrReplace (url key value : Bytes) :
    baseOf (setOrReplaceQueryParam url key value) = baseOf url := by
  have hfind := findByte_append_cons (writeParams ((paramsOf url).insert key value))
    (not_mem_baseOf url)
  unfold setOrReplaceQueryParam
  conv_lhs => rw [baseOf, hfind]
  simp

/-- Reading the parameters of a rewritten URL: one more decoding pass on the parameters
before, the new one included. -/
theorem paramsOf_setOrReplace (url key value : Bytes) :
    paramsOf (setOrReplaceQueryParam url key value) =
      rekey decodeOnce decodeOnce ((paramsOf url).insert key value) := by
  unfold paramsOf
  rw [queryOf_setOrReplace, Option.getD_some, parseQueryString_writeParams]
  rfl

/-- Different parameters are written differently. -/
theorem writeParams_injective {p q : Params} (h : writeParams p = writeParams q) : p = q :=
  ExtTreeMap.ext_getElem? fun k => by rw [← read_writeParams, h, read_writeParams]

/-! ### Get after set -/

/-- What a lookup of `key` finds after one more decoding pass: the last entry in byte order
whose key decodes to `key` is there, and its value decodes to `value`. -/
def ReadsBack (params : Params) (key value : Bytes) : Prop :=
  ∃ k v, params[k]? = some v ∧ decodeOnce k = key ∧ decodeOnce v = value ∧
    ∀ k' v', params[k']? = some v' → compare k k' = .lt → decodeOnce k' ≠ key

/-- Reading the written map once more gives the value exactly if it reads back. -/
theorem rekey_getElem?_eq_some_iff_readsBack (params : Params) (key value : Bytes) :
    (rekey decodeOnce decodeOnce params)[key]? = some value ↔ ReadsBack params key value :=
  rekey_getElem?_eq_some_iff decodeOnce decodeOnce params key value

/-- Get after set gives `value` back exactly when the parameters of the URL, with `key` set
to `value`, still read `value` under `key` after one more decoding pass. -/
theorem queryParamFromUrl_setOrReplace_iff (url key value : Bytes) :
    queryParamFromUrl (setOrReplaceQueryParam url key value) key = some value ↔
      ReadsBack ((paramsOf url).insert key value) key value := by
  rw [← rekey_getElem?_eq_some_iff_readsBack, ← parseQueryString_writeParams]
  unfold queryParamFromUrl
  rw [queryOf_setOrReplace]

/-- A value that looks like an escape comes back decoded: `%41` is set, `A` is read. -/
theorem queryParamFromUrl_setOrReplace_escape :
    ¬ ∀ url key value : Bytes,
      queryParamFromUrl (setOrReplaceQueryParam url key value) key = some value := by
  intro h
  exact absurd (h (lit "https://h/p") (lit "n") (lit "%41")) (by decide)

/-! ### The other parameters -/

/-- The value in force under `k` when the keys and values of `parts` go through `decode`:
that of the last part whose key decodes to `k`. -/
def lastValue (decode : Bytes → Bytes) (parts : List Bytes) (k : Bytes) : Option Bytes :=
  (parts.map (parsePart decode)).reverse.lookup k

/-- A parameter is the last part with its key. -/
theorem paramsOf_getElem? (url k : Bytes) :
    (paramsOf url)[k]? =
      lastValue safeDoubleDecode (getlines 0x26 ((queryOf url).getD [])) k := by
  unfold paramsOf parseQueryString lastValue
  exact getElem?_ofEntries _ k

/-- The query of the source is the one a server cuts off. -/
theorem queryOf_getD_eq_dropWhile (url : Bytes) :
    (queryOf url).getD [] = (url.dropWhile (· ≠ 0x3F)).drop 1 := by
  unfold queryOf
  rcases findByte_cases 0x3F url with ⟨hne, hfind⟩ | ⟨a, b, rfl, ha, hfind⟩
  · rw [hfind, (span_ne_of_not_mem hne).2]
    rfl
  · rw [hfind, (span_ne_append_cons b ha).2]
    simp

/-- A server reads the query of the URL. -/
theorem readUrl_eq (url k : Bytes) :
    FormQuery.readUrl url k = FormQuery.read ((queryOf url).getD []) k := by
  rw [queryOf_getD_eq_dropWhile]
  rfl

/-- The standard reading of a query, in the terms of the source: one decoding pass over the
non-empty parts. -/
theorem read_eq_lastValue (qs k : Bytes) :
    FormQuery.read qs k =
      lastValue decodeOnce ((getlines 0x26 qs).filter (fun p => !p.isEmpty)) k := by
  unfold FormQuery.read FormQuery.pieces lastValue
  rw [← getlines_filter_nonempty]
  congr 2
  exact List.map_congr_left fun part _ => pair_eq_parsePart part

/-- A server reads the rewritten URL as the twice decoded parameters with `key` set. -/
theorem readUrl_setOrReplace (url key value k : Bytes) :
    FormQuery.readUrl (setOrReplaceQueryParam url key value) k =
      ((paramsOf url).insert key value)[k]? := by
  rw [readUrl_eq, queryOf_setOrReplace, Option.getD_some, read_writeParams]

/-- Setting `key` leaves the standard reading of every other parameter as it was exactly
when, away from `key`, decoding the parts of the query twice (an empty part being an empty
key) and decoding the non-empty parts once give the same value under every key. -/
theorem setOrReplace_frame_iff (url key value : Bytes) :
    (∀ k, k ≠ key → FormQuery.readUrl (setOrReplaceQueryParam url key value) k =
        FormQuery.readUrl url k) ↔
      ∀ k, k ≠ key →
        lastValue safeDoubleDecode (getlines 0x26 ((queryOf url).getD [])) k =
          lastValue decodeOnce
            ((getlines 0x26 ((queryOf url).getD [])).filter (fun p => !p.isEmpty)) k := by
  refine forall_congr' fun k => imp_congr_right fun hk => ?_
  rw [readUrl_setOrReplace, getElem?_insert_of_ne (Ne.symm hk), paramsOf_getElem?, readUrl_eq,
    read_eq_lastValue]

/-- A parameter nobody touched changes: in `?a=%2541` a server reads `%41` under `a`, and
after setting `n` it reads `A`. -/
theorem setOrReplace_frame_escape :
    ¬ ∀ url key value : Bytes, (0x23 : UInt8) ∉ url → ∀ k, k ≠ key →
      FormQuery.readUrl (setOrReplaceQueryParam url key value) k = FormQuery.readUrl url k := by
  intro h
  exact absurd (h (lit "https://h/p?a=%2541") (lit "n") (lit "1") (by decide) (lit "a")
    (by decide)) (by decide)

/-! ### Two sets -/

/-- The URL after two sets: the first one is read back through a decoding pass, the second
one is written on top. -/
theorem setOrReplace_setOrReplace (url k₁ v₁ k₂ v₂ : Bytes) :
    setOrReplaceQueryParam (setOrReplaceQueryParam url k₁ v₁) k₂ v₂ =
      baseOf url ++ 0x3F :: writeParams
        ((rekey decodeOnce decodeOnce ((paramsOf url).insert k₁ v₁)).insert k₂ v₂) := by
  conv_lhs => rw [setOrReplaceQueryParam, baseOf_setOrReplace, paramsOf_setOrReplace]

/-- Two sets commute exactly when their maps of parameters do. -/
theorem setOrReplace_comm_iff_params (url k₁ v₁ k₂ v₂ : Bytes) :
    setOrReplaceQueryParam (setOrReplaceQueryParam url k₁ v₁) k₂ v₂ =
        setOrReplaceQueryParam (setOrReplaceQueryParam url k₂ v₂) k₁ v₁ ↔
      (rekey decodeOnce decodeOnce ((paramsOf url).insert k₁ v₁)).insert k₂ v₂ =
        (rekey decodeOnce decodeOnce ((paramsOf url).insert k₂ v₂)).insert k₁ v₁ := by
  rw [setOrReplace_setOrReplace, setOrReplace_setOrReplace]
  constructor
  · intro h
    exact writeParams_injective (List.cons.inj (List.append_cancel_left h)).2
  · intro h
    rw [h]

/-- Setting two different keys commutes exactly when each value reads back under its own
key, and every third key reads the same after either set. -/
theorem setOrReplace_comm_iff {url k₁ v₁ k₂ v₂ : Bytes} (hne : k₁ ≠ k₂) :
    setOrReplaceQueryParam (setOrReplaceQueryParam url k₁ v₁) k₂ v₂ =
        setOrReplaceQueryParam (setOrReplaceQueryParam url k₂ v₂) k₁ v₁ ↔
      ReadsBack ((paramsOf url).insert k₁ v₁) k₁ v₁ ∧
      ReadsBack ((paramsOf url).insert k₂ v₂) k₂ v₂ ∧
      ∀ k, k ≠ k₁ → k ≠ k₂ →
        (rekey decodeOnce decodeOnce ((paramsOf url).insert k₁ v₁))[k]? =
          (rekey decodeOnce decodeOnce ((paramsOf url).insert k₂ v₂))[k]? := by
  rw [setOrReplace_comm_iff_params, ← rekey_getElem?_eq_some_iff_readsBack,
    ← rekey_getElem?_eq_some_iff_readsBack]
  generalize rekey decodeOnce decodeOnce ((paramsOf url).insert k₁ v₁) = m₁
  generalize rekey decodeOnce decodeOnce ((paramsOf url).insert k₂ v₂) = m₂
  constructor
  · intro h
    refine ⟨?_, ?_, ?_⟩
    · rw [← getElem?_insert_of_ne hne.symm m₁ v₂, h, ExtTreeMap.getElem?_insert_self]
    · rw [← getElem?_insert_of_ne hne m₂ v₁, ← h, ExtTreeMap.getElem?_insert_self]
    · intro k h1 h2
      rw [← getElem?_insert_of_ne h2.symm m₁ v₂, h, getElem?_insert_of_ne h1.symm]
  · rintro ⟨h1, h2, hrest⟩
    refine ExtTreeMap.ext_getElem? fun k => ?_
    by_cases hk1 : k = k₁
    · subst hk1
      rw [getElem?_insert_of_ne hne.symm, h1, ExtTreeMap.getElem?_insert_self]
    · by_cases hk2 : k = k₂
      · subst hk2
        rw [getElem?_insert_of_ne hne, h2, ExtTreeMap.getElem?_insert_self]
      · rw [getElem?_insert_of_ne (Ne.symm hk2), getElem?_insert_of_ne (Ne.symm hk1),
          hrest k hk1 hk2]

/-- Setting one key twice keeps the last value, so the order matters unless the values
are equal. -/
theorem setOrReplace_comm_same_iff (url k v₁ v₂ : Bytes) :
    setOrReplaceQueryParam (setOrReplaceQueryParam url k v₁) k v₂ =
        setOrReplaceQueryParam (setOrReplaceQueryParam url k v₂) k v₁ ↔ v₁ = v₂ := by
  constructor
  · intro h
    rw [setOrReplace_comm_iff_params] at h
    have hk := congrArg (fun m : Params => m[k]?) h
    simp only [ExtTreeMap.getElem?_insert_self, Option.some.injEq] at hk
    exact hk.symm
  · rintro rfl
    rfl

end EjsBoundary.Proofs
