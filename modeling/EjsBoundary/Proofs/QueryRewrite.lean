import EjsBoundary.Proofs.UrlQuery

/-!
# `EjsBoundary.Proofs.QueryRewrite`: the form of a rewritten URL, and sets in sequence

Two results about `setOrReplaceQueryParam`, both over the maps of
`EjsBoundary.Proofs.UrlQuery`:

* `setOrReplace_form`: what is written. The base, `?`, and a query in the encoded form of
  `EjsBoundary.Lib.FormQuery`; splitting it at `&` and at the first `=` and percent-decoding
  once lists the entries of the map in strictly increasing byte order.
* `setOrReplace_stable_laws`: on parameters that a decoding pass leaves alone, the sets
  behave like assignments to a map. Two sets of different keys commute, a second set of a key
  hides the first, and a whole sequence leaves a URL that only the last value of each key
  decides (`setAll_eq`).

The second result is where the double decoding of `parseQueryString` does no harm: a stable
map is a fixed point of `rekey decodeOnce decodeOnce`, and `StableParams.insert` keeps it so
from one set to the next.
-/

set_option autoImplicit false

namespace EjsBoundary.Proofs

open EjsBoundary.Lib
open EjsBoundary.Model
open Std (ExtTreeMap)

/-! ### The written query -/

/-- What `urlencode` writes for a byte is an unreserved byte or an upper case escape. -/
theorem urlencodeByte_form (c : UInt8) :
    (isUnreserved c = true → FormQuery.Unreserved c) ∧
      FormQuery.UpperHex (hexUpper (c >>> 4)) ∧ FormQuery.UpperHex (hexUpper (c &&& 0x0F)) ∧
      ∀ x ∈ urlencodeByte c, x ≠ 0x2B :=
  forall_byte (p := fun c => (isUnreserved c = true → FormQuery.Unreserved c) ∧
    FormQuery.UpperHex (hexUpper (c >>> 4)) ∧ FormQuery.UpperHex (hexUpper (c &&& 0x0F)) ∧
    ∀ x ∈ urlencodeByte c, x ≠ 0x2B) (by decide) c

/-- What the source encodes is encoded. -/
theorem encoded_urlencode (s : Bytes) : FormQuery.Encoded (urlencode s) := by
  induction s with
  | nil => exact .nil
  | cons c s ih =>
    obtain ⟨hplain, hhi, hlo, -⟩ := urlencodeByte_form c
    show FormQuery.Encoded (urlencodeByte c ++ urlencode s)
    unfold urlencodeByte
    by_cases hc : isUnreserved c = true
    · rw [if_pos hc]
      exact .plain (hplain hc) ih
    · rw [if_neg hc]
      exact .escape hhi hlo ih

/-- So is a pair. -/
theorem encoded_encodePair (kv : Bytes × Bytes) : FormQuery.Encoded (encodePair kv) :=
  (encoded_urlencode kv.1).append (.separator (Or.inr rfl) (encoded_urlencode kv.2))

/-- Joining the pieces with `&` keeps the form. -/
theorem encoded_writeParams (params : Params) : FormQuery.Encoded (writeParams params) := by
  unfold writeParams
  generalize params.toList = l
  induction l with
  | nil => exact .nil
  | cons kv l ih =>
    cases l with
    | nil =>
      show FormQuery.Encoded ([0x26].intercalate [encodePair kv])
      rw [List.intercalate_singleton]
      exact encoded_encodePair kv
    | cons kv' l =>
      rw [List.map_cons, List.map_cons, List.intercalate_cons_cons, List.append_assoc]
      exact (encoded_encodePair kv).append (.separator (Or.inl rfl) ih)

/-- An encoded text has no plus sign. -/
theorem plus_not_mem_urlencode (s : Bytes) : (0x2B : UInt8) ∉ urlencode s := by
  intro h
  obtain ⟨c, -, hc⟩ := List.mem_flatMap.mp h
  exact (urlencodeByte_form c).2.2.2 _ hc rfl

/-- Percent-decoding, which leaves `+` alone, undoes the encoding as well. -/
theorem percentDecode_urlencode (s : Bytes) : FormQuery.percentDecode (urlencode s) = s := by
  rw [← FormQuery.decode_eq_percentDecode (plus_not_mem_urlencode s), ← decodeOnce_eq_decode,
    decodeOnce_urlencode]

/-- Splitting a written map at `&` and at the first `=` and percent-decoding once lists its
entries. -/
theorem entries_writeParams {params : Params} (hne : params.toList ≠ []) :
    FormQuery.entries (writeParams params) = params.toList := by
  have hsplit : (writeParams params).splitOn 0x26 = params.toList.map encodePair := by
    refine List.splitOn_intercalate _ (fun piece hpiece => ?_) (by simpa using hne)
    obtain ⟨kv, -, rfl⟩ := List.mem_map.mp hpiece
    exact not_mem_encodePair kv
  unfold FormQuery.entries
  rw [hsplit, List.map_map]
  conv_rhs => rw [← List.map_id params.toList]
  refine List.map_congr_left fun kv _ => ?_
  obtain ⟨htake, hdrop⟩ := span_ne_append_cons (urlencode kv.2) (not_mem_urlencode kv.1).2
  show (FormQuery.percentDecode ((encodePair kv).takeWhile (· ≠ 0x3D)),
    FormQuery.percentDecode (((encodePair kv).dropWhile (· ≠ 0x3D)).drop 1)) = kv
  rw [show encodePair kv = urlencode kv.1 ++ 0x3D :: urlencode kv.2 from rfl, htake, hdrop,
    List.drop_succ_cons, List.drop_zero, percentDecode_urlencode, percentDecode_urlencode]

/-- The order of the map is the lexicographic order of the bytes. -/
theorem lex_of_compare_eq_lt {a b : Bytes} (h : compare a b = .lt) : List.Lex (· < ·) a b := by
  induction a generalizing b with
  | nil =>
    cases b with
    | nil => simp at h
    | cons y b => exact .nil
  | cons x a ih =>
    cases b with
    | nil => cases h
    | cons y b =>
      rw [List.compare_cons_cons, Ordering.then_eq_lt] at h
      rcases h with hlt | ⟨heq, hrest⟩
      · exact .rel (compareOfLessAndEq_eq_lt.mp hlt)
      · rw [Std.LawfulEqOrd.compare_eq_iff_eq] at heq
        exact heq ▸ .cons (ih hrest)

/-- The text before the first `?`, cut as a reader of the URL cuts it. -/
theorem baseOf_eq_takeWhile (url : Bytes) : baseOf url = url.takeWhile (· ≠ 0x3F) := by
  unfold baseOf
  rcases findByte_cases 0x3F url with ⟨hne, hfind⟩ | ⟨a, b, rfl, ha, hfind⟩
  · rw [hfind, (span_ne_of_not_mem hne).1]
  · rw [hfind, (span_ne_append_cons b ha).1]
    simp

/-- What a set writes: the part of the URL before its first `?`, then `?`, then an encoded
query whose segments, percent-decoded once, are the entries of the parsed query with `key` set
to `value`, in strictly increasing order of their keys. -/
theorem setOrReplace_form (url key value : Bytes) :
    ∃ query : Bytes,
      setOrReplaceQueryParam url key value = url.takeWhile (· ≠ 0x3F) ++ 0x3F :: query ∧
      FormQuery.Encoded query ∧
      (FormQuery.entries query).Pairwise (fun x y => List.Lex (· < ·) x.1 y.1) ∧
      ∀ k v, (k, v) ∈ FormQuery.entries query ↔
        ((parseQueryString ((url.dropWhile (· ≠ 0x3F)).drop 1)).insert key value)[k]? =
          some v := by
  rw [← queryOf_getD_eq_dropWhile, ← baseOf_eq_takeWhile]
  show ∃ query : Bytes, _ ∧ _ ∧ _ ∧ ∀ k v, _ ↔ ((paramsOf url).insert key value)[k]? = some v
  have hne : ((paramsOf url).insert key value).toList ≠ [] := by
    intro hnil
    have hmem : (key, value) ∈ ((paramsOf url).insert key value).toList :=
      ExtTreeMap.mem_toList_iff_getElem?_eq_some.mpr ExtTreeMap.getElem?_insert_self
    rw [hnil] at hmem
    cases hmem
  have hentries := entries_writeParams hne
  refine ⟨writeParams ((paramsOf url).insert key value), rfl, encoded_writeParams _, ?_, ?_⟩
  · rw [hentries]
    exact ExtTreeMap.ordered_keys_toList.imp fun hlt => lex_of_compare_eq_lt hlt
  · intro k v
    rw [hentries]
    exact ExtTreeMap.mem_toList_iff_getElem?_eq_some

/-! ### Sets on stable parameters -/

/-- One pass of the decoder leaves the text alone. -/
def Stable (s : Bytes) : Prop := decodeOnce s = s

/-- Every key and every value of the map is stable. -/
def StableParams (params : Params) : Prop := ∀ k v, params[k]? = some v → Stable k ∧ Stable v

/-- Stability of a map is a check of its entries. -/
theorem stableParams_of_toList {params : Params}
    (h : ∀ kv ∈ params.toList, decodeOnce kv.1 = kv.1 ∧ decodeOnce kv.2 = kv.2) :
    StableParams params :=
  fun k v hget => h (k, v) (ExtTreeMap.mem_toList_iff_getElem?_eq_some.mpr hget)

/-- Setting a stable key to a stable value keeps the map stable. -/
theorem StableParams.insert {params : Params} (h : StableParams params) {key value : Bytes}
    (hk : Stable key) (hv : Stable value) : StableParams (params.insert key value) :=
  forall_getElem?_insert h ⟨hk, hv⟩

/-- On stable parameters a set is an assignment: what it writes is read back as it is. -/
theorem paramsOf_setOrReplace_of_stable {url key value : Bytes} (h : StableParams (paramsOf url))
    (hk : Stable key) (hv : Stable value) :
    paramsOf (setOrReplaceQueryParam url key value) = (paramsOf url).insert key value := by
  rw [paramsOf_setOrReplace]
  exact rekey_eq_self (h.insert hk hv)

/-- The sets of a sequence, one after the other. -/
def setAll (url : Bytes) (sets : List (Bytes × Bytes)) : Bytes :=
  sets.foldl (fun u kv => setOrReplaceQueryParam u kv.1 kv.2) url

/-- The keys and values of a sequence of sets are stable. -/
def StableSets (sets : List (Bytes × Bytes)) : Prop := ∀ kv ∈ sets, Stable kv.1 ∧ Stable kv.2

/-- A non-empty sequence of sets writes the map that the same assignments make of the
parameters. -/
theorem setAll_eq {url : Bytes} {sets : List (Bytes × Bytes)} (h : StableParams (paramsOf url))
    (hs : StableSets sets) (hne : sets ≠ []) :
    setAll url sets = baseOf url ++ 0x3F ::
      writeParams (sets.foldl (fun m kv => m.insert kv.1 kv.2) (paramsOf url)) := by
  induction sets generalizing url with
  | nil => exact absurd rfl hne
  | cons kv sets ih =>
    obtain ⟨hk, hv⟩ := hs kv List.mem_cons_self
    have hparams := paramsOf_setOrReplace_of_stable h hk hv
    have hrest : StableSets sets := fun x hx => hs x (List.mem_cons_of_mem kv hx)
    show setAll (setOrReplaceQueryParam url kv.1 kv.2) sets = _
    cases sets with
    | nil => rfl
    | cons kv' sets =>
      -- Stability is carried to the URL after the first set, where the rest of the sequence runs.
      rw [ih (hparams ▸ h.insert hk hv) hrest (by simp), baseOf_setOrReplace, hparams]
      rfl

/-- The value a sequence of sets writes last under a key. -/
def lastWritten (sets : List (Bytes × Bytes)) (k : Bytes) : Option Bytes :=
  sets.reverse.lookup k

/-- Sets that write nothing are none. -/
theorem eq_nil_of_lastWritten {sets : List (Bytes × Bytes)} (h : ∀ k, lastWritten sets k = none) :
    sets = [] := by
  cases sets with
  | nil => rfl
  | cons kv sets =>
    have hnone := List.lookup_eq_none_iff.mp (h kv.1) kv (by simp)
    simp at hnone

/-- Two sequences that write the same last values leave the same URL. -/
theorem setAll_congr {url : Bytes} {sets sets' : List (Bytes × Bytes)}
    (h : StableParams (paramsOf url)) (hs : StableSets sets) (hs' : StableSets sets')
    (hlast : ∀ k, lastWritten sets k = lastWritten sets' k) :
    setAll url sets = setAll url sets' := by
  by_cases hne : sets = []
  · subst hne
    rw [eq_nil_of_lastWritten fun k => (hlast k).symm]
  · have hne' : sets' ≠ [] := by
      intro hnil
      subst hnil
      exact hne (eq_nil_of_lastWritten hlast)
    have hmap : sets.foldl (fun (m : Params) kv => m.insert kv.1 kv.2) (paramsOf url) =
        sets'.foldl (fun m kv => m.insert kv.1 kv.2) (paramsOf url) := by
      refine ExtTreeMap.ext_getElem? fun k => ?_
      rw [getElem?_foldl_insert, getElem?_foldl_insert]
      exact congrArg (fun o => Option.or o (paramsOf url)[k]?) (hlast k)
    rw [setAll_eq h hs hne, setAll_eq h hs' hne', hmap]

/-- The laws of sets on a URL whose parameters are stable: different keys commute, the last set
of a key hides the one before, and a sequence leaves a URL that depends only on the last value
written to each key. -/
theorem setOrReplace_stable_laws {url : Bytes} (h : StableParams (paramsOf url)) :
    (∀ k₁ v₁ k₂ v₂, k₁ ≠ k₂ → Stable k₁ → Stable v₁ → Stable k₂ → Stable v₂ →
      setOrReplaceQueryParam (setOrReplaceQueryParam url k₁ v₁) k₂ v₂ =
        setOrReplaceQueryParam (setOrReplaceQueryParam url k₂ v₂) k₁ v₁) ∧
    (∀ k v₁ v₂, Stable k → Stable v₁ → Stable v₂ →
      setOrReplaceQueryParam (setOrReplaceQueryParam url k v₁) k v₂ =
        setOrReplaceQueryParam url k v₂) ∧
    ∀ sets sets', StableSets sets → StableSets sets' →
      (∀ k, lastWritten sets k = lastWritten sets' k) → setAll url sets = setAll url sets' := by
  refine ⟨?_, ?_, fun sets sets' hs hs' hlast => setAll_congr h hs hs' hlast⟩
  · -- Two sets are a sequence of length two; with different keys the order does not show.
    intro k₁ v₁ k₂ v₂ hne hk₁ hv₁ hk₂ hv₂
    have hpair : ∀ {k v k' v'}, Stable k → Stable v → Stable k' → Stable v' →
        StableSets [(k, v), (k', v')] := by
      intro k v k' v' hk hv hk' hv' kv hkv
      simp only [List.mem_cons, List.not_mem_nil, or_false] at hkv
      rcases hkv with rfl | rfl
      · exact ⟨hk, hv⟩
      · exact ⟨hk', hv'⟩
    refine setAll_congr h (hpair hk₁ hv₁ hk₂ hv₂) (hpair hk₂ hv₂ hk₁ hv₁) fun k => ?_
    show [(k₂, v₂), (k₁, v₁)].lookup k = [(k₁, v₁), (k₂, v₂)].lookup k
    by_cases hk : k = k₁
    · subst hk
      simp only [List.lookup_cons, beq_false_of_ne hne, BEq.rfl]
    · simp only [List.lookup_cons, beq_false_of_ne hk]
  · intro k v₁ v₂ hk hv₁ hv₂
    show setAll url [(k, v₁), (k, v₂)] = setAll url [(k, v₂)]
    refine setAll_congr h ?_ ?_ fun k' => ?_
    · intro kv hkv
      simp only [List.mem_cons, List.not_mem_nil, or_false] at hkv
      rcases hkv with rfl | rfl
      · exact ⟨hk, hv₁⟩
      · exact ⟨hk, hv₂⟩
    · intro kv hkv
      rw [List.mem_singleton] at hkv
      exact hkv ▸ ⟨hk, hv₂⟩
    · show [(k, v₂), (k, v₁)].lookup k' = [(k, v₂)].lookup k'
      simp only [List.lookup_cons, List.lookup_nil]
      cases k' == k <;> rfl

/-- Setting `n` and then `sig` in a URL that carries `a` and `n`, in either order. -/
theorem setOrReplace_stable_laws_pair :
    setOrReplaceQueryParam (setOrReplaceQueryParam (lit "https://h/p?n=1&a=b") (lit "n") (lit "2"))
        (lit "sig") (lit "x/y") =
      setOrReplaceQueryParam
        (setOrReplaceQueryParam (lit "https://h/p?n=1&a=b") (lit "sig") (lit "x/y"))
        (lit "n") (lit "2") :=
  (setOrReplace_stable_laws (stableParams_of_toList (by decide))).1 _ _ _ _ (by decide)
    (by unfold Stable; decide) (by unfold Stable; decide) (by unfold Stable; decide)
    (by unfold Stable; decide)

end EjsBoundary.Proofs
