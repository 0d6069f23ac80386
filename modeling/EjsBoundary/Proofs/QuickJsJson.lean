import EjsBoundary.Model.QuickJsJson

/-!
# `EjsBoundary.Proofs.QuickJsJson`: what comes back from JavaScript

`jsToJson_jsonToJs`: a JSON value of any depth that is `Convertible` means the same after
`json_to_js_qjs` and `js_to_json_qjs`. Its integers come back as reals of equal value, whichever
branch they took.

An object is taken apart into assignments and put together again from what JavaScript enumerates.
The enumeration has another order, but it has the same properties, and the members of a JSON
object stand in key order however they were assigned.
-/

set_option autoImplicit false

namespace EjsBoundary.Proofs

open EjsBoundary.Lib
open EjsBoundary.Model

/-! ### The values that are converted -/

/-- Valid UTF-8 without NUL. -/
def PlainText (s : Bytes) : Prop := (Utf8.decode? s).isSome = true ∧ (0 : UInt8) ∉ s

/-- Built from null, booleans, integers of magnitude at most 2^53, reals, plain texts, arrays, and
objects whose keys are plain texts other than `__proto__`. The members of an object stand in the
order of a `std::map`, with one member for a key. -/
inductive Convertible : Json → Prop where
  | null : Convertible .null
  | bool (b : Bool) : Convertible (.bool b)
  | int {i : Int} (h : i.natAbs ≤ 2 ^ 53) : Convertible (.int i)
  | uint {n : Nat} (h : n ≤ 2 ^ 53) : Convertible (.uint n)
  | real (d : Double) : Convertible (.real d)
  | string {s : Bytes} (h : PlainText s) : Convertible (.string s)
  | array {elems : List Json} (h : ∀ v ∈ elems, Convertible v) : Convertible (.array elems)
  | object {members : List (Bytes × Json)}
      (hsorted : members.Pairwise fun a b => compare a.1 b.1 = .lt)
      (hkeys : ∀ m ∈ members, PlainText m.1 ∧ m.1 ≠ lit "__proto__")
      (h : ∀ m ∈ members, Convertible m.2) : Convertible (.object members)

/-! ### Texts -/

/-- A plain text is some text's UTF-8 encoding and becomes its UTF-16 units. -/
theorem newString_eq (repair : Bytes → JsString) {s : Bytes} (h : PlainText s) :
    ∃ text, s = Utf8.encode text ∧ newString repair s = Utf16.encode text := by
  obtain ⟨text, htext⟩ := Utf8.exists_encode_of_isSome h.1
  refine ⟨text, htext.symm, ?_⟩
  rw [newString, (cString_eq_self_iff s).mpr h.2, ← htext, Utf8.decode?_encode]

/-- A plain text comes back. -/
theorem toCString_newString (repair : Bytes → JsString) {s : Bytes} (h : PlainText s) :
    toCString (newString repair s) = s := by
  obtain ⟨text, hs, hnew⟩ := newString_eq repair h
  rw [hnew, toCString, Utf16.toUtf8_encode, ← hs, (cString_eq_self_iff s).mpr h.2]

/-- The encoding of a text without NUL is plain. -/
theorem plainText_encode {text : List Char} (h : Char.ofNat 0 ∉ text) :
    PlainText (Utf8.encode text) :=
  ⟨by rw [Utf8.decode?_encode]; rfl, fun hmem => h ((zero_mem_encode_iff text).mp hmem)⟩

/-! ### Numbers -/

/-- A number made from a double comes back as that double. -/
theorem jsToJson_newFloat64 (d : Double) : jsToJsonQjs (newFloat64 d) = .real d := by
  unfold newFloat64
  split
  · split
    · rename_i hint
      rw [jsToJsonQjs, hint.2.2]
    · rfl
  · rfl

/-- A number made from an unsigned one comes back as a double. -/
theorem jsToJson_newUint32 (n : Nat) : jsToJsonQjs (newUint32 n) = .real (Double.ofInt n) := by
  unfold newUint32
  split
  · rfl
  · rfl

/-- What the test for a range says of an integer. -/
theorem isIntegerIn_of_integer {v : Json} {i lo hi : Int} (hint : v.integer? = some i)
    (h : v.isIntegerIn lo hi = true) : lo ≤ i ∧ i < hi := by
  rw [Json.isIntegerIn, hint] at h
  simpa using h

/-- Whichever branch a number takes, it comes back as the double of its integer or as its own
double. -/
theorem jsToJson_numberToJs (v : Json) :
    (∃ i, v.integer? = some i ∧ i.natAbs ≤ 2 ^ 53 ∧
      jsToJsonQjs (numberToJs v) = .real (Double.ofInt i)) ∨
    jsToJsonQjs (numberToJs v) = .real v.asDouble := by
  unfold numberToJs
  split
  · rename_i hisInt
    cases hint : v.integer? with
    | none => simp [Json.isInt, Json.isIntegerIn, hint] at hisInt
    | some i =>
      have hrange := isIntegerIn_of_integer hint hisInt
      refine Or.inl ⟨i, rfl, by omega, ?_⟩
      rw [Json.asInt, hint]
      rfl
  split
  · rename_i hisUInt
    cases hint : v.integer? with
    | none => simp [Json.isUInt, Json.isIntegerIn, hint] at hisUInt
    | some i =>
      have hrange := isIntegerIn_of_integer hint hisUInt
      refine Or.inl ⟨i, rfl, by omega, ?_⟩
      rw [Json.asUInt, hint, jsToJson_newUint32]
      show Json.real (Double.ofInt (i.toNat : Int)) = _
      rw [Int.toNat_of_nonneg hrange.1]
  split
  · exact Or.inr (jsToJson_newFloat64 _)
  · exact Or.inr (jsToJson_newFloat64 _)

/-- Up to 2^53 the double of an integer means the integer. -/
theorem meaning_ofInt {i : Int} (h : i.natAbs ≤ 2 ^ 53) :
    (Json.real (Double.ofInt i)).meaning = .number i := by
  rw [Json.meaning, Double.value_ofInt h]

/-- A double that is an integer means the integer. -/
theorem meaning_of_integer {d : Double} {i : Int} (h : d.integer? = some i) :
    (Json.real d).meaning = .number i := by
  unfold Double.integer? at h
  split at h
  · rename_i q hq
    split at h
    · rename_i hden
      cases h
      rw [Json.meaning, hq]
      exact congrArg _ (Rat.den_eq_one_iff q |>.mp hden).symm
    · cases h
  · cases h

/-- A number comes back with its meaning. -/
theorem meaning_number {v : Json} {i : Int} (hint : v.integer? = some i) (hi : i.natAbs ≤ 2 ^ 53)
    (hdouble : v.asDouble = Double.ofInt i) :
    (jsToJsonQjs (numberToJs v)).meaning = .number i := by
  rcases jsToJson_numberToJs v with ⟨j, hj, -, hback⟩ | hback
  · rw [hint, Option.some.injEq] at hj
    rw [hback, ← hj, meaning_ofInt hi]
  · rw [hback, hdouble, meaning_ofInt hi]

/-- A double keeps its meaning. -/
theorem meaning_real (d : Double) :
    (jsToJsonQjs (numberToJs (.real d))).meaning = (Json.real d).meaning := by
  rcases jsToJson_numberToJs (.real d) with ⟨i, hi, hle, hback⟩ | hback
  · rw [hback, meaning_ofInt hle, meaning_of_integer hi]
  · rw [hback]
    rfl

/-! ### Arrays and objects -/

section
variable (repair : Bytes → JsString)

/-- The elements are converted one by one. -/
theorem jsonToJsElems_eq (elems : List Json) :
    jsonToJsElems repair elems = elems.map (jsonToJsQjs repair) := by
  induction elems with
  | nil => rfl
  | cons v vs ih => rw [jsonToJsElems, ih, List.map_cons]

/-- So are the members, with their keys. -/
theorem jsonToJsMembers_eq (members : List (Bytes × Json)) :
    jsonToJsMembers repair members =
      members.map fun m => (newString repair m.1, jsonToJsQjs repair m.2) := by
  induction members with
  | nil => rfl
  | cons m ms ih =>
    obtain ⟨name, v⟩ := m
    rw [jsonToJsMembers, jsonToJsMember, ih, List.map_cons]

/-- And the way back, for the elements. -/
theorem jsToJsonElems_eq (elems : List JsValue) : jsToJsonElems elems = elems.map jsToJsonQjs := by
  induction elems with
  | nil => rfl
  | cons v vs ih => rw [jsToJsonElems, ih, List.map_cons]

/-- And for the properties. -/
theorem jsToJsonProps_eq (props : List (JsString × JsValue)) :
    jsToJsonProps props = props.map fun p => (p.1, jsToJsonQjs p.2) := by
  induction props with
  | nil => rfl
  | cons p ps ih =>
    obtain ⟨key, v⟩ := p
    rw [jsToJsonProps, jsToJsonProp, ih, List.map_cons]

/-- The properties that the members of an object become, when each key comes back. -/
theorem jsonToJs_object {members : List (Bytes × Json)}
    (hsorted : members.Pairwise fun a b => compare a.1 b.1 = .lt)
    (hback : ∀ m ∈ members, toCString (newString repair m.1) = m.1)
    (hproto : ∀ m ∈ members, m.1 ≠ lit "__proto__") :
    jsonToJsQjs repair (.object members) =
      .object (members.map fun m => (newString repair m.1, jsonToJsQjs repair m.2)) := by
  rw [jsonToJsQjs, jsonToJsMembers_eq]
  refine congrArg JsValue.object (foldl_setProperty ?_ ?_)
  · -- Different keys stay different, since each comes back.
    rw [List.map_map]
    refine List.pairwise_map.mpr (hsorted.imp_of_mem fun {a b} ha hb hlt heq => ?_)
    have hsame := congrArg toCString heq
    change toCString (newString repair a.1) = toCString (newString repair b.1) at hsame
    rw [hback a ha, hback b hb] at hsame
    rw [hsame, Std.LawfulEqOrd.compare_eq_iff_eq.mpr rfl] at hlt
    cases hlt
  · rw [List.map_map, List.mem_map]
    intro ⟨m, hm, heq⟩
    have hkey := hback m hm
    change newString repair m.1 = protoKey at heq
    rw [heq] at hkey
    exact hproto m hm hkey.symm

/-- What the members of an object come back as: the same keys, in the same order. -/
theorem jsToJson_jsonToJs_members {members : List (Bytes × Json)}
    (hsorted : members.Pairwise fun a b => compare a.1 b.1 = .lt)
    (hback : ∀ m ∈ members, toCString (newString repair m.1) = m.1)
    (hproto : ∀ m ∈ members, m.1 ≠ lit "__proto__") :
    jsToJsonQjs (jsonToJsQjs repair (.object members)) =
      .object (members.map fun m => (m.1, jsToJsonQjs (jsonToJsQjs repair m.2))) := by
  have hprops : jsToJsonProps (members.map fun m => (newString repair m.1, jsonToJsQjs repair m.2)) =
      members.map fun m => (newString repair m.1, jsToJsonQjs (jsonToJsQjs repair m.2)) := by
    rw [jsToJsonProps_eq, List.map_map]
    rfl
  have hkeys : (members.map fun m =>
      (newString repair m.1, jsToJsonQjs (jsonToJsQjs repair m.2))).map
        (fun p => (toCString p.1, p.2)) =
      members.map fun m => (m.1, jsToJsonQjs (jsonToJsQjs repair m.2)) := by
    rw [List.map_map]
    refine List.map_congr_left fun m hm => ?_
    show (toCString (newString repair m.1), _) = _
    rw [hback m hm]
  rw [jsonToJs_object repair hsorted hback hproto, jsToJsonQjs, hprops]
  -- JavaScript has its own order, but a JSON object is in key order.
  refine congrArg Json.object (toList_ofEntries_of_perm (List.pairwise_map.mpr hsorted) ?_)
  rw [← hkeys]
  exact (ownProperties_perm _).map _

/-- Plain keys come back. -/
theorem jsToJson_jsonToJs_object {members : List (Bytes × Json)}
    (hsorted : members.Pairwise fun a b => compare a.1 b.1 = .lt)
    (hkeys : ∀ m ∈ members, PlainText m.1 ∧ m.1 ≠ lit "__proto__") :
    jsToJsonQjs (jsonToJsQjs repair (.object members)) =
      .object (members.map fun m => (m.1, jsToJsonQjs (jsonToJsQjs repair m.2))) :=
  jsToJson_jsonToJs_members repair hsorted (fun m hm => toCString_newString repair (hkeys m hm).1)
    fun m hm => (hkeys m hm).2

/-- A value of any depth comes back with its meaning. -/
theorem jsToJson_jsonToJs {v : Json} (h : Convertible v) :
    (jsToJsonQjs (jsonToJsQjs repair v)).meaning = v.meaning := by
  induction h with
  | null => rfl
  | bool b => rfl
  | int hi =>
    rw [jsonToJsQjs, meaning_number rfl hi rfl]
    rfl
  | uint hn =>
    rw [jsonToJsQjs, meaning_number rfl (by simpa using hn) rfl]
    rfl
  | real d => rw [jsonToJsQjs, meaning_real]
  | string hs => rw [jsonToJsQjs, jsToJsonQjs, toCString_newString repair hs]
  | array _ ih =>
    rw [jsonToJsQjs, jsonToJsElems_eq, jsToJsonQjs, jsToJsonElems_eq, List.map_map, Json.meaning,
      Json.meaning, Json.meaningElems_eq, Json.meaningElems_eq, List.map_map]
    exact congrArg Json.Meaning.array (List.map_congr_left ih)
  | object hsorted hkeys _ ih =>
    rw [jsToJson_jsonToJs_object repair hsorted hkeys, Json.meaning, Json.meaning,
      Json.meaningMembers_eq, Json.meaningMembers_eq, List.map_map]
    refine congrArg Json.Meaning.object (List.map_congr_left fun m hm => ?_)
    exact congrArg (Prod.mk m.1) (ih m hm)

end

/-- Keys that JavaScript enumerates in another order, an array and an object that are empty, a
null member, and a text outside of ASCII. -/
def nestedJson : Json :=
  .object
    [(Utf8.encode "10".toList, .array []),
     (Utf8.encode "9".toList, .null),
     (Utf8.encode "a".toList, .array [.int (-2 ^ 53), .uint (2 ^ 32), .object []]),
     (Utf8.encode "b".toList, .string (Utf8.encode "ü😀".toList))]

/-- A nested value with every kind of leaf comes back. -/
theorem jsToJson_jsonToJs_nested : Convertible nestedJson ∧
    (jsToJsonQjs (jsonToJsQjs (fun _ => []) nestedJson)).meaning = nestedJson.meaning := by
  have hnested : Convertible nestedJson := by
    refine Convertible.object (by decide) ?_ ?_
    · simp only [List.forall_mem_cons, List.not_mem_nil, false_imp_iff, implies_true, and_true]
      refine ⟨⟨plainText_encode (by decide), by decide⟩, ⟨plainText_encode (by decide), by decide⟩,
        ⟨plainText_encode (by decide), by decide⟩, plainText_encode (by decide), by decide⟩
    · simp only [List.forall_mem_cons, List.not_mem_nil, false_imp_iff, implies_true, and_true]
      refine ⟨.array (by simp), .null, .array ?_, .string (plainText_encode (by decide))⟩
      simp only [List.forall_mem_cons, List.not_mem_nil, false_imp_iff, implies_true, and_true]
      exact ⟨.int (by decide), .uint (by decide),
        .object List.Pairwise.nil (by simp) (by simp)⟩
  exact ⟨hnested, jsToJson_jsonToJs _ hnested⟩

end EjsBoundary.Proofs
