import EjsBoundary.Model.PyMethods

/-!
# `EjsBoundary.Proofs.PyMethods`: what crosses the Python boundary

Every string that crosses is cut at its first NUL, in both directions. `boundary_whole_iff`
says that this is the only thing that can happen to it: on requests without the code point
NUL and responses without the byte NUL both conversions are exact, and two such request lists
never become the same vector.

The proofs read both sides as texts. A Python string that has a UTF-8 form is the list of the
code points of a text (`pyUnicodeAsUTF8_eq_some_iff`), and a response field that is UTF-8 is
the encoding of one.
-/

set_option autoImplicit false

namespace EjsBoundary.Proofs

open EjsBoundary.Lib
open EjsBoundary.Model

/-! ### Strings -/

/-- A character is found again from its code point. -/
theorem charOf?_codePointOf (c : Char) : charOf? (codePointOf c) = some c := by
  have hvalid : (codePointOf c).val.isValidChar := c.valid
  rw [charOf?, if_pos hvalid]
  exact congrArg some (Char.ofNat_toNat c)

/-- And a code point that is a character from that. -/
theorem codePointOf_of_charOf? {p : CodePoint} {c : Char} (h : charOf? p = some c) :
    codePointOf c = p := by
  unfold charOf? at h
  split at h
  · rename_i hvalid
    cases h
    refine Fin.ext ?_
    show (Char.ofNat p.val).toNat = p.val
    rw [Char.ofNat, dif_pos hvalid]
    rfl
  · cases h

/-- A loop that stops at the first failure gives a list that matches position by position. -/
theorem mapM_eq_some_iff {α β : Type} {f : α → Option β} {l : List α} {l' : List β} :
    l.mapM f = some l' ↔ List.Forall₂ (fun a b => f a = some b) l l' := by
  induction l generalizing l' with
  | nil => simp [eq_comm]
  | cons a l ih =>
    rw [List.mapM_cons]
    cases hhead : f a with
    | none => simp [List.forall₂_cons_left_iff, hhead]
    | some b =>
      cases htail : l.mapM f with
      | none =>
        simp only [htail, reduceCtorEq, false_iff] at ih
        simp [List.forall₂_cons_left_iff, ih]
      | some rest =>
        simp only [htail, Option.some.injEq] at ih
        simp [List.forall₂_cons_left_iff, hhead, ← ih, eq_comm]

/-- A string has a UTF-8 form exactly when it is a text, and then its form is the encoding. -/
theorem pyUnicodeAsUTF8_eq_some_iff {s : PyStr} {b : Bytes} :
    pyUnicodeAsUTF8 s = some b ↔ ∃ text, s = text.map codePointOf ∧ b = Utf8.encode text := by
  unfold pyUnicodeAsUTF8
  rw [Option.map_eq_some_iff]
  refine exists_congr fun text => ?_
  refine and_congr ?_ eq_comm
  constructor
  · intro h
    induction mapM_eq_some_iff.mp h with
    | nil => rfl
    | cons hhead htail ih =>
      rw [List.map_cons, codePointOf_of_charOf? hhead, ← ih (mapM_eq_some_iff.mpr htail)]
  · rintro rfl
    refine mapM_eq_some_iff.mpr ?_
    induction text with
    | nil => exact List.Forall₂.nil
    | cons c text ih => exact List.Forall₂.cons (charOf?_codePointOf c) ih

/-- A string passes whole exactly when it holds no NUL. -/
theorem cString_eq_self_of_asUTF8 {s : PyStr} {b : Bytes} (h : pyUnicodeAsUTF8 s = some b) :
    cString b = b ↔ (0 : CodePoint) ∉ s := by
  obtain ⟨text, rfl, rfl⟩ := pyUnicodeAsUTF8_eq_some_iff.mp h
  rw [cString_eq_self_iff, zero_mem_encode_iff, not_iff_not, List.mem_map]
  constructor
  · intro hmem
    exact ⟨_, hmem, rfl⟩
  · rintro ⟨c, hc, hzero⟩
    have hchar := charOf?_codePointOf c
    rw [hzero] at hchar
    cases hchar
    exact hc

/-- Different strings with an encoding have different ones. -/
theorem pyUnicodeAsUTF8_injective {s s' : PyStr} {b : Bytes} (h : pyUnicodeAsUTF8 s = some b)
    (h' : pyUnicodeAsUTF8 s' = some b) : s = s' := by
  obtain ⟨text, rfl, rfl⟩ := pyUnicodeAsUTF8_eq_some_iff.mp h
  obtain ⟨text', rfl, heq⟩ := pyUnicodeAsUTF8_eq_some_iff.mp h'
  rw [Utf8.encode_injective heq]

/-- A field that is UTF-8 becomes a string, and the string is the whole field exactly when
the field holds no NUL. -/
theorem pyUnicodeFromString_valid {b : Bytes} (h : (Utf8.decode? b).isSome = true) :
    ∃ s, pyUnicodeFromString b = some s ∧ (pyUnicodeAsUTF8 s = some b ↔ (0 : UInt8) ∉ b) := by
  obtain ⟨text, rfl⟩ := Utf8.exists_encode_of_isSome h
  have hcut : pyUnicodeFromString (Utf8.encode text) =
      some ((text.takeWhile (· ≠ Char.ofNat 0)).map codePointOf) := by
    rw [pyUnicodeFromString, cString_encode, Utf8.decode?_encode]
    rfl
  refine ⟨_, hcut, ?_⟩
  have hform : pyUnicodeAsUTF8 ((text.takeWhile (· ≠ Char.ofNat 0)).map codePointOf) =
      some (cString (Utf8.encode text)) :=
    pyUnicodeAsUTF8_eq_some_iff.mpr ⟨_, rfl, cString_encode text⟩
  rw [hform, Option.some.injEq, cString_eq_self_iff]

/-! ### Requests -/

/-- The strings the caller passed: `type` and `challenge` of each item. -/
def passedStrings (obj : PyObject) : Option (List (PyStr × PyStr)) := do
  let n ← obj.size
  (List.range n).mapM fun i => do requestStrings (← obj.item i)

/-- The vector holds the complete UTF-8 forms of the strings, position by position. -/
def RequestsWhole (strings : List (PyStr × PyStr)) (out : List SolverRequest) : Prop :=
  List.Forall₂ (fun s req => pyUnicodeAsUTF8 s.1 = some req.type ∧
    pyUnicodeAsUTF8 s.2 = some req.challenge) strings out

def RequestsNulFree (strings : List (PyStr × PyStr)) : Prop :=
  ∀ s ∈ strings, (0 : CodePoint) ∉ s.1 ∧ (0 : CodePoint) ∉ s.2

/-- One request: its strings have UTF-8 forms, and it holds them up to the first NUL. -/
theorem readRequest_eq_some_iff {item : PyObject} {req : SolverRequest} :
    readRequest item = some req ↔ ∃ s b c, requestStrings item = some s ∧
      pyUnicodeAsUTF8 s.1 = some b ∧ pyUnicodeAsUTF8 s.2 = some c ∧
      req = ⟨cString b, cString c⟩ := by
  unfold readRequest
  cases hs : requestStrings item with
  | none => simp
  | some s =>
    simp only [Option.bind_eq_bind, Option.bind_some, Option.bind_eq_some_iff, Option.pure_def,
      Option.some.injEq, exists_and_left, exists_eq_left']
    simp only [eq_comm]

/-- The request of an item is whole exactly when the strings of the item hold no NUL. -/
theorem readRequest_whole_iff {item : PyObject} {req : SolverRequest} {s : PyStr × PyStr}
    (h : readRequest item = some req) (hs : requestStrings item = some s) :
    (pyUnicodeAsUTF8 s.1 = some req.type ∧ pyUnicodeAsUTF8 s.2 = some req.challenge) ↔
      (0 : CodePoint) ∉ s.1 ∧ (0 : CodePoint) ∉ s.2 := by
  obtain ⟨s', b, c, hs', hb, hc, rfl⟩ := readRequest_eq_some_iff.mp h
  cases hs.symm.trans hs'
  rw [← cString_eq_self_of_asUTF8 hb, ← cString_eq_self_of_asUTF8 hc, hb, hc, Option.some.injEq,
    Option.some.injEq]
  exact and_congr eq_comm eq_comm

/-- The vector of an accepted object has one request for each item, and is whole exactly when
no string holds a NUL. -/
theorem pyRequestsToCpp_whole_iff {obj : PyObject} {out : List SolverRequest}
    (h : pyRequestsToCpp obj = some out) :
    ∃ strings, passedStrings obj = some strings ∧ strings.length = out.length ∧
      (RequestsWhole strings out ↔ RequestsNulFree strings) := by
  unfold pyRequestsToCpp at h
  unfold passedStrings
  obtain ⟨n, hn, hloop⟩ := Option.bind_eq_some_iff.mp h
  rw [hn]
  -- Along the loop: each item that gives a request has its strings.
  have hgather : ∀ {l : List Nat} {out : List SolverRequest},
      List.Forall₂ (fun i req => (obj.item i).bind readRequest = some req) l out →
      ∃ strings, List.Forall₂ (fun i s => (obj.item i).bind requestStrings = some s) l strings ∧
        (RequestsWhole strings out ↔ RequestsNulFree strings) := by
    intro l out hl
    induction hl with
    | nil => exact ⟨[], List.Forall₂.nil, iff_of_true List.Forall₂.nil (fun _ h => by cases h)⟩
    | cons hhead _ ih =>
      obtain ⟨strings, hstrings, hiff⟩ := ih
      obtain ⟨item, hitem, hreq⟩ := Option.bind_eq_some_iff.mp hhead
      obtain ⟨s, b, c, hs, -⟩ := readRequest_eq_some_iff.mp hreq
      refine ⟨s :: strings, List.Forall₂.cons (by rw [hitem]; exact hs) hstrings, ?_⟩
      show List.Forall₂ _ _ _ ↔ ∀ s' ∈ s :: strings, _
      rw [List.forall₂_cons, readRequest_whole_iff hreq hs, List.forall_mem_cons]
      exact and_congr_right fun _ => hiff
  have hout := mapM_eq_some_iff.mp hloop
  obtain ⟨strings, hstrings, hiff⟩ := hgather hout
  exact ⟨strings, mapM_eq_some_iff.mpr hstrings,
    hstrings.length_eq.symm.trans hout.length_eq, hiff⟩

/-- Two request lists that cross whole into the same vector are the same list. -/
theorem requestsWhole_injective {strings strings' : List (PyStr × PyStr)}
    {out : List SolverRequest} (h : RequestsWhole strings out)
    (h' : RequestsWhole strings' out) : strings = strings' := by
  refine List.left_unique_forall₂' ?_ h h'
  intro s s' req hs hs'
  exact Prod.ext (pyUnicodeAsUTF8_injective hs.1 hs'.1) (pyUnicodeAsUTF8_injective hs.2 hs'.2)

/-! ### Responses -/

/-- The fields of a response are UTF-8. -/
def ResponseValid (r : SolverResponse) : Prop :=
  (Utf8.decode? r.type).isSome = true ∧ (Utf8.decode? r.data).isSome = true ∧
    (Utf8.decode? r.error).isSome = true

/-- The dict decodes to exactly the fields of the response. -/
def ResponseExact (item : PyObject) (r : SolverResponse) : Prop :=
  ∃ type data error, item.getItemString "type" = some (.str type) ∧
    item.getItemString "ok" = some (.bool r.ok) ∧ item.getItemString "data" = some (.str data) ∧
    item.getItemString "error" = some (.str error) ∧ pyUnicodeAsUTF8 type = some r.type ∧
    pyUnicodeAsUTF8 data = some r.data ∧ pyUnicodeAsUTF8 error = some r.error

def ResponseNulFree (r : SolverResponse) : Prop :=
  (0 : UInt8) ∉ r.type ∧ (0 : UInt8) ∉ r.data ∧ (0 : UInt8) ∉ r.error

/-- A valid response becomes a dict with its texts exactly if none of them has a NUL. -/
theorem responseToPy_exact_iff {r : SolverResponse} (h : ResponseValid r) :
    ∃ item, responseToPy r = some item ∧ (ResponseExact item r ↔ ResponseNulFree r) := by
  obtain ⟨type, htype, htypeIff⟩ := pyUnicodeFromString_valid h.1
  obtain ⟨data, hdata, hdataIff⟩ := pyUnicodeFromString_valid h.2.1
  obtain ⟨error, herror, herrorIff⟩ := pyUnicodeFromString_valid h.2.2
  refine ⟨_, by rw [responseToPy, htype, hdata, herror]; rfl, ?_⟩
  unfold ResponseNulFree
  rw [← htypeIff, ← hdataIff, ← herrorIff]
  constructor
  · rintro ⟨type', data', error', htype', -, hdata', herror', hforms⟩
    cases htype'
    cases hdata'
    cases herror'
    exact hforms
  · intro hforms
    exact ⟨type, data, error, rfl, rfl, rfl, rfl, hforms⟩

/-- Responses with UTF-8 fields always become a list with one dict for each of them. -/
theorem responsesToPy_exact_iff {responses : List SolverResponse}
    (h : ∀ r ∈ responses, ResponseValid r) :
    ∃ items, responsesToPy responses = some (.list items) ∧ items.length = responses.length ∧
      (List.Forall₂ ResponseExact items responses ↔ ∀ r ∈ responses, ResponseNulFree r) := by
  have hgather : ∃ items, List.Forall₂ (fun r item => responseToPy r = some item) responses items ∧
      (List.Forall₂ ResponseExact items responses ↔ ∀ r ∈ responses, ResponseNulFree r) := by
    induction responses with
    | nil => exact ⟨[], List.Forall₂.nil, iff_of_true List.Forall₂.nil (fun _ h => by cases h)⟩
    | cons r responses ih =>
      obtain ⟨items, hitems, hiff⟩ := ih fun r' hr' => h r' (List.mem_cons_of_mem r hr')
      obtain ⟨item, hitem, hexact⟩ := responseToPy_exact_iff (h r List.mem_cons_self)
      refine ⟨item :: items, List.Forall₂.cons hitem hitems, ?_⟩
      rw [List.forall₂_cons, hexact, hiff, List.forall_mem_cons]
  obtain ⟨items, hitems, hiff⟩ := hgather
  refine ⟨items, ?_, hitems.length_eq.symm, hiff⟩
  rw [responsesToPy, mapM_eq_some_iff.mpr hitems]
  rfl

/-! ### Both ways -/

/-- Strings cross the boundary whole, both ways, exactly when they hold no NUL: an accepted
request list becomes a vector of the same length whose fields are the complete UTF-8 forms if
and only if no string of it holds the code point NUL, and no other such list becomes the same
vector; responses with UTF-8 fields become dicts that decode to exactly their fields if and
only if no field holds the byte NUL. -/
theorem boundary_whole_iff {obj : PyObject} {out : List SolverRequest}
    {responses : List SolverResponse} (h : pyRequestsToCpp obj = some out)
    (hvalid : ∀ r ∈ responses, ResponseValid r) :
    (∃ strings, passedStrings obj = some strings ∧ strings.length = out.length ∧
      (RequestsWhole strings out ↔ RequestsNulFree strings) ∧
      ∀ obj' strings', pyRequestsToCpp obj' = some out → passedStrings obj' = some strings' →
        RequestsNulFree strings → RequestsNulFree strings' → strings = strings') ∧
    ∃ items, responsesToPy responses = some (.list items) ∧ items.length = responses.length ∧
      (List.Forall₂ ResponseExact items responses ↔ ∀ r ∈ responses, ResponseNulFree r) := by
  obtain ⟨strings, hstrings, hlength, hiff⟩ := pyRequestsToCpp_whole_iff h
  refine ⟨⟨strings, hstrings, hlength, hiff, ?_⟩, responsesToPy_exact_iff hvalid⟩
  intro obj' strings' h' hstrings' hfree hfree'
  obtain ⟨t, ht, -, hiff'⟩ := pyRequestsToCpp_whole_iff h'
  cases hstrings'.symm.trans ht
  exact requestsWhole_injective (hiff.mpr hfree) (hiff'.mpr hfree')

/-- A list with one request dict. -/
def oneDict (type challenge : PyStr) : PyObject :=
  .list [.dict [(pyStr "type", .str type), (pyStr "challenge", .str challenge)]]

/-- A request and a response without NUL cross whole. -/
theorem boundary_whole_plain :
    RequestsWhole [(pyStr "n", pyStr "abc")] [⟨lit "n", lit "abc"⟩] ∧
      ∃ items, responsesToPy [⟨lit "n", true, lit "cba", []⟩] = some (.list items) ∧
        List.Forall₂ ResponseExact items [⟨lit "n", true, lit "cba", []⟩] := by
  have hvalid : ∀ r ∈ [(⟨lit "n", true, lit "cba", []⟩ : SolverResponse)], ResponseValid r := by
    intro r hr
    cases List.mem_singleton.mp hr
    exact ⟨congrArg Option.isSome (Utf8.decode?_encode ['n']),
      congrArg Option.isSome (Utf8.decode?_encode ['c', 'b', 'a']),
      congrArg Option.isSome (Utf8.decode?_encode [])⟩
  have hrequests : pyRequestsToCpp (oneDict (pyStr "n") (pyStr "abc")) =
      some [⟨lit "n", lit "abc"⟩] := rfl
  obtain ⟨⟨strings, hstrings, -, hiff, -⟩, items, hitems, -, hexact⟩ :=
    boundary_whole_iff hrequests hvalid
  cases hstrings
  refine ⟨hiff.mpr fun s hs => ?_, items, hitems, hexact.mpr fun r hr => ?_⟩
  · cases List.mem_singleton.mp hs
    decide
  · cases List.mem_singleton.mp hr
    unfold ResponseNulFree
    decide

/-- The challenge `a`, NUL, `b` arrives as `a`. -/
theorem boundary_cuts_at_nul :
    ¬ ((∀ obj out, pyRequestsToCpp obj = some out →
        ∃ strings, passedStrings obj = some strings ∧ RequestsWhole strings out) ∧
      ∀ responses : List SolverResponse, (∀ r ∈ responses, ResponseValid r) →
        ∃ items, responsesToPy responses = some (.list items) ∧
          List.Forall₂ ResponseExact items responses) := by
  rintro ⟨h, -⟩
  obtain ⟨strings, hstrings, hwhole⟩ :=
    h (oneDict (pyStr "n") [0x61, 0, 0x62]) [⟨lit "n", lit "a"⟩] rfl
  cases hstrings
  have hform := (List.forall₂_cons.mp hwhole).1.2
  exact absurd hform (by decide)

end EjsBoundary.Proofs
