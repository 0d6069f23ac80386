import EjsBoundary.Lib.Bytes

/-!
# `EjsBoundary.Lib.Rfc3986`: URI references and their resolution

RFC 3986 as functions on byte strings: the components of a reference (Appendix B), removal of
dot segments (Section 5.2.4), resolution against a base URI (Section 5.2.2, strict), and the
host of an authority (Section 3.2). `resolveHttps` is what a client that speaks only https
makes of a reference: the host to connect to and the request target to ask for, the path and
the query without the fragment.
-/

set_option autoImplicit false

namespace EjsBoundary.Lib

namespace Rfc3986

/-! ### Components -/

/-- The bytes that end an authority: slash, question mark and number sign. -/
def endsAuthority (c : UInt8) : Bool := c == 0x2F || c == 0x3F || c == 0x23

/-- The bytes that end a path. -/
def endsPath (c : UInt8) : Bool := c == 0x3F || c == 0x23

/-- The components of a reference. -/
structure Reference where
  scheme : Option Bytes
  authority : Option Bytes
  path : Bytes
  query : Option Bytes
  fragment : Option Bytes
  deriving DecidableEq

/-- A non-empty scheme before the first colon, and the rest. -/
def splitScheme (s : Bytes) : Option Bytes × Bytes :=
  let scheme := s.takeWhile fun c => c != 0x3A && !endsAuthority c
  match s.dropWhile fun c => c != 0x3A && !endsAuthority c with
  | 0x3A :: rest => if scheme = [] then (none, s) else (some scheme, rest)
  | _ => (none, s)

/-- The authority after two slashes, and the rest. -/
def splitAuthority : Bytes → Option Bytes × Bytes
  | 0x2F :: 0x2F :: rest =>
    (some (rest.takeWhile fun c => !endsAuthority c), rest.dropWhile fun c => !endsAuthority c)
  | s => (none, s)

/-- The path at the front of what follows the authority. -/
def pathOf (s : Bytes) : Bytes := s.takeWhile fun c => !endsPath c

def queryOf (s : Bytes) : Option Bytes :=
  match s.dropWhile fun c => !endsPath c with
  | 0x3F :: rest => some (rest.takeWhile (· ≠ 0x23))
  | _ => none

def fragmentOf (s : Bytes) : Option Bytes :=
  match s.dropWhile (· ≠ 0x23) with
  | 0x23 :: rest => some rest
  | _ => none

/-- The components of a reference. -/
def parse (s : Bytes) : Reference :=
  let (scheme, s) := splitScheme s
  let (authority, s) := splitAuthority s
  { scheme, authority, path := pathOf s, query := queryOf s, fragment := fragmentOf s }

/-- A host without the port after it. A bracketed address ends at its bracket. -/
def withoutPort : Bytes → Bytes
  | 0x5B :: rest => 0x5B :: (rest.takeWhile (· ≠ 0x5D) ++ (rest.dropWhile (· ≠ 0x5D)).take 1)
  | s => s.takeWhile (· ≠ 0x3A)

/-- The host of an authority, without user information and port. -/
def hostOf (authority : Bytes) : Bytes := withoutPort (authority.rtakeWhile (· ≠ 0x40))

/-! ### Resolution -/

/-- The output buffer without its last segment and the slash before it. -/
def removeLastSegment (output : Bytes) : Bytes := (output.rdropWhile (· ≠ 0x2F)).dropLast

/-- The loop of Section 5.2.4 over the input and the output buffer. Each turn shortens the
input, so its length is enough fuel. -/
def removeDots : Nat → (input output : Bytes) → Bytes
  | 0, _, output => output
  | _ + 1, [], output => output
  | n + 1, 0x2E :: 0x2E :: 0x2F :: rest, output => removeDots n rest output
  | n + 1, 0x2E :: 0x2F :: rest, output => removeDots n rest output
  | n + 1, 0x2F :: 0x2E :: 0x2F :: rest, output => removeDots n (0x2F :: rest) output
  | n + 1, [0x2F, 0x2E], output => removeDots n [0x2F] output
  | n + 1, 0x2F :: 0x2E :: 0x2E :: 0x2F :: rest, output =>
    removeDots n (0x2F :: rest) (removeLastSegment output)
  | n + 1, [0x2F, 0x2E, 0x2E], output => removeDots n [0x2F] (removeLastSegment output)
  | _ + 1, [0x2E], output => output
  | _ + 1, [0x2E, 0x2E], output => output
  | n + 1, c :: rest, output =>
    removeDots n (rest.dropWhile (· ≠ 0x2F)) (output ++ c :: rest.takeWhile (· ≠ 0x2F))

/-- `remove_dot_segments`. -/
def removeDotSegments (path : Bytes) : Bytes := removeDots path.length path []

/-- `merge`: the reference path in the place of the last segment of the base path. -/
def merge (base : Reference) (path : Bytes) : Bytes :=
  if base.authority.isSome ∧ base.path = [] then 0x2F :: path
  else base.path.rdropWhile (· ≠ 0x2F) ++ path

/-- The target of a reference relative to a base. -/
def resolve (base ref : Reference) : Reference :=
  if ref.scheme.isSome then
    { ref with path := removeDotSegments ref.path }
  else if ref.authority.isSome then
    { ref with scheme := base.scheme, path := removeDotSegments ref.path }
  else if ref.path = [] then
    { base with query := ref.query.or base.query, fragment := ref.fragment }
  else if ref.path.head? = some 0x2F then
    { ref with
      scheme := base.scheme, authority := base.authority, path := removeDotSegments ref.path }
  else
    { ref with
      scheme := base.scheme, authority := base.authority
      path := removeDotSegments (merge base ref.path) }

/-- A query with its question mark. -/
def queryText : Option Bytes → Bytes
  | none => []
  | some query => 0x3F :: query

/-- What a client asks for: the path, a single slash when it is empty, and the query. -/
def target (ref : Reference) : Bytes :=
  (if ref.path = [] then [0x2F] else ref.path) ++ queryText ref.query

/-- A scheme compares without regard to case. -/
def isHttps (scheme : Option Bytes) : Bool :=
  match scheme with
  | some s => s.map toLower == lit "https"
  | none => false

/-- The host and the request target of an https URI with an authority. -/
def httpsTarget (ref : Reference) : Option (Bytes × Bytes) :=
  if isHttps ref.scheme then ref.authority.map fun authority => (hostOf authority, target ref)
  else none

/-- The host and the request target that `ref` points to from the page at `base`. -/
def resolveHttps (base ref : Bytes) : Option (Bytes × Bytes) :=
  httpsTarget (resolve (parse base) (parse ref))

/-- The examples of Section 5.4 that leave the path. -/
example : resolveHttps (lit "https://a/b/c/d;p?q") (lit "../g") =
    some (lit "a", lit "/b/g") := by decide

example : resolveHttps (lit "https://a/b/c/d;p?q") (lit "//g") = some (lit "g", lit "/") := by
  decide

/-! ### The shapes of a reference -/

/-- Taking the port off only takes bytes away. -/
theorem withoutPort_sublist (s : Bytes) : (withoutPort s).Sublist s := by
  unfold withoutPort
  split
  · rename_i rest
    have htake := (List.take_sublist 1 (rest.dropWhile (· ≠ 0x5D))).append_left
      (rest.takeWhile (· ≠ 0x5D))
    rw [List.takeWhile_append_dropWhile] at htake
    exact htake.cons_cons 0x5B
  · exact List.takeWhile_sublist _

/-- The host is a part of the authority. -/
theorem hostOf_sublist (authority : Bytes) : (hostOf authority).Sublist authority :=
  (withoutPort_sublist _).trans (List.rtakeWhile_suffix _ authority).sublist

/-- The scheme of an `https` reference. -/
theorem splitScheme_https (rest : Bytes) :
    splitScheme (lit "https://" ++ rest) = (some (lit "https"), lit "//" ++ rest) := by
  obtain ⟨htake, hdrop⟩ := span_append (p := fun c => c != 0x3A && !endsAuthority c)
    (a := lit "https") (b := 0x3A :: (lit "//" ++ rest)) (by decide) (by
      intro x hx
      cases hx
      decide)
  have hsplit : lit "https://" ++ rest = lit "https" ++ 0x3A :: (lit "//" ++ rest) := rfl
  unfold splitScheme
  rw [hsplit, htake, hdrop]
  rfl

/-- An absolute https reference: what stands before the first slash, question mark or number
sign is the authority. -/
theorem parse_https {authority rest : Bytes} (ha : ∀ x ∈ authority, endsAuthority x = false)
    (hrest : ∀ x ∈ rest.head?, endsAuthority x = true) :
    parse (lit "https://" ++ authority ++ rest) =
      ⟨some (lit "https"), some authority, pathOf rest, queryOf rest, fragmentOf rest⟩ := by
  obtain ⟨htake, hdrop⟩ := span_append (p := fun c => !endsAuthority c) (a := authority)
    (b := rest) (by simpa using ha) (by simpa using hrest)
  have hauth : splitAuthority (lit "//" ++ (authority ++ rest)) = (some authority, rest) := by
    show (some ((authority ++ rest).takeWhile fun c => !endsAuthority c),
      (authority ++ rest).dropWhile fun c => !endsAuthority c) = _
    rw [htake, hdrop]
  unfold parse
  rw [List.append_assoc, splitScheme_https]
  simp only [hauth]

/-- A reference that starts with a slash has no scheme. -/
theorem splitScheme_slash (rest : Bytes) : splitScheme (0x2F :: rest) = (none, 0x2F :: rest) := by
  rfl

/-- A reference that starts with one slash is a path, with a query and a fragment. -/
theorem parse_slash {rest : Bytes} (h : rest.head? ≠ some 0x2F) :
    parse (0x2F :: rest) = ⟨none, none, pathOf (0x2F :: rest), queryOf (0x2F :: rest),
      fragmentOf (0x2F :: rest)⟩ := by
  have hauth : splitAuthority (0x2F :: rest) = (none, 0x2F :: rest) := by
    cases rest with
    | nil => rfl
    | cons c rest =>
      unfold splitAuthority
      split
      · rename_i heq
        simp only [List.cons.injEq, true_and] at heq
        exact absurd (congrArg some heq.1) h
      · rfl
  unfold parse
  rw [splitScheme_slash]
  simp only [hauth]

/-- A reference that starts with two slashes has an authority of its own. -/
theorem parse_slash_slash (rest : Bytes) :
    parse (0x2F :: 0x2F :: rest) =
      ⟨none, some (rest.takeWhile fun c => !endsAuthority c),
        pathOf (rest.dropWhile fun c => !endsAuthority c),
        queryOf (rest.dropWhile fun c => !endsAuthority c),
        fragmentOf (rest.dropWhile fun c => !endsAuthority c)⟩ := by
  rfl

/-! ### Dot segments -/

/-- Removing dot segments adds no byte. -/
theorem mem_removeDots {c : UInt8} : ∀ (n : Nat) (input output : Bytes),
    c ∈ removeDots n input output → c ∈ input ∨ c ∈ output := by
  have hlast : ∀ output : Bytes, c ∈ removeLastSegment output → c ∈ output := fun output h =>
    (List.rdropWhile_prefix _ output).subset ((List.dropLast_prefix _).subset h)
  intro n input output
  fun_induction removeDots n input output with
  | case1 => exact Or.inr
  | case2 => exact Or.inr
  | case3 n rest output ih => intro h; rcases ih h with h | h <;> simp [h]
  | case4 n rest output ih => intro h; rcases ih h with h | h <;> simp [h]
  | case5 n rest output ih =>
    intro h
    rcases ih h with h | h
    · rcases List.mem_cons.mp h with h | h <;> simp [h]
    · simp [h]
  | case6 n output ih =>
    intro h
    rcases ih h with h | h
    · rcases List.mem_cons.mp h with h | h
      · simp [h]
      · cases h
    · simp [h]
  | case7 n rest output ih =>
    intro h
    rcases ih h with h | h
    · rcases List.mem_cons.mp h with h | h <;> simp [h]
    · exact Or.inr (hlast output h)
  | case8 n output ih =>
    intro h
    rcases ih h with h | h
    · rcases List.mem_cons.mp h with h | h
      · simp [h]
      · cases h
    · exact Or.inr (hlast output h)
  | case9 => exact Or.inr
  | case10 => exact Or.inr
  | case11 n x rest output _ _ _ _ _ _ _ _ ih =>
    intro h
    rcases ih h with h | h
    · exact Or.inl (List.mem_cons_of_mem _ ((List.dropWhile_sublist _).subset h))
    · rcases List.mem_append.mp h with h | h
      · exact Or.inr h
      · rcases List.mem_cons.mp h with h | h
        · exact Or.inl (h ▸ List.mem_cons_self)
        · exact Or.inl (List.mem_cons_of_mem _ ((List.takeWhile_prefix _).subset h))

/-- Removing dot segments adds no byte. -/
theorem mem_removeDotSegments {c : UInt8} {path : Bytes} (h : c ∈ removeDotSegments path) :
    c ∈ path := by
  rcases mem_removeDots _ _ _ h with h | h
  · exact h
  · cases h

/-- Removing dot segments makes no path longer. -/
theorem length_removeDots : ∀ (n : Nat) (input output : Bytes),
    (removeDots n input output).length ≤ input.length + output.length := by
  have hlast : ∀ output : Bytes, (removeLastSegment output).length ≤ output.length := fun output =>
    (List.dropLast_prefix _).length_le.trans (List.rdropWhile_prefix _ output).length_le
  intro n input output
  fun_induction removeDots n input output with
  | case1 => omega
  | case2 => simp
  | case3 n rest output ih => simp only [List.length_cons] at ih ⊢; omega
  | case4 n rest output ih => simp only [List.length_cons] at ih ⊢; omega
  | case5 n rest output ih => simp only [List.length_cons] at ih ⊢; omega
  | case6 n output ih => simp only [List.length_cons] at ih ⊢; omega
  | case7 n rest output ih =>
    have := hlast output
    simp only [List.length_cons] at ih ⊢
    omega
  | case8 n output ih =>
    have := hlast output
    simp only [List.length_cons] at ih ⊢
    omega
  | case9 => omega
  | case10 => omega
  | case11 n x rest output _ _ _ _ _ _ _ _ ih =>
    -- The segment goes from the one buffer to the other.
    have hsplit := congrArg List.length
      (List.takeWhile_append_dropWhile (p := fun c : UInt8 => decide (c ≠ 0x2F)) (l := rest))
    simp only [List.length_append, List.length_cons] at ih hsplit ⊢
    omega

/-- A buffer that is empty or starts with a slash. -/
def Rooted (s : Bytes) : Prop := ∀ x ∈ s.head?, x = 0x2F

/-- What is left from the first slash on is empty or begins with a slash. -/
theorem rooted_dropWhile (s : Bytes) : Rooted (s.dropWhile (· ≠ 0x2F)) := by
  intro x hx
  have h := List.head?_dropWhile_not (fun c : UInt8 => decide (c ≠ 0x2F)) s
  rw [Option.mem_def.mp hx] at h
  simpa using h

/-- A prefix of a rooted text is rooted. -/
theorem Rooted.mono {s t : Bytes} (h : Rooted t) (hst : s <+: t) : Rooted s := by
  intro x hx
  cases s with
  | nil => cases hx
  | cons c s =>
    obtain ⟨r, rfl⟩ := hst
    exact h x hx

/-- Taking the last segment off leaves a rooted text. -/
theorem rooted_removeLastSegment {output : Bytes} (h : Rooted output) :
    Rooted (removeLastSegment output) :=
  h.mono ((List.dropLast_prefix _).trans (List.rdropWhile_prefix _ output))

/-- With enough fuel a path that starts with a slash still does without its dot segments. -/
theorem head?_removeDots : ∀ (n : Nat) (input output : Bytes), input.length ≤ n →
    input.head? = some 0x2F → Rooted output → (removeDots n input output).head? = some 0x2F := by
  intro n input output
  fun_induction removeDots n input output with
  | case1 input output =>
    intro hn hinput
    cases input with
    | nil => cases hinput
    | cons c input => simp at hn
  | case2 => intro _ h; cases h
  | case3 => intro _ h; cases h
  | case4 => intro _ h; cases h
  | case5 n rest output ih =>
    intro hn _ hout
    exact ih (by simp only [List.length_cons] at hn ⊢; omega) rfl hout
  | case6 n output ih =>
    intro hn _ hout
    exact ih (by simp only [List.length_cons] at hn ⊢; omega) rfl hout
  | case7 n rest output ih =>
    intro hn _ hout
    exact ih (by simp only [List.length_cons] at hn ⊢; omega) rfl (rooted_removeLastSegment hout)
  | case8 n output ih =>
    intro hn _ hout
    exact ih (by simp only [List.length_cons] at hn ⊢; omega) rfl (rooted_removeLastSegment hout)
  | case9 => intro _ h; cases h
  | case10 => intro _ h; cases h
  | case11 n x rest output _ _ _ _ _ _ _ _ ih =>
    intro hn hinput hout
    cases hinput
    -- The segment that is moved starts with the slash, so the output does from now on.
    have houtput : Rooted (output ++ 0x2F :: rest.takeWhile (· ≠ 0x2F)) := by
      intro y hy
      cases output with
      | nil => cases hy; rfl
      | cons z output => exact hout y hy
    cases hrest : rest.dropWhile (· ≠ 0x2F) with
    | nil =>
      have hnil : ∀ out : Bytes, removeDots n [] out = out := by
        intro out
        cases n <;> rfl
      rw [hnil]
      cases output with
      | nil => rfl
      | cons z output => rw [hout z rfl]; rfl
    | cons y tail =>
      have hlen := (List.dropWhile_sublist (fun c : UInt8 => decide (c ≠ 0x2F)) (l := rest)).length_le
      have hy : y = 0x2F := rooted_dropWhile rest y (by rw [hrest]; rfl)
      rw [hrest] at ih hlen
      subst hy
      exact ih (by simp only [List.length_cons] at hn hlen ⊢; omega) rfl houtput

/-- A path that begins with a slash still does without its dot segments. -/
theorem head?_removeDotSegments {path : Bytes} (h : path.head? = some 0x2F) :
    (removeDotSegments path).head? = some 0x2F :=
  head?_removeDots _ _ _ (Nat.le_refl _) h fun _ hx => by cases hx

/-! ### Request targets -/

/-- A text that is its own request target: it has no fragment, and removing the dot segments
of its path changes nothing. -/
def PlainTarget (s : Bytes) : Prop :=
  0x23 ∉ s ∧ removeDotSegments (pathOf s) = pathOf s

/-- A path has no fragment mark. -/
theorem not_mem_pathOf (s : Bytes) : 0x23 ∉ pathOf s := by
  intro h
  have := List.mem_takeWhile_imp h
  simp [endsPath] at this

/-- Nor has a query. -/
theorem not_mem_queryText (s : Bytes) : 0x23 ∉ queryText (queryOf s) := by
  unfold queryOf
  split
  · intro h
    rcases List.mem_cons.mp h with h | h
    · cases h
    · have := List.mem_takeWhile_imp h
      simp at this
  · exact List.not_mem_nil

/-- Without a fragment a text is its path and its query. -/
theorem pathOf_append_queryText {s : Bytes} (h : 0x23 ∉ s) :
    pathOf s ++ queryText (queryOf s) = s := by
  have hsplit := List.takeWhile_append_dropWhile (p := fun c => !endsPath c) (l := s)
  have hhead := List.head?_dropWhile_not (fun c => !endsPath c) s
  unfold pathOf queryOf
  cases hdrop : s.dropWhile fun c => !endsPath c with
  | nil =>
    rw [hdrop] at hsplit
    exact hsplit
  | cons c rest =>
    rw [hdrop] at hsplit hhead
    have hmem : ∀ x ∈ c :: rest, x ∈ s := fun x hx => by
      rw [← hsplit]
      exact List.mem_append_right _ hx
    -- The path ends at a question mark, since there is no number sign.
    have hc : c = 0x3F := by
      have hends : c = 0x3F ∨ c = 0x23 := by
        simpa [endsPath, or_iff_not_imp_left] using hhead
      refine hends.resolve_right fun heq => h ?_
      exact heq ▸ hmem c List.mem_cons_self
    subst hc
    have hrest : rest.takeWhile (· ≠ 0x23) = rest :=
      (span_ne_of_not_mem fun hx => h (hmem _ (List.mem_cons_of_mem _ hx))).1
    show _ ++ 0x3F :: rest.takeWhile (· ≠ 0x23) = s
    rw [hrest]
    exact hsplit

/-- Path and query together are no longer than the reference. -/
theorem length_pathOf_add_queryText (s : Bytes) :
    (pathOf s).length + (queryText (queryOf s)).length ≤ s.length := by
  have hsplit := congrArg List.length
    (List.takeWhile_append_dropWhile (p := fun c => !endsPath c) (l := s))
  rw [List.length_append] at hsplit
  unfold pathOf queryOf
  split
  · rename_i rest heq
    have htake := (List.takeWhile_prefix (fun c : UInt8 => decide (c ≠ 0x23)) (l := rest)).length_le
    have hlen := congrArg List.length heq
    simp only [queryText, List.length_cons] at hlen ⊢
    omega
  · simp only [queryText, List.length_nil]
    omega

/-- A request target is at most one byte longer than the text its path and query are from. -/
theorem length_target_le (s : Bytes) (scheme authority fragment : Option Bytes) :
    (target ⟨scheme, authority, removeDotSegments (pathOf s), queryOf s, fragment⟩).length ≤
      s.length + 1 := by
  have hdots := length_removeDots (pathOf s).length (pathOf s) []
  have hlen := length_pathOf_add_queryText s
  unfold target
  split
  · simp only [List.length_append, List.length_cons, List.length_nil]
    omega
  · simp only [List.length_append, removeDotSegments, List.length_nil] at hdots ⊢
    omega

/-- The path of a reference that begins with a slash begins with one. -/
theorem head?_pathOf {s : Bytes} (h : s.head? = some 0x2F) : (pathOf s).head? = some 0x2F := by
  cases s with
  | nil => cases h
  | cons c s =>
    cases h
    rfl

/-- The request target of a reference with the path and the query of `s` is `s` itself, or a
slash when `s` is empty, exactly when `s` is plain. -/
theorem target_eq_iff {s : Bytes} (hs : Rooted s) (scheme authority fragment : Option Bytes) :
    target ⟨scheme, authority, removeDotSegments (pathOf s), queryOf s, fragment⟩ =
        (if s = [] then [0x2F] else s) ↔ PlainTarget s := by
  cases s with
  | nil => exact iff_of_true rfl ⟨List.not_mem_nil, rfl⟩
  | cons c t =>
    have hslash : (c :: t).head? = some 0x2F := by rw [hs c rfl]; rfl
    have hhead := head?_removeDotSegments (head?_pathOf hslash)
    have hne : removeDotSegments (pathOf (c :: t)) ≠ [] := by
      intro heq
      rw [heq] at hhead
      cases hhead
    unfold target PlainTarget
    rw [if_neg hne, if_neg (List.cons_ne_nil c t)]
    by_cases hmem : 0x23 ∈ c :: t
    · -- A fragment is never part of a request target.
      refine iff_of_false (fun heq => ?_) (fun h => h.1 hmem)
      rw [← heq] at hmem
      rcases List.mem_append.mp hmem with h | h
      · exact not_mem_pathOf _ (mem_removeDotSegments h)
      · exact not_mem_queryText _ h
    · have hsplit := pathOf_append_queryText hmem
      constructor
      · intro heq
        exact ⟨hmem, List.append_cancel_right (heq.trans hsplit.symm)⟩
      · rintro ⟨-, hdots⟩
        show removeDotSegments (pathOf (c :: t)) ++ queryText (queryOf (c :: t)) = c :: t
        rw [hdots, hsplit]

/-! ### Where a reference points -/

section
variable {authority rest : Bytes} (ha : ∀ x ∈ authority, endsAuthority x = false)
variable (hrest : ∀ x ∈ rest.head?, endsAuthority x = true)

include ha hrest in
/-- An absolute https reference points to its own host. -/
theorem resolveHttps_https (base : Bytes) :
    resolveHttps base (lit "https://" ++ authority ++ rest) =
      some (hostOf authority, target ⟨some (lit "https"), some authority,
        removeDotSegments (pathOf rest), queryOf rest, fragmentOf rest⟩) := by
  have hresolve : resolve (parse base) (parse (lit "https://" ++ authority ++ rest)) =
      ⟨some (lit "https"), some authority, removeDotSegments (pathOf rest), queryOf rest,
        fragmentOf rest⟩ := by
    rw [parse_https ha hrest]
    rfl
  unfold resolveHttps
  rw [hresolve]
  rfl

include ha hrest in
/-- A reference that starts with one slash points to the host of the page. -/
theorem resolveHttps_slash {s : Bytes} (hs : s.head? ≠ some 0x2F) :
    resolveHttps (lit "https://" ++ authority ++ rest) (0x2F :: s) =
      some (hostOf authority, target ⟨some (lit "https"), some authority,
        removeDotSegments (pathOf (0x2F :: s)), queryOf (0x2F :: s), fragmentOf (0x2F :: s)⟩) := by
  have hresolve : resolve (parse (lit "https://" ++ authority ++ rest)) (parse (0x2F :: s)) =
      ⟨some (lit "https"), some authority, removeDotSegments (pathOf (0x2F :: s)),
        queryOf (0x2F :: s), fragmentOf (0x2F :: s)⟩ := by
    rw [parse_https ha hrest, parse_slash hs]
    have hpath : pathOf (0x2F :: s) = 0x2F :: pathOf s := rfl
    unfold resolve
    rw [hpath]
    rfl
  unfold resolveHttps
  rw [hresolve]
  rfl

include ha hrest in
/-- A reference that starts with two slashes names a host. So it never asks for itself: what
is asked for is shorter. -/
theorem resolveHttps_slash_slash (s host : Bytes) :
    resolveHttps (lit "https://" ++ authority ++ rest) (0x2F :: 0x2F :: s) ≠
      some (host, 0x2F :: 0x2F :: s) := by
  have hresolve : resolve (parse (lit "https://" ++ authority ++ rest))
      (parse (0x2F :: 0x2F :: s)) =
      ⟨some (lit "https"), some (s.takeWhile fun c => !endsAuthority c),
        removeDotSegments (pathOf (s.dropWhile fun c => !endsAuthority c)),
        queryOf (s.dropWhile fun c => !endsAuthority c),
        fragmentOf (s.dropWhile fun c => !endsAuthority c)⟩ := by
    rw [parse_https ha hrest, parse_slash_slash]
    rfl
  intro h
  unfold resolveHttps at h
  rw [hresolve] at h
  have hlen := congrArg List.length (Prod.ext_iff.mp (Option.some.inj h)).2
  have htarget := length_target_le (s.dropWhile fun c => !endsAuthority c) (some (lit "https"))
    (some (s.takeWhile fun c => !endsAuthority c))
    (fragmentOf (s.dropWhile fun c => !endsAuthority c))
  have hdrop := (List.dropWhile_sublist (fun c => !endsAuthority c) (l := s)).length_le
  simp only [List.length_cons] at hlen
  omega

end

/-- What follows an authority is empty or starts with a slash. -/
theorem rooted_path_of_authority {s : Bytes} (h : (parse s).authority.isSome = true) :
    Rooted (parse s).path := by
  have htail : ∀ t : Bytes, (splitAuthority t).1.isSome = true →
      Rooted (pathOf (splitAuthority t).2) := by
    intro t ht
    unfold splitAuthority at ht ⊢
    split at ht
    · rename_i rest
      have hhead := List.head?_dropWhile_not (fun c => !endsAuthority c) rest
      intro x hx
      cases hdrop : rest.dropWhile fun c => !endsAuthority c with
      | nil =>
        simp only [hdrop] at hx
        cases hx
      | cons c rest' =>
        simp only [hdrop, List.head?_cons] at hhead
        simp only [hdrop, pathOf] at hx
        by_cases hc : endsPath c = true
        · simp [hc] at hx
        · simp only [hc, List.takeWhile_cons, Bool.not_false, if_true, List.head?_cons,
            Option.mem_def, Option.some.injEq] at hx
          subst hx
          simp only [endsAuthority, endsPath, Bool.not_eq_false', Bool.or_eq_true, beq_iff_eq] at *
          tauto
    · cases ht
  exact htail _ h

/-- Seen from a page with an authority every https reference asks for something that starts
with a slash. -/
theorem head?_of_resolveHttps {base ref host t : Bytes}
    (hbase : (parse base).authority.isSome = true) (h : resolveHttps base ref = some (host, t)) :
    t.head? = some 0x2F := by
  have htarget : ∀ r : Reference, Rooted r.path → (target r).head? = some 0x2F := by
    intro r hr
    unfold target
    cases hpath : r.path with
    | nil => rfl
    | cons c path =>
      rw [if_neg (List.cons_ne_nil c path), hr c (by rw [hpath]; rfl)]
      rfl
  have hdots : ∀ path, Rooted path → Rooted (removeDotSegments path) := by
    intro path hpath
    cases path with
    | nil => exact hpath
    | cons c path =>
      have := @head?_removeDotSegments (c :: path) (by rw [hpath c rfl]; rfl)
      intro x hx
      rw [this] at hx
      cases hx
      rfl
  have hpath : Rooted (parse base).path := rooted_path_of_authority hbase
  unfold resolveHttps httpsTarget at h
  split at h
  · obtain ⟨authority, hauth, heq⟩ := Option.map_eq_some_iff.mp h
    cases heq
    refine htarget _ ?_
    unfold resolve at hauth ⊢
    split_ifs at hauth ⊢ with h1 h2 h3 h4
    · exact hdots _ (rooted_path_of_authority (by rw [hauth]; rfl))
    · exact hdots _ (rooted_path_of_authority h2)
    · exact hpath
    · refine hdots _ fun x hx => ?_
      rw [h4] at hx
      cases hx
      rfl
    · refine hdots _ fun x hx => ?_
      unfold merge at hx
      split at hx
      · cases hx
        rfl
      · -- The merged path keeps the base path up to its last slash, and so its first byte.
        rename_i hcond
        have hne : (parse base).path ≠ [] := fun heq => hcond ⟨hbase, heq⟩
        have hhead : (parse base).path.head? = some 0x2F := by
          obtain ⟨c, path, heq⟩ := List.exists_cons_of_ne_nil hne
          rw [heq, List.head?_cons, hpath c (by rw [heq]; rfl)]
        have hkeep : (parse base).path.rdropWhile (· ≠ 0x2F) ≠ [] := by
          intro heq
          have hall := List.rdropWhile_eq_nil_iff.mp heq 0x2F (List.mem_of_head? hhead)
          simp at hall
        rw [List.head?_append_of_ne_nil _ hkeep] at hx
        exact hpath.mono (List.rdropWhile_prefix (fun c => decide (c ≠ 0x2F)) _) x hx
  · cases h

end Rfc3986

end EjsBoundary.Lib
