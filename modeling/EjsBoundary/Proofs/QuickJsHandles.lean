import EjsBoundary.Model.QuickJsHandles
import EjsBoundary.Proofs.QuickJsJson

/-!
# `EjsBoundary.Proofs.QuickJsHandles`: every handle of an engine is freed once

`engineLife_leaves_iff`: whatever the scripts, the solver and the values it returns do, the life
of an engine is legal and leaves no handle, exactly when `JS_NewRuntime` gives a runtime and the
native stack has room for every reply. Without a runtime, the constructor passes the null pointer on
before it tests it. A reply that contains itself finds no room (`not_hasRoom_of_cycle`).

The two conversions are recursive. `meets_jsonToJs` and `converts_jsToJson` say of every value that
the handles held before are the ones held after it, with one more that is returned by the first,
and that only handles under the place of the conversion were made. The first is proved by induction
over the value, the second over the room. `FromChild` is the part of a place that a loop has still
to go through.

`engineLife_result` says that the engine of `EjsBoundary.Model.SolverEngine` returns what this
one does. `jsonOf_seenOf` says the same of the conversion of a value that is a tree.
-/

set_option autoImplicit false

namespace EjsBoundary.Proofs

open EjsBoundary.Lib
open EjsBoundary.Model

/-! ### Places -/

/-- The handle belongs to the place or to one below it. -/
def Under (place : List Nat) : JsRef → Prop
  | .of q _ => place <+: q
  | .runtime | .context => False

/-- The handle belongs to a turn of a loop of the place, from turn `i` on. -/
def FromChild (place : List Nat) (i : Nat) : JsRef → Prop
  | .of q kind => (∃ j, i ≤ j ∧ place ++ [j] <+: q) ∨
    (q = place ∧ ∃ j, i ≤ j ∧ (kind = .elem j ∨ kind = .key j ∨ kind = .pv j))
  | .runtime | .context => False

section
variable {place : List Nat} {i : Nat} {r : JsRef}

/-- The references of a place are under it. -/
theorem under_at (place : List Nat) (kind : JsKind) : Under place (.of place kind) :=
  List.prefix_refl place

/-- Those of a place are not under its children. -/
theorem not_under_child (place : List Nat) (i : Nat) (kind : JsKind) :
    ¬ Under (place ++ [i]) (.of place kind) := by
  intro h
  have hlen := List.IsPrefix.length_le h
  rw [List.length_append, List.length_singleton] at hlen
  omega

/-- A handle is under one child of a place only. -/
theorem under_unique {j : Nat} (hi : Under (place ++ [i]) r) (hj : Under (place ++ [j]) r) : i = j := by
  cases r with
  | runtime => exact hi.elim
  | context => exact hi.elim
  | of q kind =>
    have heq := (List.prefix_of_prefix_length_le hi hj (by simp)).eq_of_length (by simp)
    exact List.singleton_inj.mp (List.append_cancel_left heq)

/-- A reference under a child is under the place. -/
theorem FromChild.under (h : FromChild place i r) : Under place r := by
  cases r with
  | runtime => exact h
  | context => exact h
  | of q kind =>
    rcases h with ⟨j, -, hj⟩ | ⟨rfl, -⟩
    · exact (List.prefix_append place [j]).trans hj
    · exact List.prefix_refl q

/-- The child `i` is one of those from `i` on. -/
theorem fromChild_of_under (h : Under (place ++ [i]) r) : FromChild place i r := by
  cases r with
  | runtime => exact h
  | context => exact h
  | of q kind => exact Or.inl ⟨i, Nat.le_refl i, h⟩

/-- What belongs to a later turn does not belong to this one. -/
theorem FromChild.later (h : FromChild place (i + 1) r) :
    FromChild place i r ∧ ¬ Under (place ++ [i]) r ∧ r ≠ .of place (.elem i) ∧
      r ≠ .of place (.key i) ∧ r ≠ .of place (.pv i) := by
  cases r with
  | runtime => exact h.elim
  | context => exact h.elim
  | of q kind =>
    rcases h with ⟨j, hij, hj⟩ | ⟨rfl, j, hij, hkind⟩
    · have hne : ∀ kind', JsRef.of q kind ≠ .of place kind' := by
        intro kind' heq
        rw [JsRef.of.injEq] at heq
        rw [heq.1] at hj
        exact not_under_child place j kind hj
      refine ⟨Or.inl ⟨j, by omega, hj⟩, fun hi => ?_, hne _, hne _, hne _⟩
      have heq := under_unique hi (show Under (place ++ [j]) (.of q kind) from hj)
      omega
    · refine ⟨Or.inr ⟨rfl, j, by omega, hkind⟩, not_under_child q i kind, ?_⟩
      simp only [ne_eq, JsRef.of.injEq, true_and]
      rcases hkind with rfl | rfl | rfl
      · simp only [JsKind.elem.injEq, reduceCtorEq, not_false_eq_true, and_true]
        omega
      · simp only [JsKind.key.injEq, reduceCtorEq, not_false_eq_true, true_and, and_true]
        omega
      · simp only [JsKind.pv.injEq, reduceCtorEq, not_false_eq_true, true_and]
        omega

/-- What is not under a place is none of its own references. -/
theorem ne_of_not_under (h : ¬ Under place r) (kind : JsKind) :
    r ≠ .of place kind := by
  rintro rfl
  exact h (under_at place kind)

/-- What is under a child is under the place and none of its own references. -/
theorem under_of_child (h : Under (place ++ [i]) r) :
    Under place r ∧ ∀ kind, r ≠ .of place kind := by
  refine ⟨(fromChild_of_under h).under, ?_⟩
  rintro kind rfl
  exact not_under_child place i kind h

/-- The handles that a conversion has for itself belong to no turn. -/
theorem FromChild.ne_own {kind : JsKind} (hkind : ∀ j, kind ≠ .elem j ∧ kind ≠ .key j ∧ kind ≠ .pv j)
    (h : FromChild place i r) : r ≠ .of place kind := by
  rintro rfl
  rcases h with ⟨j, -, hj⟩ | ⟨-, j, -, hj⟩
  · exact not_under_child place j kind hj
  · obtain ⟨h₁, h₂, h₃⟩ := hkind j
    rcases hj with hj | hj | hj
    · exact h₁ hj
    · exact h₂ hj
    · exact h₃ hj

end

/-! ### Calls and scopes -/

section
variable {α : Type} {held rest : List JsRef} {fresh fresh' : JsRef → Prop} {P : Unit → Prop}
  {exc : Bytes → Ledger JsRef → Unit → Prop} {nev : Ledger JsRef → Prop} {r : JsRef}

/-- A call of the API uses the context and the references it is given. -/
theorem meets_apiCall (hctx : .context ∈ held) {refs : List JsRef} (hrefs : ∀ r ∈ refs, r ∈ held) :
    Meets (fun _ => True) (fun l s => l.Is held [] fresh ∧ P s) (apiCall refs)
      (fun _ l s => l.Is held [] fresh ∧ P s) exc nev := by
  induction refs with
  | nil => exact Meets.use hctx
  | cons r refs ih =>
    rw [apiCall]
    refine Meets.bind (Meets.use (hrefs r List.mem_cons_self)) fun _ => ?_
    exact ih fun r' hr' => hrefs r' (List.mem_cons_of_mem r hr')

/-- The destructor of an owner. -/
theorem meets_free (hctx : .context ∈ held) (hheld : held.Perm (r :: rest)) :
    Meets (fun _ => True) (fun l s => l.Is held [] fresh ∧ P s)
      (do apiCall []; Prog.emit (.release r) : JsProg Unit)
      (fun _ l s => l.Is rest [] fresh ∧ P s) exc nev := by
  refine Meets.bind (meets_apiCall hctx (by simp)) fun _ => ?_
  exact Meets.release hheld rfl

/-- However its body ends, an owner frees its handle. -/
theorem meets_inScope (hctx : .context ∈ held) {Q : α → Prop} {E : Bytes → Prop} {body : JsProg α}
    (hbody : Meets (fun _ => True) (fun l s => l.Is (r :: held) [] fresh ∧ P s) body
      (fun a l s => Q a ∧ l.Is (r :: held) [] fresh' ∧ P s)
      (fun e l s => E e ∧ l.Is (r :: held) [] fresh' ∧ P s) nev) :
    Meets (fun _ => True) (fun l s => l.Is (r :: held) [] fresh ∧ P s) (inScope r body)
      (fun a l s => Q a ∧ l.Is held [] fresh' ∧ P s)
      (fun e l s => E e ∧ l.Is held [] fresh' ∧ P s) nev := by
  have hfree : ∀ φ : Prop, ∀ exc, Meets (fun _ => True)
      (fun l s => φ ∧ l.Is (r :: held) [] fresh' ∧ P s)
      (do apiCall []; Prog.emit (.release r) : JsProg Unit)
      (fun _ l s => φ ∧ l.Is held [] fresh' ∧ P s) exc nev := by
    intro φ exc
    refine Meets.of_fact fun hφ => ?_
    exact (meets_free (List.mem_cons_of_mem r hctx) (List.Perm.refl _)).weaken (fun _ _ h => h)
      (fun _ _ _ h => ⟨hφ, h⟩) (fun _ _ _ h => h) (fun _ h => h)
  exact Meets.finallyDo hbody (fun a => hfree (Q a) _) fun e => hfree (E e) _

/-- A scope that returns releases its reference. -/
theorem meets_inScope_ret (hctx : .context ∈ held) {Q : α → Prop} {body : JsProg α}
    (hbody : ∀ exc, Meets (fun _ => True) (fun l s => l.Is (r :: held) [] fresh ∧ P s) body
      (fun a l s => Q a ∧ l.Is (r :: held) [] fresh' ∧ P s) exc nev) :
    Meets (fun _ => True) (fun l s => l.Is (r :: held) [] fresh ∧ P s) (inScope r body)
      (fun a l s => Q a ∧ l.Is held [] fresh' ∧ P s) exc nev :=
  (meets_inScope (E := fun _ => False) hctx (hbody _)).weaken (fun _ _ h => h)
    (fun _ _ _ h => h) (fun _ _ _ h => h.1.elim) (fun _ h => h)

/-- An owner of a new handle. -/
theorem meets_owned (hctx : .context ∈ held) (hfresh : fresh r) {Q : α → Prop} {E : Bytes → Prop}
    {body : JsProg α}
    (hbody : Meets (fun _ => True)
      (fun l s => l.Is (r :: held) [] (fun g => fresh g ∧ g ≠ r) ∧ P s) body
      (fun a l s => Q a ∧ l.Is (r :: held) [] fresh' ∧ P s)
      (fun e l s => E e ∧ l.Is (r :: held) [] fresh' ∧ P s) nev) :
    Meets (fun _ => True) (fun l s => l.Is held [] fresh ∧ P s) (owned r body)
      (fun a l s => Q a ∧ l.Is held [] fresh' ∧ P s)
      (fun e l s => E e ∧ l.Is held [] fresh' ∧ P s) nev := by
  unfold owned
  refine Meets.bind (Meets.acquire hfresh) fun _ => ?_
  exact meets_inScope hctx hbody

/-- An owner whose body does not throw. -/
theorem meets_owned_ret (hctx : .context ∈ held) (hfresh : fresh r) {Q : α → Prop}
    {body : JsProg α}
    (hbody : ∀ exc, Meets (fun _ => True)
      (fun l s => l.Is (r :: held) [] (fun g => fresh g ∧ g ≠ r) ∧ P s) body
      (fun a l s => Q a ∧ l.Is (r :: held) [] fresh' ∧ P s) exc nev) :
    Meets (fun _ => True) (fun l s => l.Is held [] fresh ∧ P s) (owned r body)
      (fun a l s => Q a ∧ l.Is held [] fresh' ∧ P s) exc nev :=
  (meets_owned (E := fun _ => False) hctx hfresh (hbody _)).weaken (fun _ _ h => h)
    (fun _ _ _ h => h) (fun _ _ _ h => h.1.elim) (fun _ h => h)

/-- A C string, which may be null. -/
theorem meets_ownedText (hctx : .context ∈ held) (hfresh : fresh r) {Q : α → Prop}
    (text : Option Bytes) {body : Option Bytes → JsProg α}
    (hnone : text = none → Meets (fun _ => True) (fun l s => l.Is held [] fresh ∧ P s) (body none)
      (fun a l s => Q a ∧ l.Is held [] fresh' ∧ P s) exc nev)
    (hsome : ∀ t exc, text = some t → Meets (fun _ => True)
      (fun l s => l.Is (r :: held) [] (fun g => fresh g ∧ g ≠ r) ∧ P s) (body (some (cString t)))
      (fun a l s => Q a ∧ l.Is (r :: held) [] fresh' ∧ P s) exc nev) :
    Meets (fun _ => True) (fun l s => l.Is held [] fresh ∧ P s) (ownedText r text body)
      (fun a l s => Q a ∧ l.Is held [] fresh' ∧ P s) exc nev := by
  cases text with
  | none => exact hnone rfl
  | some t => exact meets_owned_ret hctx hfresh fun exc => hsome t exc rfl

end

/-! ### `json_to_js_qjs` -/

section
variable {held : List JsRef} {fresh : JsRef → Prop} {P : Unit → Prop}
  {exc : Bytes → Ledger JsRef → Unit → Prop} {nev : Ledger JsRef → Prop}

/-- The rest of a turn of either loop: the new value goes to the container. -/
theorem meets_setProperty {place : List Nat} {value : JsRef} (hctx : .context ∈ held)
    (hbuilt : .of place .built ∈ held) :
    Meets (fun _ => True) (fun l s => l.Is (value :: held) [] fresh ∧ P s)
      (setPropertyCall (.of place .built) value) (fun _ l s => l.Is held [] fresh ∧ P s) exc nev := by
  unfold setPropertyCall
  refine Meets.bind (meets_apiCall (List.mem_cons_of_mem _ hctx) (by simp [hbuilt])) fun _ => ?_
  exact Meets.release (List.Perm.refl _) rfl

/-- What is left of a loop after one turn. -/
theorem fresh_next {place : List Nat} {i : Nat} (hfresh : ∀ r, FromChild place i r → fresh r) :
    ∀ r, FromChild place (i + 1) r → fresh r ∧ ¬ Under (place ++ [i]) r :=
  fun r hr => ⟨hfresh r hr.later.1, hr.later.2.1⟩

/-- What is new behind the children from `i` on is new behind child `i` and those behind it. -/
theorem fresh_done {place : List Nat} {i : Nat} :
    ∀ r, fresh r ∧ ¬ FromChild place i r →
      (fresh r ∧ ¬ Under (place ++ [i]) r) ∧ ¬ FromChild place (i + 1) r :=
  fun _ hr => ⟨⟨hr.1, fun h => hr.2 (fromChild_of_under h)⟩, fun h => hr.2 h.later.1⟩

mutual

/-- A conversion to JavaScript makes one reference, which it returns, and frees or hands over all
others. -/
theorem meets_jsonToJs (v : Json) {place : List Nat} {held : List JsRef} {fresh : JsRef → Prop}
    (hctx : .context ∈ held) (hfresh : ∀ r, Under place r → fresh r) :
    Meets (fun _ => True) (fun l s => l.Is held [] fresh ∧ P s) (jsonToJsCalls place v)
      (fun a l s => a = .of place .built ∧ l.Is (.of place .built :: held) []
        (fun r => fresh r ∧ ¬ Under place r) ∧ P s) exc nev := by
  have hnew : fresh (.of place .built) := hfresh _ (under_at place .built)
  -- The loops use nothing but what belongs to their turns.
  have hchild : ∀ r, FromChild place 0 r → fresh r ∧ r ≠ .of place .built :=
    fun r hr => ⟨hfresh r hr.under, hr.ne_own (by simp)⟩
  have hrest : ∀ r, fresh r ∧ ¬ Under place r →
      (fresh r ∧ r ≠ .of place .built) ∧ ¬ FromChild place 0 r := by
    intro r ⟨hr, hnot⟩
    exact ⟨⟨hr, ne_of_not_under hnot .built⟩, fun h => hnot h.under⟩
  have hscalar : Meets (fun _ => True) (fun l s => l.Is held [] fresh ∧ P s)
      (do
        apiCall []
        Prog.emit (.acquire (.of place .built))
        return .of place .built : JsProg JsRef)
      (fun a l s => a = .of place .built ∧ l.Is (.of place .built :: held) []
        (fun r => fresh r ∧ ¬ Under place r) ∧ P s) exc nev := by
    refine Meets.bind (meets_apiCall hctx (by simp)) fun _ => ?_
    refine Meets.bind (Meets.acquire hnew) fun _ => ?_
    exact Meets.ret fun l s ⟨hl, hP⟩ =>
      ⟨rfl, hl.weaken (List.Perm.refl _) fun r hr => (hrest r hr).1, hP⟩
  cases v with
  | null => exact hscalar
  | bool b => exact hscalar
  | int i => exact hscalar
  | uint n => exact hscalar
  | real d => exact hscalar
  | string s => exact hscalar
  | array elems =>
    rw [jsonToJsCalls]
    refine Meets.bind (meets_apiCall hctx (by simp)) fun _ => ?_
    refine Meets.bind (Meets.acquire hnew) fun _ => ?_
    refine Meets.bind (meets_setElems elems (List.mem_cons_of_mem _ hctx) List.mem_cons_self hchild)
      fun _ => ?_
    exact Meets.ret fun l s ⟨hl, hP⟩ => ⟨rfl, hl.weaken (List.Perm.refl _) hrest, hP⟩
  | object members =>
    rw [jsonToJsCalls]
    refine Meets.bind (meets_apiCall hctx (by simp)) fun _ => ?_
    refine Meets.bind (Meets.acquire hnew) fun _ => ?_
    refine Meets.bind
      (meets_setMembers members (List.mem_cons_of_mem _ hctx) List.mem_cons_self hchild) fun _ => ?_
    exact Meets.ret fun l s ⟨hl, hP⟩ => ⟨rfl, hl.weaken (List.Perm.refl _) hrest, hP⟩

/-- Building the elements uses up the references of the children and holds none of them. -/
theorem meets_setElems (vs : List Json) {place : List Nat} {i : Nat} {held : List JsRef}
    {fresh : JsRef → Prop} (hctx : .context ∈ held) (hbuilt : .of place .built ∈ held)
    (hfresh : ∀ r, FromChild place i r → fresh r) :
    Meets (fun _ => True) (fun l s => l.Is held [] fresh ∧ P s) (setElems place i vs)
      (fun _ l s => l.Is held [] (fun r => fresh r ∧ ¬ FromChild place i r) ∧ P s) exc nev := by
  cases vs with
  | nil =>
    exact Meets.ret fun l s ⟨hl, hP⟩ => ⟨hl.weaken (List.Perm.refl _) fun r hr => hr.1, hP⟩
  | cons v vs =>
    rw [setElems]
    refine Meets.bind (meets_jsonToJs v hctx fun r hr => hfresh r (fromChild_of_under hr))
      fun value => Meets.of_fact fun hvalue => ?_
    subst hvalue
    refine Meets.bind (meets_setProperty hctx hbuilt) fun _ => ?_
    exact (meets_setElems vs hctx hbuilt (fresh_next hfresh)).weaken (fun _ _ h => h)
      (fun _ l s ⟨hl, hP⟩ => ⟨hl.weaken (List.Perm.refl _) fresh_done, hP⟩) (fun _ _ _ h => h)
      (fun _ h => h)

/-- So does building the members. -/
theorem meets_setMembers (ms : List (Bytes × Json)) {place : List Nat} {i : Nat} {held : List JsRef}
    {fresh : JsRef → Prop} (hctx : .context ∈ held) (hbuilt : .of place .built ∈ held)
    (hfresh : ∀ r, FromChild place i r → fresh r) :
    Meets (fun _ => True) (fun l s => l.Is held [] fresh ∧ P s) (setMembers place i ms)
      (fun _ l s => l.Is held [] (fun r => fresh r ∧ ¬ FromChild place i r) ∧ P s) exc nev := by
  cases ms with
  | nil =>
    exact Meets.ret fun l s ⟨hl, hP⟩ => ⟨hl.weaken (List.Perm.refl _) fun r hr => hr.1, hP⟩
  | cons m ms =>
    obtain ⟨name, v⟩ := m
    rw [setMembers, memberToJsCalls]
    refine Meets.bind (meets_jsonToJs v hctx fun r hr => hfresh r (fromChild_of_under hr))
      fun value => Meets.of_fact fun hvalue => ?_
    subst hvalue
    refine Meets.bind (meets_setProperty hctx hbuilt) fun _ => ?_
    exact (meets_setMembers ms hctx hbuilt (fresh_next hfresh)).weaken (fun _ _ h => h)
      (fun _ l s ⟨hl, hP⟩ => ⟨hl.weaken (List.Perm.refl _) fresh_done, hP⟩) (fun _ _ _ h => h)
      (fun _ h => h)

end

end

/-! ### `js_to_json_qjs` -/

section
variable (json : JsSeen → Option Json) (seen : JsSeen)

/-- The elements from `i` on, when each of them comes to an end. -/
def jsonOfElems (i : Nat) : Nat → Option (List Json)
  | 0 => some []
  | n + 1 => (json (seen.child i)).bind fun x => (jsonOfElems (i + 1) n).map fun xs => x :: xs

/-- The entry of a property. One whose name has no text has none. -/
def jsonOfProp (i : Nat) (key : Option Bytes) : Option (Option (Bytes × Json)) :=
  key.elim (some none) fun t => (json (seen.child i)).map fun x => some (cString t, x)

/-- The entries of the properties from `i` on. -/
def jsonOfProps (i : Nat) : List (Option Bytes) → Option (List (Bytes × Json))
  | [] => some []
  | key :: keys => (jsonOfProp json seen i key).bind fun entry =>
      (jsonOfProps (i + 1) keys).map fun entries => entry.toList ++ entries

end

/-- What `js_to_json_qjs` returns, `none` when there is no room for its calls. -/
def jsonOf : Nat → JsSeen → Option Json
  | 0, _ => none
  | stack + 1, seen =>
    match seen [] with
    | .null => some .null
    | .bool b => some (.bool b)
    | .number value => some (value.elim .null .real)
    | .string text => some (text.elim .null fun t => .string (cString t))
    | .array length => (jsonOfElems (jsonOf stack) seen 0 length).map .array
    | .unlisted => some (.object [])
    | .object keys =>
      (jsonOfProps (jsonOf stack) seen 0 keys).map fun entries => .object (ofEntries entries).toList
    | .other => some .null

/-- `js_to_json_qjs` calls itself for the value with this number. -/
def Descends : JsNode → Nat → Prop
  | .array length, i => i < length
  | .object keys, i => ∃ text, keys[i]? = some (some text)
  | .null, _ | .bool _, _ | .number _, _ | .string _, _ | .unlisted, _ | .other, _ => False

/-- There is room for the calls that the value needs. -/
def HasRoom : Nat → JsSeen → Prop
  | 0, _ => False
  | stack + 1, seen => ∀ i, Descends (seen []) i → HasRoom stack (seen.child i)

/-- `js_to_json_qjs` comes to the value at the end of the path. -/
def Reaches : JsSeen → List Nat → Prop
  | _, [] => True
  | seen, i :: path => Descends (seen []) i ∧ Reaches (seen.child i) path

/-- With room for a value there is room for what it reaches, less by the length of the path. -/
theorem HasRoom.reached {stack : Nat} {seen : JsSeen} {path : List Nat} (h : HasRoom stack seen)
    (hreach : Reaches seen path) :
    ∃ rest, stack = path.length + rest ∧ HasRoom rest (path.foldl JsSeen.child seen) := by
  induction path generalizing stack seen with
  | nil => exact ⟨stack, (Nat.zero_add stack).symm, h⟩
  | cons i path ih =>
    cases stack with
    | zero => exact h.elim
    | succ stack =>
      obtain ⟨rest, hlen, hroom⟩ := ih (h i hreach.1) hreach.2
      refine ⟨rest, ?_, hroom⟩
      rw [List.length_cons]
      omega

/-- A value that is reached inside itself needs more calls than there is ever room for. -/
theorem not_hasRoom_of_cycle {seen : JsSeen} (path : List Nat) (hne : path ≠ [])
    (hreach : Reaches seen path) (hself : path.foldl JsSeen.child seen = seen) (stack : Nat) :
    ¬ HasRoom stack seen := by
  induction stack using Nat.strong_induction_on with
  | _ stack ih =>
    intro h
    -- Once around the cycle there is less room for the same value.
    obtain ⟨rest, hlen, hroom⟩ := h.reached hreach
    rw [hself] at hroom
    have hpos := List.length_pos_of_ne_nil hne
    exact ih rest (by omega) hroom

/-- The array whose only element is the array. -/
example (stack : Nat) : ¬ HasRoom stack fun _ => .array 1 :=
  have hreach : Reaches (fun _ => .array 1) [0] := ⟨Nat.zero_lt_one, trivial⟩
  not_hasRoom_of_cycle [0] (List.cons_ne_nil _ _) hreach rfl stack

section
variable {json : JsSeen → Option Json} {seen : JsSeen}

/-- The elements have values if each of them has. -/
theorem jsonOfElems_isSome_iff (i n : Nat) : (jsonOfElems json seen i n).isSome ↔
    ∀ j, j < n → (json (seen.child (i + j))).isSome := by
  induction n generalizing i with
  | zero => simp [jsonOfElems]
  | succ n ih =>
    have hsucc : (jsonOfElems json seen i (n + 1)).isSome ↔
        (json (seen.child i)).isSome ∧ (jsonOfElems json seen (i + 1) n).isSome := by
      rw [jsonOfElems]
      cases json (seen.child i) with
      | none => simp
      | some x => simp
    rw [hsucc, ih]
    constructor
    · intro ⟨hfirst, hrest⟩ j hj
      cases j with
      | zero => exact hfirst
      | succ j =>
        have hj' := hrest j (by omega)
        rwa [Nat.add_right_comm, Nat.add_assoc] at hj'
    · intro h
      refine ⟨h 0 (by omega), fun j hj => ?_⟩
      have hj' := h (j + 1) (by omega)
      rwa [← Nat.add_assoc, Nat.add_right_comm] at hj'

/-- So have the properties, where a key without a text is passed over. -/
theorem jsonOfProps_isSome_iff (i : Nat) (keys : List (Option Bytes)) :
    (jsonOfProps json seen i keys).isSome ↔
      ∀ j text, keys[j]? = some (some text) → (json (seen.child (i + j))).isSome := by
  induction keys generalizing i with
  | nil => simp [jsonOfProps]
  | cons key keys ih =>
    have hcons : (jsonOfProps json seen i (key :: keys)).isSome ↔
        (jsonOfProp json seen i key).isSome ∧ (jsonOfProps json seen (i + 1) keys).isSome := by
      rw [jsonOfProps]
      cases jsonOfProp json seen i key with
      | none => simp
      | some entry => simp
    have hprop : (jsonOfProp json seen i key).isSome ↔
        ∀ text, key = some text → (json (seen.child i)).isSome := by
      cases key with
      | none => simp [jsonOfProp]
      | some text => simp [jsonOfProp]
    rw [hcons, hprop, ih]
    constructor
    · intro ⟨hfirst, hrest⟩ j text hj
      cases j with
      | zero => exact hfirst text (Option.some.inj hj)
      | succ j =>
        have hj' := hrest j text hj
        rwa [Nat.add_right_comm, Nat.add_assoc] at hj'
    · intro h
      refine ⟨fun text hkey => h 0 text (congrArg some hkey), fun j text hj => ?_⟩
      have hj' := h (j + 1) text hj
      rwa [← Nat.add_assoc, Nat.add_right_comm] at hj'

end

/-- A value is converted exactly when there is room for it. -/
theorem jsonOf_isSome_iff (stack : Nat) (seen : JsSeen) :
    (jsonOf stack seen).isSome ↔ HasRoom stack seen := by
  induction stack generalizing seen with
  | zero => simp [jsonOf, HasRoom]
  | succ stack ih =>
    unfold jsonOf HasRoom
    cases seen [] with
    | array length => simp [Descends, jsonOfElems_isSome_iff, ih]
    | object keys => simp [Descends, jsonOfProps_isSome_iff, ih]
    | _ => simp [Descends]

/-- The atoms of the turns from `i` on. -/
def atomsFrom (place : List Nat) (i n : Nat) : List JsRef :=
  (List.range' i n).map fun j => .of place (.atom j)

/-- The first of the atoms, and the others. -/
theorem atomsFrom_succ (place : List Nat) (i n : Nat) :
    atomsFrom place i (n + 1) = .of place (.atom i) :: atomsFrom place (i + 1) n := by
  rw [atomsFrom, List.range'_succ, List.map_cons]
  rfl

section
variable {held : List JsRef} {fresh : JsRef → Prop} {P : Unit → Prop}
  {exc : Bytes → Ledger JsRef → Unit → Prop} {nev : Ledger JsRef → Prop} {place : List Nat} {i : Nat}

/-- The property list comes with one atom for each key. -/
theorem meets_acquireAtoms (n : Nat) (hfresh : ∀ j, i ≤ j → fresh (.of place (.atom j))) :
    Meets (fun _ => True) (fun l s => l.Is held [] fresh ∧ P s) (acquireAtoms place i n)
      (fun _ l s => l.Is (atomsFrom place i n ++ held) []
        (fun r => fresh r ∧ ∀ j, r ≠ .of place (.atom j)) ∧ P s) exc nev := by
  induction n generalizing i held fresh with
  | zero => exact Meets.ret fun l s ⟨hl, hP⟩ => ⟨hl.weaken (List.Perm.refl _) fun _ h => h.1, hP⟩
  | succ n ih =>
    rw [acquireAtoms, atomsFrom_succ]
    have hnext : ∀ j, i + 1 ≤ j →
        fresh (.of place (.atom j)) ∧ JsRef.of place (.atom j) ≠ .of place (.atom i) := by
      intro j hj
      refine ⟨hfresh j (by omega), fun heq => ?_⟩
      rw [JsRef.of.injEq, JsKind.atom.injEq] at heq
      omega
    refine Meets.bind (Meets.acquire (hfresh i (Nat.le_refl i))) fun _ => ?_
    exact (ih hnext).weaken (fun _ _ h => h)
      (fun _ l s ⟨hl, hP⟩ =>
        ⟨hl.weaken List.perm_middle fun r hr => ⟨⟨hr.1, hr.2 i⟩, hr.2⟩, hP⟩)
      (fun _ _ _ h => h) (fun _ h => h)

end

/-- What is new after turn `i` of a loop: nothing of the turn. -/
def NewAfter (place : List Nat) (i : Nat) (fresh : JsRef → Prop) (r : JsRef) : Prop :=
  fresh r ∧ (FromChild place i r → FromChild place (i + 1) r)

section
variable {fresh : JsRef → Prop} {place : List Nat} {i : Nat} {r : JsRef}

/-- What is new behind turn `i` is none of the references of that turn. -/
theorem NewAfter.spec (h : NewAfter place i fresh r) :
    fresh r ∧ ¬ Under (place ++ [i]) r ∧ r ≠ .of place (.elem i) ∧ r ≠ .of place (.key i) ∧
      r ≠ .of place (.pv i) := by
  by_cases hr : FromChild place i r
  · exact ⟨h.1, (h.2 hr).later.2⟩
  · refine ⟨h.1, fun hunder => hr (fromChild_of_under hunder), ?_, ?_, ?_⟩
    · rintro rfl
      exact hr (Or.inr ⟨rfl, i, Nat.le_refl i, Or.inl rfl⟩)
    · rintro rfl
      exact hr (Or.inr ⟨rfl, i, Nat.le_refl i, Or.inr (Or.inl rfl)⟩)
    · rintro rfl
      exact hr (Or.inr ⟨rfl, i, Nat.le_refl i, Or.inr (Or.inr rfl)⟩)

/-- The children behind `i` are new behind turn `i`. -/
theorem newAfter_of_fromChild (hfresh : ∀ r, FromChild place i r → fresh r) :
    ∀ r, FromChild place (i + 1) r → NewAfter place i fresh r :=
  fun r hr => ⟨hfresh r hr.later.1, fun _ => hr⟩

/-- What is new behind all turns is new behind turn `i` and those behind it. -/
theorem newAfter_of_not_fromChild :
    ∀ r, fresh r ∧ ¬ FromChild place i r →
      NewAfter place i fresh r ∧ ¬ FromChild place (i + 1) r :=
  fun _ hr => ⟨⟨hr.1, fun h => absurd h hr.2⟩, fun h => hr.2 h.later.1⟩

end

/-- A conversion to JSON gives this value and frees every handle it makes. Where the value has none,
the conversion does not come back, and the context is held for ever. -/
def Converts (convert : JsRef → List Nat → JsSeen → JsProg Json) (json : JsSeen → Option Json) :
    Prop :=
  ∀ (seen : JsSeen) {val : JsRef} {place : List Nat} {held : List JsRef} {fresh : JsRef → Prop}
    {P : Unit → Prop} {exc : Bytes → Ledger JsRef → Unit → Prop} {nev : Ledger JsRef → Prop},
    .context ∈ held → val ∈ held → (∀ r, Under place r → fresh r) →
    (json seen = none → ∀ l : Ledger JsRef, .context ∈ l.held → nev l) →
    Meets (fun _ => True) (fun l s => l.Is held [] fresh ∧ P s) (convert val place seen)
      (fun a l s => json seen = some a ∧
        l.Is held [] (fun r => fresh r ∧ ¬ Under place r) ∧ P s) exc nev

section
variable {convert : JsRef → List Nat → JsSeen → JsProg Json} {json : JsSeen → Option Json}
  {seen : JsSeen} {val : JsRef} {place : List Nat} {P : Unit → Prop} {nev : Ledger JsRef → Prop}

/-- The loop over the elements, one turn after the other. -/
theorem meets_jsToJsonElems (hconvert : Converts convert json) (n : Nat) {i : Nat}
    {held : List JsRef} {fresh : JsRef → Prop} {exc : Bytes → Ledger JsRef → Unit → Prop}
    (hctx : .context ∈ held) (hval : val ∈ held) (hfresh : ∀ r, FromChild place i r → fresh r)
    (hnev : jsonOfElems json seen i n = none → ∀ l : Ledger JsRef, .context ∈ l.held → nev l) :
    Meets (fun _ => True) (fun l s => l.Is held [] fresh ∧ P s)
      (jsToJsonElemsCalls convert val place seen i n)
      (fun a l s => jsonOfElems json seen i n = some a ∧
        l.Is held [] (fun r => fresh r ∧ ¬ FromChild place i r) ∧ P s) exc nev := by
  induction n generalizing i fresh with
  | zero =>
    exact Meets.ret fun l s ⟨hl, hP⟩ => ⟨rfl, hl.weaken (List.Perm.refl _) fun r hr => hr.1, hP⟩
  | succ n ih =>
    have helem : FromChild place i (.of place (.elem i)) :=
      Or.inr ⟨rfl, i, Nat.le_refl i, Or.inl rfl⟩
    rw [jsToJsonElemsCalls]
    refine Meets.bind (meets_apiCall hctx (by simpa using hval)) fun _ => ?_
    refine Meets.bind (M := fun x l s => json (seen.child i) = some x ∧
      l.Is held [] (NewAfter place i fresh) ∧ P s) ?_ fun x => Meets.of_fact fun hx => ?_
    · refine meets_owned_ret hctx (hfresh _ helem) fun exc => ?_
      -- The conversion has a place of its own, and the handle of the element is not in it.
      have hturn : ∀ r, Under (place ++ [i]) r → fresh r ∧ r ≠ .of place (.elem i) := by
        intro r hr
        refine ⟨hfresh r (fromChild_of_under hr), ?_⟩
        rintro rfl
        exact not_under_child place i _ hr
      have hstuck : json (seen.child i) = none →
          ∀ l : Ledger JsRef, .context ∈ l.held → nev l := by
        intro hnone
        exact hnev (by rw [jsonOfElems, hnone]; rfl)
      refine (hconvert (seen.child i) (List.mem_cons_of_mem _ hctx) List.mem_cons_self hturn
        hstuck).weaken (fun _ _ h => h)
        (fun _ l s ⟨ha, hl, hP⟩ => ⟨ha, hl.weaken (List.Perm.refl _) ?_, hP⟩)
        (fun _ _ _ h => h) (fun _ h => h)
      exact fun r hr => ⟨⟨hr.spec.1, hr.spec.2.2.1⟩, hr.spec.2.1⟩
    · refine Meets.bind (ih (newAfter_of_fromChild hfresh) fun hnone => ?_)
        fun xs => Meets.of_fact fun hxs => ?_
      · exact hnev (by rw [jsonOfElems, hx, hnone]; rfl)
      · exact Meets.ret fun l s ⟨hl, hP⟩ => ⟨by rw [jsonOfElems, hx, hxs]; rfl,
          hl.weaken (List.Perm.refl _) newAfter_of_not_fromChild, hP⟩

/-- One turn of the loop over the properties, inside the scope of its atom. -/
theorem meets_jsToJsonProp (hconvert : Converts convert json) (key : Option Bytes) {i : Nat}
    {held : List JsRef} {fresh : JsRef → Prop} {exc : Bytes → Ledger JsRef → Unit → Prop}
    (hctx : .context ∈ held) (hval : val ∈ held) (hatom : .of place (.atom i) ∈ held)
    (hfresh : ∀ r, FromChild place i r → fresh r)
    (hnev : jsonOfProp json seen i key = none → ∀ l : Ledger JsRef, .context ∈ l.held → nev l) :
    Meets (fun _ => True) (fun l s => l.Is held [] fresh ∧ P s)
      (jsToJsonPropCalls convert val place seen i key)
      (fun a l s => jsonOfProp json seen i key = some a ∧
        l.Is held [] (NewAfter place i fresh) ∧ P s) exc nev := by
  have hkey : FromChild place i (.of place (.key i)) :=
    Or.inr ⟨rfl, i, Nat.le_refl i, Or.inr (Or.inl rfl)⟩
  have hpv : FromChild place i (.of place (.pv i)) :=
    Or.inr ⟨rfl, i, Nat.le_refl i, Or.inr (Or.inr rfl)⟩
  have hcall : ∀ {held fresh exc}, JsRef.context ∈ held → val ∈ held →
      JsRef.of place (.atom i) ∈ held →
      Meets (fun _ => True) (fun l s => l.Is held [] fresh ∧ P s)
        (apiCall [val, .of place (.atom i)]) (fun _ l s => l.Is held [] fresh ∧ P s) exc nev := by
    intro held fresh exc hctx hval hatom
    exact meets_apiCall hctx (by simp [hval, hatom])
  rw [jsToJsonPropCalls]
  refine Meets.bind (meets_apiCall hctx (by simpa using hatom)) fun _ => ?_
  refine meets_ownedText hctx (hfresh _ hkey) key (fun hnone => ?_) fun t exc hsome => ?_
  · -- Without a text the value is fetched and freed.
    subst hnone
    refine Meets.bind (hcall hctx hval hatom) fun _ => ?_
    refine meets_owned_ret hctx (hfresh _ hpv) fun exc => ?_
    exact Meets.ret fun l s ⟨hl, hP⟩ =>
      ⟨rfl, hl.weaken (List.Perm.refl _) fun r hr => ⟨hr.1, hr.spec.2.2.2.2⟩, hP⟩
  · subst hsome
    have hin : ∀ {r}, r ∈ held → r ∈ JsRef.of place (.key i) :: held := List.mem_cons_of_mem _
    have hturn : ∀ r, Under (place ++ [i]) r →
        (fresh r ∧ r ≠ .of place (.key i)) ∧ r ≠ .of place (.pv i) := by
      intro r hr
      refine ⟨⟨hfresh r (fromChild_of_under hr), ?_⟩, ?_⟩
      · rintro rfl
        exact not_under_child place i _ hr
      · rintro rfl
        exact not_under_child place i _ hr
    refine Meets.bind (hcall (hin hctx) (hin hval) (hin hatom)) fun _ => ?_
    refine meets_owned_ret (hin hctx) ⟨hfresh _ hpv, by simp⟩ fun exc => ?_
    refine Meets.bind (hconvert (seen.child i) (List.mem_cons_of_mem _ (hin hctx))
      List.mem_cons_self hturn fun hnone => ?_) fun x => Meets.of_fact fun hx => ?_
    · exact hnev (by rw [jsonOfProp, Option.elim_some, hnone]; rfl)
    · refine Meets.bind (Meets.use (by simp)) fun _ => ?_
      refine Meets.ret fun l s ⟨hl, hP⟩ => ⟨by rw [jsonOfProp, Option.elim_some, hx]; rfl,
        hl.weaken (List.Perm.refl _) fun r hr => ?_, hP⟩
      exact ⟨⟨⟨hr.spec.1, hr.spec.2.2.2.1⟩, hr.spec.2.2.2.2⟩, hr.spec.2.1⟩

/-- The loop over the properties, which frees the atoms of the table one by one. -/
theorem meets_jsToJsonProps (hconvert : Converts convert json) (keys : List (Option Bytes)) {i : Nat}
    {held : List JsRef} {fresh : JsRef → Prop} {exc : Bytes → Ledger JsRef → Unit → Prop}
    (hctx : .context ∈ held) (hval : val ∈ held) (hprops : .of place .props ∈ held)
    (hfresh : ∀ r, FromChild place i r → fresh r)
    (hnev : jsonOfProps json seen i keys = none → ∀ l : Ledger JsRef, .context ∈ l.held → nev l) :
    Meets (fun _ => True) (fun l s => l.Is (atomsFrom place i keys.length ++ held) [] fresh ∧ P s)
      (jsToJsonPropsCalls convert val place seen i keys)
      (fun a l s => jsonOfProps json seen i keys = some a ∧
        l.Is held [] (fun r => fresh r ∧ ¬ FromChild place i r) ∧ P s) exc nev := by
  induction keys generalizing i fresh with
  | nil =>
    exact Meets.ret fun l s ⟨hl, hP⟩ => ⟨rfl, hl.weaken (List.Perm.refl _) fun r hr => hr.1, hP⟩
  | cons key keys ih =>
    have hmem : ∀ {r}, r ∈ held → r ∈ atomsFrom place (i + 1) keys.length ++ held :=
      List.mem_append_right _
    rw [jsToJsonPropsCalls, List.length_cons, atomsFrom_succ, List.cons_append]
    refine Meets.bind (Meets.use (List.mem_cons_of_mem _ (hmem hprops))) fun _ => ?_
    have hstuck : jsonOfProp json seen i key = none →
        ∀ l : Ledger JsRef, .context ∈ l.held → nev l := by
      intro hnone
      exact hnev (by rw [jsonOfProps, hnone]; rfl)
    refine Meets.bind (meets_inScope_ret (hmem hctx) fun exc =>
      meets_jsToJsonProp hconvert key (List.mem_cons_of_mem _ (hmem hctx))
        (List.mem_cons_of_mem _ (hmem hval)) List.mem_cons_self hfresh hstuck)
      fun entry => Meets.of_fact fun hentry => ?_
    refine Meets.bind (ih (newAfter_of_fromChild hfresh) fun hnone => ?_)
      fun entries => Meets.of_fact fun hentries => ?_
    · exact hnev (by rw [jsonOfProps, hentry, hnone]; rfl)
    · exact Meets.ret fun l s ⟨hl, hP⟩ => ⟨by rw [jsonOfProps, hentry, hentries]; rfl,
        hl.weaken (List.Perm.refl _) newAfter_of_not_fromChild, hP⟩

end

/-- A conversion to JSON frees every handle it makes, for every value and every room. -/
theorem converts_jsToJson (stack : Nat) : Converts (jsToJsonCalls stack) (jsonOf stack) := by
  -- The values inside the value are converted with room for one call less.
  induction stack with
  | zero =>
    intro seen val place held fresh P exc nev hctx _ _ hnev
    exact Meets.never fun l s h => hnev rfl l (h.1.held.mem_iff.mpr hctx)
  | succ stack ih =>
    intro seen val place held fresh P exc nev hctx hval hfresh hnev
    have hrest : ∀ r, fresh r ∧ ¬ Under place r → ∀ kind, r ≠ .of place kind :=
      fun r hr => ne_of_not_under hr.2
    have hchild : ∀ r, FromChild place 0 r → fresh r := fun r hr => hfresh r hr.under
    have hdone : ∀ {l : Ledger JsRef} {s : Unit}, l.Is held [] fresh ∧ P s →
        l.Is held [] (fun r => fresh r ∧ ¬ Under place r) ∧ P s :=
      fun h => ⟨h.1.weaken (List.Perm.refl _) fun r hr => hr.1, h.2⟩
    have hcall : ∀ {exc}, Meets (fun _ => True) (fun l s => l.Is held [] fresh ∧ P s)
        (apiCall [val]) (fun _ l s => l.Is held [] fresh ∧ P s) exc nev :=
      meets_apiCall hctx (by simpa using hval)
    unfold jsonOf at hnev
    unfold jsToJsonCalls jsonOf
    cases hnode : seen [] with
    | null => exact Meets.ret fun l s h => ⟨rfl, hdone h⟩
    | other => exact Meets.ret fun l s h => ⟨rfl, hdone h⟩
    | bool b => exact Meets.bind hcall fun _ => Meets.ret fun l s h => ⟨rfl, hdone h⟩
    | unlisted => exact Meets.bind hcall fun _ => Meets.ret fun l s h => ⟨rfl, hdone h⟩
    | number value =>
      refine Meets.bind hcall fun _ => ?_
      cases value with
      | none => exact Meets.ret fun l s h => ⟨rfl, hdone h⟩
      | some d => exact Meets.ret fun l s h => ⟨rfl, hdone h⟩
    | string text =>
      refine Meets.bind hcall fun _ => ?_
      refine meets_ownedText hctx (hfresh _ (under_at place .text)) text (fun htext => ?_) ?_
      · subst htext
        exact Meets.ret fun l s h => ⟨rfl, hdone h⟩
      · intro t exc htext
        subst htext
        refine Meets.bind (Meets.use List.mem_cons_self) fun _ => ?_
        exact Meets.ret fun l s ⟨hl, hP⟩ =>
          ⟨rfl, hl.weaken (List.Perm.refl _) fun r hr => ⟨hr.1, hrest r hr .text⟩, hP⟩
    | array length =>
      rw [hnode] at hnev
      refine Meets.bind hcall fun _ => ?_
      refine meets_owned_ret hctx (hfresh _ (under_at place .lenv)) fun exc => ?_
      refine Meets.bind (meets_apiCall (List.mem_cons_of_mem _ hctx) (by simp)) fun _ => ?_
      refine Meets.bind (meets_jsToJsonElems ih length (List.mem_cons_of_mem _ hctx)
        (List.mem_cons_of_mem _ hval) (fun r hr => ⟨hchild r hr, hr.ne_own (by simp)⟩)
        fun hnone => hnev (Option.map_eq_none_iff.mpr hnone)) fun out => Meets.of_fact fun hout => ?_
      refine Meets.ret fun l s ⟨hl, hP⟩ => ⟨congrArg (Option.map Json.array) hout,
        hl.weaken (List.Perm.refl _) ?_, hP⟩
      exact fun r hr => ⟨⟨hr.1, hrest r hr .lenv⟩, fun h => hr.2 h.under⟩
    | object keys =>
      rw [hnode] at hnev
      refine Meets.bind hcall fun _ => ?_
      refine Meets.bind (Meets.acquire (hfresh _ (under_at place .props))) fun _ => ?_
      -- All the atoms of the table are made at once and freed one by one.
      refine Meets.bind (meets_acquireAtoms keys.length fun j _ =>
        ⟨hfresh _ (under_at place (.atom j)), by simp⟩) fun _ => ?_
      refine Meets.bind (meets_jsToJsonProps ih keys (List.mem_cons_of_mem _ hctx)
        (List.mem_cons_of_mem _ hval) List.mem_cons_self
        (fun r hr => ⟨⟨hchild r hr, hr.ne_own (by simp)⟩, fun j => hr.ne_own (by simp)⟩)
        fun hnone => hnev (Option.map_eq_none_iff.mpr hnone))
        fun entries => Meets.of_fact fun hentries => ?_
      refine Meets.bind (meets_apiCall (List.mem_cons_of_mem _ hctx) (by simp)) fun _ => ?_
      refine Meets.bind (Meets.release (List.Perm.refl _) rfl) fun _ => ?_
      refine Meets.ret fun l s ⟨hl, hP⟩ =>
        ⟨congrArg (Option.map _) hentries, hl.weaken (List.Perm.refl _) ?_, hP⟩
      exact fun r hr => ⟨⟨⟨hr.1, hrest r hr .props⟩, fun j => hrest r hr (.atom j)⟩,
        fun h => hr.2 h.under⟩

/-! ### The engine -/

/-- The text of an exception. -/
def exceptionText (text : Option Bytes) : Bytes := text.elim (lit "QuickJS exception") cString

/-- What `solve` makes of what `jsc` returned or threw, `none` when there is no room for it. -/
def replyOutcome (stack : Nat) (showReal : Double → Bytes) (requests : List SolverRequest) :
    Except (Option Bytes) JsSeen → Option (Except Bytes (List SolverResponse))
  | .error text => some (.error (exceptionText text))
  | .ok seen => (jsonOf stack seen).map (solveReply showReal requests)

/-- What `solve` returns or throws. -/
def solveOutcome (stack : Nat) (showReal : Double → Bytes) (requests : List SolverRequest)
    (calls : SolveCalls) : Option (Except Bytes (List SolverResponse)) :=
  if !calls.isFunction then some (.error (lit "jsc ist keine Funktion"))
  else replyOutcome stack showReal requests calls.reply

section
variable {held : List JsRef} {fresh : JsRef → Prop} {P : Unit → Prop} {nev : Ledger JsRef → Prop}

/-- The text of the exception is read, and both its references are released. -/
theorem meets_getQuickjsException {exc : Bytes → Ledger JsRef → Unit → Prop} {place : List Nat}
    (text : Option Bytes) (hctx : .context ∈ held) (hexc : fresh (.of place .exc))
    (hmsg : fresh (.of place .msg)) :
    Meets (fun _ => True) (fun l s => l.Is held [] fresh ∧ P s) (getQuickjsException place text)
      (fun a l s => a = exceptionText text ∧
        l.Is held [] (fun r => fresh r ∧ ∀ kind, r ≠ .of place kind) ∧ P s) exc nev := by
  unfold getQuickjsException
  refine Meets.bind (meets_apiCall hctx (by simp)) fun _ => ?_
  refine meets_owned_ret hctx hexc fun exc => ?_
  refine Meets.bind (meets_apiCall (List.mem_cons_of_mem _ hctx) (by simp)) fun _ => ?_
  refine meets_ownedText (List.mem_cons_of_mem _ hctx) ⟨hmsg, by simp⟩ text (fun htext => ?_)
    fun t exc htext => ?_
  · subst htext
    exact Meets.ret fun l s ⟨hl, hP⟩ =>
      ⟨rfl, hl.weaken (List.Perm.refl _) fun r hr => ⟨hr.1, hr.2 .exc⟩, hP⟩
  · subst htext
    refine Meets.bind (Meets.use List.mem_cons_self) fun _ => ?_
    exact Meets.ret fun l s ⟨hl, hP⟩ =>
      ⟨rfl, hl.weaken (List.Perm.refl _) fun r hr => ⟨⟨hr.1, hr.2 .exc⟩, hr.2 .msg⟩, hP⟩

/-- A script leaves no handle, whether it throws or not. -/
theorem meets_evalScript (throws : Option (Option Bytes)) {i : Nat} (hctx : .context ∈ held)
    (hfresh : ∀ r, Under [0, i] r → fresh r) :
    Meets (fun _ => True) (fun l s => l.Is held [] fresh ∧ P s) (evalScriptCalls throws i)
      (fun _ l s => throws = none ∧ l.Is held [] (fun r => fresh r ∧ ¬ Under [0, i] r) ∧ P s)
      (fun e l s => throws.map exceptionText = some e ∧
        l.Is held [] (fun r => fresh r ∧ ¬ Under [0, i] r) ∧ P s) nev := by
  have hown : ∀ kind, fresh (.of [0, i] kind) := fun kind => hfresh _ (under_at _ kind)
  unfold evalScriptCalls
  refine Meets.bind (meets_apiCall hctx (by simp)) fun _ => ?_
  refine meets_owned hctx (hown .script) ?_
  cases throws with
  | none =>
    exact Meets.ret fun l s ⟨hl, hP⟩ =>
      ⟨rfl, hl.weaken (List.Perm.refl _) fun r hr => ⟨hr.1, ne_of_not_under hr.2 .script⟩, hP⟩
  | some text =>
    refine Meets.bind (meets_getQuickjsException text (List.mem_cons_of_mem _ hctx)
      ⟨hown .exc, by simp⟩ ⟨hown .msg, by simp⟩) fun what => Meets.of_fact fun hwhat => ?_
    exact Meets.throw fun l s ⟨hl, hP⟩ => ⟨by rw [hwhat]; rfl,
      hl.weaken (List.Perm.refl _) fun r hr =>
        ⟨⟨hr.1, ne_of_not_under hr.2 .script⟩, ne_of_not_under hr.2⟩, hP⟩

/-- The end of `solve` leaves no handle, whether it throws or not. -/
theorem meets_readReply (stack : Nat) (showReal : Double → Bytes) (k : Nat)
    (requests : List SolverRequest) (reply : Except (Option Bytes) JsSeen) (hctx : .context ∈ held)
    (hret : .of [k + 1] .ret ∈ held) (hexc : fresh (.of [k + 1] .exc))
    (hmsg : fresh (.of [k + 1] .msg)) (hfresh : ∀ r, Under [k + 1, 1] r → fresh r)
    (hnev : replyOutcome stack showReal requests reply = none →
      ∀ l : Ledger JsRef, .context ∈ l.held → nev l) :
    Meets (fun _ => True) (fun l s => l.Is held [] fresh ∧ P s)
      (readReply stack showReal k requests reply)
      (fun a l s => replyOutcome stack showReal requests reply = some (.ok a) ∧
        l.Is held [] (fun r => fresh r ∧ ¬ Under [k + 1] r) ∧ P s)
      (fun e l s => replyOutcome stack showReal requests reply = some (.error e) ∧
        l.Is held [] (fun r => fresh r ∧ ¬ Under [k + 1] r) ∧ P s) nev := by
  cases reply with
  | error text =>
    rw [readReply]
    refine Meets.bind (meets_getQuickjsException text hctx hexc hmsg)
      fun what => Meets.of_fact fun hwhat => ?_
    exact Meets.throw fun l s hpre => ⟨by rw [hwhat]; rfl,
      hpre.1.weaken (List.Perm.refl _) fun r hr => ⟨hr.1, ne_of_not_under hr.2⟩, hpre.2⟩
  | ok seen =>
    rw [readReply]
    refine Meets.bind (converts_jsToJson stack seen hctx hret hfresh fun hnone => ?_)
      fun retJson => Meets.of_fact fun hjson => ?_
    · exact hnev (by rw [replyOutcome, hnone]; rfl)
    have houtcome : replyOutcome stack showReal requests (.ok seen) =
        some (solveReply showReal requests retJson) := by
      rw [replyOutcome, hjson]
      rfl
    have hend : ∀ r, fresh r ∧ ¬ Under [k + 1] r → fresh r ∧ ¬ Under [k + 1, 1] r :=
      fun r hr => ⟨hr.1, fun h => hr.2 (under_of_child (show Under ([k + 1] ++ [1]) r from h)).1⟩
    rw [houtcome]
    cases solveReply showReal requests retJson with
    | error what =>
      exact Meets.throw fun l s hpre => ⟨rfl, hpre.1.weaken (List.Perm.refl _) hend, hpre.2⟩
    | ok responses =>
      exact Meets.ret fun l s hpre => ⟨rfl, hpre.1.weaken (List.Perm.refl _) hend, hpre.2⟩

/-- A call of `solve` leaves no handle, whether it throws or not. -/
theorem meets_solve (stack : Nat) (showReal : Double → Bytes) (playerCode : Bytes) (k : Nat)
    (requests : List SolverRequest) (calls : SolveCalls) (hctx : .context ∈ held)
    (hfresh : ∀ r, Under [k + 1] r → fresh r)
    (hnev : solveOutcome stack showReal requests calls = none →
      ∀ l : Ledger JsRef, .context ∈ l.held → nev l) :
    Meets (fun _ => True) (fun l s => l.Is held [] fresh ∧ P s)
      (solveCalls stack showReal playerCode k requests calls)
      (fun a l s => solveOutcome stack showReal requests calls = some (.ok a) ∧
        l.Is held [] (fun r => fresh r ∧ ¬ Under [k + 1] r) ∧ P s)
      (fun e l s => solveOutcome stack showReal requests calls = some (.error e) ∧
        l.Is held [] (fun r => fresh r ∧ ¬ Under [k + 1] r) ∧ P s) nev := by
  have hown : ∀ kind, fresh (.of [k + 1] kind) := fun kind => hfresh _ (under_at _ kind)
  -- The two conversions have places of their own below that of the call.
  have hbelow : ∀ j r, Under ([k + 1] ++ [j]) r →
      (fresh r ∧ r ≠ .of [k + 1] .global) ∧ r ≠ .of [k + 1] .jscFunc := by
    intro j r hr
    obtain ⟨hunder, hne⟩ := under_of_child hr
    exact ⟨⟨hfresh r hunder, hne .global⟩, hne .jscFunc⟩
  have hapart : ∀ r, Under ([k + 1] ++ [1]) r → ¬ Under ([k + 1] ++ [0]) r :=
    fun r h₁ h₀ => absurd (under_unique h₁ h₀) (by decide)
  have hout : ∀ r, ¬ Under [k + 1] r → ¬ Under [k + 1, 0] r :=
    fun r hr h => hr (under_of_child (show Under ([k + 1] ++ [0]) r from h)).1
  unfold solveOutcome at hnev
  unfold solveCalls solveOutcome
  refine Meets.bind (meets_apiCall hctx (by simp)) fun _ => ?_
  refine meets_owned hctx (hown .global) ?_
  have hctx₁ := List.mem_cons_of_mem (JsRef.of [k + 1] .global) hctx
  refine Meets.bind (meets_apiCall hctx₁ (by simp)) fun _ => ?_
  refine meets_owned hctx₁ ⟨hown .jscFunc, by simp⟩ ?_
  have hctx₂ := List.mem_cons_of_mem (JsRef.of [k + 1] .jscFunc) hctx₁
  refine Meets.bind (meets_apiCall hctx₂ (by simp)) fun _ => ?_
  cases hfunction : calls.isFunction with
  | false =>
    exact Meets.throw fun l s ⟨hl, hP⟩ => ⟨rfl, hl.weaken (List.Perm.refl _) fun r hr =>
      ⟨⟨hr.1, ne_of_not_under hr.2 .global⟩, ne_of_not_under hr.2 .jscFunc⟩, hP⟩
  | true =>
    rw [hfunction] at hnev
    refine Meets.bind (meets_jsonToJs _ hctx₂ (hbelow 0)) fun arg => Meets.of_fact fun harg => ?_
    subst harg
    refine meets_inScope hctx₂ ?_
    have hctx₃ := List.mem_cons_of_mem (JsRef.of [k + 1, 0] .built) hctx₂
    refine Meets.bind (meets_apiCall hctx₃ (by simp)) fun _ => ?_
    -- What is new for the rest of the call.
    have hnew : ∀ kind, kind ≠ .global → kind ≠ .jscFunc →
        ((fresh (.of [k + 1] kind) ∧ JsRef.of [k + 1] kind ≠ .of [k + 1] .global) ∧
          JsRef.of [k + 1] kind ≠ .of [k + 1] .jscFunc) ∧ ¬ Under [k + 1, 0] (.of [k + 1] kind) :=
      fun kind h₁ h₂ => ⟨⟨⟨hown kind, by simpa using h₁⟩, by simpa using h₂⟩,
        not_under_child [k + 1] 0 kind⟩
    refine meets_owned hctx₃ (hnew .ret (by simp) (by simp)) ?_
    have hrest : ∀ r, Under ([k + 1] ++ [1]) r → ((((fresh r ∧ r ≠ .of [k + 1] .global) ∧
        r ≠ .of [k + 1] .jscFunc) ∧ ¬ Under [k + 1, 0] r) ∧ r ≠ .of [k + 1] .ret) :=
      fun r hr => ⟨⟨hbelow 1 r hr, hapart r hr⟩, (under_of_child hr).2 .ret⟩
    -- What is new after the call lies nowhere under its place.
    have hend : ∀ r, fresh r ∧ ¬ Under [k + 1] r → (((((fresh r ∧ r ≠ .of [k + 1] .global) ∧
        r ≠ .of [k + 1] .jscFunc) ∧ ¬ Under [k + 1, 0] r) ∧ r ≠ .of [k + 1] .ret) ∧
          ¬ Under [k + 1] r) :=
      fun r hr => ⟨⟨⟨⟨⟨hr.1, ne_of_not_under hr.2 _⟩, ne_of_not_under hr.2 _⟩, hout r hr.2⟩,
        ne_of_not_under hr.2 _⟩, hr.2⟩
    exact (meets_readReply stack showReal k requests calls.reply (List.mem_cons_of_mem _ hctx₃)
      List.mem_cons_self ⟨hnew .exc (by simp) (by simp), by simp⟩
      ⟨hnew .msg (by simp) (by simp), by simp⟩ hrest hnev).weaken (fun _ _ h => h)
      (fun a l s ⟨ha, hl, hP⟩ => ⟨ha, hl.weaken (List.Perm.refl _) hend, hP⟩)
      (fun e l s ⟨he, hl, hP⟩ => ⟨he, hl.weaken (List.Perm.refl _) hend, hP⟩) (fun _ h => h)

/-- How the scripts with these numbers end. -/
def scriptsOutcome (calls : EngineCalls) : List Nat → Except Bytes Unit
  | [] => .ok ()
  | i :: rest =>
    match calls.evalThrows i with
    | none => scriptsOutcome calls rest
    | some text => .error (exceptionText text)

/-- The scripts run in order up to the first that throws. Nothing more is held behind them. -/
theorem meets_evalScripts (calls : EngineCalls) {scripts : List Nat} (hnodup : scripts.Nodup)
    (hctx : .context ∈ held) (hfresh : ∀ i ∈ scripts, ∀ r, Under [0, i] r → fresh r) :
    Meets (fun _ => True) (fun l s => l.Is held [] fresh ∧ P s) (evalScripts calls scripts)
      (fun a l s => scriptsOutcome calls scripts = .ok a ∧
        l.Is held [] (fun r => fresh r ∧ ¬ Under [0] r) ∧ P s)
      (fun e l s => scriptsOutcome calls scripts = .error e ∧
        l.Is held [] (fun r => fresh r ∧ ¬ Under [0] r) ∧ P s) nev := by
  induction scripts generalizing fresh with
  | nil =>
    exact Meets.ret fun l s ⟨hl, hP⟩ => ⟨rfl, hl.weaken (List.Perm.refl _) fun _ h => h.1, hP⟩
  | cons i rest ih =>
    rw [List.nodup_cons] at hnodup
    have hout : ∀ r, fresh r ∧ ¬ Under [0] r → fresh r ∧ ¬ Under [0, i] r :=
      fun r hr => ⟨hr.1, fun h => hr.2 (under_of_child (show Under ([0] ++ [i]) r from h)).1⟩
    rw [evalScripts, scriptsOutcome]
    refine Meets.bind ((meets_evalScript (calls.evalThrows i) hctx
      (hfresh i List.mem_cons_self)).weaken (fun _ _ h => h) (fun _ _ _ h => h)
      (fun e l s ⟨he, hl, hP⟩ => ⟨?_, hl.weaken (List.Perm.refl _) hout, hP⟩) (fun _ h => h))
      fun _ => Meets.of_fact fun hnone => ?_
    · obtain ⟨text, htext, rfl⟩ := Option.map_eq_some_iff.mp he
      rw [htext]
    · rw [hnone]
      have hnext : ∀ j ∈ rest, ∀ r, Under [0, j] r → fresh r ∧ ¬ Under [0, i] r := by
        intro j hj r hr
        refine ⟨hfresh j (List.mem_cons_of_mem i hj) r hr, fun hi => ?_⟩
        have heq : i = j := under_unique (show Under ([0] ++ [i]) r from hi)
          (show Under ([0] ++ [j]) r from hr)
        exact hnodup.1 (heq ▸ hj)
      refine (ih hnodup.2 hnext).weaken (fun _ _ h => h)
        (fun a l s ⟨ha, hl, hP⟩ => ⟨ha, hl.weaken (List.Perm.refl _) ?_, hP⟩)
        (fun e l s ⟨he, hl, hP⟩ => ⟨he, hl.weaken (List.Perm.refl _) ?_, hP⟩) (fun _ h => h)
      · exact fun r hr => ⟨hout r hr, hr.2⟩
      · exact fun r hr => ⟨hout r hr, hr.2⟩

/-- The calls of `solve` leave no handle, and each of them ends as it does alone. -/
theorem meets_solveAll (stack : Nat) (showReal : Double → Bytes) (playerCode : Bytes)
    (solves : List (List SolverRequest × SolveCalls)) {k : Nat}
    {exc : Bytes → Ledger JsRef → Unit → Prop} (hctx : .context ∈ held)
    (hfresh : ∀ j r, k ≤ j → Under [j + 1] r → fresh r)
    (hnev : solves.mapM (fun c => solveOutcome stack showReal c.1 c.2) = none →
      ∀ l : Ledger JsRef, .context ∈ l.held → nev l) :
    Meets (fun _ => True) (fun l s => l.Is held [] fresh ∧ P s)
      (solveAll stack showReal playerCode k solves)
      (fun a l s => solves.mapM (fun c => solveOutcome stack showReal c.1 c.2) = some a ∧
        l.Is held [] (fun _ => False) ∧ P s) exc nev := by
  induction solves generalizing k fresh with
  | nil =>
    exact Meets.ret fun l s ⟨hl, hP⟩ => ⟨rfl, hl.weaken (List.Perm.refl _) fun _ h => h.elim, hP⟩
  | cons c cs ih =>
    rw [List.mapM_cons] at hnev
    rw [solveAll, List.mapM_cons]
    refine Meets.bind (M := fun a l s => solveOutcome stack showReal c.1 c.2 = some a ∧
      l.Is held [] (fun r => fresh r ∧ ¬ Under [k + 1] r) ∧ P s) ?_
      fun result => Meets.of_fact fun hresult => ?_
    · refine Meets.attempt ?_
      refine meets_solve stack showReal playerCode k c.1 c.2 hctx
        (fun r hr => hfresh k r (Nat.le_refl k) hr) fun hnone => ?_
      exact hnev (by rw [hnone]; rfl)
    · have hnext : ∀ j r, k + 1 ≤ j → Under [j + 1] r → fresh r ∧ ¬ Under [k + 1] r := by
        intro j r hj hr
        refine ⟨hfresh j r (by omega) hr, fun hk => ?_⟩
        have heq := under_unique (show Under ([] ++ [j + 1]) r from hr)
          (show Under ([] ++ [k + 1]) r from hk)
        omega
      refine Meets.bind (ih hnext fun hnone => ?_) fun results => Meets.of_fact fun hresults => ?_
      · exact hnev (by rw [hresult, hnone]; rfl)
      · exact Meets.ret fun l s h => ⟨by rw [hresult, hresults]; rfl, h⟩

end

/-- How the constructor ends. -/
def constructorOutcome (calls : EngineCalls) : Except Bytes Unit :=
  if !calls.newContext then .error (lit "JS_NewContext fehlgeschlagen")
  else scriptsOutcome calls [0, 1, 2, 3]

/-- How the life of an engine ends, for one who does not see the handles: with the exception of
the constructor, or with the results of the calls of `solve`. -/
def lifeOutcome (stack : Nat) (showReal : Double → Bytes) (calls : EngineCalls)
    (solves : List (List SolverRequest × SolveCalls)) :
    Option (Except Bytes (List (Except Bytes (List SolverResponse)))) :=
  match constructorOutcome calls with
  | .error what => some (.error what)
  | .ok _ => (solves.mapM fun c => solveOutcome stack showReal c.1 c.2).map .ok

section
variable (stack : Nat) (showReal : Double → Bytes) (playerCode : Bytes) (calls : EngineCalls)
  (solves : List (List SolverRequest × SolveCalls))

/-- The constructor and the calls of `solve`, once there is a context. -/
theorem meets_engineBody (hruntime : calls.newRuntime = true) (hcontext : calls.newContext = true) :
    Meets (fun _ => True)
      (fun l s => l.Is [.context, .runtime] []
        (fun r => (True ∧ r ≠ .runtime) ∧ r ≠ .context) ∧ s = ())
      (do
        constructorBody calls
        solveAll stack showReal playerCode 0 solves)
      (fun a l s => lifeOutcome stack showReal calls solves = some (.ok a) ∧
        l.Is [.context, .runtime] [] (fun _ => False) ∧ s = ())
      (fun e l s => lifeOutcome stack showReal calls solves = some (.error e) ∧
        l.Is [.context, .runtime] [] (fun _ => False) ∧ s = ())
      (fun l => lifeOutcome stack showReal calls solves = none ∧ .context ∈ l.held) := by
  have hnew : ∀ place r, Under place r → (True ∧ r ≠ .runtime) ∧ r ≠ .context := by
    intro place r hr
    cases r with
    | runtime => exact hr.elim
    | context => exact hr.elim
    | of q kind => simp
  have hconstructor : constructorOutcome calls = scriptsOutcome calls [0, 1, 2, 3] := by
    rw [constructorOutcome, hcontext]
    rfl
  unfold constructorBody lifeOutcome
  rw [hruntime, hcontext, hconstructor]
  refine Meets.bind ((meets_evalScripts calls (by decide) List.mem_cons_self
    fun i _ => hnew [0, i]).weaken (fun _ _ h => h) (fun _ _ _ h => h)
    (fun e l s ⟨he, hl, hs⟩ => ⟨?_, hl.weaken (List.Perm.refl _) fun _ h => h.elim, hs⟩)
    (fun _ h => h)) fun a => Meets.of_fact fun ha => ?_
  · rw [he]
  · rw [ha]
    -- The scripts have the place 0, and the calls of `solve` have the others.
    have hsolves : ∀ j r, 0 ≤ j → Under [j + 1] r →
        ((True ∧ r ≠ .runtime) ∧ r ≠ .context) ∧ ¬ Under [0] r := by
      intro j r _ hr
      refine ⟨hnew [j + 1] r hr, fun h0 => ?_⟩
      have heq := under_unique (show Under ([] ++ [j + 1]) r from hr)
        (show Under ([] ++ [0]) r from h0)
      omega
    refine (meets_solveAll stack showReal playerCode solves List.mem_cons_self hsolves
      fun hnone l hl => ⟨Option.map_eq_none_iff.mpr hnone, hl⟩).weaken (fun _ _ h => h)
      (fun results l s h => ⟨congrArg (Option.map _) h.1, h.2⟩) (fun _ _ _ h => h) (fun _ h => h)

/-- With a runtime, an engine holds nothing when it ends. When there is no room for a reply, it does
not end. -/
theorem meets_engineLife (hruntime : calls.newRuntime = true) :
    Meets (fun _ => True) (fun l s => l.Is [] [] (fun _ => True) ∧ s = ())
      (engineLife stack showReal playerCode calls solves)
      (fun a l s => lifeOutcome stack showReal calls solves = some (.ok a) ∧
        l.Is [] [] (fun _ => False) ∧ s = ())
      (fun e l s => lifeOutcome stack showReal calls solves = some (.error e) ∧
        l.Is [] [] (fun _ => False) ∧ s = ())
      (fun l => lifeOutcome stack showReal calls solves = none ∧ .context ∈ l.held) := by
  unfold engineLife destroyMembers
  rw [hruntime]
  refine Meets.bind (Meets.acquire trivial) fun _ => ?_
  refine Meets.bind (Meets.use (by simp)) fun _ => ?_
  have hrelease : ∀ (φ : Prop) exc nev, Meets (fun _ => True)
      (fun l s => φ ∧ l.Is [.runtime] [] (fun _ => False) ∧ s = ())
      (ifSet true (Prog.emit (.release .runtime)))
      (fun _ l s => φ ∧ l.Is [] [] (fun _ => False) ∧ s = ()) exc nev := by
    intro φ exc nev
    refine Meets.of_fact fun hφ => ?_
    exact (Meets.release (List.Perm.refl _) rfl).weaken (fun _ _ h => h) (fun _ _ _ h => ⟨hφ, h⟩)
      (fun _ _ _ h => h) (fun _ h => h)
  cases hcontext : calls.newContext with
  | false =>
    -- The constructor throws with a runtime only, which its deleter frees.
    have hthrows : lifeOutcome stack showReal calls solves =
        some (.error (lit "JS_NewContext fehlgeschlagen")) := by
      rw [lifeOutcome, constructorOutcome, hcontext]
      rfl
    have hbody : constructorBody calls = Prog.throw (lit "JS_NewContext fehlgeschlagen") := by
      rw [constructorBody, hruntime, hcontext]
      rfl
    rw [hbody]
    refine Meets.bind (M := fun _ l s => l.Is [.runtime] [] (fun g => True ∧ g ≠ .runtime) ∧ s = ())
      (Meets.ret fun _ _ h => h) fun _ => ?_
    refine Meets.finallyDo (M := fun _ _ _ => False)
      (E := fun e l s => lifeOutcome stack showReal calls solves = some (.error e) ∧
        l.Is [.runtime] [] (fun _ => False) ∧ s = ()) ?_ (fun a => fun _ _ h => h.elim) fun e => ?_
    · refine Meets.bind (M := fun _ _ _ => False) ?_ fun _ => fun _ _ h => h.elim
      exact Meets.throw fun l s ⟨hl, hs⟩ =>
        ⟨hthrows, hl.weaken (List.Perm.refl _) fun _ h => h.elim, hs⟩
    · refine Meets.bind (M := fun _ l s => lifeOutcome stack showReal calls solves = some (.error e) ∧
        l.Is [.runtime] [] (fun _ => False) ∧ s = ()) (Meets.ret fun _ _ h => h) fun _ => ?_
      exact hrelease _ _ _
  | true =>
    refine Meets.bind (Meets.acquire ⟨trivial, by simp⟩) fun _ => ?_
    -- The deleter of the context runs before that of the runtime.
    have hdestroy : ∀ (φ : Prop) exc nev, Meets (fun _ => True)
        (fun l s => φ ∧ l.Is [.context, .runtime] [] (fun _ => False) ∧ s = ())
        (do
          ifSet true do
            Prog.emit (.use .runtime)
            Prog.emit (.release .context)
          ifSet true (Prog.emit (.release .runtime)))
        (fun _ l s => φ ∧ l.Is [] [] (fun _ => False) ∧ s = ()) exc nev := by
      intro φ exc nev
      refine Meets.bind (M := fun _ l s => φ ∧ l.Is [.runtime] [] (fun _ => False) ∧ s = ()) ?_
        fun _ => hrelease φ exc nev
      refine Meets.of_fact fun hφ => ?_
      refine Meets.bind (Meets.use (by simp)) fun _ => ?_
      exact (Meets.release (List.Perm.refl _) rfl).weaken (fun _ _ h => h)
        (fun _ _ _ h => ⟨hφ, h⟩) (fun _ _ _ h => h) (fun _ h => h)
    exact Meets.finallyDo (meets_engineBody stack showReal playerCode calls solves hruntime hcontext)
      (fun a => hdestroy _ _ _) fun e => hdestroy _ _ _

/-- The constructor returns. -/
def Constructs (calls : EngineCalls) : Prop :=
  calls.newContext = true ∧ ∀ i ∈ [0, 1, 2, 3], calls.evalThrows i = none

/-- A call of `solve` gets no reply, or one that there is room for. -/
def ReplyHasRoom (stack : Nat) (solve : SolveCalls) : Prop :=
  solve.isFunction = true → ∀ seen, solve.reply = .ok seen → HasRoom stack seen

/-- The scripts return when none of them throws. -/
theorem scriptsOutcome_ok_iff (scripts : List Nat) :
    scriptsOutcome calls scripts = .ok () ↔ ∀ i ∈ scripts, calls.evalThrows i = none := by
  induction scripts with
  | nil => simp [scriptsOutcome]
  | cons i rest ih =>
    rw [scriptsOutcome, List.forall_mem_cons, ← ih]
    cases calls.evalThrows i with
    | none => simp
    | some text => simp

/-- The constructor returns exactly when every call of it succeeds. -/
theorem constructorOutcome_ok_iff : constructorOutcome calls = .ok () ↔ Constructs calls := by
  rw [constructorOutcome, Constructs, ← scriptsOutcome_ok_iff]
  cases calls.newContext with
  | false => simp
  | true => simp

/-- A call of `solve` comes to an end when there is room for its reply. -/
theorem solveOutcome_ne_none_iff (requests : List SolverRequest) (solve : SolveCalls) :
    solveOutcome stack showReal requests solve ≠ none ↔ ReplyHasRoom stack solve := by
  unfold solveOutcome ReplyHasRoom
  cases solve.isFunction with
  | false => simp
  | true =>
    cases solve.reply with
    | error text => simp [replyOutcome]
    | ok seen => simp [replyOutcome, ← jsonOf_isSome_iff, Option.isSome_iff_ne_none]

/-- The life of an engine comes to an end when there is room for every reply. -/
theorem lifeOutcome_ne_none_iff : lifeOutcome stack showReal calls solves ≠ none ↔
    (Constructs calls → ∀ c ∈ solves, ReplyHasRoom stack c.2) := by
  -- One call that does not end is enough for the life not to end.
  have hmap : solves.mapM (fun c => solveOutcome stack showReal c.1 c.2) ≠ none ↔
      ∀ c ∈ solves, ReplyHasRoom stack c.2 := by
    induction solves with
    | nil => simp
    | cons c cs ih =>
      rw [List.forall_mem_cons, ← ih, ← solveOutcome_ne_none_iff stack showReal c.1 c.2,
        List.mapM_cons]
      cases solveOutcome stack showReal c.1 c.2 with
      | none => simp
      | some result =>
        cases cs.mapM fun c => solveOutcome stack showReal c.1 c.2 with
        | none => simp
        | some results => simp
  rw [← constructorOutcome_ok_iff, lifeOutcome, ← hmap]
  cases constructorOutcome calls with
  | error what => simp
  | ok u => simp

/-- What the life of an engine returns or throws, if anything. -/
theorem engineLife_outcome (hruntime : calls.newRuntime = true) :
    (engineLife stack showReal playerCode calls solves ()).2.2 =
      lifeOutcome stack showReal calls solves := by
  obtain ⟨l, -, hends⟩ := meets_engineLife stack showReal playerCode calls solves hruntime
    Ledger.empty () ⟨Ledger.is_empty, rfl⟩
  cases hresult : (engineLife stack showReal playerCode calls solves ()).2.2 with
  | none =>
    rw [hresult] at hends
    exact hends.1.symm
  | some result =>
    rw [hresult] at hends
    cases result with
    | ok results => exact hends.1.symm
    | error what => exact hends.1.symm

/-- What a call of `solve` sees of `jsc`: that it is no function, or what it throws or returns.
`none` when there is no room for the reply. -/
def jscOf (solve : SolveCalls) : Option (Option (Except Bytes Json)) :=
  if !solve.isFunction then some none
  else
    match solve.reply with
    | .error text => some (some (.error (exceptionText text)))
    | .ok seen => (jsonOf stack seen).map fun json => some (.ok json)

/-- The JavaScript side as the calls show it. The context counts the scripts. -/
def jsOf (jsc : Option (Except Bytes Json)) : Js Nat where
  newContext := if calls.newContext then some 0 else none
  evalScript n _ _ :=
    match calls.evalThrows n with
    | none => .ok (n + 1)
    | some text => .error (exceptionText text)
  jsc _ := jsc.map fun reply _ => reply
  showReal := showReal

/-- A call of `solve` ends as the engine without handles does. -/
theorem solve_jsOf (engine : SolverEngine Nat) (requests : List SolverRequest) (solve : SolveCalls) :
    (jscOf stack solve).map (fun jsc => engine.solve (jsOf showReal calls jsc) requests) =
      solveOutcome stack showReal requests solve := by
  unfold jscOf solveOutcome
  cases solve.isFunction with
  | false => rfl
  | true =>
    cases solve.reply with
    | error text => rfl
    | ok seen =>
      show Option.map _ ((jsonOf stack seen).map _) = (jsonOf stack seen).map _
      rw [Option.map_map]
      rfl

/-- The constructor ends as that of the engine without handles does. -/
theorem new_jsOf (assets : SolverAssets) (jsc : Option (Except Bytes Json)) :
    SolverEngine.new (jsOf showReal calls jsc) assets =
      (constructorOutcome calls).map fun _ => { assets, ctx := 4 } := by
  unfold SolverEngine.new constructorOutcome jsOf
  cases calls.newContext with
  | false => rfl
  | true =>
    simp only [scriptsOutcome]
    cases h₀ : calls.evalThrows 0 with
    | some text => simp [bind, Except.bind, Except.map, h₀]
    | none =>
      cases h₁ : calls.evalThrows 1 with
      | some text => simp [bind, Except.bind, Except.map, h₀, h₁]
      | none =>
        cases h₂ : calls.evalThrows 2 with
        | some text => simp [bind, Except.bind, Except.map, h₀, h₁, h₂]
        | none =>
          cases h₃ : calls.evalThrows 3 with
          | some text => simp [bind, Except.bind, Except.map, h₀, h₁, h₂, h₃]
          | none => simp [bind, Except.bind, Except.map, h₀, h₁, h₂, h₃]

/-- How the life of an engine without handles ends. -/
def lifeByValues (assets : SolverAssets) :
    Option (Except Bytes (List (Except Bytes (List SolverResponse)))) :=
  match SolverEngine.new (jsOf showReal calls none) assets with
  | .error what => some (.error what)
  | .ok engine =>
    (solves.mapM fun c => (jscOf stack c.2).map fun jsc =>
      engine.solve (jsOf showReal calls jsc) c.1).map .ok

/-- An engine returns and throws what the engine without handles does, and does neither exactly when
there is no room for a reply that it gets. -/
theorem engineLife_result (hruntime : calls.newRuntime = true) (assets : SolverAssets) :
    (engineLife stack showReal assets.playerCode calls solves ()).2.2 =
        lifeByValues stack showReal calls solves assets ∧
      ((engineLife stack showReal assets.playerCode calls solves ()).2.2 ≠ none ↔
        (Constructs calls → ∀ c ∈ solves, ReplyHasRoom stack c.2)) := by
  have hlife : lifeByValues stack showReal calls solves assets =
      lifeOutcome stack showReal calls solves := by
    rw [lifeByValues, lifeOutcome, new_jsOf]
    cases constructorOutcome calls with
    | error what => rfl
    | ok u => simp only [Except.map, solve_jsOf]
  rw [engineLife_outcome stack showReal assets.playerCode calls solves hruntime]
  exact ⟨hlife.symm, lifeOutcome_ne_none_iff stack showReal calls solves⟩

end

/-- A reply with one response. -/
def oneResponse : JsSeen
  | [] => .object [some (lit "responses")]
  | [0] => .array 1
  | [0, 0] => .object [some (lit "data"), some (lit "type")]
  | [0, 0, 0] => .string (some (lit "v"))
  | [0, 0, 1] => .string (some (lit "result"))
  | _ => .null

/-- Two calls of an engine. In the first one the script throws. -/
def throwsOnce : List (List SolverRequest × SolveCalls) :=
  [([⟨lit "n", lit "c"⟩], ⟨true, .error (some (lit "boom"))⟩),
   ([⟨lit "n", lit "c"⟩], ⟨true, .ok oneResponse⟩)]

/-- A life of two `solve` calls: the first throws, and the second is answered all the same. -/
theorem engineLife_result_throwsOnce :
    (engineLife 4 (fun _ => []) [] ⟨true, true, fun _ => none⟩ throwsOnce ()).2.2 =
      some (.ok [.error (lit "boom"), .ok [⟨lit "n", true, lit "v", []⟩]]) :=
  (engineLife_result 4 (fun _ => []) ⟨true, true, fun _ => none⟩ throwsOnce rfl
    ⟨[], [], [], [], [], none⟩).1.trans (by decide)

/-! ### Values as trees -/

/-- What the calls return for a value, when none of them fails. -/
def nodeOf : JsValue → JsNode
  | .undefined => .null
  | .null => .null
  | .bool b => .bool b
  | .int i => .number (some (Double.ofInt i))
  | .float64 d => .number (some d)
  | .string s => .string (some (Utf16.toUtf8 s))
  | .array elems => .array elems.length
  | .object props => .object ((ownProperties props).map fun p => some (Utf16.toUtf8 p.1))
  | .other => .other

/-- The values into which `js_to_json_qjs` descends. -/
def partsOf : JsValue → List JsValue
  | .array elems => elems
  | .object props => (ownProperties props).map Prod.snd
  | .undefined | .null | .bool _ | .int _ | .float64 _ | .string _ | .other => []

/-- What the calls return for a value that is a tree. -/
def seenOf (v : JsValue) : JsSeen
  | [] => nodeOf v
  | i :: path => seenOf ((partsOf v)[i]?.getD .undefined) path

mutual

/-- How many calls deep the value is. -/
def height : JsValue → Nat
  | .array elems => heightElems elems + 1
  | .object props => heightProps props + 1
  | .undefined | .null | .bool _ | .int _ | .float64 _ | .string _ | .other => 1

def heightElems : List JsValue → Nat
  | [] => 0
  | v :: vs => max (height v) (heightElems vs)

def heightProps : List (JsString × JsValue) → Nat
  | [] => 0
  | p :: ps => max (heightProp p) (heightProps ps)

def heightProp : JsString × JsValue → Nat
  | (_, v) => height v

end

/-- An element is no higher than the elements. -/
theorem height_le_heightElems {v : JsValue} {elems : List JsValue} (h : v ∈ elems) :
    height v ≤ heightElems elems := by
  induction elems with
  | nil => cases h
  | cons w ws ih =>
    rw [heightElems]
    rcases List.mem_cons.mp h with rfl | h
    · omega
    · have hle := ih h
      omega

/-- Nor is a property higher than the properties. -/
theorem height_le_heightProps {p : JsString × JsValue} {props : List (JsString × JsValue)}
    (h : p ∈ props) : height p.2 ≤ heightProps props := by
  induction props with
  | nil => cases h
  | cons q qs ih =>
    rw [heightProps]
    rcases List.mem_cons.mp h with rfl | h
    · rw [heightProp]
      omega
    · have hle := ih h
      omega

/-- The parts of a value are one call less deep. -/
theorem height_part {v w : JsValue} (h : w ∈ partsOf v) : height w + 1 ≤ height v := by
  cases v with
  | array elems =>
    rw [height]
    have hle : height w ≤ heightElems elems := height_le_heightElems h
    omega
  | object props =>
    rw [height]
    obtain ⟨p, hp, rfl⟩ := List.mem_map.mp h
    have hle := height_le_heightProps ((ownProperties_perm props).mem_iff.mp hp)
    omega
  | _ => cases h

section
variable {json : JsSeen → Option Json} {seen : JsSeen}

/-- The loop over the elements, when each of them is converted. -/
theorem jsonOfElems_eq (vs : List JsValue) {i : Nat}
    (h : ∀ j v, vs[j]? = some v → json (seen.child (i + j)) = some (jsToJsonQjs v)) :
    jsonOfElems json seen i vs.length = some (vs.map jsToJsonQjs) := by
  induction vs generalizing i with
  | nil => rfl
  | cons v vs ih =>
    have hfirst : json (seen.child i) = some (jsToJsonQjs v) := h 0 v rfl
    have hrest := ih (i := i + 1) fun j w hj => by
      have hj' := h (j + 1) w hj
      rwa [← Nat.add_assoc, Nat.add_right_comm] at hj'
    rw [List.length_cons, jsonOfElems, hfirst, hrest]
    rfl

/-- The loop over the properties, when each of them is converted. -/
theorem jsonOfProps_eq (props : List (JsString × JsValue)) {i : Nat}
    (h : ∀ j v, (props.map Prod.snd)[j]? = some v →
      json (seen.child (i + j)) = some (jsToJsonQjs v)) :
    jsonOfProps json seen i (props.map fun p => some (Utf16.toUtf8 p.1)) =
      some (props.map fun p => (toCString p.1, jsToJsonQjs p.2)) := by
  induction props generalizing i with
  | nil => rfl
  | cons p props ih =>
    have hfirst : json (seen.child i) = some (jsToJsonQjs p.2) := h 0 p.2 rfl
    have hrest := ih (i := i + 1) fun j w hj => by
      have hj' := h (j + 1) w hj
      rwa [← Nat.add_assoc, Nat.add_right_comm] at hj'
    rw [List.map_cons, jsonOfProps, jsonOfProp, Option.elim_some, hfirst, hrest]
    rfl

end

/-- With room for it, the conversion with handles computes the one of values. -/
theorem jsonOf_seenOf (stack : Nat) (v : JsValue) (h : height v ≤ stack) :
    jsonOf stack (seenOf v) = some (jsToJsonQjs v) := by
  induction stack generalizing v with
  | zero =>
    -- Every value needs one call.
    have hpos : 0 < height v := by
      cases v with
      | array elems => exact Nat.succ_pos _
      | object props => exact Nat.succ_pos _
      | _ => exact Nat.one_pos
    omega
  | succ stack ih =>
    have hparts : ∀ j w, (partsOf v)[j]? = some w →
        jsonOf stack ((seenOf v).child (0 + j)) = some (jsToJsonQjs w) := by
      intro j w hj
      have hheight := height_part (List.mem_of_getElem? hj)
      have hchild : (seenOf v).child (0 + j) = seenOf w := by
        rw [Nat.zero_add]
        show seenOf ((partsOf v)[j]?.getD .undefined) = _
        rw [hj]
        rfl
      rw [hchild]
      exact ih w (by omega)
    cases v with
    | array elems =>
      show (jsonOfElems (jsonOf stack) (seenOf (.array elems)) 0 elems.length).map Json.array = _
      rw [jsonOfElems_eq elems hparts, jsToJsonQjs, jsToJsonElems_eq]
      rfl
    | object props =>
      have hprops := jsonOfProps_eq (ownProperties props) hparts
      show (jsonOfProps (jsonOf stack) (seenOf (.object props)) 0
        ((ownProperties props).map fun p => some (Utf16.toUtf8 p.1))).map _ = _
      rw [hprops, jsToJsonQjs, jsToJsonProps_eq, ownProperties_map, List.map_map]
      rfl
    | _ => rfl

end EjsBoundary.Proofs
