import Mathlib.Logic.Function.Basic

/-!
# `EjsBoundary.Model.QuickJsOwners`: the owners of QuickJS handles

`JsValueOwner`, `JsCStringView` and `JsAtomOwner` of `quickjs_raii.h`. The three have the same
members and differ in one test: `reset` of a `JsValueOwner` frees its value whenever the context
is not null, the other two look at the handle as well.

A handle is one reference that has to be freed: two owners that share a JavaScript value after
`JS_DupValue` hold two handles. `none` is the null of each type, `nullptr`, `JS_ATOM_NULL` and for
a `JsValueOwner` the `JS_UNDEFINED` it starts with. A program is a sequence of operations on
objects; `frees` and `handed` are a record of it, which the code does not keep.
-/

set_option autoImplicit false

namespace EjsBoundary.Model

variable {ι κ η : Type}

/-- The three classes. -/
inductive OwnerClass where
  | jsValueOwner
  | jsCStringView
  | jsAtomOwner
  deriving DecidableEq

/-- The members of an owner, with the defaults they have. -/
structure Owner (κ η : Type) where
  ctx : Option κ := none
  value : Option η := none
  deriving DecidableEq

/-- What `reset` frees, and with which context: `JS_FreeValue(ctx, value)`,
`JS_FreeCString(ctx, value)` or `JS_FreeAtom(ctx, atom)`. -/
def Owner.toFree (o : Owner κ η) : OwnerClass → List (κ × Option η)
  -- `if (ctx)`
  | .jsValueOwner =>
    match o.ctx with
    | some ctx => [(ctx, o.value)]
    | none => []
  -- `if (ctx && value)`
  | .jsCStringView =>
    match o.ctx, o.value with
    | some ctx, some value => [(ctx, some value)]
    | _, _ => []
  -- `if (ctx && atom != JS_ATOM_NULL)`
  | .jsAtomOwner =>
    match o.ctx, o.value with
    | some ctx, some atom => [(ctx, some atom)]
    | _, _ => []

/-- `reset(new_ctx, new_value)`: the owner after it, and what it freed. -/
def Owner.reset (o : Owner κ η) (c : OwnerClass) (newCtx : Option κ := none)
    (newValue : Option η := none) : Owner κ η × List (κ × Option η) :=
  ({ ctx := newCtx, value := newValue }, o.toFree c)

/-- The fields of a move: what the target takes from `other`, and what `other` is left with. -/
def Owner.take (other : Owner κ η) : Owner κ η × Owner κ η :=
  ({ ctx := other.ctx, value := other.value }, { ctx := none, value := none })

/-- The objects that are alive, the calls that freed something, latest first, and the handles that
were handed to an owner. -/
structure OwnerWorld (ι κ η : Type) where
  owners : ι → Option (Owner κ η)
  frees : List (κ × Option η)
  handed : List η

/-- What a program can do with owners. The default constructor is `construct` with two nulls, and
`reset()` is `reset` with two nulls. -/
inductive OwnerOp (ι κ η : Type) where
  | construct (this : ι) (context : Option κ) (v : Option η)
  | moveConstruct (this other : ι)
  | moveAssign (this other : ι)
  | reset (this : ι) (newCtx : Option κ) (newValue : Option η)
  | destroy (this : ι)

namespace OwnerWorld

variable [DecidableEq ι]

/-- No object and no handle yet. -/
def initial : OwnerWorld ι κ η := { owners := fun _ => none, frees := [], handed := [] }

/-- An object begins, changes or ends. -/
def set (w : OwnerWorld ι κ η) (i : ι) (o : Option (Owner κ η)) : OwnerWorld ι κ η :=
  { w with owners := Function.update w.owners i o }

/-- Record what was freed. -/
def record (w : OwnerWorld ι κ η) (frees : List (κ × Option η)) : OwnerWorld ι κ η :=
  { w with frees := frees ++ w.frees }

/-- Record that a handle, if it is one, was handed to an owner. -/
def handOver (w : OwnerWorld ι κ η) (v : Option η) : OwnerWorld ι κ η :=
  { w with handed := v.toList ++ w.handed }

/-- One operation. It is not possible to construct an object that is alive, or to use one that is
not. -/
def step (c : OwnerClass) (w : OwnerWorld ι κ η) : OwnerOp ι κ η → Option (OwnerWorld ι κ η)
  | .construct this context v =>
    match w.owners this with
    | some _ => none
    | none => some ((w.set this (some { ctx := context, value := v })).handOver v)
  | .moveConstruct this other =>
    match w.owners this, w.owners other with
    | none, some o => some ((w.set other (some o.take.2)).set this (some o.take.1))
    | _, _ => none
  | .moveAssign this other =>
    match w.owners this, w.owners other with
    | some t, some o =>
      if this ≠ other then
        -- What `reset()` leaves in the fields is overwritten by the two assignments after it.
        some (((w.record (t.reset c).2).set other (some o.take.2)).set this (some o.take.1))
      else some w
    | _, _ => none
  | .reset this newCtx newValue =>
    match w.owners this with
    | none => none
    | some t =>
      let (t', freed) := t.reset c newCtx newValue
      some (((w.record freed).set this (some t')).handOver newValue)
  | .destroy this =>
    match w.owners this with
    | none => none
    | some t => some ((w.record (t.reset c).2).set this none)

end OwnerWorld

end EjsBoundary.Model
