import PriorityLfu.Derive.Basic
import Mathlib.Data.List.Nodup

/-!
# Scopes of the generated code

The generated identifiers are resolved where the derive stands. `resolve` replaces names by what
they refer to and fails where the compiler does: a name that stands for an item is not bound by a
pattern, a field is not a context, and a field that may not be aligned cannot be referred to. What
is left is run on the values of the type.
-/
namespace PriorityLfu.Derive
open Deepsize

/-- What a name can refer to. -/
inductive Entity
  /-- A constant, a static, a const parameter or a constructor. -/
  | item
  | context
  | field (i : Nat)
  deriving DecidableEq

/-- The items in scope where the derive stands. -/
structure Site where
  items : String → Bool
  /-- The name is that of a constant that can stand for a field of a variant: in the pattern, where
  the field is compared with it, and in its call. That takes a constant that is a reference of the
  type of the field. -/
  fits : String → Ident → Nat → Bool

/-- What each name refers to, the raw prefix aside. -/
abbrev Scope := String → Option Entity

/-- A field that a pattern compares with a constant. -/
structure Test where
  field : Nat
  constant : String

namespace Scope

/-- The scope that the method is written into. -/
def outer (site : Site) : Scope := fun name => if site.items name then some .item else none

/-- A binding shadows any other. -/
def update (scope : Scope) (x : Ident) (e : Entity) : Scope := fun name =>
  if x.name = name then some e else scope name

/-- A parameter cannot have the name of an item. -/
def bind (scope : Scope) (x : Ident) (e : Entity) : Option Scope :=
  if scope x.name = some .item then none else some (scope.update x e)

/-- What the pattern of a variant binds to its fields. The name of an item is not bound: the field
is compared with a constant that fits, and any other item is an error. -/
def bindAll (site : Site) (variant : Ident) (scope : Scope) :
    List (Ident × Nat) → Option (Scope × List Test)
  | [] => some (scope, [])
  | (x, i) :: binders =>
    if scope x.name = some .item then
      if site.fits x.name variant i then
        (bindAll site variant scope binders).map fun (inner, tests) => (inner, ⟨i, x.name⟩ :: tests)
      else none
    else bindAll site variant (scope.update x (.field i)) binders

end Scope

/-- What is measured, without names. -/
inductive Target
  | field (i : Nat)
  | constant (name : String)

/-- Expressions without names. -/
inductive Code
  | zero
  | add (a b : Code)
  | deepSizeOfChildren (target : Target)

/-- An arm without names, with the position of its variant. -/
structure Case where
  variant : Nat
  tests : List Test
  code : Code

inductive Program
  | sum (code : Code)
  | matchSelf (cases : List Case) (otherwise : Code)

def fieldIndex (fields : List Ident) (x : Ident) : Option Nat :=
  fields.findIdx? fun field => field.name == x.name

/-- A reference to a field of `self` is aligned. -/
def Receiver.resolve (data : Data) (scope : Scope) : Receiver → Option Target
  | .selfNamed x =>
    match data with
    | .struct (.named fields) placement =>
      ((fieldIndex fields x).filter placement.aligned).map .field
    | _ => none
  | .selfIndex i =>
    match data with
    | .struct (.unnamed len) placement =>
      if i < len ∧ placement.aligned i then some (.field i) else none
    | _ => none
  | .var x =>
    match scope x.name with
    | some (.field i) => some (.field i)
    | some .item => some (.constant x.name)
    | _ => none

def Expr.resolve (data : Data) (scope : Scope) : Expr → Option Code
  | .zero => some .zero
  | .add a b =>
    match a.resolve data scope, b.resolve data scope with
    | some a, some b => some (.add a b)
    | _, _ => none
  | .deepSizeOfChildren receiver context =>
    if scope context.name = some .context then
      (receiver.resolve data scope).map .deepSizeOfChildren
    else none

/-- The fields that a pattern names. -/
def Matcher.binders : Matcher → Fields → Option (List (Ident × Nat))
  | .unit, .unit => some []
  | .unnamed xs, .unnamed len => if xs.length = len then some xs.zipIdx else none
  | .named xs, .named fields =>
    if xs.length = fields.length then
      xs.mapM fun x => (fieldIndex fields x).map fun i => (x, i)
    else none
  | _, _ => none

def variantIndex (variants : List Variant) (x : Ident) : Option Nat :=
  variants.findIdx? fun var => var.ident.name == x.name

def Arm.resolve (site : Site) (input : DeriveInput) (variants : List Variant) (scope : Scope)
    (arm : Arm) : Option Case := do
  guard (arm.structName.name = input.ident.name)
  let i ← variantIndex variants arm.variant
  let var ← variants[i]?
  let binders ← arm.matcher.binders var.fields
  let (inner, tests) ← scope.bindAll site arm.variant binders
  let code ← arm.output.resolve input.data inner
  return { variant := i, tests, code }

def Body.resolve (site : Site) (input : DeriveInput) (scope : Scope) : Body → Option Program
  | .sum e => (e.resolve input.data scope).map .sum
  | .matchSelf arms otherwise =>
    match input.data with
    | .enum variants => do
      let cases ← arms.mapM (Arm.resolve site input variants scope)
      let otherwise ← otherwise.resolve input.data scope
      return .matchSelf cases otherwise
    | _ => none

def Method.resolve (site : Site) (input : DeriveInput) (self : Method) : Option Program := do
  let scope ← (Scope.outer site).bind self.context .context
  self.body.resolve site input scope

/-! ## Values -/

/-- The field lists that a value can have. -/
def Data.alternatives : Data → List Fields
  | .struct fields _ => [fields]
  | .enum variants => variants.map Variant.fields
  | .union => []

/-- A value of the type: which variant is active, its fields, and what the constants of the call
site are and which fields equal them. -/
structure Instance (α : Type) (data : Data) where
  active : Nat
  fields : List (Component α)
  shape : Fields
  active_eq : data.alternatives[active]? = some shape
  len_eq : fields.length = shape.len
  constants : String → Component α
  equal : Test → Bool

variable {α : Type} [Amount α] {data : Data}

def Code.run (value : Instance α data) : Code → Sizing α
  | .zero => .const 0
  | .add a b => a.run value + b.run value
  | .deepSizeOfChildren (.field i) =>
    match value.fields[i]? with
    | some field => field.children
    | none => .diverge
  | .deepSizeOfChildren (.constant name) => (value.constants name).children

/-- The first arm whose pattern matches. -/
def Program.run (value : Instance α data) : Program → Sizing α
  | .sum code => code.run value
  | .matchSelf cases otherwise =>
    match cases.find? fun c => c.variant == value.active && c.tests.all value.equal with
    | some c => c.code.run value
    | none => otherwise.run value

/-! ## What is to be shown -/

/-- Every call is one of a field. -/
def Code.WellScoped : Code → Prop
  | .zero => True
  | .add a b => a.WellScoped ∧ b.WellScoped
  | .deepSizeOfChildren (.field _) => True
  | .deepSizeOfChildren (.constant _) => False

def Program.WellScoped : Program → Prop
  | .sum code => code.WellScoped
  | .matchSelf cases otherwise => (∀ c ∈ cases, c.code.WellScoped) ∧ otherwise.WellScoped

/-- The derive generates a method that compiles, in which every call is one of a field, and that
calls each field of the active variant once, in order, with the context of the method. -/
def FieldSum (site : Site) (input : DeriveInput) : Prop :=
  ∃ method program, deriveDeepSize input = some method ∧
    method.resolve site input = some program ∧ program.WellScoped ∧
    ∀ (α : Type) [Amount α] (value : Instance α input.data),
      program.run value = (value.fields.map Component.children).sum

/-- The names that a pattern for the fields binds. -/
def Fields.binders : Fields → List Ident
  | .named fields => fields
  | .unnamed len => (List.range len).map positional
  | .unit => []

/-- `context` and the names that patterns bind are not names of items, no pattern binds `context`
again, and a packed struct keeps its fields aligned. -/
def DeriveInput.BindsFreshly (site : Site) (input : DeriveInput) : Prop :=
  match input.data with
  | .struct fields placement => site.items context.name = false ∧
      ∀ i < fields.len, placement.aligned i = true
  | .enum variants => site.items context.name = false ∧
      ∀ var ∈ variants, ∀ x ∈ var.fields.binders,
        site.items x.name = false ∧ x.name ≠ context.name
  | .union => False

end PriorityLfu.Derive
