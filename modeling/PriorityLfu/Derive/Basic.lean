import PriorityLfu.Deepsize.Basic

/-!
# The derive macro: declarations and generated code

`derive_deep_size` builds the method from tokens. Here it builds the syntax that the compiler
reads from these tokens; names are resolved later, where the derive stands.
-/
namespace PriorityLfu.Derive

/-! ## Declarations -/

/-- An identifier, written `r#name` if it is raw. -/
structure Ident where
  name : String
  raw : Bool
  deriving DecidableEq

inductive Fields
  | named (fields : List Ident)
  | unnamed (len : Nat)
  | unit

structure Variant where
  ident : Ident
  fields : Fields

/-- Where the fields of a struct stand: with `#[repr(packed(pack))]` or without, and the alignment
of each field's type if the compiler knows it. That of a type parameter it does not. -/
structure Placement where
  pack : Option Nat
  align : Nat → Option Nat

/-- The compiler lets a reference to the field be taken. -/
def Placement.aligned (self : Placement) (i : Nat) : Bool :=
  match self.pack with
  | none => true
  | some pack => (self.align i).any (· ≤ pack)

/-- Only a struct can be packed. -/
inductive Data
  | struct (fields : Fields) (placement : Placement)
  | enum (variants : List Variant)
  | union

/-- Named fields have different names. -/
def Fields.Distinct : Fields → Prop
  | .named fields => (fields.map Ident.name).Nodup
  | _ => True

def Fields.len : Fields → Nat
  | .named fields => fields.length
  | .unnamed len => len
  | .unit => 0

/-- What a declaration must meet to be one: different names for variants and for fields. -/
def Data.Distinct : Data → Prop
  | .struct fields _ => fields.Distinct
  | .enum variants =>
    (variants.map fun var => var.ident.name).Nodup ∧ ∀ var ∈ variants, var.fields.Distinct
  | .union => True

structure DeriveInput where
  ident : Ident
  data : Data
  distinct : data.Distinct

/-! ## Syntax -/

/-- What is measured. -/
inductive Receiver
  | selfNamed (name : Ident)
  | selfIndex (index : Nat)
  | var (name : Ident)

inductive Expr
  | zero
  | add (a b : Expr)
  | deepSizeOfChildren (receiver : Receiver) (context : Ident)

/-- A pattern after the path of a variant: names to bind, in parentheses or in braces. -/
inductive Matcher
  | unit
  | unnamed (binders : List Ident)
  | named (binders : List Ident)

structure Arm where
  structName : Ident
  variant : Ident
  matcher : Matcher
  output : Expr

inductive Body
  | sum (e : Expr)
  | matchSelf (arms : List Arm) (otherwise : Expr)

/-- The method `deep_size_of_children`, with the name of its parameter. -/
structure Method where
  context : Ident
  body : Body

/-! ## Generation -/

/-- The identifier `context` as `quote!` writes it. -/
def context : Ident := ⟨"context", false⟩

/-- `0 #(+ #recurse)*` -/
def sumOf (recurse : List Expr) : Expr := recurse.foldl .add .zero

def matchFields : Fields → Expr
  | .named fields => sumOf (fields.map fun name => .deepSizeOfChildren (.selfNamed name) context)
  | .unnamed len =>
    sumOf ((List.range len).map fun index => .deepSizeOfChildren (.selfIndex index) context)
  | .unit => .zero

/-- `syn::Ident::new(&format!("_{}", i), Span::call_site())` -/
def positional (i : Nat) : Ident := ⟨"_" ++ i.repr, false⟩

def matchEnumFields : Fields → Expr
  | .named fields => sumOf (fields.map fun name => .deepSizeOfChildren (.var name) context)
  | .unnamed len =>
    sumOf ((List.range len).map fun i => .deepSizeOfChildren (.var (positional i)) context)
  | .unit => .zero

def getMatcher (var : Variant) : Matcher :=
  match var.fields with
  | .unit => .unit
  | .unnamed len => .unnamed ((List.range len).map positional)
  | .named fields => .named fields

/-- A union panics. -/
def deepsizeSum (data : Data) (structName : Ident) : Option Body :=
  match data with
  | .struct inner _ => some (.sum (matchFields inner))
  | .enum variants =>
    some (.matchSelf
      (variants.map fun var =>
        { structName
          variant := var.ident
          matcher := getMatcher var
          output := matchEnumFields var.fields })
      .zero)
  | .union => none

def deriveDeepSize (input : DeriveInput) : Option Method :=
  (deepsizeSum input.data input.ident).map fun sum => { context, body := sum }

end PriorityLfu.Derive
