import StackMachine.Derive.Attribute
import StackMachine.Derive.Template

/-!
# Display of error types

A described type gets code that displays its values: one arm for each variant, with a pattern that
binds the fields which the variant's message mentions, and the message as a format with those
fields as named arguments.  Every variant must have a message; the first one without decides the
error.

Tuple fields are bound as `f0`, `f1`, …, and the message's positional placeholders are renamed to
match; fields that the message leaves out are not bound.
-/

namespace StackMachine.Derive

/-- The fields of a variant. -/
inductive Fields where
  | unit
  | tuple (count : Nat)
  | named (names : List String)
deriving DecidableEq, Repr

/-- A variant of an enumeration. -/
structure Variant where
  name : String
  attributes : List Attribute
  fields : Fields
deriving DecidableEq, Repr

/-- The shape of a type. -/
inductive Shape where
  | enumeration (variants : List Variant)
  | record (attributes : List Attribute) (fields : Fields)
  | union
deriving DecidableEq, Repr

/-- A type that asks for its display code. -/
structure Item where
  name : String
  generics : List String
  shape : Shape
deriving DecidableEq, Repr

/-- What a message belongs to. -/
inductive Target where
  | variant (name : String)
  | type (name : String)
deriving DecidableEq, Repr

/-- Why a type gets no display code. -/
inductive Refusal where
  | union
  | missingMessage (target : Target)
  | malformedMessage
deriving DecidableEq, Repr

namespace Target

/-- The description of a target. -/
def describe : Target → String
  | variant name => "variant `" ++ name ++ "`"
  | type name => "type `" ++ name ++ "`"

end Target

namespace Refusal

/-- The report of a refusal. -/
def message : Refusal → String
  | union => "Error derive does not support unions"
  | missingMessage target =>
    "missing #[error(\"...\")] attribute on " ++ target.describe ++
      "; every error variant must declare a display message"
  | malformedMessage =>
    "invalid #[error] attribute: expected a string literal like #[error(\"stack overflow\")]"

end Refusal

/-- How an arm binds fields. -/
inductive Pattern where
  | unit
  | tuple (bindings : List (Option String))
  | named (bindings : List String)
deriving DecidableEq, Repr

/-- One arm: the variant it is for, the fields it binds, its format and the arguments. -/
structure Arm where
  variant : Option String
  pattern : Pattern
  format : String
  arguments : List String
deriving DecidableEq, Repr

namespace Arm

/-- The positions below `count` that names mention. -/
def usedPositions (used : List (List Char)) (count : Nat) : List Nat :=
  (List.range count).filter fun i => used.contains (Text.decimal i)

/-- The name of the field at a position. -/
def binding (index : Nat) : String := String.ofList (Template.fieldName index)

/-- The arm of a variant with a message. -/
def ofMessage (variant : Option String) (fields : Fields) (message : String) : Arm :=
  let used := Template.placeholders message.toList
  match fields with
  | .unit => ⟨variant, .unit, message, []⟩
  | .tuple count =>
    let positions := usedPositions used count
    { variant
      pattern := .tuple ((List.range count).map fun i =>
        if i ∈ positions then some (binding i) else none)
      format := String.ofList (Template.renameAll message.toList positions)
      arguments := positions.map binding }
  | .named names =>
    let bound := names.filter fun n => used.contains n.toList
    ⟨variant, .named bound, message, bound⟩

end Arm

/-- The message of a declaration. -/
def messageOf (attributes : List Attribute) (target : Target) : Except Refusal String :=
  match Attribute.message? attributes with
  | none => .error (.missingMessage target)
  | some none => .error .malformedMessage
  | some (some message) => .ok message

/-- The arm of a variant of an enumeration. -/
def Variant.arm (v : Variant) : Except Refusal Arm :=
  (messageOf v.attributes (.variant v.name)).map fun m => Arm.ofMessage (some v.name) v.fields m

namespace Item

/-- The arms of a type, in the order of its variants. -/
def arms (item : Item) : Except Refusal (List Arm) :=
  match item.shape with
  | .enumeration variants => variants.mapM Variant.arm
  | .record attributes fields =>
    (messageOf attributes (.type item.name)).map fun m => [Arm.ofMessage none fields m]
  | .union => .error .union

end Item

end StackMachine.Derive
