/-!
# Errors in annotations

Why a written type cannot be read.
-/

namespace SchemaSplice.Annotation

inductive TypeError where
  /-- A token that cannot stand at byte `place`. -/
  | unexpected (found : String) (place : Nat) (expected : String)
  /-- A form of type that is not supported. -/
  | unsupported (form : String)
  /-- A name without a declaration. -/
  | unknownName (name : String)
deriving DecidableEq, Repr

/-- The text of an error. -/
def TypeError.message : TypeError → String
  | unexpected found place expected => s!"unexpected `{found}` at byte {place}, expected {expected}"
  | unsupported form => s!"unsupported type syntax: {form}"
  | unknownName name => s!"cannot find type `{name}`"

end SchemaSplice.Annotation
