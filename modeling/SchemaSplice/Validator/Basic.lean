import SchemaSplice.Types.Kind
/-!
# Validators

A validator is an expression of calls: `z.name(args)` or a method call on another validator. Arguments are validators,
lists, field lists, literals and bare names.
-/

namespace SchemaSplice

open SchemaSplice.Types

mutual

inductive Validator where
  /-- `z.name(args)` -/
  | call (name : String) (args : List Argument)
  /-- `receiver.name(args)` -/
  | method (receiver : Validator) (name : String) (args : List Argument)

/-- An argument of a call. -/
inductive Argument where
  | validator (value : Validator)
  | list (items : List Argument)
  | fields (entries : List (String × Validator))
  | text (value : String)
  | number (value : Binary64)
  | flag (value : Bool)
  | bigInt (digits : String)
  | name (word : String)

end

namespace Validator

def primitive (name : String) : Validator := call name []

def modified (receiver : Validator) (name : String) : Validator := method receiver name []

end Validator

def Argument.ofLiteral : Literal → Argument
  | .text s => text s
  | .number x => number x
  | .flag b => flag b
  | .bigInt digits => bigInt digits

end SchemaSplice
