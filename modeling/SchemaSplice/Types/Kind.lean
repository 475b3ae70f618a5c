import SchemaSplice.Binary64.Basic
import SchemaSplice.Binary64.Written
import SchemaSplice.Text.Quoted
/-!
# Kinds of types

A type is known by a `TypeId`, a place in a table. What stands there is a `TypeKind`; composite kinds hold the ids
of their parts, so types may be cyclic. `TypeKind.agrees` is the structural equality of primitive and literal
kinds; other kinds agree with nothing, not even with themselves.
-/

namespace SchemaSplice.Types

structure TypeId where
  slot : Nat
deriving DecidableEq, Repr, Inhabited

/-! ### Parts -/

inductive Literal where
  | text (value : String)
  | number (value : Binary64)
  | flag (value : Bool)
  /-- Digits only, without the final `n`. -/
  | bigInt (digits : String)
deriving DecidableEq, Repr

namespace Literal

/-- Whether two literals have the same value. -/
def agrees : Literal → Literal → Bool
  | text a, text b => a == b
  | number a, number b => a.sameValue b
  | flag a, flag b => a == b
  | bigInt a, bigInt b => a == b
  | _, _ => false

def display : Literal → String
  | text s => Text.quoteVisible s
  | number x => x.display
  | flag b => if b then "true" else "false"
  | bigInt digits => digits ++ "n"

@[simp] theorem agrees_self (a : Literal) : a.agrees a = true := by cases a <;> simp [agrees]

theorem agrees_comm (a b : Literal) : a.agrees b = b.agrees a := by
  cases a <;> cases b <;> simp only [agrees, Bool.beq_comm, Binary64.sameValue_comm]

theorem agrees_trans {a b c : Literal} (hab : a.agrees b = true) (hbc : b.agrees c = true) :
    a.agrees c = true := by
  cases a <;> cases b <;> simp only [agrees, beq_iff_eq, Bool.false_eq_true] at hab <;>
    cases c <;> simp only [agrees, beq_iff_eq, Bool.false_eq_true] at hbc ⊢
  · exact hab.trans hbc
  · exact Binary64.sameValue_trans hab hbc
  · exact hab.trans hbc
  · exact hab.trans hbc

end Literal

inductive ElementFlag where
  | required
  | optional
  /-- `...T[]`; the element holds `T`. -/
  | rest
  /-- `...T` where `T` is no array. -/
  | variadic
deriving DecidableEq, Repr

/-- A tuple position. -/
structure Element where
  type : TypeId
  flag : ElementFlag
deriving DecidableEq, Repr

inductive PropertyKey where
  | name (key : String)
  /-- A well-known symbol such as `[Symbol.iterator]`. -/
  | symbol (key : String)
deriving DecidableEq, Repr

def PropertyKey.isSymbol : PropertyKey → Bool
  | symbol _ => true
  | name _ => false

/-- A property of an object type. -/
structure Property where
  key : PropertyKey
  type : TypeId
  isOptional : Bool
deriving DecidableEq, Repr

/-- The name and arguments that an object type was written through. -/
structure Alias where
  name : String
  args : List TypeId
deriving DecidableEq, Repr

structure ObjectType where
  /-- The declared name; literal object types have none. -/
  symbol : Option String := none
  aliased : Option Alias := none
  typeArgs : List TypeId := []
  properties : List Property := []
  /-- Return types of the call signatures. -/
  calls : List TypeId := []
deriving DecidableEq, Repr

namespace ObjectType

/-- The property with a given string key. -/
def property? (o : ObjectType) (name : String) : Option Property :=
  o.properties.find? (·.key == .name name)

/-- Adds a property unless its key is taken: the first declaration of a key wins. -/
def addProperty (o : ObjectType) (p : Property) : ObjectType :=
  if o.properties.any (·.key == p.key) then o else { o with properties := o.properties ++ [p] }

end ObjectType

/-! ### Kinds -/

inductive TypeKind where
  | any
  | unknown
  | string
  | number
  | boolean
  | bigInt
  | null
  | undefined
  | void
  | never
  | literal (value : Literal)
  | enumLiteral (enumName member : String) (value : Literal)
  | union (members : List TypeId)
  | intersection (members : List TypeId)
  /-- An array without an element type has unknown elements. -/
  | array (element : Option TypeId)
  | tuple (elements : List Element)
  | object (type : ObjectType)
  /-- A reserved place whose definition is still being read. -/
  | pending
deriving DecidableEq, Repr, Inhabited

namespace TypeKind

/-- Whether two kinds are the same primitive, literal or enum member. -/
def agrees : TypeKind → TypeKind → Bool
  | any, any | unknown, unknown | string, string | number, number | boolean, boolean
  | bigInt, bigInt | null, null | undefined, undefined | void, void | never, never => true
  | literal a, literal b => a.agrees b
  | enumLiteral e m _, enumLiteral e' m' _ => e == e' && m == m'
  | _, _ => false

theorem agrees_comm (a b : TypeKind) : a.agrees b = b.agrees a := by
  cases a <;> cases b <;> simp only [agrees, Literal.agrees_comm]
  rw [Bool.eq_iff_iff]
  simp only [Bool.and_eq_true, beq_iff_eq]
  exact ⟨fun h => ⟨h.1.symm, h.2.symm⟩, fun h => ⟨h.1.symm, h.2.symm⟩⟩

theorem agrees_trans {a b c : TypeKind} (hab : a.agrees b = true) (hbc : b.agrees c = true) :
    a.agrees c = true := by
  cases a <;> cases b <;> simp only [agrees, Bool.false_eq_true] at hab <;>
    cases c <;> simp only [agrees, Bool.false_eq_true] at hbc ⊢
  · exact Literal.agrees_trans hab hbc
  · simp only [Bool.and_eq_true, beq_iff_eq] at hab hbc ⊢
    exact ⟨hab.1.trans hbc.1, hab.2.trans hbc.2⟩

def literal? : TypeKind → Option Literal
  | literal v => some v
  | enumLiteral _ _ v => some v
  | _ => none

def object? : TypeKind → Option ObjectType
  | object o => some o
  | _ => none

def union? : TypeKind → Option (List TypeId)
  | union ms => some ms
  | _ => none

def intersection? : TypeKind → Option (List TypeId)
  | intersection ms => some ms
  | _ => none

end TypeKind

end SchemaSplice.Types
