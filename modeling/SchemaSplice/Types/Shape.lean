import SchemaSplice.Types.Display
/-!
# Shapes of types

What a type can be validated as. The tests look at member names and alias names only: whatever has the members of a
date is a date, wherever it was declared. The readings below normalize a type before it is validated: promises are
unwrapped, literals that a wider member covers are dropped, brands are stripped, and tuples and intersections are
accepted only in the forms that a validator can express.
-/

namespace SchemaSplice.Types

/-- A type that no validator can express; `shown` is its text. -/
inductive ShapeError where
  | function (shown : String)
  | intersection (shown : String)
  | tuple (shown : String)
deriving DecidableEq, Repr

namespace ShapeError

def message : ShapeError → String
  | function shown => s!"cannot serialize a function (`{shown}`)"
  | intersection shown => s!"unsupported intersection `{shown}`"
  | tuple shown => s!"unsupported tuple shape `{shown}`"

end ShapeError

namespace Table

/-! ### Tests -/

def isFunction (t : Table) (id : TypeId) : Bool := !(t.calls id).isEmpty

def isAbsent (t : Table) (id : TypeId) : Bool := t.isKind id .null || t.isKind id .undefined

/-- Whether a type is a function, or a union of functions with `null` or `undefined`. -/
def holdsFunction (t : Table) (id : TypeId) : Bool :=
  match (t.kind id).union? with
  | none => t.isFunction id
  | some members =>
    let present := members.filter (!t.isAbsent ·)
    !present.isEmpty && present.all t.isFunction

def hasMembers (t : Table) (id : TypeId) (names : List String) : Bool :=
  (t.object? id).isSome && names.all fun n => (t.property? id n).isSome

def isDate (t : Table) (id : TypeId) : Bool :=
  t.hasMembers id ["toUTCString", "toISOString", "getDate", "getTime"]

def isSet (t : Table) (id : TypeId) : Bool := t.hasMembers id ["add", "has", "forEach", "delete"]

def isMap (t : Table) (id : TypeId) : Bool := t.hasMembers id ["set", "get", "has", "forEach", "delete"]

/-- The key and value types of a type written through the `Record` alias. -/
def recordArgs? (t : Table) (id : TypeId) : Option (Option TypeId × Option TypeId) :=
  match t.aliased? id with
  | some a => if a.name == "Record" then some (a.args[0]?, a.args[1]?) else none
  | none => none

def isEmptyObject (t : Table) (id : TypeId) : Bool :=
  match t.object? id with
  | some o => o.properties.isEmpty && o.calls.isEmpty && o.aliased.isNone
  | none => false

def isRecordLike (t : Table) (id : TypeId) : Bool := (t.object? id).isSome && !t.isFunction id

/-! ### Readings -/

/-- The result of a promise; every other type is its own result. Only the named promise with one argument counts. -/
def awaited (t : Table) (id : TypeId) : TypeId :=
  match t.object? id with
  | some { symbol := some "Promise", typeArgs := [inner], .. } => inner
  | _ => id

/-- Members without the literals that a wide member of the same primitive covers. -/
def dropAbsorbed (t : Table) (members : List TypeId) : List TypeId :=
  let hasString := members.any (t.isKind · .string)
  let hasNumber := members.any (t.isKind · .number)
  let hasBoolean := members.any (t.isKind · .boolean)
  members.filter fun m =>
    !(hasString && t.isTextLiteral m || hasNumber && t.isNumberLiteral m || hasBoolean && t.isFlagLiteral m)

def wholeEnum? (t : Table) (members : List TypeId) : Option String :=
  match members with
  | [] => none
  | first :: rest =>
    match t.enumOf? first with
    | none => none
    | some parent =>
      if rest.all (t.enumOf? · == some parent) && t.enumCount? parent == some members.length then
        some parent
      else none

/-- Of an intersection of two members, exactly one of them an empty object, the other member. -/
def brandBase? (t : Table) (id : TypeId) : Option TypeId :=
  match (t.kind id).intersection? with
  | some [a, b] =>
    match t.isEmptyObject a, t.isEmptyObject b with
    | true, false => some b
    | false, true => some a
    | _, _ => none
  | _ => none

def stripBrand (t : Table) (id : TypeId) : TypeId := (t.brandBase? id).getD id

/-- The reading of an intersection. -/
inductive IntersectionShape where
  /-- All members are object types. -/
  | chain (members : List TypeId)
  /-- A branded type. -/
  | single (member : TypeId)
deriving DecidableEq, Repr

/-- Reads an intersection. A brand that would lead back to the intersection itself is not stripped. -/
def intersectionShape (t : Table) (id : TypeId) : Except ShapeError IntersectionShape :=
  let members := ((t.kind id).intersection?).getD []
  if 2 ≤ members.length && members.all t.isRecordLike then .ok (.chain members)
  else if t.stripBrand id != id then .ok (.single (t.stripBrand id))
  else .error (.intersection (t.display id))

/-- The fixed positions of a tuple and the type of what may follow. -/
structure TupleShape where
  items : List TypeId
  rest : Option TypeId
deriving DecidableEq, Repr

/-- Reads the positions of a tuple: required ones, then at most one trailing rest position. -/
def tupleShape (t : Table) (id : TypeId) (elements : List Element) : Except ShapeError TupleShape :=
  let (fixed, rest) :=
    match elements.getLast? with
    | some ⟨type, .rest⟩ => (elements.dropLast, some type)
    | _ => (elements, none)
  if fixed.all (·.flag == .required) then .ok ⟨fixed.map (·.type), rest⟩
  else .error (.tuple (t.display id))

end Table

end SchemaSplice.Types
