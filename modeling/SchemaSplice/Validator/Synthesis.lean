import SchemaSplice.Types.Shape
import SchemaSplice.Validator.Basic
/-!
# From types to validators

`synthesize` follows a type downwards and builds the validator of each part. Categories overlap (a date is also an object,
a function is also an object), so the order of the tests in `layer` matters. The depth counts how far below
the root a part lies; past the limit synthesis fails, which is what ends it on cyclic types. Each step is
`layer`, which is given the validators of parts; the recursion itself is one equation.
-/

namespace SchemaSplice

open SchemaSplice.Types

inductive SynthesisError where
  /-- A part has a form that no validator can express. -/
  | shape (error : ShapeError)
  /-- A part lies deeper than the limit. -/
  | depth (limit : Nat)
deriving DecidableEq, Repr

namespace SynthesisError

/-- The text of an error. -/
def message : SynthesisError → String
  | shape e => e.message
  | depth limit => s!"type recursion limit exceeded (depth > {limit})"

def isAboutForm : SynthesisError → Bool
  | shape _ => true
  | depth _ => false

end SynthesisError

namespace Synthesis

open Validator (primitive)

/-- Validators of the parts of a type: `part k id` is that of `id`, lying `k + 1` levels below. -/
abbrev Parts := Nat → TypeId → Except SynthesisError Validator

def ofShape (e : Except ShapeError α) : Except SynthesisError α := e.mapError .shape

/-- A part that may be missing; what is missing is unknown. -/
def orUnknown (part : Parts) : Option TypeId → Except SynthesisError Validator
  | some id => part 0 id
  | none => .ok (primitive "unknown")

/-- The options of a union that are to be validated: without `null` and `undefined`, brands stripped, duplicates and
covered literals dropped. -/
def unionOptions (t : Table) (members : List TypeId) : List TypeId :=
  t.dropAbsorbed (t.dedupe [] ((members.filter (!t.isAbsent ·)).map t.stripBrand))

/-- Adds what a union says about `null` and `undefined`. -/
def withAbsent (hasNull hasUndefined : Bool) (v : Validator) : Validator :=
  match hasNull, hasUndefined with
  | true, true => v.modified "nullish"
  | true, false => v.modified "nullable"
  | false, true => v.modified "optional"
  | false, false => v

/-- The validator of two or more options: a whole enum, an enumeration of strings, or a union. -/
def manyOptions (t : Table) (part : Parts) (options : List TypeId) : Except SynthesisError Validator :=
  match t.wholeEnum? options with
  | some name => .ok (.call "nativeEnum" [.name name])
  | none =>
    if options.all t.isTextLiteral then
      .ok (.call "enum" [.list ((options.filterMap t.literal?).map Argument.ofLiteral)])
    else do
      let vs ← options.mapM (part 0)
      return .call "union" [.list (vs.map .validator)]

def union (t : Table) (part : Parts) (members : List TypeId) : Except SynthesisError Validator := do
  let modify := withAbsent (members.any (t.isKind · .null)) (members.any (t.isKind · .undefined))
  match unionOptions t members with
  | [] => return (primitive "undefined").modified "nullable"
  | [only] => return modify (← part 0 only)
  | many => return modify (← manyOptions t part many)

/-- The properties of an object that are validated: those with string keys whose values are no functions. -/
def validatedProperties (t : Table) (id : TypeId) : List (String × TypeId) :=
  (((t.object? id).map (·.properties)).getD []).filterMap fun p =>
    match p.key with
    | .name key => if t.holdsFunction p.type then none else some (key, p.type)
    | .symbol _ => none

/-- The validator of an object by its properties, which lie `k + 1` levels below. -/
def object (t : Table) (part : Parts) (k : Nat) (id : TypeId) : Except SynthesisError Validator := do
  let entries ← (validatedProperties t id).mapM fun (key, type) => return (key, ← part k type)
  return .call "object" [.fields entries]

/-- The validator of an intersection of objects, nested to the right; each further member lies one level deeper. -/
def chain (t : Table) (part : Parts) (k : Nat) : List TypeId → Except SynthesisError Validator
  | [] => .ok (primitive "never")
  | [only] => object t part k only
  | first :: second :: rest => do
    let left ← object t part k first
    let right ← chain t part (k + 1) (second :: rest)
    return .call "intersection" [.validator left, .validator right]

def tuple (part : Parts) (shape : Table.TupleShape) : Except SynthesisError Validator := do
  let items ← shape.items.mapM (part 0)
  let fixed := Validator.call "tuple" [.list (items.map .validator)]
  match shape.rest with
  | some rest => return .method fixed "rest" [.validator (← part 0 rest)]
  | none => return fixed

/-- The validator of an object type: a date, a set, a map, a record or a plain object, tested in this order. -/
def objectLayer (t : Table) (part : Parts) (id : TypeId) : Except SynthesisError Validator := do
  if t.isDate id then return primitive "date"
  else if t.isSet id then return .call "set" [.validator (← orUnknown part (t.typeArgs id)[0]?)]
  else if t.isMap id then
    let key ← orUnknown part (t.typeArgs id)[0]?
    let value ← orUnknown part (t.typeArgs id)[1]?
    return .call "map" [.validator key, .validator value]
  else
    match t.recordArgs? id with
    | some (key, value) =>
      let key ← orUnknown part key
      let value ← orUnknown part value
      return .call "record" [.validator key, .validator value]
    | none => object t part 0 id

def layer (t : Table) (part : Parts) (id : TypeId) : Except SynthesisError Validator := do
  if t.isFunction id then throw (.shape (.function (t.display id)))
  match t.kind id with
  | .string => return primitive "string"
  | .number => return primitive "number"
  | .boolean => return primitive "boolean"
  | .bigInt => return primitive "bigint"
  | .null => return primitive "null"
  | .undefined => return primitive "undefined"
  | .any => return primitive "any"
  | .unknown => return primitive "unknown"
  | .union members => union t part members
  | .literal value => return .call "literal" [.ofLiteral value]
  | .enumLiteral _ _ value => return .call "literal" [.ofLiteral value]
  | .array element => return .call "array" [.validator (← orUnknown part element)]
  | .tuple elements => tuple part (← ofShape (t.tupleShape id elements))
  | .object _ => objectLayer t part id
  | .intersection _ =>
    match ← ofShape (t.intersectionShape id) with
    | .chain members => chain t part 0 members
    | .single member => part 0 member
  | .void => return primitive "void"
  | .never => return primitive "never"
  | .pending => return primitive "never"

end Synthesis

def synthesize (t : Table) (limit depth : Nat) (id : TypeId) : Except SynthesisError Validator :=
  if h : limit < depth then .error (.depth limit)
  else Synthesis.layer t (fun k part => synthesize t limit (depth + 1 + k) part) id
termination_by limit + 1 - depth
decreasing_by omega

/-- The validator of what a handler returns: a promise is validated by its result. -/
def validatorOfResult (t : Table) (limit : Nat) (id : TypeId) : Except SynthesisError Validator :=
  synthesize t limit 0 (t.awaited id)

end SchemaSplice
