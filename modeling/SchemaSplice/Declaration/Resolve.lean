import SchemaSplice.Declaration.Enum
/-!
# Resolving named types

A name with type arguments stands for the body of its declaration with the arguments put in. The place of the
result is reserved and remembered before the body is read, so a declaration that refers to itself becomes a cycle
in the table; when the body cannot be read, the entry is forgotten again. While a body is read, names are looked up
from its own file. Instances may nest at most `maxNesting` deep, and resolution recurs on what remains of that.
-/

namespace SchemaSplice.Declaration

open Annotation Source SchemaSplice.Types

abbrev Resolver := (current : Nat) → (name : String) → (args : List TypeId) → Reading TypeId

/-- The lookups that are made while a declaration of the file `home` is read. -/
def scopeOf (p : Project) (resolver : Resolver) (home : Nat) : Scope :=
  ⟨resolver home, enumMember p home⟩

def boundParameters (f : File) (scope : Scope) (token : Nat) (args : List TypeId) :
    Reading (Bindings × Nat) := do
  match parameters? f (token + 1) with
  | none => throw (malformed f (token + 1) "type parameters")
  | some (params, after) => return (← bindParameters f scope [] params args, after)

def aliasBody (f : File) (scope : Scope) (token : Nat) (args : List TypeId) : Reading TypeId := do
  match parameters? f (token + 1) with
  | none => throw (malformed f (token + 1) "type parameters")
  | some (params, after) =>
    if f.hasKind after .eq then
      let bound ← bindParameters f scope [] params args
      return (← (typeAt ⟨f, scope, bound⟩ (after + 1)).adaptExcept (·.cause)).value
    else throw (malformed f after "`=`")

def interfacePart (f : File) (scope : Scope) (token : Nat) (args : List TypeId) :
    Reading (ObjectType × List TypeId) := do
  let (bound, after) ← boundParameters f scope token args
  let env : Env := ⟨f, scope, bound⟩
  let (bases, brace) ← (heritageAt env after).adaptExcept (·.cause)
  return ((← (objectAt env brace).adaptExcept (·.cause)).value, bases)

/-- Adds properties whose keys are not taken. -/
def inherit (o : ObjectType) (properties : List Property) : ObjectType :=
  properties.foldl ObjectType.addProperty o

/-- Merges the declarations of an interface; the bases are collected in order. -/
def interfaceParts (f : File) (scope : Scope) (args : List TypeId) (merged : ObjectType)
    (bases : List TypeId) : List (Decl TypeForm) → Reading (ObjectType × List TypeId)
  | [] => return (merged, bases)
  | d :: ds => do
    let (body, more) ← interfacePart f scope d.token args
    let merged := inherit merged body.properties
    interfaceParts f scope args { merged with calls := merged.calls ++ body.calls } (bases ++ more) ds

/-- The object type of an interface: own members first, then those of the bases that are objects. -/
def interfaceBody (f : File) (scope : Scope) (name : String) (decls : List (Decl TypeForm))
    (args : List TypeId) : Reading TypeId := do
  let start : ObjectType := { symbol := some name, typeArgs := args }
  let (merged, bases) ← interfaceParts f scope args start [] (decls.filter (·.form == .interface))
  let t := (← get).table
  let object := bases.foldl (fun o base => inherit o (((t.object? base).map (·.properties)).getD [])) merged
  onTable (Table.insert (.object object))

def declarationBody (p : Project) (resolver : Resolver) (name : String) (decls : List (Decl TypeForm))
    (first : Decl TypeForm) (args : List TypeId) : Reading TypeId :=
  let f := p.file first.file
  let scope := scopeOf p resolver first.file
  match first.form with
  | .typeAlias => aliasBody f scope first.token args
  | .interface => interfaceBody f scope name decls args
  | .enum => do
    let members ← enumMembers p first.file name
    onTable (Table.union (members.map (·.2)))

/-- Reads a body into a reserved place. The instance is remembered while the body is read, and for good if that
succeeds. -/
def defineInstance (inst : Instance) (body : Reading TypeId) : Reading TypeId := do
  let place ← onTable Table.reserve
  modify fun s => { s with memo := (inst, place) :: s.memo }
  fun s =>
    match body s with
    | .ok type s =>
      match onTable (Table.define place type) s with
      | .ok _ s => .ok place s
      | .error e s => .error e s
    | .error e s => .error e { s with memo := s.memo.filter (·.1 != inst) }

/-- One step of resolution: `body` reads a declaration's body, unless instances nest too deeply. -/
def resolveStep (p : Project)
    (body : Option ((name : String) → List (Decl TypeForm) → Decl TypeForm → List TypeId → Reading TypeId)) :
    Resolver := fun current name args => do
  match (← get).memo.lookup (name, args) with
  | some type => return type
  | none =>
    match p.typesNamed name current with
    | [] =>
      match Builtin.lookup? name args with
      | some build => onTable build
      | none => throw (.unknownName name)
    | first :: rest =>
      match body with
      | none => throw (.unsupported s!"`{name}` instantiated too deeply")
      | some body => defineInstance (name, args) (body name (first :: rest) first args)

/-- Resolves a name with at most `levels` instances nested in each other. -/
def resolveWithin (p : Project) : (levels : Nat) → Resolver
  | 0 => resolveStep p none
  | levels + 1 => resolveStep p (some (declarationBody p (resolveWithin p levels)))

/-- How deep instances may nest. -/
def maxNesting : Nat := 64

/-- The type that a name with arguments stands for in the file `current`. -/
def resolveNamed (p : Project) : Resolver := resolveWithin p maxNesting

def topScope (p : Project) (current : Nat) : Scope := scopeOf p (resolveNamed p) current

end SchemaSplice.Declaration
