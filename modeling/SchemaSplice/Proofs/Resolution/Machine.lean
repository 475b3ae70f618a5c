import SchemaSplice.Proofs.Resolution.Requests
/-!
# Resolution with explicit steps

Resolution once more, as a program with mutable state: `current` is the file whose declarations win and `nesting` counts the
instances that are being read; both are set before the body of a declaration is read and set back after it. Positions
are plain numbers, nothing is known about them, and no argument gets smaller from call to call. The procedures that call
each other are given as functions of each other, and `procedures n` can make calls and turns of loops that are `n` deep; a run
that needs more does not end. Scans of tokens that read no types are those of the reader.
-/

namespace SchemaSplice.Declaration

open Annotation Source SchemaSplice.Types

/-! ### Runs -/

structure Oracle where
  known : Inquiry
  current : Nat
  nesting : Nat

/-- A run from a state: nothing if it has not ended within its steps, otherwise a value or a failure, and the state then. -/
def Run (α : Type) := Oracle → Option (Except TypeError α × Oracle)

namespace Run

variable {α β : Type}

instance : Monad Run where
  pure a := fun o => some (.ok a, o)
  bind m k := fun o =>
    match m o with
    | none => none
    | some (.error e, o) => some (.error e, o)
    | some (.ok a, o) => k a o

theorem bind_of_ok {m : Run α} {next : α → Run β} {o o' : Oracle} {a : α} (h : m o = some (.ok a, o')) :
    (m >>= next) o = next a o' := by
  simp only [bind, h]

theorem bind_of_error {m : Run α} {next : α → Run β} {o o' : Oracle} {e : TypeError} (h : m o = some (.error e, o')) :
    (m >>= next) o = some (.error e, o') := by
  simp only [bind, h]

def exhausted : Run α := fun _ => none

def throw (e : TypeError) : Run α := fun o => some (.error e, o)

def attempt (m : Run α) : Run (Except TypeError α) := fun o => (m o).map fun r => (.ok r.1, r.2)

def get : Run Oracle := fun o => some (.ok o, o)

def modify (change : Oracle → Oracle) : Run Unit := fun o => some (.ok (), change o)

def modifyTypes (change : TypeState → TypeState) : Run Unit :=
  modify fun o => { o with known := { o.known with types := change o.known.types } }

def onTable (change : TableM α) : Run α := fun o =>
  some (.ok (change o.known.table).1, { o with known := (o.known.onTable change).2 })

/-- A piece of the reader that reads no types itself. -/
def reader (m : Parse α) : Run α := fun o =>
  match m o.known.types with
  | .ok a types => some (.ok a, { o with known := { o.known with types } })
  | .error e types => some (.error e.cause, { o with known := { o.known with types } })

end Run

/-! ### Procedures -/

/-- A file that is read, with the parameters that are bound. -/
structure Written where
  file : File
  params : Bindings := []

/-- The procedures that call themselves or each other, and the loops. What is read comes with the token after it. -/
structure Procedures where
  type : Written → Nat → Run (TypeId × Nat)
  postfixType : Written → Nat → Run (TypeId × Nat)
  unionRest : Written → Nat → List TypeId → Run (List TypeId × Nat)
  intersectionRest : Written → Nat → List TypeId → Run (List TypeId × Nat)
  arraySuffix : Written → Nat → TypeId → Run (TypeId × Nat)
  members : Written → (close : Nat) → Nat → Body → Run Body
  tupleRest : Written → Nat → List Element → Run (List Element × Nat)
  typeArguments : Written → Nat → List TypeId → Run (List TypeId × Nat)
  heritageRest : Written → Nat → List TypeId → Run (List TypeId × Nat)
  enumRest : File → (close : Nat) → (enumName : String) → Nat → Binary64 → List (String × TypeId) →
    Run (List (String × TypeId))
  named : String → List TypeId → Run TypeId
  value : String → Run (Option TypeId)

namespace Procedures

def exhausted : Procedures where
  type _ _ := .exhausted
  postfixType _ _ := .exhausted
  unionRest _ _ _ := .exhausted
  intersectionRest _ _ _ := .exhausted
  arraySuffix _ _ _ := .exhausted
  members _ _ _ _ := .exhausted
  tupleRest _ _ _ := .exhausted
  typeArguments _ _ _ := .exhausted
  heritageRest _ _ _ := .exhausted
  enumRest _ _ _ _ _ _ := .exhausted
  named _ _ := .exhausted
  value _ := .exhausted

variable (call : Procedures) (p : Project)

/-! ### Types -/

def listRest (separator : Kind) (item : Nat → Run (TypeId × Nat)) (again : Nat → List TypeId → Run (List TypeId × Nat))
    (w : Written) (q : Nat) (items : List TypeId) : Run (List TypeId × Nat) :=
  if w.file.hasKind q separator then do
    let r ← item (q + 1)
    again r.2 (items ++ [r.1])
  else return (items, q)

/-- The only item that was read, or all of them put together. -/
def soleOr (build : List TypeId → TableM TypeId) (r : List TypeId × Nat) : Run (TypeId × Nat) :=
  match r.1 with
  | [only] => return (only, r.2)
  | many => return (← Run.onTable (build many), r.2)

def intersection (w : Written) (q : Nat) : Run (TypeId × Nat) := do
  let r ← call.postfixType w (w.file.skip q .amp)
  soleOr Table.intersection (← call.intersectionRest w r.2 [r.1])

def union (w : Written) (q : Nat) : Run (TypeId × Nat) := do
  let r ← intersection call w (w.file.skip q .pipe)
  soleOr Table.union (← call.unionRest w r.2 [r.1])

def typeBody (w : Written) (q : Nat) : Run (TypeId × Nat) := do
  let r ← union call w q
  if w.file.hasWord r.2 "extends" then Run.throw (.unsupported "conditional type") else return r

def arraySuffixBody (w : Written) (q : Nat) (type : TypeId) : Run (TypeId × Nat) :=
  if w.file.hasKind q .lbracket then
    if w.file.hasKind (q + 1) .rbracket then do
      let array ← Run.onTable (Table.insert (.array (some type)))
      call.arraySuffix w (q + 2) array
    else Run.throw (.unsupported "indexed access type")
  else return (type, q)

/-! ### Objects -/

def signature (w : Written) (q : Nat) : Run (TypeId × Nat) :=
  match w.file.anglesFrom? q with
  | none => Run.throw (unexpectedToken w.file q "`>`")
  | some o =>
    if w.file.hasKind o .lparen then
      match w.file.closer? o with
      | none => Run.throw (unexpectedToken w.file o "`(`")
      | some c =>
        if w.file.hasKind (c.1 + 1) .colon then call.type w (c.1 + 2)
        else return (← Run.onTable (Table.insert .any), c.1 + 1)
    else Run.throw (unexpectedToken w.file o "`(`")

def indexSignature (w : Written) (q : Nat) : Run (Member × Nat) := do
  let key ← call.type w (q + 3)
  if w.file.hasKind key.2 .rbracket then
    if w.file.hasKind (key.2 + 1) .colon then
      let value ← call.type w (key.2 + 2)
      return (.index key.1 value.1, value.2)
    else Run.throw (unexpectedToken w.file (key.2 + 1) "`:`")
  else Run.throw (unexpectedToken w.file key.2 "`]`")

def finishProperty (key : PropertyKey) (isOptional : Bool) (r : TypeId × Nat) : Run (Member × Nat) := do
  if isOptional then
    let undefined ← Run.onTable (Table.insert .undefined)
    let type ← Run.onTable (Table.union [r.1, undefined])
    return (.property ⟨key, type, true⟩, r.2)
  else return (.property ⟨key, r.1, false⟩, r.2)

def propertyMember (w : Written) (q : Nat) : Run (Member × Nat) := do
  let key ← Run.reader (propertyKey w.file q)
  let isOptional := w.file.hasKind key.next .question
  let start := w.file.skip key.next .question
  if w.file.hasKind start .lparen || w.file.hasKind start .lt then
    let result ← signature call w start
    let type ← Run.onTable (Table.function result.1)
    finishProperty key.value isOptional (type, result.2)
  else if w.file.hasKind start .colon then
    finishProperty key.value isOptional (← call.type w (start + 1))
  else Run.throw (unexpectedToken w.file start "`:`")

def member (w : Written) (q : Nat) : Run (Member × Nat) := do
  if w.file.hasKind q .lparen then
    let result ← signature call w q
    return (.call result.1, result.2)
  else if w.file.hasKind q .lt then Run.throw (.unsupported "generic signature")
  else if w.file.hasKind q .lbracket && w.file.hasKind (q + 1) .ident && w.file.hasKind (q + 2) .colon then
    indexSignature call w q
  else propertyMember call w q

def membersBody (w : Written) (close q : Nat) (body : Body) : Run Body :=
  if close ≤ q then return body
  else if w.file.hasKind q .semi || w.file.hasKind q .comma then call.members w close (q + 1) body
  else do
    let m ← member call w (if isReadonlyModifier w.file q then q + 1 else q)
    call.members w close m.2 (body.add m.1)

def objectBody (w : Written) (q : Nat) : Run (ObjectType × Nat) :=
  if w.file.hasKind q .lbrace then
    match w.file.closer? q with
    | none => Run.throw (unexpectedToken w.file q "`\x7b`")
    | some c => do
      let body ← call.members w c.1 (q + 1) {}
      return (← Run.reader (body.toObject (c.1 + 1)), c.1 + 1)
  else Run.throw (unexpectedToken w.file q "`\x7b`")

/-! ### Tuples and names -/

def tupleRestBody (w : Written) (q : Nat) (elements : List Element) : Run (List Element × Nat) :=
  if w.file.hasKind q .rbracket then return (elements, q + 1)
  else do
    let spread := w.file.hasKind q .ellipsis
    let start := w.file.skip q .ellipsis
    let label := elementLabel w.file start
    let type ← call.type w (start + label.1)
    let marked := w.file.hasKind type.2 .question
    let next := w.file.skip type.2 .question
    let element := tupleElement (← Run.get).known.table spread (label.2 || marked) type.1
    if w.file.hasKind next .comma then call.tupleRest w (next + 1) (elements ++ [element])
    else if w.file.hasKind next .rbracket then return (elements ++ [element], next + 1)
    else Run.throw (unexpectedToken w.file next "`]`")

def typeArgumentsBody (w : Written) (q : Nat) (args : List TypeId) : Run (List TypeId × Nat) := do
  let type ← call.type w q
  if w.file.hasKind type.2 .comma then call.typeArguments w (type.2 + 1) (args ++ [type.1])
  else if w.file.hasKind type.2 .gt then return (args ++ [type.1], type.2 + 1)
  else Run.throw (unexpectedToken w.file type.2 "`>`")

def enumRestBody (f : File) (close : Nat) (enumName : String) (i : Nat) (running : Binary64)
    (members : List (String × TypeId)) : Run (List (String × TypeId)) :=
  if close ≤ i then return members
  else
    match memberName? f i with
    | none => Run.throw (malformed f i "an enum member")
    | some name => do
      let v := enumValue f (i + 1) running
      let type ← Run.onTable (Table.insert (.enumLiteral enumName name v.value))
      call.enumRest f close enumName v.next v.running (putMember members name type)

def enumMembers (name : String) : Run (List (String × TypeId)) := do
  let o ← Run.get
  match o.known.types.enums.lookup name with
  | some members => return members
  | none =>
    match (p.typesNamed name o.current).find? (·.form == .enum) with
    | none => Run.throw (.unknownName name)
    | some decl =>
      let f := p.file decl.file
      let brace := decl.token + 1
      match f.closer? brace with
      | none => Run.throw (malformed f brace "`\x7d`")
      | some close =>
        let members ← call.enumRest f close.1 name (brace + 1) .zero []
        Run.onTable (Table.recordEnum name members.length)
        Run.modifyTypes fun s => { s with enums := (name, members) :: s.enums }
        return members

def enumMember (qualifier member : String) : Run TypeId := do
  match (← enumMembers call p qualifier).lookup member with
  | some type => return type
  | none => Run.throw (.unknownName s!"{qualifier}.{member}")

def reference (w : Written) (q : Nat) : Run (TypeId × Nat) := do
  let name := w.file.tokenText q
  if w.file.hasKind (q + 1) .dot then
    if w.file.hasKind (q + 2) .ident then
      if w.file.hasKind (q + 3) .dot || w.file.hasKind (q + 3) .lt then Run.throw (.unsupported "namespaced type")
      else return (← enumMember call p name (w.file.tokenText (q + 2)), q + 3)
    else Run.throw (unexpectedToken w.file (q + 2) "a member name")
  else if w.file.hasKind (q + 1) .lt then
    let args ← call.typeArguments w (q + 2) []
    return (← call.named name args.1, args.2)
  else
    match w.params.lookup name with
    | some type => return (type, q + 1)
    | none => return (← call.named name [], q + 1)

def namedType (w : Written) (q : Nat) : Run (TypeId × Nat) :=
  let word := w.file.tokenText q
  match keyword? word with
  | some k => return (← Run.onTable (Table.insert k), q + 1)
  | none =>
    if word = "readonly" then call.postfixType w (q + 1)
    else if isUnsupportedWord word then Run.throw (.unsupported s!"`{word}`")
    else reference call p w q

/-! ### Primary types -/

def parenthesized (w : Written) (q : Nat) : Run (TypeId × Nat) :=
  match w.file.closer? q with
  | none => Run.throw (unexpectedToken w.file q "`)`")
  | some c =>
    if w.file.hasKind (c.1 + 1) .fatArrow then do
      let result ← call.type w (c.1 + 2)
      return (← Run.onTable (Table.function result.1), result.2)
    else do
      let inner ← call.type w (q + 1)
      if w.file.hasKind inner.2 .rparen then return (inner.1, inner.2 + 1)
      else Run.throw (unexpectedToken w.file inner.2 "`)`")

def insertAs (next : Nat) (k : TypeKind) : Run (TypeId × Nat) := return (← Run.onTable (Table.insert k), next)

def primary (w : Written) (q : Nat) : Run (TypeId × Nat) :=
  match w.file.kind? q with
  | some .lparen => parenthesized call w q
  | some .lbrace => do
    let body ← objectBody call w q
    insertAs body.2 (.object body.1)
  | some .lbracket => do
    let elements ← call.tupleRest w (q + 1) []
    insertAs elements.2 (.tuple elements.1)
  | some .str => insertAs (q + 1) (.literal (.text (Text.unquote (w.file.tokenText q))))
  | some .template =>
    if Text.contains (w.file.tokenText q) "$\x7b" then Run.throw (.unsupported "template literal type")
    else insertAs (q + 1) (.literal (.text (Text.unquote (w.file.tokenText q))))
  | some .number => do insertAs (q + 1) (← Run.reader (numberLiteral w.file q (q + 1) false))
  | some .minus =>
    if w.file.hasKind (q + 1) .number then do
      insertAs (q + 2) (← Run.reader (numberLiteral w.file (q + 1) (q + 2) true))
    else Run.throw (unexpectedToken w.file q "a type")
  | some .bigInt => insertAs (q + 1) (.literal (.bigInt (bigIntDigits (w.file.tokenText q))))
  | some .lt => Run.throw (.unsupported "generic function type")
  | some .ident => namedType call p w q
  | _ => Run.throw (unexpectedToken w.file q "a type")

def postfixBody (w : Written) (q : Nat) : Run (TypeId × Nat) := do
  let r ← primary call p w q
  call.arraySuffix w r.2 r.1

def heritageRestBody (w : Written) (q : Nat) (bases : List TypeId) : Run (List TypeId × Nat) := do
  let base ← call.postfixType w q
  if w.file.hasKind base.2 .comma then call.heritageRest w (base.2 + 1) (bases ++ [base.1])
  else return (bases ++ [base.1], base.2)

def heritage (w : Written) (q : Nat) : Run (List TypeId × Nat) :=
  if w.file.hasWord q "extends" then call.heritageRest w (q + 1) [] else return ([], q)

/-! ### Declarations -/

def bindParameters (f : File) (bound : Bindings) : List Parameter → List TypeId → Run Bindings
  | [], _ => return bound
  | q :: qs, arg :: args => bindParameters f ((q.name, arg) :: bound) qs args
  | q :: qs, [] => do
    let type ← match q.default? with
      | some start => (·.1) <$> call.type ⟨f, bound⟩ start
      | none => Run.onTable (Table.insert .unknown)
    bindParameters f ((q.name, type) :: bound) qs []

def aliasBody (f : File) (token : Nat) (args : List TypeId) : Run TypeId :=
  match parameters? f (token + 1) with
  | none => Run.throw (malformed f (token + 1) "type parameters")
  | some (params, after) =>
    if f.hasKind after .eq then do
      let bound ← bindParameters call f [] params args
      return (← call.type ⟨f, bound⟩ (after + 1)).1
    else Run.throw (malformed f after "`=`")

def interfacePart (f : File) (token : Nat) (args : List TypeId) : Run (ObjectType × List TypeId) :=
  match parameters? f (token + 1) with
  | none => Run.throw (malformed f (token + 1) "type parameters")
  | some (params, after) => do
    let bound ← bindParameters call f [] params args
    let bases ← heritage call ⟨f, bound⟩ after
    return ((← objectBody call ⟨f, bound⟩ bases.2).1, bases.1)

def interfaceParts (f : File) (args : List TypeId) (merged : ObjectType) (bases : List TypeId) :
    List (Decl TypeForm) → Run (ObjectType × List TypeId)
  | [] => return (merged, bases)
  | d :: ds => do
    let part ← interfacePart call f d.token args
    let merged := inherit merged part.1.properties
    interfaceParts f args { merged with calls := merged.calls ++ part.1.calls } (bases ++ part.2) ds

def interfaceBody (f : File) (name : String) (decls : List (Decl TypeForm)) (args : List TypeId) : Run TypeId := do
  let start : ObjectType := { symbol := some name, typeArgs := args }
  let parts ← interfaceParts call f args start [] (decls.filter (·.form == .interface))
  let o ← Run.get
  Run.onTable (Table.insert (.object (withBases o.known.table parts.2 parts.1)))

def declarationBody (name : String) (decls : List (Decl TypeForm)) (first : Decl TypeForm) (args : List TypeId) :
    Run TypeId :=
  match first.form with
  | .typeAlias => aliasBody call (p.file first.file) first.token args
  | .interface => interfaceBody call (p.file first.file) name decls args
  | .enum => do
    let members ← enumMembers call p name
    Run.onTable (Table.union (members.map (·.2)))

/-- Reads the body of a declaration into a reserved place, with the declaration's file as the current one. -/
def instantiate (name : String) (args : List TypeId) (decls : List (Decl TypeForm)) (first : Decl TypeForm) :
    Run TypeId := do
  let place ← Run.onTable Table.reserve
  Run.modifyTypes fun s => { s with memo := ((name, args), place) :: s.memo }
  let saved ← Run.get
  Run.modify fun o => { o with current := first.file, nesting := o.nesting + 1 }
  let read ← Run.attempt (declarationBody call p name decls first args)
  Run.modify fun o => { o with current := saved.current, nesting := o.nesting - 1 }
  match read with
  | .ok type =>
    Run.onTable (Table.define place type)
    return place
  | .error e =>
    Run.modifyTypes fun s => { s with memo := s.memo.filter (·.1 != (name, args)) }
    Run.throw e

def namedBody (name : String) (args : List TypeId) : Run TypeId := do
  let o ← Run.get
  match o.known.types.memo.lookup (name, args) with
  | some type => return type
  | none =>
    match p.typesNamed name o.current with
    | [] =>
      match Builtin.lookup? name args with
      | some build => Run.onTable build
      | none => Run.throw (.unknownName name)
    | first :: rest =>
      if maxNesting ≤ o.nesting then Run.throw (.unsupported s!"`{name}` instantiated too deeply")
      else instantiate call p name args (first :: rest) first

/-! ### Values -/

def writtenAt (file start : Nat) : Run (Option TypeId) := do
  match ← Run.attempt (call.type ⟨p.file file, []⟩ start) with
  | .ok r => return some r.1
  | .error e =>
    let event := .unresolvedType (p.file file).path ((p.file file).lineAt start) e
    Run.modify fun o => { o with known := { o.known with log := event :: o.known.log } }
    return none

def declaredValue (d : Decl ValueForm) : Run (Option TypeId) :=
  match valueSource (p.file d.file) d with
  | .type start => writtenAt call p d.file start
  | .result start => do
    match ← writtenAt call p d.file start with
    | some result => return some (← Run.onTable (Table.function result))
    | none => return none
  | .value other => call.value other
  | .nothing => return none

def valueBody (name : String) : Run (Option TypeId) := do
  let o ← Run.get
  match o.known.values.lookup name with
  | some known => return known
  | none =>
    Run.modify fun o => { o with known := o.known.remember name none }
    match p.valueNamed? name o.current with
    | none => return none
    | some d =>
      Run.modify fun o => { o with current := d.file }
      let type ← declaredValue call p d
      Run.modify fun s => { s with known := s.known.remember name type, current := o.current }
      return type

/-! ### All of them -/

def bodies : Procedures where
  type := typeBody call
  postfixType := postfixBody call p
  unionRest w := listRest .pipe (intersection call w) (call.unionRest w) w
  intersectionRest w := listRest .amp (call.postfixType w) (call.intersectionRest w) w
  arraySuffix := arraySuffixBody call
  members := membersBody call
  tupleRest := tupleRestBody call
  typeArguments := typeArgumentsBody call
  heritageRest := heritageRestBody call
  enumRest := enumRestBody call
  named := namedBody call p
  value := valueBody call p

end Procedures

def procedures (p : Project) : (steps : Nat) → Procedures
  | 0 => .exhausted
  | steps + 1 => (procedures p steps).bodies p

/-- The run of a request with a number of steps. -/
def perform (p : Project) (steps : Nat) (o : Oracle) : (r : Request) → Option (r.Answer × Oracle)
  | .named name args => (procedures p steps).named name args o
  | .member qualifier name => (procedures p steps).enumMember p qualifier name o
  | .value name => ((procedures p steps).value name o).map fun r => (r.1.toOption.join, r.2)
  | .signature none => some (none, o)
  | .signature (some start) => ((procedures p steps).writtenAt p o.current start o).map fun r => (r.1.toOption.join, r.2)
  | .type f params position => (procedures p steps).type ⟨f, params⟩ position o
  | .object f params position => (procedures p steps).objectBody ⟨f, params⟩ position o
  | .heritage f params position => (procedures p steps).heritage ⟨f, params⟩ position o

end SchemaSplice.Declaration
