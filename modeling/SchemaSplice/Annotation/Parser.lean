import SchemaSplice.Annotation.Scope
import SchemaSplice.Binary64.Read
import SchemaSplice.Source.Expression
import SchemaSplice.Text.Quoted
import SchemaSplice.Text.Search
import SchemaSplice.Types.Builtin
/-!
# Reading written types

A recursive-descent reader over the tokens of a file. A union is made of intersections, an intersection of postfix types,
a postfix type of a primary type and any number of `[]`. Everything that starts at a token is a function of that
token's index and of `later`, which reads a type at any index nearer to the end; `typeAt` ties the knot,
so reading ends because it only ever moves towards the end of the file.

A result carries the index after what was read together with the facts that something was read and that
it lies inside the file. A failure carries the index where reading stopped.
-/

namespace SchemaSplice.Annotation

open Source SchemaSplice.Types

/-! ### Results -/

structure ParseError where
  cause : TypeError
  position : Nat
deriving DecidableEq, Repr

abbrev Parse := EStateM ParseError TypeState

structure Parsed (f : File) (p : Nat) (α : Type) where
  value : α
  /-- The token after it. -/
  next : Nat
  lt_next : p < next
  next_le : next ≤ f.size

/-- What a reader needs to know. -/
structure Env where
  file : File
  scope : Scope
  /-- Type parameters that are bound, innermost first. -/
  params : List (String × TypeId) := []

/-- Reads a type at any token that is nearer to the end than `p`. -/
abbrev Later (f : File) (p : Nat) :=
  (q : Nat) → f.size - q < f.size - p → Parse (Parsed f q TypeId)

def Later.mono {f : File} {p q : Nat} (later : Later f p) (h : p ≤ q) : Later f q :=
  fun r hr => later r (by omega)

/-! ### Failures -/

def fail (p : Nat) (cause : TypeError) : Parse α := throw ⟨cause, p⟩

def unsupported (p : Nat) (form : String) : Parse α := fail p (.unsupported form)

def unexpectedToken (f : File) (i : Nat) (expected : String) : TypeError :=
  .unexpected (if i < f.size then f.tokenText i else "end of file") (f.span i).start expected

def unexpected (f : File) (p : Nat) (expected : String) : Parse α :=
  fail p (unexpectedToken f p expected)

def lookup (p : Nat) (reading : Reading α) : Parse α :=
  fun s =>
    match reading s with
    | .ok a s => .ok a s
    | .error e s => .error ⟨e, p⟩ s

def insertAs (f : File) (p next : Nat) (lt : p < next) (le : next ≤ f.size) (k : TypeKind) :
    Parse (Parsed f p TypeId) :=
  return ⟨← onTable (Table.insert k), next, lt, le⟩

/-! ### Separated lists -/

def separatedRest (f : File) (separator : Kind) {p : Nat}
    (item : (q : Nat) → p ≤ q → Parse (Parsed f q TypeId)) (q : Nat) (lt : p < q) (le : q ≤ f.size)
    (items : List TypeId) : Parse (Parsed f p (List TypeId)) :=
  if h : f.hasKind q separator then do
    let r ← item (q + 1) (by omega)
    have hr := r.lt_next
    separatedRest f separator item r.next (by omega) r.next_le (items ++ [r.value])
  else return ⟨items, q, lt, le⟩
termination_by f.size - q
decreasing_by
  have := File.lt_size_of_hasKind h
  omega

/-- One or more items with separators between them; one more separator may stand in front. -/
def separated (f : File) (separator : Kind) (p : Nat)
    (item : (q : Nat) → p ≤ q → Parse (Parsed f q TypeId)) : Parse (Parsed f p (List TypeId)) := do
  let r ← item (f.skip p separator) (f.le_skip p separator)
  have := f.le_skip p separator
  have hr := r.lt_next
  separatedRest f separator item r.next (by omega) r.next_le [r.value]

/-! ### Signatures -/

/-- The result of a signature that starts at token `q` and whose parameters end at token `c`; a missing one reads
as `any`. -/
def signatureResult (env : Env) {p : Nat} (hp : p < env.file.size) (later : Later env.file p)
    (q c : Nat) (hq : p ≤ q) (hc : q < c ∧ c < env.file.size) : Parse (Parsed env.file q TypeId) := do
  if env.file.hasKind (c + 1) .colon then
    let r ← later (c + 2) (by omega)
    have hr := r.lt_next
    return ⟨r.value, r.next, by omega, r.next_le⟩
  else insertAs env.file q (c + 1) (by omega) (by omega) .any

/-- `(params): Result` with optional type parameters in front, at token `q`. Parameters are stepped over. -/
def signature (env : Env) {p : Nat} (hp : p < env.file.size) (later : Later env.file p) (q : Nat)
    (hq : p ≤ q) : Parse (Parsed env.file q TypeId) :=
  match hs : env.file.anglesFrom? q with
  | none => unexpected env.file q "`>`"
  | some o =>
    if env.file.hasKind o .lparen then
      match env.file.closer? o with
      | none => unexpected env.file o "`(`"
      | some ⟨c, hc⟩ =>
        signatureResult env hp later q c hq
          ⟨Nat.lt_of_le_of_lt (File.le_of_anglesFrom? hs) hc.1, hc.2⟩
    else unexpected env.file o "`(`"

/-! ### Object types -/

inductive Member where
  | call (result : TypeId)
  | index (key value : TypeId)
  | property (property : Property)

structure Body where
  object : ObjectType := {}
  /-- Key and value type of the last index signature. -/
  index : Option (TypeId × TypeId) := none

/-- Adds a member. -/
def Body.add (b : Body) : Member → Body
  | .call result => { b with object := { b.object with calls := b.object.calls ++ [result] } }
  | .index key value => { b with index := some (key, value) }
  | .property p => { b with object := b.object.addProperty p }

def propertyKey (f : File) (q : Nat) : Parse (Parsed f q PropertyKey) :=
  match h : f.kind? q with
  | some .ident | some .number =>
    return ⟨.name (f.tokenText q), q + 1, by omega, File.lt_size_of_kind? h⟩
  | some .str =>
    return ⟨.name (Text.unquote (f.tokenText q)), q + 1, by omega, File.lt_size_of_kind? h⟩
  | some .lbracket =>
    if f.hasWord (q + 1) "Symbol" && f.hasKind (q + 2) .dot then
      if hb : f.hasKind (q + 4) .rbracket then
        return ⟨.symbol (f.tokenText (q + 3)), q + 5, by omega, File.lt_size_of_hasKind hb⟩
      else unsupported q "computed property key"
    else unsupported q "computed property key"
  | _ => unexpected f q "a property"

def indexSignature (env : Env) {p : Nat} (hp : p < env.file.size) (later : Later env.file p) (q : Nat)
    (hq : p ≤ q) : Parse (Parsed env.file q Member) := do
  let key ← later (q + 3) (by omega)
  have hk := key.lt_next
  if env.file.hasKind key.next .rbracket then
    if env.file.hasKind (key.next + 1) .colon then
      let value ← later (key.next + 2) (by omega)
      have hv := value.lt_next
      return ⟨.index key.value value.value, value.next, by omega, value.next_le⟩
    else unexpected env.file (key.next + 1) "`:`"
  else unexpected env.file key.next "`]`"

/-- A property at token `q`. An optional one may also be undefined. -/
def propertyMember (env : Env) {p : Nat} (hp : p < env.file.size) (later : Later env.file p) (q : Nat)
    (hq : p ≤ q) : Parse (Parsed env.file q Member) := do
  let f := env.file
  let key ← propertyKey f q
  have hk := key.lt_next
  let isOptional := f.hasKind key.next .question
  let start := f.skip key.next .question
  have hs : key.next ≤ start := f.le_skip key.next .question
  let finish (type : TypeId) (next : Nat) (lt : q < next) (le : next ≤ f.size) :
      Parse (Parsed f q Member) := do
    if isOptional then
      let undefined ← onTable (Table.insert .undefined)
      let type ← onTable (Table.union [type, undefined])
      return ⟨.property ⟨key.value, type, true⟩, next, lt, le⟩
    else return ⟨.property ⟨key.value, type, false⟩, next, lt, le⟩
  if f.hasKind start .lparen || f.hasKind start .lt then
    let result ← signature env hp later start (by omega)
    have hr := result.lt_next
    let type ← onTable (Table.function result.value)
    finish type result.next (by omega) result.next_le
  else if f.hasKind start .colon then
    let type ← later (start + 1) (by omega)
    have ht := type.lt_next
    finish type.value type.next (by omega) type.next_le
  else unexpected f start "`:`"

def member (env : Env) {p : Nat} (hp : p < env.file.size) (later : Later env.file p) (q : Nat)
    (hq : p ≤ q) : Parse (Parsed env.file q Member) := do
  let f := env.file
  if f.hasKind q .lparen then
    let result ← signature env hp later q hq
    return ⟨.call result.value, result.next, result.lt_next, result.next_le⟩
  else if f.hasKind q .lt then unsupported q "generic signature"
  else if f.hasKind q .lbracket && f.hasKind (q + 1) .ident && f.hasKind (q + 2) .colon then
    indexSignature env hp later q hq
  else propertyMember env hp later q hq

/-- Whether the word `readonly` at token `q` is a modifier and not a property name. -/
def isReadonlyModifier (f : File) (q : Nat) : Bool :=
  f.hasWord q "readonly" &&
    !(f.hasKind (q + 1) .colon || f.hasKind (q + 1) .question || f.hasKind (q + 1) .lparen)

def members (env : Env) {p : Nat} (hp : p < env.file.size) (later : Later env.file p) (close q : Nat)
    (hq : p ≤ q) (body : Body) : Parse Body :=
  if h : close ≤ q then return body
  else if env.file.hasKind q .semi || env.file.hasKind q .comma then
    members env hp later close (q + 1) (by omega) body
  else do
    let start := if isReadonlyModifier env.file q then q + 1 else q
    have hs : q ≤ start := by simp only [start]; split <;> omega
    let m ← member env hp later start (by omega)
    have hm := m.lt_next
    members env hp later close m.next (by omega) (body.add m.value)
termination_by close - q

/-- The object type of all members. An index signature makes a record and stands alone. -/
def Body.toObject (b : Body) (next : Nat) : Parse ObjectType :=
  match b.index with
  | none => return b.object
  | some (key, value) =>
    if b.object.properties.isEmpty && b.object.calls.isEmpty then
      return Builtin.recordObject key value
    else unsupported next "index signature mixed with members"

def objectBody (env : Env) (p : Nat) (later : Later env.file p) :
    Parse (Parsed env.file p ObjectType) :=
  if h : env.file.hasKind p .lbrace then
    match env.file.closer? p with
    | none => unexpected env.file p "`\x7b`"
    | some ⟨close, hc⟩ => do
      let body ← members env (File.lt_size_of_hasKind h) later close (p + 1) (by omega) {}
      let object ← body.toObject (close + 1)
      return ⟨object, close + 1, by omega, by omega⟩
  else unexpected env.file p "`\x7b`"

/-! ### Tuples -/

/-- How many tokens the label of a tuple element at token `q` takes, and whether it makes the element optional. -/
def elementLabel (f : File) (q : Nat) : Nat × Bool :=
  if f.hasKind q .ident then
    if f.hasKind (q + 1) .colon then (2, false)
    else if f.hasKind (q + 1) .question && f.hasKind (q + 2) .colon then (3, true)
    else (0, false)
  else (0, false)

/-- A tuple element of a given type. Spreading an array repeats its elements. -/
def tupleElement (t : Table) (spread isOptional : Bool) (type : TypeId) : Element :=
  if spread then
    match t.kind type with
    | .array (some element) => ⟨element, .rest⟩
    | _ => ⟨type, .variadic⟩
  else ⟨type, if isOptional then .optional else .required⟩

def tupleRest (env : Env) {p : Nat} (hp : p < env.file.size) (later : Later env.file p) (q : Nat)
    (hq : p < q) (elements : List Element) : Parse (Parsed env.file p (List Element)) :=
  if h : env.file.hasKind q .rbracket then
    return ⟨elements, q + 1, by omega, File.lt_size_of_hasKind h⟩
  else do
    let spread := env.file.hasKind q .ellipsis
    let start := env.file.skip q .ellipsis
    have hs : q ≤ start := env.file.le_skip q .ellipsis
    let label := elementLabel env.file start
    let type ← later (start + label.1) (by omega)
    have ht := type.lt_next
    let marked := env.file.hasKind type.next .question
    let next := env.file.skip type.next .question
    have hn : type.next ≤ next := env.file.le_skip type.next .question
    let element := tupleElement (← get).table spread (label.2 || marked) type.value
    if hc : env.file.hasKind next .comma then
      tupleRest env hp later (next + 1) (by omega) (elements ++ [element])
    else if hb : env.file.hasKind next .rbracket then
      return ⟨elements ++ [element], next + 1, by omega, File.lt_size_of_hasKind hb⟩
    else unexpected env.file next "`]`"
termination_by env.file.size - q
decreasing_by
  have := File.lt_size_of_hasKind hc
  omega

/-! ### Named types -/

def keyword? (word : String) : Option TypeKind :=
  match word with
  | "string" => some .string
  | "number" => some .number
  | "boolean" => some .boolean
  | "bigint" => some .bigInt
  | "null" => some .null
  | "undefined" => some .undefined
  | "any" => some .any
  | "unknown" => some .unknown
  | "void" => some .void
  | "never" => some .never
  | "true" => some (.literal (.flag true))
  | "false" => some (.literal (.flag false))
  | "object" => some (.object {})
  | _ => none

def isUnsupportedWord (word : String) : Bool :=
  ["keyof", "typeof", "infer", "unique", "asserts", "symbol", "this", "new", "abstract"].contains word

def typeArguments (env : Env) {p : Nat} (hp : p < env.file.size) (later : Later env.file p) (q : Nat)
    (hq : p < q) (args : List TypeId) : Parse (Parsed env.file p (List TypeId)) := do
  let type ← later q (by omega)
  have ht := type.lt_next
  if hc : env.file.hasKind type.next .comma then
    typeArguments env hp later (type.next + 1) (by omega) (args ++ [type.value])
  else if hg : env.file.hasKind type.next .gt then
    return ⟨args ++ [type.value], type.next + 1, by omega, File.lt_size_of_hasKind hg⟩
  else unexpected env.file type.next "`>`"
termination_by env.file.size - q
decreasing_by
  have := File.lt_size_of_hasKind hc
  omega

/-- The name at token `p`, with a member or type arguments after it. Parameters take no arguments. -/
def reference (env : Env) (p : Nat) (hp : p < env.file.size) (later : Later env.file p) :
    Parse (Parsed env.file p TypeId) := do
  let f := env.file
  let name := f.tokenText p
  if f.hasKind (p + 1) .dot then
    if hm : f.hasKind (p + 2) .ident then
      if f.hasKind (p + 3) .dot || f.hasKind (p + 3) .lt then unsupported (p + 3) "namespaced type"
      else
        let type ← lookup (p + 3) (env.scope.member name (f.tokenText (p + 2)))
        return ⟨type, p + 3, by omega, File.lt_size_of_hasKind hm⟩
    else unexpected f (p + 2) "a member name"
  else if f.hasKind (p + 1) .lt then
    let args ← typeArguments env hp later (p + 2) (by omega) []
    let type ← lookup args.next (env.scope.named name args.value)
    return ⟨type, args.next, args.lt_next, args.next_le⟩
  else
    match env.params.lookup name with
    | some type => return ⟨type, p + 1, by omega, hp⟩
    | none =>
      let type ← lookup (p + 1) (env.scope.named name [])
      return ⟨type, p + 1, by omega, hp⟩

def named (env : Env) (p : Nat) (hp : p < env.file.size) (later : Later env.file p) :
    Parse (Parsed env.file p TypeId) :=
  let word := env.file.tokenText p
  match keyword? word with
  | some k => insertAs env.file p (p + 1) (by omega) hp k
  | none =>
    if isUnsupportedWord word then unsupported (p + 1) s!"`{word}`"
    else reference env p hp later

/-! ### Primary types -/

/-- A function type or a type in parentheses, whose opening parenthesis stands at token `p`. -/
def parenthesized (env : Env) (p : Nat) (hp : p < env.file.size) (later : Later env.file p) :
    Parse (Parsed env.file p TypeId) :=
  let f := env.file
  match f.closer? p with
  | none => unexpected f p "`)`"
  | some ⟨c, hc⟩ =>
    if f.hasKind (c + 1) .fatArrow then do
      let result ← later (c + 2) (by omega)
      have hr := result.lt_next
      let type ← onTable (Table.function result.value)
      return ⟨type, result.next, by omega, result.next_le⟩
    else do
      let inner ← later (p + 1) (by omega)
      have hi := inner.lt_next
      if hr : f.hasKind inner.next .rparen then
        return ⟨inner.value, inner.next + 1, by omega, File.lt_size_of_hasKind hr⟩
      else unexpected f inner.next "`)`"

def bigIntDigits (token : String) : String :=
  String.ofList (token.toList.filter fun c => c.isDigit)

/-- The type that the number at token `i` stands for, `next` being the token after it. -/
def numberLiteral (f : File) (i next : Nat) (negative : Bool) : Parse TypeKind :=
  match Binary64.ofToken? (f.tokenText i) with
  | some x => return .literal (.number (if negative then x.neg else x))
  | none => fail next (unexpectedToken f i "a number")

def primaryOf (env : Env) (p : Nat) (hp : p < env.file.size) (later : Later env.file p) :
    Kind → Parse (Parsed env.file p TypeId)
  | .lparen => parenthesized env p hp later
  | .lbrace => do
    let body ← objectBody env p later
    insertAs env.file p body.next body.lt_next body.next_le (.object body.value)
  | .lbracket => do
    let elements ← tupleRest env hp later (p + 1) (by omega) []
    insertAs env.file p elements.next elements.lt_next elements.next_le (.tuple elements.value)
  | .str =>
    insertAs env.file p (p + 1) (by omega) hp (.literal (.text (Text.unquote (env.file.tokenText p))))
  | .template =>
    if Text.contains (env.file.tokenText p) "$\x7b" then unsupported p "template literal type"
    else
      insertAs env.file p (p + 1) (by omega) hp
        (.literal (.text (Text.unquote (env.file.tokenText p))))
  | .number => do
    insertAs env.file p (p + 1) (by omega) hp (← numberLiteral env.file p (p + 1) false)
  | .minus =>
    if hn : env.file.hasKind (p + 1) .number then do
      insertAs env.file p (p + 2) (by omega) (File.lt_size_of_hasKind hn)
        (← numberLiteral env.file (p + 1) (p + 2) true)
    else unexpected env.file p "a type"
  | .bigInt =>
    insertAs env.file p (p + 1) (by omega) hp (.literal (.bigInt (bigIntDigits (env.file.tokenText p))))
  | .lt => unsupported p "generic function type"
  | .ident => named env p hp later
  | _ => unexpected env.file p "a type"

def primary (env : Env) (p : Nat) (later : Later env.file p) : Parse (Parsed env.file p TypeId) :=
  match h : env.file.kind? p with
  | none => unexpected env.file p "a type"
  | some k => primaryOf env p (File.lt_size_of_kind? h) later k

/-! ### Postfix types -/

/-- Any number of `[]` after a type that ends at token `q`. -/
def arraySuffix (f : File) (p q : Nat) (lt : p < q) (le : q ≤ f.size) (type : TypeId) :
    Parse (Parsed f p TypeId) :=
  if f.hasKind q .lbracket then
    if h : f.hasKind (q + 1) .rbracket then do
      let array ← onTable (Table.insert (.array (some type)))
      arraySuffix f p (q + 2) (by omega) (File.lt_size_of_hasKind h) array
    else unsupported q "indexed access type"
  else return ⟨type, q, lt, le⟩
termination_by f.size - q
decreasing_by
  have := File.lt_size_of_hasKind h
  omega

def skipReadonly (f : File) (p : Nat) : Nat :=
  if h : f.hasWord p "readonly" then skipReadonly f (p + 1) else p
termination_by f.size - p
decreasing_by
  have := File.lt_size_of_hasWord h
  omega

theorem le_skipReadonly (f : File) (p : Nat) : p ≤ skipReadonly f p := by
  fun_induction skipReadonly f p with
  | case1 p h ih => omega
  | case2 p h => omega

def postfixType (env : Env) (p : Nat) (later : Later env.file p) : Parse (Parsed env.file p TypeId) := do
  have hs := le_skipReadonly env.file p
  let base ← primary env (skipReadonly env.file p) (later.mono hs)
  have hb := base.lt_next
  arraySuffix env.file p base.next (by omega) base.next_le base.value

/-! ### Types -/

def intersectionType (env : Env) (p : Nat) (later : Later env.file p) :
    Parse (Parsed env.file p TypeId) := do
  let members ← separated env.file .amp p fun q h => postfixType env q (later.mono h)
  match members.value with
  | [only] => return ⟨only, members.next, members.lt_next, members.next_le⟩
  | many =>
    return ⟨← onTable (Table.intersection many), members.next, members.lt_next, members.next_le⟩

def unionType (env : Env) (p : Nat) (later : Later env.file p) : Parse (Parsed env.file p TypeId) := do
  let members ← separated env.file .pipe p fun q h => intersectionType env q (later.mono h)
  match members.value with
  | [only] => return ⟨only, members.next, members.lt_next, members.next_le⟩
  | many => return ⟨← onTable (Table.union many), members.next, members.lt_next, members.next_le⟩

def typeWith (env : Env) (p : Nat) (later : Later env.file p) : Parse (Parsed env.file p TypeId) := do
  let type ← unionType env p later
  if env.file.hasWord type.next "extends" then unsupported type.next "conditional type"
  else return type

def typeAt (env : Env) (p : Nat) : Parse (Parsed env.file p TypeId) :=
  typeWith env p fun q _ => typeAt env q
termination_by env.file.size - p

def objectAt (env : Env) (p : Nat) : Parse (Parsed env.file p ObjectType) :=
  objectBody env p fun q _ => typeAt env q

def heritageRest (env : Env) (q : Nat) (bases : List TypeId) : Parse (List TypeId × Nat) := do
  let base ← postfixType env q fun r _ => typeAt env r
  have _ := base.lt_next
  if _h : env.file.hasKind base.next .comma then heritageRest env (base.next + 1) (bases ++ [base.value])
  else return (bases ++ [base.value], base.next)
termination_by env.file.size - q
decreasing_by
  have := File.lt_size_of_hasKind _h
  omega

/-- The types that an optional `extends` list at token `p` names, and the token after them. -/
def heritageAt (env : Env) (p : Nat) : Parse (List TypeId × Nat) :=
  if env.file.hasWord p "extends" then heritageRest env (p + 1) [] else return ([], p)

end SchemaSplice.Annotation
