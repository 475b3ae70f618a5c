import SchemaSplice.Chain.Segment
import SchemaSplice.Declaration.Inquiry
import SchemaSplice.Text.Search
/-!
# Procedures

A procedure is a chain whose root is one of the given factory words and that calls either `query` or `mutation`. The
first argument of that call is its handler, and its type is the declared return type of the handler. A chain that is
no procedure, is marked to be ignored or has no type that can be resolved is skipped with a report.
-/

namespace SchemaSplice.Chain

open Source SchemaSplice.Types Declaration

inductive ProcedureKind where
  | query
  | mutation
deriving DecidableEq, Repr

def ProcedureKind.name : ProcedureKind → String
  | query => "query"
  | mutation => "mutation"

structure Procedure where
  /-- The token of the factory word. -/
  root : Nat
  segments : List Segment
  kind : ProcedureKind
  /-- The call that takes the handler. -/
  terminal : Segment
  handler : Handler
  returnType : TypeId
deriving DecidableEq, Repr

/-- The text in a block comment that makes a handler be ignored. -/
def ignoreMarker : String := "@outputify-ignore"

def isIgnored (f : File) (start : Nat) : Bool :=
  (f.comments start).any fun c => c.kind == .blockComment && Text.contains c.text ignoreMarker

def terminal? (segments : List Segment) : Except SkipReason (ProcedureKind × Segment) :=
  match lastNamed? segments "query", lastNamed? segments "mutation" with
  | some q, none => .ok (.query, q)
  | none, some m => .ok (.mutation, m)
  | some _, some _ => .error .bothKinds
  | none, none => .error .neitherKind

def handler? (f : File) (kind : ProcedureKind) (terminal : Segment) : Except SkipReason Handler :=
  let start := terminal.lparen + 1
  if terminal.rparen ≤ start then .error (.noHandler kind.name)
  else if isIgnored f start then .error .ignored
  else .ok (f.handler start (f.expressionEnd start))

def returnType (p : Project) (s : Inquiry) (current : Nat) (handler : Handler) :
    Option TypeId × Inquiry :=
  match handler.form with
  | .function (some start) => annotationAt p s current start
  | .function none => (none, s)
  | .reference name =>
    let (type, s) := valueType p s current name
    (type.bind fun id => (s.table.calls id).head?, s)
  | .other => (none, s)

def skip (f : File) (s : Inquiry) (root : Nat) (reason : SkipReason) : Inquiry :=
  { s with log := .skipped f.path (f.lineAt root) reason :: s.log }

def procedureAt (p : Project) (s : Inquiry) (current root : Nat) (segments : List Segment) :
    Option Procedure × Inquiry :=
  let f := p.file current
  match terminal? segments with
  | .error reason => (none, skip f s root reason)
  | .ok (kind, terminal) =>
    match handler? f kind terminal with
    | .error reason => (none, skip f s root reason)
    | .ok handler =>
      match returnType p s current handler with
      | (none, s) => (none, skip f s root .unresolved)
      | (some type, s) => (some ⟨root, segments, kind, terminal, handler, type⟩, s)

/-- The chains of a file that start at one of the given words: the root with its calls, of which there is at least one. -/
def chains (f : File) (factories : List String) : List (Nat × List Segment) :=
  (List.range f.size).filterMap fun root =>
    match f.word? root with
    | some word =>
      let segments := segmentsFrom f (root + 1)
      if factories.contains word && !segments.isEmpty then some (root, segments) else none
    | none => none

/-- Visits the procedures among `candidates` in order until a visit fails. A visit may change what it collects and may
report events. -/
def visitChains (p : Project) (current : Nat)
    (visit : Procedure → α → Inquiry → Except ε α × Inquiry) :
    List (Nat × List Segment) → α → Inquiry → Except ε α × Inquiry
  | [], a, s => (.ok a, s)
  | (root, segments) :: rest, a, s =>
    match procedureAt p s current root segments with
    | (none, s) => visitChains p current visit rest a s
    | (some procedure, s) =>
      match visit procedure a s with
      | (.ok a, s) => visitChains p current visit rest a s
      | (.error e, s) => (.error e, s)

def visitProcedures (p : Project) (current : Nat) (factories : List String)
    (visit : Procedure → α → Inquiry → Except ε α × Inquiry) (a : α) :
    Except ε α × Inquiry :=
  visitChains p current visit (chains (p.file current) factories) a {}

end SchemaSplice.Chain
