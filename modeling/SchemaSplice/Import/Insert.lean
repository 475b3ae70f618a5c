import SchemaSplice.Import.Statement
import SchemaSplice.Run.Failure
/-!
# Importing the validator namespace

Generated validators refer to `z`. A file that imports `z` from the right module needs nothing; one where `z` is something
else cannot be changed; any other file gets an import statement after its last import, or before its first token
that is no directive.
-/

namespace SchemaSplice.Import

open Source

/-- The name that generated validators use. -/
def namespaceName : String := "z"

def declarationLine? (f : File) (name : String) : Option Nat :=
  (List.range f.size).findSome? fun i =>
    let isKeyword :=
      match f.word? i with
      | some word => ["const", "let", "var", "function", "class"].contains word
      | none => false
    if isKeyword && !f.afterDot i && f.hasWord (i + 1) name then some (f.lineAt i) else none

/-- The first token after directives such as `'use client';`, from token `i` on. -/
def directivesEnd (f : File) (i : Nat) : Nat :=
  if h : f.hasKind i .str ∧ f.hasKind (i + 1) .semi then directivesEnd f (i + 2) else i
termination_by f.size - i
decreasing_by
  have := File.lt_size_of_hasKind h.1
  omega

def statementText (source : String) : String :=
  s!"import \x7b {namespaceName} \x7d from '{source}';"

/-- The edit that imports the namespace from a module, unless that is done already. -/
def ensure (f : File) (source : String) : Except Failure (Option Edit) :=
  let imports := statements f
  match imports.find? (·.bindings.contains namespaceName) with
  | some s =>
    if s.source == source then .ok none
    else .error (.importConflict namespaceName source (.imported s.source))
  | none =>
    match declarationLine? f namespaceName with
    | some line => .error (.importConflict namespaceName source (.declared line))
    | none =>
      match imports.getLast? with
      | some last => .ok (some (.insert (f.span last.last).stop ("\n" ++ statementText source)))
      | none =>
        .ok (some (.insert (f.span (directivesEnd f 0)).start (statementText source ++ "\n")))

end SchemaSplice.Import
