import SchemaSplice.Source.Edit
import SchemaSplice.Validator.Synthesis
/-!
# Failures

Why a file, a configuration or an input cannot be dealt with, and the text that says so. A type that cannot be resolved
is no failure: such a procedure is left alone.
-/

namespace SchemaSplice

open Source

/-- What already bears the name that generated validators use. -/
inductive Binding where
  /-- An import from another module. -/
  | imported (source : String)
  /-- A declaration on a given line. -/
  | declared (line : Nat)
deriving DecidableEq, Repr

/-- A binding as messages show it. -/
def Binding.message : Binding → String
  | imported source => s!"an import from `{source}`"
  | declared line => s!"a local declaration on line {line}"

inductive Failure where
  /-- A procedure's return type has no validator. -/
  | procedure (path : String) (line : Nat) (cause : SynthesisError)
  /-- The name of the validator namespace is taken. -/
  | importConflict (name source : String) (binding : Binding)
  /-- Edits of one file cannot be made together. -/
  | edits (cause : EditError)
  /-- A configuration is wrong. -/
  | config (path detail : String)
  /-- A file cannot be read or written. -/
  | io (path detail : String)
deriving DecidableEq, Repr

/-- A span as messages show it. -/
def Source.Span.message (s : Span) : String :=
  s!"Span \x7b start: {s.start}, end: {s.stop} \x7d"

def Source.EditError.message : EditError → String
  | overlap a b => s!"overlapping edits at {a.message} and {b.message}"
  | outside => "edit outside the text"

namespace Failure

def message : Failure → String
  | procedure path line cause => s!"{path}:{line}: {cause.message}"
  | importConflict name source binding =>
    s!"`{name}` is already bound to {binding.message}; expected an import from `{source}`"
  | edits cause => cause.message
  | config path detail => s!"invalid config {path}: {detail}"
  | io path detail => s!"{path}: {detail}"

def isAboutForm : Failure → Bool
  | procedure _ _ cause => cause.isAboutForm
  | _ => false

end Failure

end SchemaSplice
