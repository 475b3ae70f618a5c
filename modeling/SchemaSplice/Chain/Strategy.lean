import SchemaSplice.Chain.Procedure
import SchemaSplice.Source.Edit
import SchemaSplice.Validator.Printer
/-!
# Putting a validator into a chain

A chain that calls `output` gets the arguments of its last such call replaced. Otherwise a call of `output` is inserted
after the last `input` call, or before the call that takes the handler. Each way is a single edit, so the rest
of the chain keeps its text, and replacing generated text by the same text changes nothing.
-/

namespace SchemaSplice.Chain

open Source

inductive Strategy where
  | insertAfterInput (input : Segment)
  | replaceOutput (output : Segment)
  | insertBeforeTerminal (terminal : Segment)
deriving DecidableEq, Repr

namespace Strategy

def choose (procedure : Procedure) : Strategy :=
  match lastNamed? procedure.segments "output", lastNamed? procedure.segments "input" with
  | some output, _ => replaceOutput output
  | none, some input => insertAfterInput input
  | none, none => insertBeforeTerminal procedure.terminal

def name : Strategy → String
  | insertAfterInput _ => "insert-after-input"
  | replaceOutput _ => "replace-output"
  | insertBeforeTerminal _ => "insert-before-terminal"

end Strategy

/-- An edit of a chain, and whether it replaces arguments that were not generated. -/
structure Splice where
  edit : Edit
  replacedHandwritten : Bool
deriving DecidableEq, Repr

def insertedCall (v : Validator) : String := s!".output({v.printMarked})"

def isGenerated (text : String) : Bool :=
  Text.contains text Validator.beginMarker && Text.contains text Validator.endMarker

def Strategy.splice (f : File) (v : Validator) : Strategy → Splice
  | insertAfterInput input => ⟨.insert (f.span input.rparen).stop (insertedCall v), false⟩
  | replaceOutput output =>
    let span := output.argumentsSpan f
    let previous := (Text.slice? f.text span.start span.stop).getD ""
    ⟨⟨span, v.printMarked⟩, !isGenerated previous⟩
  | insertBeforeTerminal terminal => ⟨.insert (f.span terminal.dot).start (insertedCall v), false⟩

end SchemaSplice.Chain
