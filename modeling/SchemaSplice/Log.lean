import SchemaSplice.Annotation.Error
import SchemaSplice.Text.Quoted
/-!
# Events

What a run reports about its decisions, as data. `Event.render` gives the line that is written for an event.
-/

namespace SchemaSplice

inductive SkipReason where
  | bothKinds
  | neitherKind
  | noHandler (kind : String)
  | ignored
  | unresolved
deriving DecidableEq, Repr

def SkipReason.message : SkipReason → String
  | bothKinds => "skipping chain with both query and mutation"
  | neitherKind => "skipping chain without query or mutation"
  | noHandler kind => s!"skipping {kind} without a handler"
  | ignored => "skipping ignored procedure"
  | unresolved => "skipping procedure with unresolved return type"

inductive Event where
  | unresolvedType (path : String) (line : Nat) (error : Annotation.TypeError)
  | skipped (path : String) (line : Nat) (reason : SkipReason)
  | replacedHandwritten (path : String) (line : Nat)
  | spliced (path : String) (line : Nat) (strategy kind : String)
  | leftUnchanged (path error : String)
deriving DecidableEq, Repr

def Event.render : Event → String
  | unresolvedType path line error =>
    s!"DEBUG unresolved type annotation path={path} line={line} err={error.message}"
  | skipped path line reason => s!"DEBUG {reason.message} path={path} line={line}"
  | replacedHandwritten path line =>
    s!"WARN replacing hand-written output validator path={path} line={line}"
  | spliced path line strategy kind =>
    s!"INFO rewrote {kind} path={path} line={line} strategy={Text.quoteVisible strategy}"
  | leftUnchanged path error => s!"DEBUG file left unchanged path={path} err={error}"

end SchemaSplice
