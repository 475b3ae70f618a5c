import SchemaSplice.Annotation.Error
import SchemaSplice.Types.Table
/-!
# Resolution state and scopes

Reading types changes a state: the table grows, instantiated declarations are remembered so that a declaration that
refers to itself finds its own place, and the members of enums are remembered. The state is kept when reading
fails. A scope says how names are looked up; it is all that the parser knows about declarations.
-/

namespace SchemaSplice.Annotation

open SchemaSplice.Types

/-- A declaration's name with its type arguments. -/
abbrev Instance := String × List TypeId

structure TypeState where
  table : Table := {}
  /-- Instantiated declarations, including those that are still being read. -/
  memo : List (Instance × TypeId) := []
  /-- Members of the enums that have been read, by enum name. -/
  enums : List (String × List (String × TypeId)) := []
deriving Inhabited

/-- Reading that may fail; the state is kept in both cases. -/
abbrev Reading := EStateM TypeError TypeState

def onTable (change : TableM α) : EStateM ε TypeState α :=
  fun ⟨table, memo, enums⟩ =>
    match change table with
    | (a, table) => .ok a ⟨table, memo, enums⟩

structure Scope where
  /-- The type that a name with type arguments stands for. -/
  named : String → List TypeId → Reading TypeId
  /-- The type that `Qualifier.Member` stands for. -/
  member : String → String → Reading TypeId

end SchemaSplice.Annotation
