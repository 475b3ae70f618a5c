import SchemaSplice.Types.Table
/-!
# Types as text

The form in which messages show a type. It follows the parts of a type seven levels deep, so a cyclic type has a
finite text.
-/

namespace SchemaSplice.Types

def PropertyKey.display : PropertyKey → String
  | name key => key
  | symbol key => s!"[Symbol.{key}]"

namespace Table

def displayElement (flag : ElementFlag) (type : String) : String :=
  match flag with
  | .required => type
  | .optional => type ++ "?"
  | .rest => "..." ++ type ++ "[]"
  | .variadic => "..." ++ type

def displayProperty (p : Property) (type : String) : String :=
  p.key.display ++ (if p.isOptional then "?: " else ": ") ++ type ++ "; "

/-- An object type, given how its parts are shown: as a function when it has call signatures and no properties, by its
alias, by its declared name, or by its properties. -/
def displayObject (o : ObjectType) (part : TypeId → String) : String :=
  let args (ids : List TypeId) : String := "<" ++ ", ".intercalate (ids.map part) ++ ">"
  match (if o.properties.isEmpty then o.calls.head? else none), o.aliased, o.symbol with
  | some result, _, _ => "() => " ++ part result
  | none, some a, _ => a.name ++ args a.args
  | none, none, some name => if o.typeArgs.isEmpty then name else name ++ args o.typeArgs
  | none, none, none =>
    "\x7b " ++ String.join (o.properties.map fun p => displayProperty p (part p.type)) ++ "\x7d"

def displayLevels (t : Table) : (levels : Nat) → TypeId → String
  | 0, _ => "..."
  | levels + 1, id =>
    let part := displayLevels t levels
    match t.kind id with
    | .any => "any"
    | .unknown => "unknown"
    | .string => "string"
    | .number => "number"
    | .boolean => "boolean"
    | .bigInt => "bigint"
    | .null => "null"
    | .undefined => "undefined"
    | .void => "void"
    | .never => "never"
    | .pending => "<pending>"
    | .literal v => v.display
    | .enumLiteral e m _ => s!"{e}.{m}"
    | .union ms => " | ".intercalate (ms.map part)
    | .intersection ms => " & ".intercalate (ms.map part)
    | .array (some e) => "(" ++ part e ++ ")[]"
    | .array none => "unknown[]"
    | .tuple es => "[" ++ ", ".intercalate (es.map fun e => displayElement e.flag (part e.type)) ++ "]"
    | .object o => displayObject o part

def display (t : Table) (id : TypeId) : String := t.displayLevels 7 id

end Table

end SchemaSplice.Types
