import SchemaSplice.Types.Table
/-!
# Built-in types

The standard types that annotations may name without declaring them. They are built from member names and type
arguments in the same way as declared types, so nothing later depends on where a type came from.
-/

namespace SchemaSplice.Types.Builtin

def field (name : String) (type : TypeId) : Property := ⟨.name name, type, false⟩

def method (name : String) (result : TypeId) : TableM Property :=
  return field name (← Table.function result)

def symbolMethod (name : String) (result : TypeId) : TableM Property :=
  return ⟨.symbol name, ← Table.function result, false⟩

def nominal (name : String) (typeArgs : List TypeId) (properties : List Property) : TableM TypeId :=
  Table.insert (.object { symbol := some name, typeArgs, properties })

def date : TableM TypeId := do
  let string ← Table.insert .string
  let number ← Table.insert .number
  let toUTCString ← method "toUTCString" string
  let toISOString ← method "toISOString" string
  let getDate ← method "getDate" number
  let getTime ← method "getTime" number
  let valueOf ← method "valueOf" number
  nominal "Date" [] [toUTCString, toISOString, getDate, getTime, valueOf]

/-- Sets; those that cannot be changed lack the methods that change them. -/
def set (name : String) (element : TypeId) : TableM TypeId := do
  let void ← Table.insert .void
  let boolean ← Table.insert .boolean
  let number ← Table.insert .number
  let mut changing := []
  if name == "Set" then
    let add ← method "add" void
    let delete ← method "delete" boolean
    let clear ← method "clear" void
    changing := [add, delete, clear]
  let has ← method "has" boolean
  let forEach ← method "forEach" void
  let iterator ← symbolMethod "iterator" void
  nominal name [element] (changing ++ [has, forEach, field "size" number, iterator])

/-- Maps; those that cannot be changed lack the methods that change them. -/
def map (name : String) (key value : TypeId) : TableM TypeId := do
  let void ← Table.insert .void
  let boolean ← Table.insert .boolean
  let number ← Table.insert .number
  let mut changing := []
  if name == "Map" then
    let set ← method "set" void
    let delete ← method "delete" boolean
    let clear ← method "clear" void
    changing := [set, delete, clear]
  let get ← method "get" value
  let has ← method "has" boolean
  let forEach ← method "forEach" void
  let iterator ← symbolMethod "iterator" void
  nominal name [key, value] (changing ++ [get, has, forEach, field "size" number, iterator])

def recordObject (key value : TypeId) : ObjectType :=
  { symbol := some "__type", aliased := some ⟨"Record", [key, value]⟩ }

def promise (inner : TypeId) : TableM TypeId := do
  let any ← Table.insert .any
  let thenMethod ← method "then" any
  let catchMethod ← method "catch" any
  let finallyMethod ← method "finally" any
  nominal "Promise" [inner] [thenMethod, catchMethod, finallyMethod]

def lookup? (name : String) (args : List TypeId) : Option (TableM TypeId) :=
  match name, args with
  | "Array", [element] | "ReadonlyArray", [element] => some (Table.insert (.array (some element)))
  | "Date", [] => some date
  | "Set", [element] | "ReadonlySet", [element] => some (set name element)
  | "Map", [key, value] | "ReadonlyMap", [key, value] => some (map name key value)
  | "Record", [key, value] => some (Table.insert (.object (recordObject key value)))
  | "Promise", [inner] => some (promise inner)
  | "Object", [] => some (Table.insert (.object {}))
  | _, _ => none

end SchemaSplice.Types.Builtin
