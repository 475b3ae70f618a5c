import SchemaSplice.Annotation.Scope
import SchemaSplice.Binary64.Read
import SchemaSplice.Declaration.Index
import SchemaSplice.Declaration.Parameters
import SchemaSplice.Source.Expression
import SchemaSplice.Text.Quoted
/-!
# Enums

The members of an enum and their values. A member takes the value of its literal initializer; any other member takes a
running number, one more than the number before it. A repeated member keeps its place and takes its last value.
-/

namespace SchemaSplice.Declaration

open Annotation Source SchemaSplice.Types

/-- The value of a member whose initializer is made of the tokens from `start` up to `stop`, and the next running
number. -/
def initializerValue (f : File) (start stop : Nat) (running : Binary64) : Literal × Binary64 :=
  let numbered (x : Binary64) : Literal × Binary64 := (.number x, x.add .one)
  match f.kind? start, stop - start with
  | some .str, 1 => (.text (Text.unquote (f.tokenText start)), running)
  | some .number, 1 => numbered ((Binary64.ofToken? (f.tokenText start)).getD running)
  | some .minus, 2 =>
    if f.hasKind (start + 1) .number then
      numbered ((Binary64.ofToken? (f.tokenText (start + 1))).getD running.neg).neg
    else (.number ((running.add .one).sub .one), running.add .one)
  | _, _ => (.number ((running.add .one).sub .one), running.add .one)

def memberName? (f : File) (i : Nat) : Option String :=
  match f.kind? i with
  | some .ident => some (f.tokenText i)
  | some .str => some (Text.unquote (f.tokenText i))
  | _ => none

/-- A member's value, the next running number and the token after the member and its comma. -/
structure EnumValue where
  value : Literal
  running : Binary64
  next : Nat

/-- The value of the member whose name stands before token `i`. -/
def enumValue (f : File) (i : Nat) (running : Binary64) : EnumValue :=
  if f.hasKind i .eq then
    let stop := f.expressionEnd (i + 1)
    let (value, next) := initializerValue f (i + 1) stop running
    ⟨value, next, f.skip stop .comma⟩
  else ⟨.number ((running.add .one).sub .one), running.add .one, f.skip i .comma⟩

theorem le_enumValue_next (f : File) (i : Nat) (running : Binary64) : i ≤ (enumValue f i running).next := by
  unfold enumValue
  split
  · have h₁ := f.le_expressionEnd (i + 1)
    have h₂ := f.le_skip (f.expressionEnd (i + 1)) .comma
    simp only
    omega
  · exact f.le_skip i .comma

/-- The members from token `i` up to `close` in the order of the text, and the error that ends the list early. -/
def enumEntries (f : File) (close i : Nat) (running : Binary64) :
    List (String × Literal) × Option TypeError :=
  if close ≤ i then ([], none)
  else
    match memberName? f i with
    | none => ([], some (malformed f i "an enum member"))
    | some name =>
      let v := enumValue f (i + 1) running
      let (rest, error) := enumEntries f close v.next v.running
      ((name, v.value) :: rest, error)
termination_by close - i
decreasing_by
  have := le_enumValue_next f (i + 1) running
  omega

/-- Adds a member; a member of the same name keeps its place. -/
def putMember (members : List (String × TypeId)) (name : String) (type : TypeId) :
    List (String × TypeId) :=
  if members.any (·.1 == name) then members.map fun m => if m.1 == name then (name, type) else m
  else members ++ [(name, type)]

def insertMembers (enumName : String) (members : List (String × TypeId)) :
    List (String × Literal) → TableM (List (String × TypeId))
  | [] => return members
  | (name, value) :: rest => do
    let type ← Table.insert (.enumLiteral enumName name value)
    insertMembers enumName (putMember members name type) rest

def enumMembers (p : Project) (current : Nat) (name : String) : Reading (List (String × TypeId)) := do
  match (← get).enums.lookup name with
  | some members => return members
  | none =>
    match (p.typesNamed name current).find? (·.form == .enum) with
    | none => throw (.unknownName name)
    | some decl =>
      let f := p.file decl.file
      let brace := decl.token + 1
      match f.closer? brace with
      | none => throw (malformed f brace "`\x7d`")
      | some ⟨close, _⟩ =>
        let (entries, error) := enumEntries f close (brace + 1) .zero
        let members ← onTable (insertMembers name [] entries)
        match error with
        | some e => throw e
        | none =>
          onTable (Table.recordEnum name members.length)
          modify fun s => { s with enums := (name, members) :: s.enums }
          return members

def enumMember (p : Project) (current : Nat) (qualifier member : String) : Reading TypeId := do
  match (← enumMembers p current qualifier).lookup member with
  | some type => return type
  | none => throw (.unknownName s!"{qualifier}.{member}")

end SchemaSplice.Declaration
