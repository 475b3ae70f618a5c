import SchemaSplice.Types.Kind
/-!
# Type tables

A table owns every type met while one file is analysed. A place can be reserved before it is defined and later made to
forward to another type; that is how a type comes to contain itself. Reading a place follows forwards, at most
as many as the table has places: a longer chain would have to repeat, and such a chain reads as `never`.
-/

namespace SchemaSplice.Types

/-- What stands in a place of a table. -/
inductive Slot where
  | kind (kind : TypeKind)
  /-- The place stands for another type. -/
  | forward (target : TypeId)
deriving DecidableEq, Repr

/-- All types of one analysis, and how many members each enum has. -/
structure Table where
  slots : Array Slot := #[]
  enums : List (String × Nat) := []
deriving Inhabited

abbrev TableM := StateM Table

namespace Table

/-! ### Reading -/

def size (t : Table) : Nat := t.slots.size

/-- The kind reached from a place by at most `steps - 1` forwards. -/
def follow (t : Table) : (steps : Nat) → TypeId → TypeKind
  | 0, _ => .never
  | steps + 1, id =>
    match t.slots[id.slot]? with
    | some (.kind k) => k
    | some (.forward target) => follow t steps target
    | none => .never

def kind (t : Table) (id : TypeId) : TypeKind := t.follow t.size id

def object? (t : Table) (id : TypeId) : Option ObjectType := (t.kind id).object?

def calls (t : Table) (id : TypeId) : List TypeId := ((t.object? id).map (·.calls)).getD []

def typeArgs (t : Table) (id : TypeId) : List TypeId := ((t.object? id).map (·.typeArgs)).getD []

def property? (t : Table) (id : TypeId) (name : String) : Option Property :=
  (t.object? id).bind (·.property? name)

def aliased? (t : Table) (id : TypeId) : Option Alias := (t.object? id).bind (·.aliased)

def literal? (t : Table) (id : TypeId) : Option Literal := (t.kind id).literal?

def enumOf? (t : Table) (id : TypeId) : Option String :=
  match t.kind id with
  | .enumLiteral e _ _ => some e
  | _ => none

def enumCount? (t : Table) (name : String) : Option Nat := t.enums.lookup name

def isKind (t : Table) (id : TypeId) (k : TypeKind) : Bool := t.kind id == k

def isTextLiteral (t : Table) (id : TypeId) : Bool :=
  match t.literal? id with
  | some (.text _) => true
  | _ => false

def isNumberLiteral (t : Table) (id : TypeId) : Bool :=
  match t.literal? id with
  | some (.number _) => true
  | _ => false

def isFlagLiteral (t : Table) (id : TypeId) : Bool :=
  match t.literal? id with
  | some (.flag _) => true
  | _ => false

/-- Whether two types are one: by id, or as the same primitive or literal. -/
def same (t : Table) (a b : TypeId) : Bool := a == b || (t.kind a).agrees (t.kind b)

theorem same_refl (t : Table) (a : TypeId) : t.same a a = true := by simp [same]

theorem same_comm (t : Table) (a b : TypeId) : t.same a b = t.same b a := by
  simp only [same, TypeKind.agrees_comm (t.kind a)]
  rw [BEq.comm (a := a)]

theorem same_trans {t : Table} {a b c : TypeId} (hab : t.same a b = true) (hbc : t.same b c = true) :
    t.same a c = true := by
  simp only [same, Bool.or_eq_true, beq_iff_eq] at hab hbc ⊢
  rcases hab with rfl | hab
  · exact hbc
  · rcases hbc with rfl | hbc
    · exact Or.inr hab
    · exact Or.inr (TypeKind.agrees_trans hab hbc)

/-! ### Building -/

def insert (k : TypeKind) : TableM TypeId :=
  fun t => (⟨t.size⟩, { t with slots := t.slots.push (.kind k) })

def reserve : TableM TypeId := insert .pending

def define (place target : TypeId) : TableM Unit :=
  fun t => ((), { t with slots := t.slots.setIfInBounds place.slot (.forward target) })

def recordEnum (name : String) (count : Nat) : TableM Unit :=
  fun t => ((), { t with enums := (name, count) :: t.enums.filter (·.1 != name) })

def function (result : TypeId) : TableM TypeId := insert (.object { calls := [result] })

/-! ### Unions and intersections -/

def isFlag (t : Table) (value : Bool) (id : TypeId) : Bool :=
  t.kind id == .literal (.flag value)

/-- Members with each union among them replaced by its own members. -/
def flattenUnion (t : Table) (members : List TypeId) : List TypeId :=
  members.flatMap fun m => ((t.kind m).union?).getD [m]

/-- Members without those that are the same as an earlier one; `kept` are the earlier ones. -/
def dedupe (t : Table) (kept : List TypeId) : List TypeId → List TypeId
  | [] => kept
  | m :: ms => if kept.any (t.same · m) then dedupe t kept ms else dedupe t (kept ++ [m]) ms

/-- Replaces `true` and `false`, when both occur, by `boolean` in the place of the first of them; a `boolean` that is
already there is kept instead. -/
def widenFlags (members : List TypeId) : TableM (List TypeId) := do
  let t ← get
  let isAnyFlag := fun m => t.isFlag true m || t.isFlag false m
  if members.any (t.isFlag true) && members.any (t.isFlag false) then
    let others := members.filter (!isAnyFlag ·)
    if others.any (t.isKind · .boolean) then return others
    else
      let boolean ← insert .boolean
      let front := members.takeWhile (!isAnyFlag ·)
      return front ++ boolean :: others.drop front.length
  else return members

/-- The union of types: nested unions are flattened, duplicates dropped, both booleans widened. One remaining member
is the union itself. -/
def union (members : List TypeId) : TableM TypeId := do
  let t ← get
  match ← widenFlags (t.dedupe [] (t.flattenUnion members)) with
  | [only] => return only
  | many => insert (.union many)

def intersection (members : List TypeId) : TableM TypeId := do
  let t ← get
  match members.flatMap fun m => ((t.kind m).intersection?).getD [m] with
  | [only] => return only
  | many => insert (.intersection many)

end Table

end SchemaSplice.Types
