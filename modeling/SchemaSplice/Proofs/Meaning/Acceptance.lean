import Mathlib.Data.List.Forall2
import SchemaSplice.Proofs.Meaning.Values
import SchemaSplice.Validator.Basic
/-!
# What a validator accepts

The values that a validator accepts, as the validation library documents it. A call is read through the meanings of its
arguments, so the table of calls is not recursive; a call that the library does not know accepts nothing.
Objects ignore extra fields, and the keys of a record are validated as strings.
-/

namespace SchemaSplice

open SchemaSplice.Types

abbrev EnumMembers := String → List (String × Literal)

inductive Meaning where
  | values (accepts : Value → Prop)
  | list (items : List Meaning)
  | fields (entries : List (String × (Value → Prop)))
  | literal (value : Literal)
  | name (word : String)

def Meaning.Admits : Meaning → Value → Prop
  | values accepts, v => accepts v
  | _, _ => False

def CallAccepts (members : EnumMembers) : String → List Meaning → Value → Prop
  | "string", [], v => ∃ s, v = .text s
  | "number", [], v => ∃ x, v = .number x
  | "boolean", [], v => ∃ b, v = .flag b
  | "bigint", [], v => ∃ n, v = .bigInt n
  | "date", [], v => ∃ d, v = .date d
  | "null", [], v => v = .null
  | "undefined", [], v => v = .undefined
  | "void", [], v => v = .undefined
  | "any", [], _ => True
  | "unknown", [], _ => True
  | "literal", [.literal l], v => l.Holds v
  | "enum", [.list items], v => ∃ l, Meaning.literal l ∈ items ∧ l.Holds v
  | "nativeEnum", [.name e], v => ∃ m ∈ members e, m.2.Holds v
  | "union", [.list items], v => ∃ m ∈ items, m.Admits v
  | "intersection", [left, right], v => left.Admits v ∧ right.Admits v
  | "array", [element], v => ∃ items, v = .array items ∧ ∀ x ∈ items, element.Admits x
  | "tuple", [.list items], v => ∃ xs, v = .array xs ∧ List.Forall₂ Meaning.Admits items xs
  | "set", [element], v => ∃ items, v = .set items ∧ ∀ x ∈ items, element.Admits x
  | "map", [key, value], v =>
    ∃ entries, v = .map entries ∧ ∀ x ∈ entries, key.Admits x.1 ∧ value.Admits x.2
  | "record", [key, value], v =>
    ∃ fields, v = .object fields ∧ ∀ x ∈ fields, key.Admits (.text x.1) ∧ value.Admits x.2
  | "object", [.fields entries], v =>
    ∃ fields, v = .object fields ∧ ∀ e ∈ entries, e.2 (fieldOf fields e.1)
  | _, _, _ => False

def MethodAccepts (receiver : Value → Prop) : String → List Meaning → Value → Prop
  | "nullable", [], v => v = .null ∨ receiver v
  | "optional", [], v => v = .undefined ∨ receiver v
  | "nullish", [], v => v = .null ∨ v = .undefined ∨ receiver v
  | "rest", [element], v =>
    ∃ front back, v = .array (front ++ back) ∧ receiver (.array front) ∧ ∀ x ∈ back, element.Admits x
  | _, _, _ => False

mutual

def Validator.Accepts (members : EnumMembers) : Validator → Value → Prop
  | .call name args => CallAccepts members name (argumentsMeaning members args)
  | .method receiver name args =>
    MethodAccepts (receiver.Accepts members) name (argumentsMeaning members args)
termination_by structural v => v

def Argument.meaning (members : EnumMembers) : Argument → Meaning
  | .validator v => .values (v.Accepts members)
  | .list items => .list (argumentsMeaning members items)
  | .fields entries => .fields (entriesMeaning members entries)
  | .text s => .literal (.text s)
  | .number x => .literal (.number x)
  | .flag b => .literal (.flag b)
  | .bigInt digits => .literal (.bigInt digits)
  | .name word => .name word
termination_by structural a => a

def argumentsMeaning (members : EnumMembers) : List Argument → List Meaning
  | [] => []
  | a :: rest => a.meaning members :: argumentsMeaning members rest
termination_by structural as => as

def entriesMeaning (members : EnumMembers) : List (String × Validator) → List (String × (Value → Prop))
  | [] => []
  | e :: rest => entryMeaning members e :: entriesMeaning members rest
termination_by structural es => es

def entryMeaning (members : EnumMembers) : String × Validator → String × (Value → Prop)
  | (key, v) => (key, v.Accepts members)
termination_by structural e => e

end

section

variable (members : EnumMembers) (v : Value)

theorem argumentsMeaning_eq_map (args : List Argument) :
    argumentsMeaning members args = args.map (Argument.meaning members) := by
  induction args with
  | nil => rfl
  | cons a rest ih => rw [argumentsMeaning, ih, List.map_cons]

theorem entriesMeaning_eq_map (entries : List (String × Validator)) :
    entriesMeaning members entries = entries.map fun e => (e.1, e.2.Accepts members) := by
  induction entries with
  | nil => rfl
  | cons e rest ih =>
    obtain ⟨key, v⟩ := e
    rw [entriesMeaning, entryMeaning, ih, List.map_cons]

theorem meaning_ofLiteral (l : Literal) : (Argument.ofLiteral l).meaning members = .literal l := by
  cases l <;> rfl

namespace Validator

theorem accepts_literal (l : Literal) :
    (call "literal" [.ofLiteral l]).Accepts members v ↔ l.Holds v := by
  rw [Accepts, argumentsMeaning_eq_map, List.map_singleton, meaning_ofLiteral]
  rfl

theorem accepts_enum (ls : List Literal) :
    (call "enum" [.list (ls.map Argument.ofLiteral)]).Accepts members v ↔ ∃ l ∈ ls, l.Holds v := by
  have hlist : argumentsMeaning members (ls.map Argument.ofLiteral) = ls.map Meaning.literal := by
    rw [argumentsMeaning_eq_map, List.map_map]
    exact List.map_congr_left fun l _ => meaning_ofLiteral members l
  show (∃ l, Meaning.literal l ∈ argumentsMeaning members (ls.map Argument.ofLiteral) ∧ l.Holds v) ↔ _
  rw [hlist]
  simp

theorem accepts_union (zs : List Validator) :
    (call "union" [.list (zs.map .validator)]).Accepts members v ↔ ∃ z ∈ zs, z.Accepts members v := by
  show (∃ m ∈ argumentsMeaning members (zs.map .validator), m.Admits v) ↔ _
  simp only [argumentsMeaning_eq_map, List.map_map, List.mem_map, Function.comp_apply,
    exists_exists_and_eq_and]
  rfl

theorem accepts_tuple (zs : List Validator) :
    (call "tuple" [.list (zs.map .validator)]).Accepts members v ↔
      ∃ xs, v = .array xs ∧ List.Forall₂ (fun z x => z.Accepts members x) zs xs := by
  show (∃ xs, v = .array xs ∧
    List.Forall₂ Meaning.Admits (argumentsMeaning members (zs.map .validator)) xs) ↔ _
  simp only [argumentsMeaning_eq_map, List.map_map, List.forall₂_map_left_iff]
  rfl

theorem accepts_object (entries : List (String × Validator)) :
    (call "object" [.fields entries]).Accepts members v ↔
      ∃ fields, v = .object fields ∧ ∀ e ∈ entries, e.2.Accepts members (fieldOf fields e.1) := by
  show (∃ fields, v = .object fields ∧
    ∀ e ∈ entriesMeaning members entries, e.2 (fieldOf fields e.1)) ↔ _
  simp only [entriesMeaning_eq_map, List.forall_mem_map]

end Validator

end

end SchemaSplice
