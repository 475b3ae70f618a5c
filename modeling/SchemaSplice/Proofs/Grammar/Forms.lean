import SchemaSplice.Annotation.Parser
/-!
# Types as they are written and as they are meant

An abstract type is written as a list of tokens, with parentheses around unions, intersections and functions wherever a tighter
context needs them. What it means is a tree: nested unions and intersections are flattened, members that are the same as an
earlier one dropped, `true` and `false` together read as `boolean`, optional properties may be undefined, and of properties
with one key the first counts. A type of a table unfolds to a tree if the kinds that are reached from it have its shape.
-/

namespace SchemaSplice.Source

abbrev Lexeme := Kind × String

/-- The text of a token that is always written in the same way. -/
def Kind.sign : Kind → String
  | lparen => "("
  | rparen => ")"
  | lbrace => "\x7b"
  | rbrace => "\x7d"
  | lbracket => "["
  | rbracket => "]"
  | ellipsis => "..."
  | comma => ","
  | semi => ";"
  | colon => ":"
  | question => "?"
  | fatArrow => "=>"
  | pipe => "|"
  | amp => "&"
  | minus => "-"
  | _ => ""

/-- A token that is always written in the same way. -/
def sign (k : Kind) : Lexeme := (k, k.sign)

abbrev Identifier := { name : String // isIdentifier name = true }

end SchemaSplice.Source

namespace SchemaSplice.Annotation

open Source SchemaSplice.Types

/-! ### Types without parts -/

inductive Primitive where
  | string
  | number
  | boolean
  | bigInt
  | null
  | undefined
  | any
  | unknown
  | void
  | never
deriving DecidableEq, Repr

namespace Primitive

def word : Primitive → String
  | string => "string"
  | number => "number"
  | boolean => "boolean"
  | bigInt => "bigint"
  | null => "null"
  | undefined => "undefined"
  | any => "any"
  | unknown => "unknown"
  | void => "void"
  | never => "never"

def kind : Primitive → TypeKind
  | string => .string
  | number => .number
  | boolean => .boolean
  | bigInt => .bigInt
  | null => .null
  | undefined => .undefined
  | any => .any
  | unknown => .unknown
  | void => .void
  | never => .never

end Primitive

structure Digits (isDigit : Char → Bool) where
  first : Char
  rest : List Char
  isDigit_first : isDigit first = true
  isDigit_rest : ∀ c ∈ rest, isDigit c = true ∨ c = '_'

namespace Digits

variable {isDigit : Char → Bool}

def chars (d : Digits isDigit) : List Char := d.first :: d.rest

def plain (d : Digits isDigit) : List Char := d.chars.filter (· != '_')

end Digits

structure Exponent where
  letter : Char
  isLetter : letter = 'e' ∨ letter = 'E'
  sign? : Option Char
  isSign : ∀ c ∈ sign?, c = '+' ∨ c = '-'
  digits : List Char
  digits_ne_nil : digits ≠ []
  isDigit_digits : ∀ c ∈ digits, c.isDigit = true

namespace Exponent

def chars (e : Exponent) : List Char := e.letter :: (e.sign?.toList ++ e.digits)

def value (e : Exponent) : Int :=
  if e.sign? = some '-' then -(Binary64.digitsValue e.digits : Int) else Binary64.digitsValue e.digits

end Exponent

def isHexDigit (c : Char) : Bool := (Binary64.hexValue? c).isSome

def hexInteger (ds : List Char) : Nat := (ds.filterMap Binary64.hexValue?).foldl (fun n d => 16 * n + d) 0

inductive Numeral where
  | decimal (whole : Digits Char.isDigit) (fraction? : Option (Digits Char.isDigit)) (exponent? : Option Exponent)
  /-- A hexadecimal integer of 63 bits. -/
  | hexadecimal (marker : Char) (isMarker : marker = 'x' ∨ marker = 'X') (digits : Digits isHexDigit)
      (isSmall : hexInteger digits.plain ≤ 0x7fffffffffffffff)

namespace Numeral

def chars : Numeral → List Char
  | decimal whole fraction? exponent? =>
    whole.chars ++ ((fraction?.elim [] fun d => '.' :: d.chars) ++ exponent?.elim [] Exponent.chars)
  | hexadecimal marker _ digits _ => '0' :: marker :: digits.chars

def text (n : Numeral) : String := String.ofList n.chars

/-- The number nearest to what the digits say. -/
def value : Numeral → Binary64
  | decimal whole fraction? exponent? =>
    let fraction := fraction?.elim [] Digits.plain
    .ofScaled false (Binary64.digitsValue (whole.plain ++ fraction)) (exponent?.elim 0 Exponent.value - fraction.length)
  | hexadecimal _ _ digits _ => .ofNat (hexInteger digits.plain)

end Numeral

abbrev BigNumeral := Digits Char.isDigit

def BigNumeral.text (n : BigNumeral) : String := String.ofList (n.chars ++ ['n'])

def escapeQuoted : Char → List Char
  | '\'' => ['\\', '\'']
  | '\\' => ['\\', '\\']
  | '\n' => ['\\', 'n']
  | c => [c]

def quoted (s : String) : String := String.ofList ('\'' :: s.toList.flatMap escapeQuoted ++ ['\''])

/-! ### Written types -/

inductive ElementMark where
  | required
  | optional
  | spread
deriving DecidableEq, Repr

structure TypedProperty (α : Type) where
  key : Identifier
  isOptional : Bool
  type : α

inductive TypeExpr where
  | primitive (p : Primitive)
  | flag (value : Bool)
  | text (value : String)
  | number (negative : Bool) (n : Numeral)
  | bigInt (n : BigNumeral)
  | array (element : TypeExpr)
  | tuple (elements : List (ElementMark × TypeExpr))
  | object (fields : List (TypedProperty TypeExpr))
  | function (result : TypeExpr)
  | intersection (first second : TypeExpr) (rest : List TypeExpr)
  | union (first second : TypeExpr) (rest : List TypeExpr)

/-- How tightly the parts of a type are held together. -/
def TypeExpr.rank : TypeExpr → Nat
  | function _ => 0
  | union .. => 0
  | intersection .. => 1
  | _ => 2

def enclosed (least : Nat) (e : TypeExpr) (tokens : List Lexeme) : List Lexeme :=
  if e.rank < least then sign .lparen :: tokens ++ [sign .rparen] else tokens

structure Separators where
  separator : Kind
  isSeparator : separator = .semi ∨ separator = .comma
  /-- Whether the last property is followed by a separator too. -/
  trailing : Bool

def ElementMark.enclose (tokens : List Lexeme) : ElementMark → List Lexeme
  | required => tokens
  | optional => tokens ++ [sign .question]
  | spread => sign .ellipsis :: tokens

/-- The separator after a property that `rest` follows. -/
def Separators.after (sep : Separators) {α : Type} : List α → List Lexeme
  | [] => if sep.trailing then [sign sep.separator] else []
  | _ :: _ => [sign sep.separator]

mutual

def TypeExpr.tokens (sep : Separators) : TypeExpr → List Lexeme
  | .primitive p => [(.ident, p.word)]
  | .flag value => [(.ident, if value then "true" else "false")]
  | .text value => [(.str, quoted value)]
  | .number negative n => (if negative then [sign .minus] else []) ++ [(.number, n.text)]
  | .bigInt n => [(.bigInt, n.text)]
  | .array element => enclosed 2 element (element.tokens sep) ++ [sign .lbracket, sign .rbracket]
  | .tuple elements => sign .lbracket :: elementTokens sep elements ++ [sign .rbracket]
  | .object fields => sign .lbrace :: fieldTokens sep fields ++ [sign .rbrace]
  | .function result => sign .lparen :: sign .rparen :: sign .fatArrow :: result.tokens sep
  | .intersection first second rest =>
    enclosed 2 first (first.tokens sep) ++
      (sign .amp :: enclosed 2 second (second.tokens sep) ++ memberTokens sep .amp 2 rest)
  | .union first second rest =>
    enclosed 1 first (first.tokens sep) ++
      (sign .pipe :: enclosed 1 second (second.tokens sep) ++ memberTokens sep .pipe 1 rest)

def memberTokens (sep : Separators) (operator : Kind) (least : Nat) : List TypeExpr → List Lexeme
  | [] => []
  | e :: rest => sign operator :: enclosed least e (e.tokens sep) ++ memberTokens sep operator least rest

def elementTokens (sep : Separators) : List (ElementMark × TypeExpr) → List Lexeme
  | [] => []
  | (mark, e) :: rest =>
    mark.enclose (e.tokens sep) ++
      (if rest.isEmpty then [] else sign .comma :: elementTokens sep rest)

def fieldTokens (sep : Separators) : List (TypedProperty TypeExpr) → List Lexeme
  | [] => []
  | ⟨key, isOptional, e⟩ :: rest =>
    (.ident, key.val) :: (if isOptional then [sign .question] else []) ++
      (sign .colon :: e.tokens sep ++ (sep.after rest ++ fieldTokens sep rest))

end

def TypeExpr.written (sep : Separators) (e : TypeExpr) : String :=
  " ".intercalate ((e.tokens sep).map (·.2))

/-! ### Trees -/

/-- When both sorts of flags occur, the first flag becomes a `boolean` and the others are left out; all are left out when
there is a `boolean` already. -/
def widenBy {α : Type} (isTrue isFalse isBoolean : α → Bool) (boolean : α) (members : List α) : List α :=
  let isOther := fun m => !(isTrue m || isFalse m)
  if members.any isTrue && members.any isFalse then
    if (members.filter isOther).any isBoolean then members.filter isOther
    else members.takeWhile isOther ++ boolean :: (members.dropWhile isOther).filter isOther
  else members

inductive Atom where
  | primitive (p : Primitive)
  | literal (value : Literal)

def Atom.kind : Atom → TypeKind
  | primitive p => p.kind
  | literal value => .literal value

inductive Tree where
  | atom (a : Atom)
  | array (element : Tree)
  | tuple (elements : List (ElementFlag × Tree))
  | object (fields : List (TypedProperty Tree))
  | function (result : Tree)
  | intersection (members : List Tree)
  | union (members : List Tree)

namespace Tree

/-- Whether two trees are the same primitive or literal. -/
def alike : Tree → Tree → Bool
  | atom a, atom b => a.kind.agrees b.kind
  | _, _ => false

def isFlag (value : Bool) : Tree → Bool
  | atom (.literal (.flag b)) => b == value
  | _ => false

def isBoolean : Tree → Bool
  | atom (.primitive .boolean) => true
  | _ => false

/-- The members of a union; any other tree alone. -/
def alternatives : Tree → List Tree
  | union members => members
  | x => [x]

/-- The members of an intersection; any other tree alone. -/
def factors : Tree → List Tree
  | intersection members => members
  | x => [x]

def soleOr (build : List Tree → Tree) : List Tree → Tree
  | [only] => only
  | many => build many

/-- `true` and `false` together are `boolean`, in the place of the first of them unless it is there anyway. -/
def widen (members : List Tree) : List Tree :=
  widenBy (isFlag true) (isFlag false) isBoolean (atom (.primitive .boolean)) members

def unionOf (members : List Tree) : Tree :=
  soleOr union (widen ((members.flatMap alternatives).eraseDupsBy alike))

def intersectionOf (members : List Tree) : Tree := soleOr intersection (members.flatMap factors)

def ofField (isOptional : Bool) (x : Tree) : Tree :=
  if isOptional then unionOf [x, atom (.primitive .undefined)] else x

/-- An element of a tuple. Spreading an array repeats its elements. -/
def ofElement : ElementMark → Tree → ElementFlag × Tree
  | .required, x => (.required, x)
  | .optional, x => (.optional, x)
  | .spread, array x => (.rest, x)
  | .spread, x => (.variadic, x)

end Tree

mutual

def TypeExpr.meaning : TypeExpr → Tree
  | .primitive p => .atom (.primitive p)
  | .flag value => .atom (.literal (.flag value))
  | .text value => .atom (.literal (.text value))
  | .number negative n => .atom (.literal (.number (if negative then n.value.neg else n.value)))
  | .bigInt n => .atom (.literal (.bigInt (String.ofList n.plain)))
  | .array element => .array element.meaning
  | .tuple elements => .tuple (elementMeanings elements)
  | .object fields => .object ((fieldMeanings fields).eraseDupsBy fun f g => f.key == g.key)
  | .function result => .function result.meaning
  | .intersection first second rest => .intersectionOf (first.meaning :: second.meaning :: memberMeanings rest)
  | .union first second rest => .unionOf (first.meaning :: second.meaning :: memberMeanings rest)

def memberMeanings : List TypeExpr → List Tree
  | [] => []
  | e :: rest => e.meaning :: memberMeanings rest

def elementMeanings : List (ElementMark × TypeExpr) → List (ElementFlag × Tree)
  | [] => []
  | (mark, e) :: rest => Tree.ofElement mark e.meaning :: elementMeanings rest

def fieldMeanings : List (TypedProperty TypeExpr) → List (TypedProperty Tree)
  | [] => []
  | ⟨key, isOptional, e⟩ :: rest => ⟨key, isOptional, .ofField isOptional e.meaning⟩ :: fieldMeanings rest

end

/-! ### Types of a table -/

mutual

/-- A type of a table is what a tree says. -/
def Unfolds (t : Table) : TypeId → Tree → Prop
  | id, .atom a => t.kind id = a.kind
  | id, .array x => ∃ element, t.kind id = .array (some element) ∧ Unfolds t element x
  | id, .tuple xs => ∃ elements, t.kind id = .tuple elements ∧ UnfoldElements t elements xs
  | id, .object fields => ∃ properties, t.kind id = .object { properties } ∧ UnfoldFields t properties fields
  | id, .function x => ∃ result, t.kind id = .object { calls := [result] } ∧ Unfolds t result x
  | id, .intersection xs => ∃ members, t.kind id = .intersection members ∧ UnfoldAll t members xs
  | id, .union xs => ∃ members, t.kind id = .union members ∧ UnfoldAll t members xs

def UnfoldAll (t : Table) : List TypeId → List Tree → Prop
  | [], [] => True
  | id :: ids, x :: xs => Unfolds t id x ∧ UnfoldAll t ids xs
  | _, _ => False

def UnfoldElements (t : Table) : List Element → List (ElementFlag × Tree) → Prop
  | [], [] => True
  | e :: es, (flag, x) :: xs => e.flag = flag ∧ Unfolds t e.type x ∧ UnfoldElements t es xs
  | _, _ => False

def UnfoldFields (t : Table) : List Property → List (TypedProperty Tree) → Prop
  | [], [] => True
  | p :: ps, ⟨key, isOptional, x⟩ :: fs =>
    p.key = .name key ∧ p.isOptional = isOptional ∧ Unfolds t p.type x ∧ UnfoldFields t ps fs
  | _, _ => False

end

end SchemaSplice.Annotation
