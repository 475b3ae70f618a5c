/-!
# Kinds of tokens

Words are not told apart: a keyword is an identifier. Brackets come in three kinds, each with its own closer.
-/

namespace SchemaSplice.Source

inductive Kind where
  | lineComment
  | blockComment
  | ident
  | str
  | template
  | number
  | bigInt
  | lparen
  | rparen
  | lbrace
  | rbrace
  | lbracket
  | rbracket
  | dot
  | questionDot
  | ellipsis
  | comma
  | semi
  | colon
  | question
  | fatArrow
  | eq
  | pipe
  | amp
  | lt
  | gt
  | minus
  | punct
  | unknown
deriving DecidableEq, Repr, Inhabited

namespace Kind

def isComment : Kind → Bool
  | lineComment | blockComment => true
  | _ => false

def closer? : Kind → Option Kind
  | lparen => some rparen
  | lbrace => some rbrace
  | lbracket => some rbracket
  | _ => none

def opens (k : Kind) : Bool := k.closer?.isSome

def closes : Kind → Bool
  | rparen | rbrace | rbracket => true
  | _ => false

theorem closes_of_closer? {k c : Kind} (h : k.closer? = some c) : c.closes = true := by
  cases k <;> simp [closer?] at h <;> subst h <;> rfl

theorem opens_eq_false_of_closes {k : Kind} (h : k.closes = true) : k.opens = false := by
  cases k <;> simp_all [closes, opens, closer?]

end Kind

end SchemaSplice.Source
