import SchemaSplice.Source.Kind
import SchemaSplice.Text.Bytes
/-!
# Tokens

A token is a kind, the characters it covers and the byte where they begin. `scan` reads a text from left to right: at
every place that is not blank it takes the longest token that fits, and a character that fits nothing is a token
of kind `unknown`. `lexeme` gives the kind together with the number of characters after the first one, so no
token is empty, and scanning ends because every step drops at least one character.
-/

namespace SchemaSplice.Source

structure Token where
  kind : Kind
  text : String
  start : Nat
deriving DecidableEq, Repr, Inhabited

def Token.stop (t : Token) : Nat := t.start + Text.size t.text

/-! ### Character classes -/

def isSpace (c : Char) : Bool :=
  c == ' ' || c == '\t' || c == '\r' || c == '\n' || c.toNat == 0x0C

def isIdentStart (c : Char) : Bool :=
  ('A' ≤ c && c ≤ 'Z') || ('a' ≤ c && c ≤ 'z') || c == '_' || c == '$'

def isIdentPart (c : Char) : Bool := isIdentStart c || c.isDigit

def isDigitPart (c : Char) : Bool := c.isDigit || c == '_'

/-- Hexadecimal digits and their separator. -/
def isHexPart (c : Char) : Bool :=
  c.isDigit || ('a' ≤ c && c ≤ 'f') || ('A' ≤ c && c ≤ 'F') || c == '_'

/-- Operators without a kind of their own. -/
def isPunct (c : Char) : Bool :=
  c == '+' || c == '*' || c == '/' || c == '%' || c == '!' || c == '~' || c == '^' || c == '@' ||
    c == '#' || c == '\\'

def isIdentifier (s : String) : Bool :=
  match s.toList with
  | [] => false
  | c :: cs => isIdentStart c && cs.all isIdentPart

/-! ### Longest matches -/

def spanLength (p : Char → Bool) (cs : List Char) : Nat := (cs.takeWhile p).length

/-- How many characters stand before the next `*/`, if there is one. -/
def commentBody? : List Char → Option Nat
  | [] => none
  | '*' :: '/' :: _ => some 0
  | _ :: cs => (commentBody? cs).map (· + 1)

/-- The body of a quoted token after its opening quote: how many characters the body items cover, and whether
the closing quote follows. An item is a character other than the quote and the backslash, or a backslash with a
character that is not a line feed. A line feed ends the body unless `multiline`. -/
def quotedBody (quote : Char) (multiline : Bool) : List Char → Nat × Bool
  | [] => (0, false)
  | '\\' :: c :: cs =>
    if c == '\n' then (0, false)
    else
      let (n, closed) := quotedBody quote multiline cs
      (n + 2, closed)
  | c :: cs =>
    if c == quote then (0, true)
    else if c == '\\' || (c == '\n' && !multiline) then (0, false)
    else
      let (n, closed) := quotedBody quote multiline cs
      (n + 1, closed)

/-- Length of a fraction: a point with a digit after it and further digits. -/
def fractionLength : List Char → Nat
  | '.' :: d :: cs => if d.isDigit then 2 + spanLength isDigitPart cs else 0
  | _ => 0

def signLength : List Char → Nat
  | s :: _ => if s == '+' || s == '-' then 1 else 0
  | [] => 0

/-- Length of an exponent: its letter, an optional sign and at least one digit. -/
def exponentLength : List Char → Nat
  | e :: cs =>
    if e == 'e' || e == 'E' then
      let digits := spanLength Char.isDigit (cs.drop (signLength cs))
      if digits = 0 then 0 else 1 + signLength cs + digits
    else 0
  | [] => 0

def numberLexeme (d : Char) (cs : List Char) : Kind × Nat :=
  let hex :=
    match cs with
    | x :: rest => if d == '0' && (x == 'x' || x == 'X') then spanLength isHexPart rest else 0
    | [] => 0
  if hex != 0 then (.number, hex + 1)
  else
    let whole := spanLength isDigitPart cs
    let rest := cs.drop whole
    if rest.head? == some 'n' then (.bigInt, whole + 1)
    else
      let fraction := fractionLength rest
      (.number, whole + fraction + exponentLength (rest.drop fraction))

def slashLexeme (cs : List Char) : Kind × Nat :=
  match cs with
  | '/' :: rest => (.lineComment, spanLength (· != '\n') rest + 1)
  | '*' :: rest =>
    match commentBody? rest with
    | some n => (.blockComment, n + 3)
    | none => (.unknown, cs.length)
  | _ => (.punct, 0)

/-- A token of a given kind between quotes, after the first of them. -/
def quotedLexeme (kind : Kind) (quote : Char) (multiline : Bool) (cs : List Char) : Kind × Nat :=
  match quotedBody quote multiline cs with
  | (n, true) => (kind, n + 1)
  | (n, false) => (.unknown, n)

def dotLexeme (cs : List Char) : Kind × Nat :=
  match cs with
  | '.' :: '.' :: _ => (.ellipsis, 2)
  | _ => (.dot, 0)

/-- The token that begins with one character and may go on with a second. -/
def pairedLexeme (second : Char) (pair alone : Kind) (cs : List Char) : Kind × Nat :=
  if cs.head? = some second then (pair, 1) else (alone, 0)

/-- The kind of the token that begins with `c`, and how many of the following characters belong to it. -/
def lexeme (c : Char) (cs : List Char) : Kind × Nat :=
  if isIdentStart c then (.ident, spanLength isIdentPart cs)
  else if c.isDigit then numberLexeme c cs
  else
    match c with
    | '/' => slashLexeme cs
    | '\x22' | '\x27' => quotedLexeme .str c false cs
    | '\x60' => quotedLexeme .template c true cs
    | '(' => (.lparen, 0)
    | ')' => (.rparen, 0)
    | '\x7b' => (.lbrace, 0)
    | '\x7d' => (.rbrace, 0)
    | '[' => (.lbracket, 0)
    | ']' => (.rbracket, 0)
    | '.' => dotLexeme cs
    | '?' => pairedLexeme '.' .questionDot .question cs
    | '=' => pairedLexeme '>' .fatArrow .eq cs
    | ',' => (.comma, 0)
    | ';' => (.semi, 0)
    | ':' => (.colon, 0)
    | '|' => (.pipe, 0)
    | '&' => (.amp, 0)
    | '<' => (.lt, 0)
    | '>' => (.gt, 0)
    | '-' => (.minus, 0)
    | c => if isPunct c then (.punct, 0) else (.unknown, 0)

/-! ### Scanning -/

def scanFrom (start : Nat) (cs : List Char) : List Token :=
  match cs with
  | [] => []
  | c :: rest =>
    if isSpace c then scanFrom (start + c.utf8Size) rest
    else
      let n := (lexeme c rest).2
      let body := c :: rest.take n
      ⟨(lexeme c rest).1, String.ofList body, start⟩ ::
        scanFrom (start + Text.byteCount body) (rest.drop n)
termination_by cs.length
decreasing_by
  all_goals simp only [List.length_drop, List.length_cons]
  all_goals omega

def scan (text : String) : List Token := scanFrom 0 text.toList

theorem scanFrom_nil (start : Nat) : scanFrom start [] = [] := by rw [scanFrom]

theorem scanFrom_cons_space {c : Char} (h : isSpace c = true) (start : Nat) (cs : List Char) :
    scanFrom start (c :: cs) = scanFrom (start + c.utf8Size) cs := by
  rw [scanFrom, if_pos h]

theorem scanFrom_cons_of_not_space {c : Char} (h : isSpace c = false) (start : Nat) (cs : List Char) :
    scanFrom start (c :: cs) =
      ⟨(lexeme c cs).1, String.ofList (c :: cs.take (lexeme c cs).2), start⟩ ::
        scanFrom (start + Text.byteCount (c :: cs.take (lexeme c cs).2))
          (cs.drop (lexeme c cs).2) := by
  rw [scanFrom, if_neg (by simp [h])]

end SchemaSplice.Source
