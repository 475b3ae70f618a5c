import SchemaSplice.Run.Report
import SchemaSplice.Configuration.Scalar
import SchemaSplice.Text.Blank
/-!
# Configurations

A configuration is a JSON object with optional fields, or a list of the fields' values in order. Text after the value is
ignored. The first problem in the order of the text is the one that is reported; only a configuration that can be
read is checked for values that make no sense.
-/

namespace SchemaSplice.Configuration

open Text (byteCount)

structure Config where
  factories : List String := ({} : Settings).factories
  maxDepth : Nat := ({} : Settings).maxDepth
  source : String := ({} : Settings).source
  /-- Paths and patterns that are scanned when none are given. -/
  files : List String := ["./src/**/*.ts"]
deriving DecidableEq, Repr

/-- What a run is told by a configuration. -/
def Config.settings (c : Config) : Settings := ⟨c.factories, c.maxDepth, c.source⟩

/-! ### Field values -/

def within (step : Step) (r : Except Located α) : Except Located α :=
  r.mapError fun l => { l with place := step :: l.place }

def atValue (r : Except Stop α) : Except Located α := r.mapError fun s => ⟨[], s⟩

def readString (cs : List Char) : Except Stop (Taken cs String) :=
  match h : skipBlanks cs with
  | [] => .error ⟨.eofInValue, 0⟩
  | '"' :: rest =>
    match stringRest rest with
    | .error e => .error e
    | .ok r => .ok (r.widen (by
        have := length_skipBlanks_le cs
        simp only [h, List.length_cons] at this
        omega))
  | cs => .error (wrongKind "a string" cs)

/-- A natural number; blanks may stand before it. -/
def readNat (cs : List Char) : Except Stop (Nat × List Char) :=
  match skipBlanks cs with
  | [] => .error ⟨.eofInValue, 0⟩
  | cs =>
    match number? cs with
    | some (.ok (.integer (.ofNat n), rest)) => .ok (n, rest)
    | some (.ok (.integer n, rest)) => .error (here (.wrongValue (.integer n) "usize") rest)
    | _ => .error (wrongKind "usize" cs)

def nextElement (count : Nat) (cs : List Char) : Except Stop (Option { r : List Char // r.length ≤ cs.length }) :=
  have hb := length_skipBlanks_le cs
  match h : skipBlanks cs with
  | [] => .error ⟨.eofInList, 0⟩
  | ']' :: _ => .ok none
  | c :: rest =>
    if count == 0 then .ok (some ⟨c :: rest, by rw [← h]; exact hb⟩)
    else if c == ',' then
      match h' : skipBlanks rest with
      | [] => .error ⟨.eofInValue, 0⟩
      | ']' :: rest => .error (peeked .trailingComma (']' :: rest))
      | d :: rest' => .ok (some ⟨d :: rest', by
          have := length_skipBlanks_le rest
          simp only [h, List.length_cons] at hb
          simp only [h'] at this
          omega⟩)
    else .error (peeked .expectedCommaOrBracket (c :: rest))

def listEnd (cs : List Char) : Except Stop (List Char) :=
  match skipBlanks cs with
  | [] => .error ⟨.eofInList, 0⟩
  | ']' :: rest => .ok rest
  | ',' :: rest =>
    match skipBlanks rest with
    | ']' :: rest => .error (peeked .trailingComma (']' :: rest))
    | rest => .error (peeked .trailingCharacters rest)
  | cs => .error (peeked .trailingCharacters cs)

def stringsRest (seen : List String) (cs : List Char) : Except Located (List String × List Char) :=
  match nextElement seen.length cs with
  | .error e => .error ⟨[], e⟩
  | .ok none => (atValue (listEnd cs)).map (seen, ·)
  | .ok (some ⟨start, _⟩) =>
    match readString start with
    | .error e => .error ⟨[.index seen.length], e⟩
    | .ok ⟨(s, rest), _⟩ => stringsRest (seen ++ [s]) rest
termination_by cs.length
decreasing_by
  simp only at *
  omega

def readStrings (cs : List Char) : Except Located (List String × List Char) :=
  match skipBlanks cs with
  | [] => .error ⟨[], ⟨.eofInValue, 0⟩⟩
  | '[' :: rest => stringsRest [] rest
  | cs => .error ⟨[], wrongKind "a sequence" cs⟩

/-! ### Fields -/

inductive Field where
  | procedures
  | maxDepth
  | zodModule
  | files
deriving DecidableEq, Repr

namespace Field

def all : List Field := [procedures, maxDepth, zodModule, files]

def name : Field → String
  | procedures => "procedures"
  | maxDepth => "maxDepth"
  | zodModule => "zodModule"
  | files => "files"

def read (field : Field) (c : Config) (cs : List Char) : Except Located (Config × List Char) :=
  match field with
  | procedures => (readStrings cs).map fun (factories, rest) => ({ c with factories }, rest)
  | maxDepth => (atValue (readNat cs)).map fun (n, rest) => ({ c with maxDepth := n }, rest)
  | zodModule => (atValue (readString cs)).map fun r => ({ c with source := r.1.1 }, r.1.2)
  | files => (readStrings cs).map fun (paths, rest) => ({ c with files := paths }, rest)

end Field

/-- The start of the next key of an object, if there is one, after `count` fields: what follows its opening quote. -/
def nextKey (count : Nat) (cs : List Char) : Except Stop (Option (List Char)) :=
  match skipBlanks cs with
  | [] => .error ⟨.eofInObject, 0⟩
  | '\x7d' :: _ => .ok none
  | c :: rest =>
    if count == 0 then
      if c == '"' then .ok (some rest) else .error (peeked .keyMustBeString (c :: rest))
    else if c == ',' then
      match skipBlanks rest with
      | [] => .error ⟨.eofInValue, 0⟩
      | '"' :: rest => .ok (some rest)
      | '\x7d' :: rest => .error (peeked .trailingComma ('\x7d' :: rest))
      | rest => .error (peeked .keyMustBeString rest)
    else .error (peeked .expectedCommaOrBrace (c :: rest))

/-- Bytes left when the key before `cs` is refused: blanks and a closing brace after it count as read. -/
def leftAfterKey (cs : List Char) : Nat :=
  match skipBlanks cs with
  | '\x7d' :: rest => byteCount rest
  | cs => byteCount cs

def afterColon (cs : List Char) : Except Stop (List Char) :=
  match skipBlanks cs with
  | [] => .error ⟨.eofInObject, 0⟩
  | ':' :: rest => .ok rest
  | cs => .error (peeked .expectedColon cs)

/-- The fields of an object after its opening brace. `unread` are the fields that may still come and `count` how many
have come; each field comes once, so reading ends with the list of them. -/
def fieldsRest (c : Config) (unread : List Field) (count : Nat) (cs : List Char) : Except Located Config :=
  match nextKey count cs with
  | .error e => .error ⟨[.unknown], e⟩
  | .ok none => .ok c
  | .ok (some start) =>
    match stringRest start with
    | .error e => .error ⟨[.unknown], e⟩
    | .ok ⟨(name, rest), _⟩ =>
      match _h : unread.find? (·.name == name) with
      | none =>
        if Field.all.any (·.name == name) then .error ⟨[], ⟨.duplicateField name, leftAfterKey rest⟩⟩
        else
          .error ⟨[.key name], ⟨.unknownField name (Field.all.map Field.name), leftAfterKey rest⟩⟩
      | some field =>
        match afterColon rest with
        | .error e => .error ⟨[], e⟩
        | .ok value =>
          match within (.key name) (field.read c value) with
          | .error e => .error e
          | .ok (c, rest) => fieldsRest c (unread.erase field) (count + 1) rest
termination_by unread.length
decreasing_by
  have hmem := List.mem_of_find?_eq_some _h
  rw [List.length_erase_of_mem hmem]
  have := List.length_pos_of_mem hmem
  omega

/-- The values of fields in a list after its opening bracket; missing ones keep their defaults. -/
def valuesRest (c : Config) (count : Nat) : List Field → List Char → Except Located Config
  | [], cs => (atValue (listEnd cs)).map fun _ => c
  | field :: fields, cs =>
    match nextElement count cs with
    | .error e => .error ⟨[], e⟩
    | .ok none => .ok c
    | .ok (some ⟨start, _⟩) =>
      match within (.index count) (field.read c start) with
      | .error e => .error e
      | .ok (c, rest) => valuesRest c (count + 1) fields rest

def readConfig (cs : List Char) : Except Located Config :=
  match skipBlanks cs with
  | [] => .error ⟨[], ⟨.eofInValue, 0⟩⟩
  | '\x7b' :: rest => fieldsRest {} Field.all 0 rest
  | '[' :: rest => valuesRest {} 0 Field.all rest
  | cs => .error ⟨[], wrongKind "struct Config" cs⟩

/-! ### Checks -/

def Config.complaint? (c : Config) : Option String :=
  if c.factories.isEmpty then some "`procedures` must name at least one factory"
  else if c.maxDepth == 0 then some "`maxDepth` must be positive"
  else if Text.allBlank c.source then some "`zodModule` must not be empty"
  else none

def Config.parse (path text : String) : Except Failure Config :=
  match readConfig text.toList with
  | .error e => .error (.config path (e.message text))
  | .ok c =>
    match c.complaint? with
    | some complaint => .error (.config path complaint)
    | none => .ok c

end SchemaSplice.Configuration
