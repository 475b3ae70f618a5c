import SchemaSplice.Source.File
/-!
# Projects and their declarations

A project is a list of files together with every declaration found in them, in the order of the files and of
the text. Declarations are recognized by a word, a name and the token after it; a word that stands after a dot
declares nothing. A name is looked up in the current file first and otherwise in the first file that declares it.
-/

namespace SchemaSplice.Declaration

open Source

inductive TypeForm where
  | typeAlias
  | interface
  | enum
deriving DecidableEq, Repr

inductive ValueForm where
  | function
  | variable
deriving DecidableEq, Repr

/-- A declaration in a project: the file, and the token of the declared name. -/
structure Decl (Form : Type) where
  name : String
  file : Nat
  form : Form
  token : Nat
deriving DecidableEq, Repr

/-! ### Recognizing declarations -/

def typeForm? (f : File) (i : Nat) : Option TypeForm :=
  let next := f.kind? (i + 2)
  match f.word? i with
  | some "type" => if next == some .eq || next == some .lt then some .typeAlias else none
  | some "interface" =>
    if next == some .lbrace || next == some .lt || f.hasWord (i + 2) "extends" then some .interface
    else none
  | some "enum" => if next == some .lbrace then some .enum else none
  | _ => none

def valueForm? (f : File) (i : Nat) : Option ValueForm :=
  let next := f.kind? (i + 2)
  match f.word? i with
  | some "function" => if next == some .lparen || next == some .lt then some .function else none
  | some "const" | some "let" | some "var" =>
    if next == some .colon || next == some .eq then some .variable else none
  | _ => none

/-- All declarations of a file that a test recognizes at their first word. -/
def declsIn (form? : File → Nat → Option Form) (index : Nat) (f : File) : List (Decl Form) :=
  (List.range f.size).filterMap fun i =>
    if f.afterDot i then none
    else
      match f.word? (i + 1), form? f i with
      | some name, some form => some ⟨name, index, form, i + 1⟩
      | _, _ => none

/-! ### Projects -/

structure Project where
  files : Array File
  types : List (Decl TypeForm)
  values : List (Decl ValueForm)
deriving Inhabited

/-- Indexes files. -/
def Project.ofFiles (files : List File) : Project :=
  let indexed := files.zipIdx
  { files := files.toArray
    types := indexed.flatMap fun (f, i) => declsIn typeForm? i f
    values := indexed.flatMap fun (f, i) => declsIn valueForm? i f }

/-- The declarations of a name that count in the file `current`: its own if it has any, otherwise those of
the first file that has some. -/
def visible (decls : List (Decl Form)) (name : String) (current : Nat) : List (Decl Form) :=
  let named := decls.filter (·.name == name)
  match named with
  | [] => []
  | first :: _ =>
    let home := if named.any (·.file == current) then current else first.file
    named.filter (·.file == home)

namespace Project

/-- A file of the project; there is an empty one past the last. -/
def file (p : Project) (i : Nat) : File := p.files[i]?.getD (File.parse "" "")

def typesNamed (p : Project) (name : String) (current : Nat) : List (Decl TypeForm) :=
  visible p.types name current

def valueNamed? (p : Project) (name : String) (current : Nat) : Option (Decl ValueForm) :=
  (visible p.values name current).head?

end Project

theorem mem_of_mem_visible {decls : List (Decl Form)} {name : String} {current : Nat} {d : Decl Form}
    (h : d ∈ visible decls name current) : d ∈ decls ∧ d.name = name := by
  simp only [visible] at h
  split at h
  · simp at h
  · have := (List.mem_filter.1 h).1
    simpa using List.mem_filter.1 this

theorem Project.valueNamed?_some {p : Project} {name : String} {current : Nat} {d : Decl ValueForm}
    (h : p.valueNamed? name current = some d) : d ∈ p.values ∧ d.name = name :=
  mem_of_mem_visible (List.mem_of_mem_head? h)

end SchemaSplice.Declaration
