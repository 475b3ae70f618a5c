import SchemaSplice.Declaration.Resolve
import SchemaSplice.Log
/-!
# Types of values and signatures

Queries about one file, asked one after the other with a shared state. The type of a value is what its declaration says:
the annotation of a variable, the annotated result of a function, or the type of another value that it names. Nothing
is inferred from expressions. Answers about values are remembered by name; a name counts as unresolved while it
is being looked at, so values that name each other in a circle stay unresolved.
-/

namespace SchemaSplice.Declaration

open Annotation Source SchemaSplice.Types

structure Inquiry where
  types : TypeState := {}
  values : List (String × Option TypeId) := []
  /-- Events, the last one first. -/
  log : List Event := []
deriving Inhabited

namespace Inquiry

/-- The table of all types found. -/
def table (s : Inquiry) : Table := s.types.table

def remember (s : Inquiry) (name : String) (type : Option TypeId) : Inquiry :=
  { s with values := (name, type) :: s.values }

def onTable (s : Inquiry) (change : TableM α) : α × Inquiry :=
  let (a, table) := change s.types.table
  (a, { s with types := { s.types with table } })

end Inquiry

/-- The type written at token `start` of a file; an annotation that cannot be read is reported and gives none. -/
def annotationAt (p : Project) (s : Inquiry) (file start : Nat) : Option TypeId × Inquiry :=
  let f := p.file file
  match typeAt ⟨f, topScope p file, []⟩ start s.types with
  | .ok parsed types => (some parsed.value, { s with types })
  | .error e types =>
    (none, { s with types, log := .unresolvedType f.path (f.lineAt start) e.cause :: s.log })

inductive ValueSource where
  /-- The type is written at a token. -/
  | type (start : Nat)
  /-- The value is a function whose result is written at a token. -/
  | result (start : Nat)
  /-- The value is another one. -/
  | value (name : String)
  | nothing
deriving DecidableEq, Repr

/-- Where the type of a declared value is found. -/
def valueSource (f : File) (d : Decl ValueForm) : ValueSource :=
  match d.form with
  | .function =>
    match f.parens? (d.token + 1) with
    | some ⟨(_, rparen), _⟩ =>
      if f.hasKind (rparen + 1) .colon then .result (rparen + 2) else .nothing
    | none => .nothing
  | .variable =>
    if f.hasKind (d.token + 1) .colon then .type (d.token + 2)
    else
      let start := d.token + 2
      match f.handlerForm start (f.expressionEnd start) with
      | .function (some at?) => .result at?
      | .function none => .nothing
      | .reference name => .value name
      | .other => .nothing

/-- How many declared values have no answer yet. -/
def unanswered (p : Project) (s : Inquiry) : Nat :=
  (p.values.filter fun d => (s.values.lookup d.name).isNone).length

theorem unanswered_remember_lt {p : Project} {s : Inquiry} {name : String} {current : Nat}
    {d : Decl ValueForm} (hs : s.values.lookup name = none)
    (hd : p.valueNamed? name current = some d) :
    unanswered p (s.remember name none) < unanswered p s := by
  obtain ⟨hmem, hname⟩ := Project.valueNamed?_some hd
  simp only [unanswered, Inquiry.remember, ← List.countP_eq_length_filter]
  have himp : ∀ x : Decl ValueForm,
      (List.lookup x.name ((name, none) :: s.values)).isNone = true →
        (s.values.lookup x.name).isNone = true := by
    intro x hx
    simp only [List.lookup_cons] at hx
    split at hx
    · simp at hx
    · exact hx
  clear hd
  generalize p.values = ds at hmem ⊢
  induction ds with
  | nil => simp at hmem
  | cons e es ih =>
    have hmono : es.countP (fun d => (List.lookup d.name ((name, none) :: s.values)).isNone) ≤
        es.countP (fun d => (s.values.lookup d.name).isNone) :=
      List.countP_mono_left fun x _ => himp x
    simp only [List.countP_cons]
    rcases List.mem_cons.1 hmem with rfl | hin
    · have h1 : (List.lookup d.name ((name, (none : Option TypeId)) :: s.values)).isNone = false := by
        simp [hname]
      have h2 : (s.values.lookup d.name).isNone = true := by simp [hname, hs]
      simp only [h1, h2, Bool.false_eq_true, if_false, if_true]
      omega
    · have hlt := ih hin
      by_cases he : (List.lookup e.name ((name, (none : Option TypeId)) :: s.values)).isNone = true
      · simp only [he, himp e he, if_true]
        omega
      · simp only [he, Bool.false_eq_true, if_false]
        omega

def valueType (p : Project) (s : Inquiry) (current : Nat) (name : String) :
    Option TypeId × Inquiry :=
  match hs : s.values.lookup name with
  | some known => (known, s)
  | none =>
    let pending := s.remember name none
    match hd : p.valueNamed? name current with
    | none => (none, pending)
    | some d =>
      let (type, s) : Option TypeId × Inquiry :=
        match valueSource (p.file d.file) d with
        | .type start => annotationAt p pending d.file start
        | .result start =>
          match annotationAt p pending d.file start with
          | (some result, s) =>
            let (type, s) := s.onTable (Table.function result)
            (some type, s)
          | (none, s) => (none, s)
        | .value other =>
          have := unanswered_remember_lt hs hd
          valueType p pending d.file other
        | .nothing => (none, pending)
      (type, s.remember name type)
termination_by unanswered p s

end SchemaSplice.Declaration
