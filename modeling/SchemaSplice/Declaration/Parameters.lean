import SchemaSplice.Annotation.Parser
/-!
# Type parameters

The list `<A, B extends X = Y>` after a declared name: the names with the place of their defaults. Binding gives each
parameter its argument, else its default read with the parameters before it bound, else an unknown type.
-/

namespace SchemaSplice.Declaration

open Annotation Source SchemaSplice.Types

structure Parameter where
  name : String
  default? : Option Nat
deriving DecidableEq, Repr

/-- The end of the parameter whose name stands before token `j`, and its default: the comma outside all nested angle
brackets, or `close`. Brackets are stepped over. -/
def parameterEnd? (f : File) (close depth j : Nat) (default? : Option Nat) : Option (Option Nat × Nat) :=
  if close ≤ j then some (default?, j)
  else
    match f.kind? j with
    | some .lt => parameterEnd? f close (depth + 1) (j + 1) default?
    | some .gt => parameterEnd? f close (depth - 1) (j + 1) default?
    | some k =>
      if k == .comma && depth == 0 then some (default?, j)
      else if k == .eq && depth == 0 then parameterEnd? f close depth (j + 1) (some (j + 1))
      else if k.opens then
        match f.closer? j with
        | some ⟨c, _⟩ => parameterEnd? f close depth (c + 1) default?
        | none => none
      else parameterEnd? f close depth (j + 1) default?
    | none => parameterEnd? f close depth (j + 1) default?
termination_by close - j

theorem le_of_parameterEnd? {f : File} {close depth j : Nat} {d e : Option Nat} {q : Nat}
    (h : parameterEnd? f close depth j d = some (e, q)) : j ≤ q := by
  fun_induction parameterEnd? f close depth j d with
  | case1 => simp only [Option.some.injEq, Prod.mk.injEq] at h; omega
  | case2 _ _ _ _ _ ih => have := ih h; omega
  | case3 _ _ _ _ _ ih => have := ih h; omega
  | case4 => simp only [Option.some.injEq, Prod.mk.injEq] at h; omega
  | case5 _ _ _ _ _ _ _ _ _ _ ih => have := ih h; omega
  | case6 _ _ _ _ _ _ _ _ _ _ _ _ _ _ ih => have := ih h; omega
  | case7 => simp at h
  | case8 _ _ _ _ _ _ _ _ _ _ _ ih => have := ih h; omega
  | case9 _ _ _ _ _ ih => have := ih h; omega

/-- Whether the word at token `j` is a modifier of the parameter after it. -/
def isParameterModifier (f : File) (j : Nat) : Bool :=
  (f.hasWord j "const" || f.hasWord j "in" || f.hasWord j "out") && f.hasKind (j + 1) .ident

def parameterName (f : File) (j : Nat) : Nat := if isParameterModifier f j then j + 1 else j

theorem le_parameterName (f : File) (j : Nat) : j ≤ parameterName f j := by
  unfold parameterName
  split <;> omega

def parametersFrom? (f : File) (close j : Nat) : Option (List Parameter) :=
  if close ≤ j then some []
  else
    match f.word? (parameterName f j) with
    | none => none
    | some name =>
      match he : parameterEnd? f close 0 (parameterName f j + 1) none with
      | none => none
      | some (default?, stop) =>
        (parametersFrom? f close (stop + 1)).map (⟨name, default?⟩ :: ·)
termination_by close - j
decreasing_by
  have hs := le_parameterName f j
  have hstop := le_of_parameterEnd? he
  omega

def parameters? (f : File) (i : Nat) : Option (List Parameter × Nat) :=
  if f.hasKind i .lt then
    match f.anglesFrom? i with
    | none => none
    | some stop => (parametersFrom? f (stop - 1) (i + 1)).map (·, stop)
  else some ([], i)

/-- Parameters bound to types, the last one first. -/
abbrev Bindings := List (String × TypeId)

def bindParameters (f : File) (scope : Scope) (bound : Bindings) :
    List Parameter → List TypeId → Reading Bindings
  | [], _ => return bound
  | p :: ps, arg :: args => bindParameters f scope ((p.name, arg) :: bound) ps args
  | p :: ps, [] => do
    let type ← match p.default? with
      | some start => (·.value) <$> (typeAt ⟨f, scope, bound⟩ start).adaptExcept (·.cause)
      | none => onTable (Table.insert .unknown)
    bindParameters f scope ((p.name, type) :: bound) ps []

def malformed (f : File) (i : Nat) (expected : String) : TypeError :=
  .unexpected (f.tokenText i) (f.span i).start expected

end SchemaSplice.Declaration
