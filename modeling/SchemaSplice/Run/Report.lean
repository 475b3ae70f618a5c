import SchemaSplice.Chain.Procedure
import SchemaSplice.Run.Failure
/-!
# Reports

What a run says about the files it has looked at.
-/

namespace SchemaSplice

open Chain

structure Settings where
  /-- Words that start a chain. -/
  factories : List String := ["publicProcedure", "protectedProcedure", "procedure"]
  /-- How deep a type may be. -/
  maxDepth : Nat := 50
  /-- The module that the validator namespace is imported from. -/
  source : String := "zod"
deriving DecidableEq, Repr

/-- Counts over files. -/
structure Summary where
  filesScanned : Nat := 0
  filesChanged : Nat := 0
  filesFailed : Nat := 0
  proceduresChanged : Nat := 0
  warnings : Nat := 0
deriving DecidableEq, Repr

def Summary.add (a b : Summary) : Summary where
  filesScanned := a.filesScanned + b.filesScanned
  filesChanged := a.filesChanged + b.filesChanged
  filesFailed := a.filesFailed + b.filesFailed
  proceduresChanged := a.proceduresChanged + b.proceduresChanged
  warnings := a.warnings + b.warnings

structure ProcedureReport where
  line : Nat
  kind : ProcedureKind
  strategy : String
  validator : String
  changed : Bool
  replacedHandwritten : Bool
deriving DecidableEq, Repr

structure FileReport where
  path : String
  procedures : List ProcedureReport
  /-- The new text, if it differs. -/
  output : Option String
  summary : Summary
deriving DecidableEq, Repr

/-- What was done with all files. -/
structure Outcome where
  reports : List FileReport := []
  failures : List (String × Failure) := []
  summary : Summary := {}
deriving DecidableEq, Repr

namespace Outcome

def addReport (o : Outcome) (report : FileReport) : Outcome :=
  { o with reports := o.reports ++ [report], summary := o.summary.add report.summary }

def addFailure (o : Outcome) (path : String) (failure : Failure) : Outcome :=
  { o with failures := o.failures ++ [(path, failure)]
           summary := o.summary.add { filesScanned := 1, filesFailed := 1 } }

end Outcome

end SchemaSplice
