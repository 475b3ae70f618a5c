import SchemaSplice.Chain.Strategy
import SchemaSplice.Import.Insert
import SchemaSplice.Run.Report
/-!
# A pass over files

A file is dealt with as a whole: if one of its procedures has no validator, or its edits cannot be made together, nothing
of it is changed. Other files are not affected.
-/

namespace SchemaSplice

open Source SchemaSplice.Types Declaration Chain

namespace Pass

structure Progress where
  edits : List Edit := []
  procedures : List ProcedureReport := []
  proceduresChanged : Nat := 0
  warnings : Nat := 0

def spliceEvents (f : File) (procedure : Procedure) (strategy : Strategy) (splice : Splice)
    (changed : Bool) : List Event :=
  let line := f.lineAt procedure.root
  (if changed then [.spliced f.path line strategy.name procedure.kind.name] else []) ++
    (if splice.replacedHandwritten then [.replacedHandwritten f.path line] else [])

def Progress.add (progress : Progress) (f : File) (procedure : Procedure) (v : Validator)
    (strategy : Strategy) (splice : Splice) (changed : Bool) : Progress where
  edits := if changed then progress.edits ++ [splice.edit] else progress.edits
  procedures := progress.procedures ++ [{
    line := f.lineAt procedure.root
    kind := procedure.kind
    strategy := strategy.name
    validator := v.print
    changed
    replacedHandwritten := splice.replacedHandwritten }]
  proceduresChanged := progress.proceduresChanged + if changed then 1 else 0
  warnings := progress.warnings + if splice.replacedHandwritten then 1 else 0

def visit (f : File) (settings : Settings) (procedure : Procedure) (progress : Progress)
    (s : Inquiry) : Except Failure Progress × Inquiry :=
  match validatorOfResult s.table settings.maxDepth procedure.returnType with
  | .error cause => (.error (.procedure f.path (f.lineAt procedure.root) cause), s)
  | .ok v =>
    let strategy := Strategy.choose procedure
    let splice := strategy.splice f v
    let changed := !splice.edit.keepsText f.text
    let events := spliceEvents f procedure strategy splice changed
    (.ok (progress.add f procedure v strategy splice changed), { s with log := events ++ s.log })

/-- The text of a file after its edits, if there are any that change it; the import is added to them. -/
def outputOf (f : File) (settings : Settings) (edits : List Edit) : Except Failure (Option String) := do
  if edits.isEmpty then return none
  let edits := edits ++ (← Import.ensure f settings.source).toList
  let text ← (applyEdits f.text edits).mapError .edits
  return if text == f.text then none else some text

/-- The report on a file, given what was done to its procedures and its new text. -/
def reportOf (f : File) (progress : Progress) (output : Option String) : FileReport where
  path := f.path
  procedures := progress.procedures
  output
  summary := {
    filesScanned := 1
    filesChanged := if output.isSome then 1 else 0
    proceduresChanged := progress.proceduresChanged
    warnings := progress.warnings }

end Pass

open Pass in
/-- Deals with one file of a project: its report or the reason why it fails, and the events in order. -/
def reportOnFile (p : Project) (index : Nat) (settings : Settings) :
    Except Failure FileReport × List Event :=
  let f := p.file index
  let (result, s) := visitProcedures p index settings.factories (visit f settings) {}
  let report := do
    let progress ← result
    return reportOf f progress (← outputOf f settings progress.edits)
  (report, s.log.reverse)

def stored [Monad m] (persist : FileReport → m (Except Failure Unit)) :
    Except Failure FileReport → m (Except Failure FileReport)
  | .error e => return .error e
  | .ok report => return (← persist report).map fun _ => report

/-- Deals with the files from `index` on, `count` of them. A report counts only if `persist` can store its text. -/
def processFrom [Monad m] (persist : FileReport → m (Except Failure Unit)) (p : Project)
    (settings : Settings) : (count index : Nat) → Outcome → List Event → m (Outcome × List Event)
  | 0, _, outcome, log => return (outcome, log)
  | count + 1, index, outcome, log => do
    let (result, events) := reportOnFile p index settings
    match ← stored persist result with
    | .ok report =>
      processFrom persist p settings count (index + 1) (outcome.addReport report) (log ++ events)
    | .error e =>
      let path := (p.file index).path
      processFrom persist p settings count (index + 1) (outcome.addFailure path e)
        (log ++ events ++ [.leftUnchanged path e.message])

def processWith [Monad m] (persist : FileReport → m (Except Failure Unit)) (p : Project)
    (settings : Settings) : m (Outcome × List Event) :=
  processFrom persist p settings p.files.size 0 {} []

/-- Deals with all files of a project without storing anything. -/
def process (p : Project) (settings : Settings) : Outcome × List Event :=
  Id.run (processWith (fun _ => pure (.ok ())) p settings)

end SchemaSplice
