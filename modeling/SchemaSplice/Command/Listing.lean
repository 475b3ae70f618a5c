import SchemaSplice.Run.Report
import SchemaSplice.Text.Quoted
/-!
# Listings

What a run shows of its reports: the files that would change, the procedures as lines of text, and the procedures as
JSON with two blanks for each level.
-/

namespace SchemaSplice.Command

def lines (texts : List String) : String := String.join (texts.map (· ++ "\n"))

def pendingLine (report : FileReport) : String :=
  s!"{report.path} ({report.procedures.countP (·.changed)} procedures)"

def pendingLines (reports : List FileReport) : List String :=
  (reports.filter (·.output.isSome)).map pendingLine

def procedureLine (path : String) (p : ProcedureReport) : String :=
  s!"{path}:{p.line} {p.kind.name} {p.validator}"

def procedureLines (reports : List FileReport) : List String :=
  reports.flatMap fun report => report.procedures.map (procedureLine report.path)

/-! ### JSON -/

def boolText (b : Bool) : String := if b then "true" else "false"

/-- Lines between brackets: the items with commas between them, one level deeper. -/
def bracketed (start stop : String) (indent : String) (items : List String) : String :=
  if items.isEmpty then start ++ stop
  else
    let inner := indent ++ "  "
    start ++ "\n" ++ String.intercalate ",\n" (items.map (inner ++ ·)) ++ "\n" ++ indent ++ stop

def jsonField (name value : String) : String := Text.quoteJson name ++ ": " ++ value

def procedureJson (indent : String) (p : ProcedureReport) : String :=
  bracketed "\x7b" "\x7d" indent [
    jsonField "line" (toString p.line),
    jsonField "kind" (Text.quoteJson p.kind.name),
    jsonField "strategy" (Text.quoteJson p.strategy),
    jsonField "validator" (Text.quoteJson p.validator),
    jsonField "changed" (boolText p.changed),
    jsonField "replacedHandwritten" (boolText p.replacedHandwritten)]

def reportJson (indent : String) (report : FileReport) : String :=
  let inner := indent ++ "  "
  bracketed "\x7b" "\x7d" indent [
    jsonField "path" (Text.quoteJson report.path),
    jsonField "procedures"
      (bracketed "[" "]" inner (report.procedures.map (procedureJson (inner ++ "  "))))]

def reportsJson (reports : List FileReport) : String :=
  bracketed "[" "]" "" (reports.map (reportJson "  "))

end SchemaSplice.Command
