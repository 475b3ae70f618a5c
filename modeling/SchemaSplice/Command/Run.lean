import SchemaSplice.Command.Listing
import SchemaSplice.Command.Request
import SchemaSplice.Configuration.Config
import SchemaSplice.Disk.Basic
import SchemaSplice.Run.Pass
/-!
# Runs

A run loads the configuration, lets the command line override it, finds and reads the files, deals with them and tells
what came of it. If a step before the files are dealt with fails, the run stops there.
-/

namespace SchemaSplice.Command

open SchemaSplice.Configuration (Config)
open Disk (DiskError)
open Source (File)
open Declaration (Project)

inductive Stop where
  | config (cause : Failure)
  /-- An entry of the disk cannot be read as the configuration. -/
  | configDisk (path : String) (cause : DiskError)
  | zeroDepth
  | pattern (text : String) (cause : Path.PatternError)
  | noMatch (text : String)
  /-- A file cannot be read. -/
  | input (path : String) (cause : DiskError)
deriving DecidableEq, Repr

/-- The text about an entry of the disk that cannot be read; the cause is told with the path, then on its own. -/
def diskText (path : String) (cause : DiskError) : String :=
  s!"{(Failure.io path cause.message).message}: {cause.message}"

/-- The text of a stop: what was being done, then what went wrong. -/
def Stop.message : Stop → String
  | config cause => s!"failed to load config: {cause.message}"
  | configDisk path cause => s!"failed to load config: {diskText path cause}"
  | zeroDepth => "--max-depth must be positive"
  | pattern text cause =>
    s!"failed to resolve input file paths: invalid glob pattern: {text}: {cause.message}"
  | noMatch text =>
    s!"failed to resolve input file paths: glob pattern matched no files: {text}"
  | input path cause => s!"failed to read input files: {diskText path cause}"

/-- What a run leaves behind besides changed files. -/
structure Transcript where
  stdout : String := ""
  stderr : String := ""
  log : List Event := []
  exitCode : Nat := 0
  /-- Why the run stopped early. -/
  stop : Option Stop := none
deriving DecidableEq, Repr

/-! ### Settings -/

/-- The configuration that is looked for when none is named. -/
def defaultConfigPath : String := "outputify.json"

variable {m : Type → Type} [Monad m]

def loadConfigAt (disk : Disk m) (path : String) : m (Except Stop Config) := do
  match ← disk.read path with
  | .error e => return .error (.configDisk path e)
  | .ok text => return (Config.parse path text).mapError .config

/-- The configuration that is named, or the one in the working directory, or the default. -/
def loadConfig (disk : Disk m) : Option String → m (Except Stop Config)
  | some path => loadConfigAt disk path
  | none => do
    if ← disk.isFile defaultConfigPath then loadConfigAt disk defaultConfigPath
    else return .ok {}

/-- The settings of a configuration with those of a request on top. -/
def Request.settings (r : Request) (c : Config) : Except Stop Settings := do
  if r.maxDepth = some 0 then throw .zeroDepth
  return {
    factories := if r.factories.isEmpty then c.factories else r.factories
    maxDepth := r.maxDepth.getD c.maxDepth
    source := r.source.getD c.source }

/-! ### Files -/

/-- Declaration files have no handlers. -/
def isDeclarationFile (path : String) : Bool := path.endsWith ".d.ts"

def pathsOf (disk : Disk m) (text : String) : m (Except Stop (List String)) := do
  if !Path.isPattern text then return .ok [text]
  match Path.Pattern.parse text with
  | .error e => return .error (.pattern text e)
  | .ok pattern =>
    let found := (← disk.expand pattern).filter (!isDeclarationFile ·)
    return if found.isEmpty then .error (.noMatch text) else .ok found

/-- The results for all elements of a list, or the first failure; nothing is done after it. -/
def forAll (f : α → m (Except ε β)) : List α → m (Except ε (List β))
  | [] => return .ok []
  | a :: rest => do
    match ← f a with
    | .error e => return .error e
    | .ok b => return (← forAll f rest).map (b :: ·)

def loadFile (disk : Disk m) (path : String) : m (Except Stop File) :=
  return (← disk.read path).map (File.parse path) |>.mapError (.input path)

def failureText : String × Failure → String
  | (_, f@(.procedure ..)) | (_, f@(.io ..)) => f.message
  | (path, f) => s!"{path}: {f.message}"

def store (disk : Disk m) (report : FileReport) : m (Except Failure Unit) := do
  match report.output with
  | none => return .ok ()
  | some text => return (← disk.write report.path text).mapError fun e => .io report.path e.message

/-! ### Outcomes -/

def Request.results (r : Request) (o : Outcome) : String :=
  match r.action with
  | .write => ""
  | .check => lines (pendingLines o.reports)
  | .print => if r.json then lines [reportsJson o.reports] else lines (procedureLines o.reports)

/-- What is told about an outcome where messages go, after the failures. -/
def Request.remarks (r : Request) (o : Outcome) : List String :=
  let s := o.summary
  if r.silent then []
  else
    match r.action with
    | .write =>
      s!"Modified {s.filesChanged} files ({s.proceduresChanged} procedures updated)" ::
        (if s.warnings > 0 then [s!"warning: replaced {s.warnings} hand-written validators"] else [])
    | .check => [s!"Checked {s.filesChanged} files would change"]
    | .print => []

/-- The exit code after an outcome: files that failed count, and, when checking, files that would change. -/
def Request.exitCode (r : Request) (o : Outcome) : Nat :=
  if o.summary.filesFailed > 0 || (r.action = .check && o.summary.filesChanged > 0) then 1 else 0

def stopped (stderr : String) (stop : Stop) : Transcript :=
  { stderr, exitCode := 1, stop := some stop }

def resolve (disk : Disk m) (r : Request) : m (Except Stop (Settings × List String)) := do
  match ← loadConfig disk r.config with
  | .error e => return .error e
  | .ok config =>
    match r.settings config with
    | .error e => return .error e
    | .ok settings =>
      let texts := if r.files.isEmpty then config.files else r.files
      return (← forAll (pathsOf disk) texts).map fun found => (settings, Path.ordered found.flatten)

def finish (disk : Disk m) (r : Request) (settings : Settings) (announcement : String)
    (files : List File) : m Transcript := do
  let persist := if r.action = .write then store disk else fun _ => return .ok ()
  let (outcome, log) ← processWith persist (Project.ofFiles files) settings
  return {
    stdout := r.results outcome
    stderr := announcement ++ lines (outcome.failures.map ("error: " ++ failureText ·)) ++
      lines (r.remarks outcome)
    log
    exitCode := r.exitCode outcome }

/-- Does what a command line asks for. -/
def run (disk : Disk m) (r : Request) : m Transcript := do
  match ← resolve disk r with
  | .error stop => return stopped "" stop
  | .ok (settings, paths) =>
    let announcement := if r.silent then "" else lines [s!"Scanning {paths.length} files"]
    match ← forAll (loadFile disk) paths with
    | .error stop => return stopped announcement stop
    | .ok files => finish disk r settings announcement files

end SchemaSplice.Command
