/-!
# Command lines

What a command line asks for, and reading it. Options may stand before and after files; a value is attached
to its option or follows it; after `--` everything is a file. An option's value is checked when the next argument that
makes sense is met, or at the end, so an argument that makes none is reported first.
-/

namespace SchemaSplice.Command

inductive Action where
  /-- Change files in place. -/
  | write
  /-- Tell which files would change. -/
  | check
  /-- Show every procedure with its validator. -/
  | print
deriving DecidableEq, Repr

/-- What a command line asks for. -/
structure Request where
  action : Action
  /-- The path of a configuration. -/
  config : Option String := none
  /-- Words that start a chain, instead of those of the configuration. -/
  factories : List String := []
  maxDepth : Option Nat := none
  source : Option String := none
  /-- Whether only errors and results are reported. -/
  silent : Bool := false
  /-- Whether procedures are shown as JSON. -/
  json : Bool := false
  /-- Paths and patterns, instead of those of the configuration. -/
  files : List String := []
deriving DecidableEq, Repr

/-- Why a command line leads to no run. -/
inductive UsageError where
  /-- Help is asked for. -/
  | help
  /-- The version is asked for. -/
  | version
  | missingCommand
  | unknownCommand
  | unknownArgument
  /-- An option has no value, or an empty path for one. -/
  | missingValue
  /-- A number cannot be read. -/
  | invalidNumber
  /-- An option that makes sense once is given twice. -/
  | repeated
  /-- A value is attached to an option that takes none. -/
  | unwantedValue
deriving DecidableEq, Repr

/-- The exit code of a command line that leads to no run. -/
def UsageError.exitCode : UsageError → Nat
  | help | version => 0
  | _ => 2

def usage : String :=
  "Usage: outputify <write|check|print|help> [-c|--config PATH] [-p|--procedures NAMES] " ++
    "[--max-depth N] [--zod-module MODULE] [-s|--silent] [--json] [FILES]..."

/-- What is told about a command line that leads to no run. -/
def UsageError.message : UsageError → String
  | help => usage
  | version => "outputify 0.1.0"
  | missingCommand => usage
  | unknownCommand => "error: unrecognized subcommand\n" ++ usage
  | unknownArgument => "error: unexpected argument\n" ++ usage
  | missingValue => "error: a value is required\n" ++ usage
  | invalidNumber => "error: invalid value\n" ++ usage
  | repeated => "error: an argument cannot be used multiple times\n" ++ usage
  | unwantedValue => "error: unexpected value\n" ++ usage

/-! ### Options -/

inductive Valued where
  | config
  | factories
  | maxDepth
  | source
deriving DecidableEq, Repr

inductive Flag where
  | silent
  | json
  | help
deriving DecidableEq, Repr

inductive Opt where
  | valued (option : Valued)
  | flag (flag : Flag)
deriving DecidableEq, Repr

def longOption? (action : Action) : String → Option Opt
  | "config" => some (.valued .config)
  | "procedures" => some (.valued .factories)
  | "max-depth" => some (.valued .maxDepth)
  | "zod-module" => some (.valued .source)
  | "silent" => some (.flag .silent)
  | "json" => if action = .print then some (.flag .json) else none
  | "help" => some (.flag .help)
  | _ => none

def shortOption? : Char → Option Opt
  | 'c' => some (.valued .config)
  | 'p' => some (.valued .factories)
  | 's' => some (.flag .silent)
  | 'h' => some (.flag .help)
  | _ => none

/-! ### Values -/

/-- A number of at most 64 bits: digits, with a plus sign in front or not. -/
def number? (text : String) : Option Nat :=
  let digits :=
    match text.toList with
    | '+' :: rest => rest
    | cs => cs
  if digits.isEmpty || !digits.all Char.isDigit then none
  else
    let n := digits.foldl (fun n c => 10 * n + (c.toNat - '0'.toNat)) 0
    if n ≤ 0xffffffffffffffff then some n else none

def Request.accept (r : Request) (value : String) : Valued → Except UsageError Request
  | .config =>
    if r.config.isSome then .error .repeated
    else if value.isEmpty then .error .missingValue
    else .ok { r with config := some value }
  | .factories => .ok { r with factories := r.factories ++ value.splitOn "," }
  | .maxDepth =>
    if r.maxDepth.isSome then .error .repeated
    else
      match number? value with
      | some n => .ok { r with maxDepth := some n }
      | none => .error .invalidNumber
  | .source => if r.source.isSome then .error .repeated else .ok { r with source := some value }

def Request.raise (r : Request) : Flag → Except UsageError Request
  | .silent => if r.silent then .error .repeated else .ok { r with silent := true }
  | .json => if r.json then .error .repeated else .ok { r with json := true }
  | .help => .error .help

/-! ### Arguments -/

structure Reading where
  request : Request
  /-- The last option, if its value is still to come or still to be checked. -/
  pending : Option (Valued × Option String) := none

/-- Deals with the last option. -/
def Reading.settle (r : Reading) : Except UsageError Request :=
  match r.pending with
  | none => .ok r.request
  | some (_, none) => .error .missingValue
  | some (option, some value) => r.request.accept value option

/-- A file, or the value that the last option waits for. -/
def Reading.plain (r : Reading) (text : String) : Except UsageError Reading := do
  match r.pending with
  | some (option, none) => return { r with pending := some (option, some text) }
  | _ =>
    let request ← r.settle
    return { request := { request with files := request.files ++ [text] } }

/-- An option with the value attached to it, if there is one. -/
def Reading.option (r : Reading) (attached : Option String) : Opt → Except UsageError Reading
  | .valued option => do
    let request ← r.settle
    match attached with
    | some value => return { request := ← request.accept value option }
    | none => return { request, pending := some (option, none) }
  | .flag flag => do
    if attached.isSome then throw .unwantedValue
    return { request := ← (← r.settle).raise flag }

def Reading.long (r : Reading) (text : List Char) : Except UsageError Reading :=
  let name := text.takeWhile (· != '=')
  let attached :=
    match text.dropWhile (· != '=') with
    | [] => none
    | _ :: value => some (String.ofList value)
  match longOption? r.request.action (String.ofList name) with
  | some option => r.option attached option
  | none => .error .unknownArgument

/-- Options by their short names, one after the other. What follows an option with a value is its value. -/
def Reading.short (r : Reading) : List Char → Except UsageError Reading
  | [] => .ok r
  | c :: rest =>
    match shortOption? c with
    | none => .error .unknownArgument
    | some (.flag flag) => do (← r.option none (.flag flag)).short rest
    | some (.valued option) =>
      match rest with
      | [] => r.option none (.valued option)
      | '=' :: value => r.option (some (String.ofList value)) (.valued option)
      | value => r.option (some (String.ofList value)) (.valued option)

/-- One argument before `--`. A single dash is a file. -/
def Reading.argument (r : Reading) (text : String) : Except UsageError Reading :=
  match text.toList with
  | '-' :: '-' :: name => r.long name
  | '-' :: c :: rest => r.short (c :: rest)
  | _ => r.plain text

def Reading.arguments (r : Reading) : List String → Except UsageError Request
  | [] => r.settle
  | "--" :: files => do
    let request ← r.settle
    return { request with files := request.files ++ files }
  | text :: rest => do (← r.argument text).arguments rest

def Action.ofName? : String → Option Action
  | "write" => some .write
  | "check" => some .check
  | "print" => some .print
  | _ => none

def isCommand (word : String) : Bool := word == "help" || (Action.ofName? word).isSome

def helpAbout : List String → UsageError
  | [] => .help
  | [word] => if isCommand word then .help else .unknownCommand
  | _ => .unknownCommand

/-- What an argument in front of the command means; there are only options that end the matter. -/
def leading (text : String) : UsageError :=
  match text.toList with
  | '-' :: '-' :: name =>
    let attached := name.contains '='
    match String.ofList (name.takeWhile (· != '=')) with
    | "help" => if attached then .unwantedValue else .help
    | "version" => if attached then .unwantedValue else .version
    | _ => .unknownArgument
  | '-' :: 'h' :: _ => .help
  | '-' :: 'V' :: _ => .version
  | '-' :: _ :: _ => .unknownArgument
  | _ => .unknownCommand

def parse : List String → Except UsageError Request
  | [] => .error .missingCommand
  | ["--"] => .error .missingCommand
  | "--" :: word :: _ => .error (if isCommand word then .unknownArgument else .unknownCommand)
  | "help" :: topics => .error (helpAbout topics)
  | word :: rest =>
    match Action.ofName? word with
    | some action => Reading.arguments { request := { action } } rest
    | none => .error (leading word)

end SchemaSplice.Command
