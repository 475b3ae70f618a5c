import SchemaSplice.Command.Run
/-!
# The program

The disk of the machine, and the command line.
-/

namespace SchemaSplice

open Disk (DiskError EntryKind)

def machineKind? (path : String) : IO (Option EntryKind) := do
  try
    let place ← IO.FS.realPath path
    return some (if ← place.isDir then .directory else .file)
  catch _ => return none

def machineError (path : String) (e : IO.Error) : IO DiskError := do
  if let some fault := Disk.pathFault? path then
    return fault
  match e, ← machineKind? path with
  | .invalidArgument .., _ =>
    let tooLong := (Path.segments path).any fun name => decide (Disk.maxNameSize < Text.size name)
    return if tooLong then .nameTooLong else .other (toString e)
  | .noFileOrDirectory .., _ => return .notFound
  | .inappropriateType .., none => return .notDirectory
  | _, some .directory => return .isDirectory
  | e, _ => return .other (toString e)

/-- The disk of the machine. No path is so long that more than 4096 directories fit into it. -/
def machine : Disk IO where
  kind? := machineKind?
  names path := do
    try
      return (← (← IO.FS.realPath path).readDir).toList.map (·.fileName)
    catch _ => return []
  read path := do
    try
      match String.fromUTF8? (← IO.FS.readBinFile path) with
      | some text => return .ok text
      | none => return .error .notText
    catch e => return .error (← machineError path e)
  write path text := do
    try
      IO.FS.writeFile path text
      return .ok ()
    catch e => return .error (← machineError path e)
  depth := 4096

def report (t : Command.Transcript) : IO Unit := do
  IO.print t.stdout
  IO.eprint t.stderr
  if let some stop := t.stop then
    IO.eprintln s!"error: {stop.message}"

end SchemaSplice

open SchemaSplice in
def main (args : List String) : IO UInt32 := do
  match Command.parse args with
  | .error e =>
    if e.exitCode = 0 then IO.println e.message else IO.eprintln e.message
    return e.exitCode.toUInt32
  | .ok request =>
    let t ← Command.run machine request
    SchemaSplice.report t
    return t.exitCode.toUInt32
