import SchemaSplice.Path.Pattern
import SchemaSplice.Text.Bytes
/-!
# Disks

What a run needs of a file system: looking up, listing, reading and writing. A run is written for any disk in any monad, so
that the same definitions serve the machine and a tree in memory. `Disk.expand` finds the paths that a pattern
admits.
-/

namespace SchemaSplice

namespace Disk

open SchemaSplice.Path

inductive DiskError where
  | notFound
  | notDirectory
  | isDirectory
  /-- A name or a whole path has more bytes than a disk can hold. -/
  | nameTooLong
  /-- A path has a character that no name can have. -/
  | nulInName
  /-- The bytes of a file are not text. -/
  | notText
  /-- Any other trouble, in its own words. -/
  | other (detail : String)
deriving DecidableEq, Repr

/-- The text of an error. -/
def DiskError.message : DiskError → String
  | notFound => "No such file or directory (os error 2)"
  | notDirectory => "Not a directory (os error 20)"
  | isDirectory => "Is a directory (os error 21)"
  | nameTooLong => "File name too long (os error 36)"
  | nulInName => "file name contained an unexpected NUL byte"
  | notText => "stream did not contain valid UTF-8"
  | other detail => detail

def maxNameSize : Nat := 255

def maxPathSize : Nat := 4095

/-- Why no disk can follow a path, whatever it holds. A NUL comes first: it ends a path before its length counts. -/
def pathFault? (path : String) : Option DiskError :=
  if path.toList.any (·.toNat == 0) then some .nulInName
  else if maxPathSize < Text.size path then some .nameTooLong
  else none

inductive EntryKind where
  | file
  | directory
deriving DecidableEq, Repr

end Disk

open Disk in
structure Disk (m : Type → Type) where
  /-- What a path leads to, if it leads anywhere. -/
  kind? : String → m (Option EntryKind)
  /-- The names in a directory, in any order. -/
  names : String → m (List String)
  /-- The text of a file. -/
  read : String → m (Except DiskError String)
  /-- Replaces the text of a file. -/
  write : String → String → m (Except DiskError Unit)
  /-- No directory lies deeper than this below the one where a search starts. -/
  depth : Nat

namespace Disk

open SchemaSplice.Path

variable {m : Type → Type} [Monad m]

/-- Whether a path leads to a directory. -/
def isDirectory (disk : Disk m) (path : String) : m Bool :=
  return (← disk.kind? path) == some .directory

def isFile (disk : Disk m) (path : String) : m Bool :=
  return (← disk.kind? path) == some .file

/-- The names in a directory in order; there are none in what is no directory. -/
def sortedNames (disk : Disk m) (path : String) : m (List String) := do
  if ← disk.isDirectory path then
    return (← disk.names path).mergeSort fun a b => (compare a b).isLE
  else
    return []

def collect (find : α → m (List β)) : List α → m (List β)
  | [] => return []
  | a :: rest => return (← find a) ++ (← collect find rest)

/-- The paths and names of the entries below a directory, each before those below it, down to `depth` levels. -/
def below (disk : Disk m) : (depth : Nat) → (path : String) → m (List (String × String))
  | 0, _ => return []
  | depth + 1, path => do
    collect (fun name => do
      let entry := child path name
      return (entry, name) :: (← disk.below depth entry)) (← disk.sortedNames path)

/-- The paths that the parts of a pattern admit from a directory on. -/
def expandFrom (disk : Disk m) (onlyDirectories : Bool) : List Part → String → m (List String)
  | [], path => do
    if onlyDirectories && !(← disk.isDirectory path) then return [] else return [path]
  | .literal text :: rest, path => do
    let next := child path text
    let reachable ←
      if text == "." || text == ".." then disk.isDirectory path
      else Option.isSome <$> disk.kind? next
    if reachable then disk.expandFrom onlyDirectories rest next else return []
  | .wild items :: rest, path => do
    let part := Part.wild items
    let dots := if part.startsWithDot then ["..", "."].filter part.admits else []
    let dots ←
      if ← disk.isDirectory path then
        collect (fun dot => disk.expandFrom onlyDirectories rest (join path dot)) dots
      else pure []
    let entries ← collect (fun name => disk.expandFrom onlyDirectories rest (child path name))
      ((← disk.sortedNames path).filter part.admits)
    return dots ++ entries
  | .anyDirectories :: .anyDirectories :: rest, path =>
    disk.expandFrom onlyDirectories (.anyDirectories :: rest) path
  | [.anyDirectories], path => do
    let entries ← disk.below disk.depth path
    collect (fun (entry, _) => do
      if ← disk.isDirectory entry then return [entry] else return []) entries
  | .anyDirectories :: part :: rest, path => do
    let entries ← disk.below disk.depth path
    collect (fun (entry, _) => disk.expandFrom onlyDirectories rest entry)
      (entries.filter fun (_, name) => part.admits name)

def expand (disk : Disk m) (pattern : Pattern) : m (List String) :=
  disk.expandFrom pattern.onlyDirectories pattern.parts pattern.start

end Disk

end SchemaSplice
