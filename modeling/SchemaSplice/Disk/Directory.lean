import SchemaSplice.Disk.Basic
/-!
# Directories in memory

A tree of files as a value. A run over such a tree is a pure function of it, and leaves a tree behind. Of what lies outside
of the tree nothing is known but that the directories above it exist.
-/

namespace SchemaSplice.Disk

open SchemaSplice.Path

inductive Node where
  | text (content : String)
  /-- A file whose bytes are not text. -/
  | binary
  | directory
deriving DecidableEq, Repr

/-- A tree of files: the entries that were put into it with the names that lead to them. The directories
on the way to an entry are there without being listed. -/
structure Directory where
  entries : List (List String × Node) := []
deriving DecidableEq, Repr

/-- A place: so many levels up from the tree, then down along names. -/
structure Place where
  up : Nat := 0
  names : List String := []
deriving DecidableEq, Repr

/-- The place that a text between slashes leads to. -/
def Place.enter (p : Place) : String → Place
  | "" | "." => p
  | ".." => if p.names.isEmpty then { p with up := p.up + 1 } else { p with names := p.names.dropLast }
  | name => { p with names := p.names ++ [name] }

namespace Directory

/-- The names that lead to an entry, for a path without dots. -/
def namesOf (path : String) : List String :=
  (segments path).filter fun s => s != "" && s != "."

def put (d : Directory) (names : List String) (node : Node) : Directory :=
  if d.entries.any (·.1 == names) then
    { entries := d.entries.map fun e => if e.1 == names then (names, node) else e }
  else
    { entries := d.entries ++ [(names, node)] }

def get? (d : Directory) (names : List String) : Option Node :=
  (d.entries.find? (·.1 == names)).map (·.2)

def kindAt? (d : Directory) (p : Place) : Option EntryKind :=
  if p.up > 0 then
    if p.names.isEmpty then some .directory else none
  else
    match d.get? p.names with
    | some .directory => some .directory
    | some _ => some .file
    | none =>
      if p.names.isEmpty || d.entries.any (fun e => p.names.isPrefixOf e.1) then some .directory
      else none

/-- One step along a path: only a directory can be left, and only under a name that it could hold. -/
def step (d : Directory) (p : Place) (segment : String) : Except DiskError Place :=
  match d.kindAt? p with
  | some .directory =>
    if maxNameSize < Text.size segment then .error .nameTooLong else .ok (p.enter segment)
  | some .file => .error .notDirectory
  | none => .error .notFound

def placeOf (d : Directory) (path : String) : Except DiskError Place :=
  match pathFault? path with
  | some fault => .error fault
  | none =>
    match segments path with
    | [""] => .error .notFound
    | "" :: rest => rest.foldlM d.step { up := 1 }
    | parts => parts.foldlM d.step {}

def kind? (d : Directory) (path : String) : Option EntryKind :=
  match d.placeOf path with
  | .ok p => d.kindAt? p
  | .error _ => none

def names (d : Directory) (path : String) : List String :=
  match d.placeOf path with
  | .ok ⟨0, location⟩ =>
    (d.entries.filterMap fun e =>
      if location.isPrefixOf e.1 then e.1[location.length]? else none).eraseDups
  | _ => []

def read (d : Directory) (path : String) : Except DiskError String := do
  let p ← d.placeOf path
  match d.kindAt? p, d.get? p.names with
  | none, _ => .error .notFound
  | some .directory, _ => .error .isDirectory
  | some .file, some (.text content) => .ok content
  | some .file, _ => .error .notText

def write (d : Directory) (path text : String) : Except DiskError Directory := do
  let p ← d.placeOf path
  match d.kindAt? p with
  | some .directory => .error .isDirectory
  | _ => if p.up > 0 then .error .notFound else .ok (d.put p.names (.text text))

def depth (d : Directory) : Nat := d.entries.foldl (fun n e => max n e.1.length) 0

/-- The disk whose contents are a tree that is carried along; no directory lies deeper than `depth`. -/
def disk (depth : Nat) : Disk (StateM Directory) where
  kind? path := return (← get).kind? path
  names path := return (← get).names path
  read path := return (← get).read path
  write path text := do
    match (← get).write path text with
    | .ok d =>
      set d
      return .ok ()
    | .error e => return .error e
  depth := depth

end Directory

end SchemaSplice.Disk
