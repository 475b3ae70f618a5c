/-!
# Paths

A path is a text of names divided by slashes. Paths are compared by their components, so a doubled slash or an inner `.`
makes no difference, while a leading `.` does.
-/

namespace SchemaSplice.Path

/-- One step of a path. Components are ordered as they are listed here, names by their characters. -/
inductive Component where
  /-- The start of an absolute path. -/
  | root
  /-- A leading `.`. -/
  | current
  /-- The step `..`. -/
  | parent
  /-- A step to the entry of a given name. -/
  | name (text : String)
deriving DecidableEq, Repr, Ord

/-- The texts between slashes. -/
def segments (path : String) : List String := path.splitOn "/"

/-- The component of a text between slashes, unless it makes no difference. -/
def component? : String → Option Component
  | "" | "." => none
  | ".." => some .parent
  | text => some (.name text)

def components (path : String) : List Component :=
  match segments path with
  | "." :: rest => .current :: rest.filterMap component?
  | "" :: second :: rest => .root :: (second :: rest).filterMap component?
  | parts => parts.filterMap component?

def isHere (path : String) : Bool := components path == [.current]

def join (directory name : String) : String :=
  if directory.isEmpty || directory.endsWith "/" then directory ++ name
  else directory ++ "/" ++ name

/-- The path of an entry of a directory, without a leading `./` in the working directory. -/
def child (directory name : String) : String :=
  if isHere directory then name else join directory name

/-! ### Order -/

def le (a b : String) : Bool := (compare (components a) (components b)).isLE

/-- Drops each path that is equal to the one before it. -/
def dropRepeated : List String → List String
  | a :: b :: rest =>
    if components a == components b then dropRepeated (a :: rest) else a :: dropRepeated (b :: rest)
  | paths => paths
termination_by paths => paths.length

/-- Paths in order, each once; of equal paths the first spelling stays. -/
def ordered (paths : List String) : List String := dropRepeated (paths.mergeSort le)

end SchemaSplice.Path
