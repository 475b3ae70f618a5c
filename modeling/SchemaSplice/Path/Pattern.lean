import SchemaSplice.Path.Component
/-!
# Patterns of paths

A pattern is a path in which `?` stands for one character of a name, `*` for any run of them, `[…]` for one character of a
set and the component `**` for any number of directories. `Pattern.parse` reads a pattern, `Part.admits` decides
whether a component admits a name.
-/

namespace SchemaSplice.Path

/-! ### Items of a component -/

inductive Item where
  /-- A character itself. -/
  | literal (c : Char)
  /-- Any character. -/
  | anyChar
  /-- Any run of characters. -/
  | anyRun
  /-- Any number of directories. -/
  | anyDirectories
  /-- A character in one of the ranges, or in none of them. -/
  | set (negated : Bool) (ranges : List (Char × Char))
deriving DecidableEq, Repr

/-- Whether an item admits a single character. -/
def Item.admits : Item → Char → Bool
  | literal d, c => c == d
  | set negated ranges, c => ranges.any (fun (low, high) => low ≤ c && c ≤ high) != negated
  | _, _ => true

def Item.isRun : Item → Bool
  | anyRun | anyDirectories => true
  | _ => false

/-- For each place in a row, whether anything from there on holds. -/
def anyFrom : List Bool → List Bool
  | [] => []
  | b :: bs =>
    let later := anyFrom bs
    (b || later.headD false) :: later

/-- For each end of a run of characters, the whole run first, whether items admit it. The row of the items after the
first one is made once, so the work is the product of the two lengths. -/
def admitsEnds : List Item → List Char → List Bool
  | [], cs => cs.map (fun _ => false) ++ [true]
  | item :: items, cs =>
    let later := admitsEnds items cs
    if item.isRun then anyFrom later
    else cs.zipWith (fun c b => item.admits c && b) later.tail ++ [false]

def admitsAll (items : List Item) (cs : List Char) : Bool := (admitsEnds items cs).headD false

/-! ### Reading -/

inductive PatternFault where
  /-- More than two stars in a row. -/
  | wildcards
  /-- Two stars beside other characters. -/
  | recursive
  /-- A set without its end. -/
  | range
deriving DecidableEq, Repr

/-- What is wrong with a pattern, and at which character. -/
structure PatternError where
  position : Nat
  fault : PatternFault
deriving DecidableEq, Repr

def PatternFault.message : PatternFault → String
  | wildcards => "wildcards are either regular `*` or recursive `**`"
  | recursive => "recursive wildcards must form a single path component"
  | range => "invalid range pattern"

def PatternError.message (e : PatternError) : String :=
  s!"Pattern syntax error near position {e.position}: {e.fault.message}"

/-- The ranges of a set. A dash between two characters makes a range of them. -/
def rangesOf : List Char → List (Char × Char)
  | low :: '-' :: high :: rest => (low, high) :: rangesOf rest
  | c :: rest => (c, c) :: rangesOf rest
  | [] => []

/-- The characters of a set after its first one, and what follows the closing bracket. -/
def setEnd? (cs : List Char) : Option (List Char × List Char) :=
  match cs.dropWhile (· != ']') with
  | [] => none
  | _ :: rest => some (cs.takeWhile (· != ']'), rest)

/-- A set after its opening bracket, and what follows. A closing bracket that comes first is a member. -/
def set? : List Char → Option (Item × List Char)
  | '!' :: c :: cs => (setEnd? cs).map fun (more, rest) => (.set true (rangesOf (c :: more)), rest)
  | ['!'] => none
  | c :: cs => (setEnd? cs).map fun (more, rest) => (.set false (rangesOf (c :: more)), rest)
  | [] => none

theorem length_of_setEnd? {cs body rest : List Char} (h : setEnd? cs = some (body, rest)) :
    rest.length < cs.length := by
  have hd : (cs.dropWhile (· != ']')).length ≤ cs.length := (List.dropWhile_sublist _).length_le
  unfold setEnd? at h
  split at h
  · simp at h
  · rename_i d tail hdrop
    simp only [Option.some.injEq, Prod.mk.injEq] at h
    rw [hdrop, List.length_cons] at hd
    rw [← h.2]
    omega

theorem length_of_set? {cs rest : List Char} {item : Item} (h : set? cs = some (item, rest)) :
    rest.length < cs.length := by
  unfold set? at h
  split at h
  · obtain ⟨⟨more, rest'⟩, hend, heq⟩ := Option.map_eq_some_iff.1 h
    have := length_of_setEnd? hend
    simp only [Prod.mk.injEq] at heq
    simp only [List.length_cons, ← heq.2]
    omega
  · simp at h
  · obtain ⟨⟨more, rest'⟩, hend, heq⟩ := Option.map_eq_some_iff.1 h
    have := length_of_setEnd? hend
    simp only [Prod.mk.injEq] at heq
    simp only [List.length_cons, ← heq.2]
    omega
  · simp at h

def itemsFrom (position : Nat) (previous : Option Char) (cs : List Char) :
    Except PatternError (List Item) :=
  match cs with
  | [] => .ok []
  | '?' :: rest => (.anyChar :: ·) <$> itemsFrom (position + 1) (some '?') rest
  | '*' :: '*' :: '*' :: _ => .error ⟨position + 2, .wildcards⟩
  | '*' :: '*' :: rest =>
    if previous.all (· == '/') then
      match rest with
      | [] => .ok [.anyDirectories]
      | '/' :: rest => (.anyDirectories :: ·) <$> itemsFrom (position + 3) (some '/') rest
      | _ => .error ⟨position + 2, .recursive⟩
    else .error ⟨position - 1, .recursive⟩
  | '*' :: rest => (.anyRun :: ·) <$> itemsFrom (position + 1) (some '*') rest
  | '[' :: rest =>
    match h : set? rest with
    | none => .error ⟨position, .range⟩
    | some (item, after) =>
      have := length_of_set? h
      (item :: ·) <$> itemsFrom (position + 1 + (rest.length - after.length)) (some ']') after
  | c :: rest => (.literal c :: ·) <$> itemsFrom (position + 1) (some c) rest
termination_by cs.length

def items (text : String) : Except PatternError (List Item) := itemsFrom 0 none text.toList

/-! ### Parts -/

inductive Part where
  /-- A name as it stands. -/
  | literal (name : String)
  /-- Any number of directories. -/
  | anyDirectories
  /-- A name that the items admit. -/
  | wild (items : List Item)
deriving DecidableEq, Repr

/-- The component of a text without slashes. -/
def Part.parse (text : String) : Except PatternError Part := do
  let found ← items text
  if found.contains .anyDirectories then return .anyDirectories
  if found.all fun | .literal _ => true | _ => false then return .literal text
  return .wild found

def Part.admits : Part → String → Bool
  | literal text, name => name == text
  | wild items, name => admitsAll items name.toList
  | anyDirectories, _ => true

def Part.startsWithDot : Part → Bool
  | wild (.literal '.' :: _) => true
  | _ => false

structure Pattern where
  /-- The directory where the search starts. -/
  start : String
  parts : List Part
  /-- Whether only directories are wanted. -/
  onlyDirectories : Bool
deriving DecidableEq, Repr

/-- Whether a text is meant as a pattern. -/
def isPattern (text : String) : Bool := text.any fun c => c == '*' || c == '?' || c == '['

/-- Drops the empty text after a final slash. -/
def dropTerminator (parts : List String) : List String :=
  if parts.getLast? == some "" then parts.dropLast else parts

/-- Reads a pattern. It has to make sense as a whole before its components are looked at. -/
def Pattern.parse (text : String) : Except PatternError Pattern := do
  let _ ← items text
  let absolute := text.startsWith "/"
  let relative := if absolute then String.ofList (text.toList.drop 1) else text
  return {
    start := if absolute then "/" else "."
    parts := ← (dropTerminator (segments relative)).mapM Part.parse
    onlyDirectories := text.endsWith "/" }

end SchemaSplice.Path
