import SchemaSplice.Proofs.Splice.Imports
/-!
# Imports for types only

A whole import statement or one of its specifiers may be marked with the word `type`: the name is then bound for types only
and does not exist at run time. The mark is passed over when the bindings of a statement are collected. So the validator
namespace counts as imported when the first statement that binds its name, in either way, is from the right module.
-/

namespace SchemaSplice.Import

open Source

variable {f : File} {i : Nat}

/-! ### Statements with their places -/

def placedFrom (f : File) (i : Nat) : List (Nat × Statement) :=
  if i < f.size then
    if beginsImport f i then
      match h : statementFrom? f (bindingsStart f i) with
      | some s =>
        have := le_statementFrom?_last h
        have := lt_bindingsStart f i
        (i, s) :: placedFrom f (s.last + 1)
      | none => placedFrom f (i + 1)
    else placedFrom f (i + 1)
  else []
termination_by f.size - i

def placed (f : File) : List (Nat × Statement) := placedFrom f 0

theorem map_placedFrom (f : File) (i : Nat) : (placedFrom f i).map (·.2) = statementsFrom f i := by
  fun_induction placedFrom f i with
  | case1 i _ hbegins s hs _ _ ih => rw [List.map_cons, ih, statementsFrom_of_some hbegins hs]
  | case2 i _ _ hnone ih => rw [ih, statementsFrom_skip fun _ => hnone]
  | case3 i _ hbegins ih => rw [ih, statementsFrom_skip fun h => absurd h hbegins]
  | case4 i hsize => rw [List.map_nil, statementsFrom_of_size_le (Nat.le_of_not_lt hsize)]

theorem map_placed (f : File) : (placed f).map (·.2) = statements f := map_placedFrom f 0

theorem statementFrom?_of_mem_placedFrom {j : Nat} {s : Statement} (h : (j, s) ∈ placedFrom f i) :
    beginsImport f j = true ∧ statementFrom? f (bindingsStart f j) = some s := by
  fun_induction placedFrom f i with
  | case1 i _ hbegins s' hs _ _ ih =>
    rcases List.mem_cons.mp h with heq | h
    · cases heq
      exact ⟨hbegins, hs⟩
    · exact ih h
  | case2 i _ _ _ ih => exact ih h
  | case3 i _ _ ih => exact ih h
  | case4 => cases h

/-! ### Specifiers -/

/-- A local name that an import statement binds, marked with `type` or not. -/
structure Specifier where
  name : String
  marked : Bool
deriving DecidableEq

def endsClause (f : File) (i : Nat) : Bool := f.hasWord i "from" && f.hasKind (i + 1) .str

/-- Whether an element of a braced list is marked with `type`. In `type` and in `type as name` the word is what is imported. -/
def isMarked (f : File) : List Nat → Bool
  | [] => false
  | [_] => false
  | [i, j, _] => f.hasWord i "type" && !f.hasWord j "as"
  | i :: _ => f.hasWord i "type"

def bracedSpecifiers (f : File) (tokens : List Nat) : List Specifier :=
  (elements f tokens).filterMap fun element => (localName? f element).map (⟨·, isMarked f element⟩)

/-- The part of an import clause that token `i` begins: a default import, a star with its name or a braced list. -/
def specifiersAt (f : File) (i : Nat) : List Specifier :=
  match f.kind? i with
  | some .ident => if endsClause f i then [] else [⟨f.tokenText i, false⟩]
  | some .punct => (f.word? (i + 2)).toList.map (⟨·, false⟩)
  | some .lbrace => (f.closer? i).toList.flatMap fun c => bracedSpecifiers f (List.range' (i + 1) (c.1 - (i + 1)))
  | _ => []

def nextPart? (f : File) (i : Nat) : Option Nat :=
  match f.kind? i with
  | some .ident => some (i + 1)
  | some .comma => some (i + 1)
  | some .punct => some (i + 3)
  | some .lbrace => (f.closer? i).map (·.1 + 1)
  | _ => none

def HasSpecifier (f : File) (i : Nat) (x : Specifier) : Prop :=
  ∃ j, Relation.ReflTransGen (fun i j => nextPart? f i = some j) i j ∧ x ∈ specifiersAt f j

variable {x : Specifier}

theorem hasSpecifier_iff :
    HasSpecifier f i x ↔ x ∈ specifiersAt f i ∨ ∃ j, nextPart? f i = some j ∧ HasSpecifier f j x := by
  constructor
  · intro h
    obtain ⟨k, hpath, hx⟩ := h
    rcases hpath.cases_head with heq | ⟨j, hnext, hpath⟩
    · exact Or.inl (heq ▸ hx)
    · exact Or.inr ⟨j, hnext, k, hpath, hx⟩
  · intro h
    rcases h with hx | ⟨j, hnext, k, hpath, hx⟩
    · exact ⟨i, .refl, hx⟩
    · exact ⟨k, .head hnext hpath, hx⟩

/-- A clause with a single part before the word `from`. -/
theorem hasSpecifier_of_single {j k : Nat} {xs : List Specifier} (hpart : specifiersAt f i = xs ∧ nextPart? f i = some j)
    (hfrom : specifiersAt f j = [] ∧ nextPart? f j = some k) (hmodule : specifiersAt f k = [] ∧ nextPart? f k = none) :
    HasSpecifier f i x ↔ x ∈ xs := by
  rw [hasSpecifier_iff, hpart.1, hpart.2]
  simp only [Option.some.injEq, exists_eq_left']
  rw [hasSpecifier_iff, hfrom.1, hfrom.2]
  simp only [List.not_mem_nil, Option.some.injEq, exists_eq_left', false_or]
  rw [hasSpecifier_iff, hmodule.1, hmodule.2]
  simp only [List.not_mem_nil, reduceCtorEq, false_and, exists_false, or_false]

/-- The names bound from a part on are its own and those bound after it. -/
theorem mem_bindings_of_part {j : Nat} {names : List String} {later : Statement} {name : String}
    (hnames : (specifiersAt f i).map Specifier.name = names) (hnext : nextPart? f i = some j)
    (hlater : name ∈ later.bindings ↔ ∃ x, HasSpecifier f j x ∧ x.name = name) :
    name ∈ (later.binding names).bindings ↔ ∃ x, HasSpecifier f i x ∧ x.name = name := by
  have hpart : name ∈ names ↔ ∃ x ∈ specifiersAt f i, x.name = name := by rw [← hnames, List.mem_map]
  unfold Statement.binding
  simp only [List.mem_append, hpart, hlater]
  constructor
  · intro h
    rcases h with ⟨x, hx, hname⟩ | ⟨x, hx, hname⟩
    · exact ⟨x, hasSpecifier_iff.mpr (Or.inl hx), hname⟩
    · exact ⟨x, hasSpecifier_iff.mpr (Or.inr ⟨j, hnext, hx⟩), hname⟩
  · intro h
    obtain ⟨x, hx, hname⟩ := h
    rcases hasSpecifier_iff.mp hx with hx | ⟨k, hk, hx⟩
    · exact Or.inl ⟨x, hx, hname⟩
    · rw [hnext, Option.some.injEq] at hk
      exact Or.inr ⟨x, hk ▸ hx, hname⟩

theorem map_bracedSpecifiers (f : File) (tokens : List Nat) :
    (bracedSpecifiers f tokens).map Specifier.name = localNames f tokens := by
  unfold bracedSpecifiers localNames
  rw [List.map_filterMap]
  congr 1
  funext element
  rw [Option.map_map]
  exact Option.map_id_apply

/-- The names that a statement binds are those of its specifiers, marked or not. -/
theorem mem_bindings_iff {s : Statement} {name : String} (h : statementFrom? f i = some s) :
    name ∈ s.bindings ↔ ∃ x, HasSpecifier f i x ∧ x.name = name := by
  fun_induction statementFrom? f i generalizing s with
  | case1 i hk =>
    cases h
    rw [iff_false_left (List.not_mem_nil)]
    intro hx
    obtain ⟨x, hx, -⟩ := hx
    rw [hasSpecifier_iff] at hx
    simp [specifiersAt, nextPart?, hk] at hx
  | case2 i hk hends ih =>
    have hnames : (specifiersAt f i).map Specifier.name = [] := by simp [specifiersAt, hk, endsClause, hends]
    exact mem_bindings_of_part hnames (by simp [nextPart?, hk]) (ih h)
  | case3 i hk hends ih =>
    obtain ⟨later, hlater, rfl⟩ := Option.map_eq_some_iff.mp h
    have hnames : (specifiersAt f i).map Specifier.name = [f.tokenText i] := by
      simp [specifiersAt, hk, endsClause, hends]
    exact mem_bindings_of_part hnames (by simp [nextPart?, hk]) (ih hlater)
  | case4 i hk ih =>
    have hnames : (specifiersAt f i).map Specifier.name = [] := by simp [specifiersAt, hk]
    exact mem_bindings_of_part hnames (by simp [nextPart?, hk]) (ih h)
  | case5 i hk hstar word hword ih =>
    obtain ⟨later, hlater, rfl⟩ := Option.map_eq_some_iff.mp h
    have hnames : (specifiersAt f i).map Specifier.name = [word] := by simp [specifiersAt, hk, hword]
    exact mem_bindings_of_part hnames (by simp [nextPart?, hk]) (ih hlater)
  | case6 => cases h
  | case7 => cases h
  | case8 i hk c hlt hc ih =>
    obtain ⟨later, hlater, rfl⟩ := Option.map_eq_some_iff.mp h
    have hnames : (specifiersAt f i).map Specifier.name = localNames f (List.range' (i + 1) (c - (i + 1))) := by
      simp [specifiersAt, hk, hc, map_bracedSpecifiers]
    exact mem_bindings_of_part hnames (by simp [nextPart?, hk, hc]) (ih hlater)
  | case9 => cases h
  | case10 => cases h

example : bracedSpecifiers (.parse "a.ts" "\x7btype, type as a, type B, type C as d\x7d") (List.range' 1 13) =
    [⟨"type", false⟩, ⟨"a", false⟩, ⟨"B", true⟩, ⟨"d", true⟩] := by
  decide +kernel

/-! ### When the namespace counts as imported -/

/-- Whether the statement at token `i` is for types only: its word `type` stands before a name, a star or a brace. As a
default import of that name, it stands before a comma or the end of the clause. -/
def forTypesOnly (f : File) (i : Nat) : Bool :=
  f.hasWord (i + 1) "type" && !f.hasKind (i + 2) .comma && !endsClause f (i + 2)

/-- The statement at token `i` binds a name, for types only or at run time. -/
def Binds (f : File) (i : Nat) (typesOnly : Bool) (name : String) : Prop :=
  ∃ x, HasSpecifier f (bindingsStart f i) x ∧ x.name = name ∧ typesOnly = (forTypesOnly f i || x.marked)

theorem mem_bindings_iff_binds {j : Nat} {s : Statement} {name : String} (h : (j, s) ∈ placedFrom f i) :
    name ∈ s.bindings ↔ ∃ typesOnly, Binds f j typesOnly name := by
  rw [mem_bindings_iff (statementFrom?_of_mem_placedFrom h).2]
  constructor
  · intro hx
    obtain ⟨x, hx, hname⟩ := hx
    exact ⟨_, x, hx, hname, rfl⟩
  · intro hbinds
    obtain ⟨-, x, hx, hname, -⟩ := hbinds
    exact ⟨x, hx, hname⟩

theorem ensure_eq_none_iff_find? {source : String} :
    ensure f source = .ok none ↔
      ∃ p, (placed f).find? (·.2.bindings.contains namespaceName) = some p ∧ p.2.source = source := by
  unfold ensure
  rw [← map_placed]
  simp only [List.find?_map, Function.comp_def]
  cases (placed f).find? fun p => p.2.bindings.contains namespaceName with
  | some p =>
    simp only [Option.map_some, Option.some.injEq, exists_eq_left']
    split
    · next heq => simpa using heq
    · next hne => simpa using hne
  | none =>
    simp only [Option.map_none, reduceCtorEq, false_and, exists_false, iff_false]
    split
    · simp
    · split <;> simp

def FirstFrom (f : File) (source : String) : Prop :=
  ∃ before i s after, placed f = before ++ (i, s) :: after ∧ s.source = source ∧
    (∃ typesOnly, Binds f i typesOnly namespaceName) ∧
      ∀ p ∈ before, ∀ typesOnly, ¬ Binds f p.1 typesOnly namespaceName

theorem ensure_eq_none_iff_firstFrom {source : String} : ensure f source = .ok none ↔ FirstFrom f source := by
  have hbinds : ∀ p ∈ placed f, p.2.bindings.contains namespaceName = true ↔
      ∃ typesOnly, Binds f p.1 typesOnly namespaceName := by
    intro p hp
    rw [List.contains_iff_mem]
    exact mem_bindings_iff_binds hp
  rw [ensure_eq_none_iff_find?]
  constructor
  · intro h
    obtain ⟨⟨i, s⟩, hfind, hsource⟩ := h
    obtain ⟨hcontains, before, after, hplaced, hbefore⟩ := List.find?_eq_some_iff_append.mp hfind
    have hmem : (i, s) ∈ placed f := by simp [hplaced]
    refine ⟨before, i, s, after, hplaced, hsource, (hbinds _ hmem).mp hcontains, ?_⟩
    intro p hp typesOnly hbind
    have hmem' : p ∈ placed f := by simp [hplaced, hp]
    have hnot := hbefore p hp
    rw [(hbinds p hmem').mpr ⟨typesOnly, hbind⟩] at hnot
    cases hnot
  · intro h
    obtain ⟨before, i, s, after, hplaced, hsource, hbind, hbefore⟩ := h
    have hmem : (i, s) ∈ placed f := by simp [hplaced]
    refine ⟨(i, s), List.find?_eq_some_iff_append.mpr ⟨(hbinds _ hmem).mpr hbind, before, after, hplaced, ?_⟩, hsource⟩
    intro p hp
    have hmem' : p ∈ placed f := by simp [hplaced, hp]
    rw [Bool.not_eq_true', ← Bool.not_eq_true, hbinds p hmem']
    intro hbound
    obtain ⟨typesOnly, hbound⟩ := hbound
    exact hbefore p hp typesOnly hbound

/-- The namespace counts as imported when the first statement that binds its name is from the module, whether it binds the
name at run time or for types only. So it is bound at run time if no statement from the module binds it for types only. -/
theorem imported_iff_first_binding (f : File) (source : String) :
    (ensure f source = .ok none ↔ FirstFrom f source) ∧
      (ensure f source = .ok none → (∀ p ∈ placed f, p.2.source = source → ¬ Binds f p.1 true namespaceName) →
        ∃ p ∈ placed f, p.2.source = source ∧ Binds f p.1 false namespaceName) := by
  refine ⟨ensure_eq_none_iff_firstFrom, ?_⟩
  intro hnone hruntime
  obtain ⟨before, i, s, after, hplaced, hsource, ⟨typesOnly, hbind⟩, -⟩ := ensure_eq_none_iff_firstFrom.mp hnone
  have hmem : (i, s) ∈ placed f := by simp [hplaced]
  cases typesOnly with
  | true => exact absurd hbind (hruntime (i, s) hmem hsource)
  | false => exact ⟨(i, s), hmem, hsource, hbind⟩

/-- A file that imports the namespace after a type of the module. -/
def valueImport : File := .parse "a.ts" "import \x7b type A, z \x7d from 'zod'"

theorem valueImport_binds :
    FirstFrom valueImport "zod" ∧ ∃ p ∈ placed valueImport, p.2.source = "zod" ∧ Binds valueImport p.1 false namespaceName := by
  have hnone : ensure valueImport "zod" = .ok none := by decide +kernel
  have hplaced : placed valueImport = [(0, ⟨"zod", ["A", "z"], 8⟩)] := by decide +kernel
  have hstart : bindingsStart valueImport 0 = 1 ∧ forTypesOnly valueImport 0 = false := by decide +kernel
  have hbraces : specifiersAt valueImport 1 = [⟨"A", true⟩, ⟨"z", false⟩] ∧ nextPart? valueImport 1 = some 7 := by
    decide +kernel
  have hfrom : specifiersAt valueImport 7 = [] ∧ nextPart? valueImport 7 = some 8 := by decide +kernel
  have hmodule : specifiersAt valueImport 8 = [] ∧ nextPart? valueImport 8 = none := by decide +kernel
  obtain ⟨hfirst, hvalue⟩ := imported_iff_first_binding valueImport "zod"
  refine ⟨hfirst.mp hnone, hvalue hnone ?_⟩
  rw [hplaced]
  intro p hp hsource hbinds
  rw [List.mem_singleton.mp hp] at hbinds
  obtain ⟨x, hx, hname, htypes⟩ := hbinds
  rw [hstart.1, hasSpecifier_of_single hbraces hfrom hmodule] at hx
  rw [hstart.2, Bool.false_or] at htypes
  simp only [List.mem_cons, List.not_mem_nil, or_false] at hx
  rcases hx with rfl | rfl
  · exact absurd hname (by decide)
  · cases htypes

/-- A statement for types only, and a statement with a specifier for types only. -/
def typeImport : File := .parse "a.ts" "import type \x7b z \x7d from 'zod';\nx"

def typeSpecifier : File := .parse "a.ts" "import \x7b type z \x7d from 'zod';\nx"

/-- Both count as imports of the namespace, which they do not bind at run time. -/
theorem typeImports_suffice :
    (ensure typeImport "zod" = .ok none ∧ ∀ p ∈ placed typeImport, ¬ Binds typeImport p.1 false namespaceName) ∧
      ensure typeSpecifier "zod" = .ok none ∧ ∀ p ∈ placed typeSpecifier, ¬ Binds typeSpecifier p.1 false namespaceName := by
  have hplaced : placed typeImport = [(0, ⟨"zod", ["z"], 7⟩)] := by decide +kernel
  have hplaced' : placed typeSpecifier = [(0, ⟨"zod", ["z"], 7⟩)] := by decide +kernel
  have htypes : forTypesOnly typeImport 0 = true := by decide +kernel
  have hstart : bindingsStart typeSpecifier 0 = 1 := by decide +kernel
  have hbraces : specifiersAt typeSpecifier 1 = [⟨"z", true⟩] ∧ nextPart? typeSpecifier 1 = some 5 := by decide +kernel
  have hfrom : specifiersAt typeSpecifier 5 = [] ∧ nextPart? typeSpecifier 5 = some 6 := by decide +kernel
  have hmodule : specifiersAt typeSpecifier 6 = [] ∧ nextPart? typeSpecifier 6 = none := by decide +kernel
  constructor
  · refine ⟨by decide +kernel, ?_⟩
    rw [hplaced]
    intro p hp hbinds
    rw [List.mem_singleton.mp hp] at hbinds
    obtain ⟨x, -, -, hvalue⟩ := hbinds
    rw [htypes] at hvalue
    cases hvalue
  · refine ⟨by decide +kernel, ?_⟩
    rw [hplaced']
    intro p hp hbinds
    rw [List.mem_singleton.mp hp] at hbinds
    obtain ⟨x, hx, -, hvalue⟩ := hbinds
    rw [hstart, hasSpecifier_of_single hbraces hfrom hmodule, List.mem_singleton] at hx
    rw [hx, Bool.or_true] at hvalue
    cases hvalue

end SchemaSplice.Import
