import SchemaSplice.Proofs.Resolution.Lookups
import SchemaSplice.Proofs.Splice.Findings
/-!
# Names in generated validators

The only bare names in a validator are those of enums that the names of its file lead to, in that file or in others. So they are in
scope where every such enum is declared in the file itself or imported into it. An enum that is reached through another file need
be neither, for only the binding of the library is looked at.
-/

namespace SchemaSplice

open Source SchemaSplice.Types Annotation Declaration Chain Pass

mutual

def Validator.names : Validator → List String
  | .call _ args => argumentsNames args
  | .method receiver _ args => receiver.names ++ argumentsNames args

def Argument.names : Argument → List String
  | .validator v => v.names
  | .list items => argumentsNames items
  | .fields entries => entriesNames entries
  | .name word => [word]
  | _ => []

def argumentsNames : List Argument → List String
  | [] => []
  | a :: rest => a.names ++ argumentsNames rest

def entriesNames : List (String × Validator) → List String
  | [] => []
  | e :: rest => entryNames e ++ entriesNames rest

def entryNames : String × Validator → List String
  | (_, v) => v.names

end

theorem mem_argumentsNames {e : String} {args : List Argument} (h : e ∈ argumentsNames args) :
    ∃ a ∈ args, e ∈ a.names := by
  induction args with
  | nil => cases h
  | cons a rest ih =>
    rcases List.mem_append.mp h with h | h
    · exact ⟨a, List.mem_cons_self, h⟩
    · obtain ⟨b, hb, h⟩ := ih h
      exact ⟨b, List.mem_cons_of_mem _ hb, h⟩

theorem mem_entriesNames {e : String} {entries : List (String × Validator)} (h : e ∈ entriesNames entries) :
    ∃ entry ∈ entries, e ∈ entry.2.names := by
  induction entries with
  | nil => cases h
  | cons entry rest ih =>
    obtain ⟨key, v⟩ := entry
    rcases List.mem_append.mp h with h | h
    · exact ⟨(key, v), List.mem_cons_self, h⟩
    · obtain ⟨b, hb, h⟩ := ih h
      exact ⟨b, List.mem_cons_of_mem _ hb, h⟩

/-- The names in a validator are those of enums of its table. -/
theorem Built.enum_of_mem_names {t : Table} {v : Validator} (h : Built t v) :
    ∀ e ∈ v.names, ∃ id m l, t.kind id = .enumLiteral e m l := by
  refine @Built.rec t (fun v _ => ∀ e ∈ v.names, ∃ id m l, t.kind id = .enumLiteral e m l)
    (fun a _ => ∀ e ∈ a.names, ∃ id m l, t.kind id = .enumLiteral e m l) ?call ?method ?validator ?list
    ?fields ?literal ?name v h
  case call =>
    intro name args _ _ hargs e he
    obtain ⟨a, ha, he⟩ := mem_argumentsNames he
    exact hargs a ha e he
  case method =>
    intro receiver name args _ _ _ hreceiver hargs e he
    rcases List.mem_append.mp he with he | he
    · exact hreceiver e he
    · obtain ⟨a, ha, he⟩ := mem_argumentsNames he
      exact hargs a ha e he
  case validator =>
    intro v _ hv
    exact hv
  case list =>
    intro items _ hitems e he
    obtain ⟨a, ha, he⟩ := mem_argumentsNames he
    exact hitems a ha e he
  case fields =>
    intro entries _ hentries e he
    obtain ⟨entry, hentry, he⟩ := mem_entriesNames he
    exact hentries entry hentry e he
  case literal =>
    intro id l _ e he
    cases l <;> cases he
  case name =>
    intro id e m l hk e' he
    rw [List.mem_singleton.mp he]
    exact ⟨id, m, l, hk⟩

/-- A kind whose enum, if it has one, is declared. -/
def FromDeclared (p : Project) : TypeKind → Prop
  | .enumLiteral e _ _ => ∃ d ∈ p.types, d.name = e ∧ d.form = .enum
  | _ => True

theorem fromDeclared_maintained (p : Project) : Maintained p fun s => AllKinds (FromDeclared p) s.table := by
  apply allKinds_maintained
  · intro k hk
    cases k with
    | enumLiteral e m l => exact hk.elim
    | _ => trivial
  · trivial
  · rintro e m l ⟨d, hd, hname, hform, -⟩
    exact ⟨d, hd, hname, hform⟩

theorem declared_of_mem_names {p : Project} {index : Nat} {settings : Settings} {xs : List Finding}
    (h : found p index settings = .ok xs) {x : Finding} (hx : x ∈ xs) {e : String} (he : e ∈ x.validator.names) :
    ∃ d ∈ p.types, d.name = e ∧ d.form = .enum := by
  have hempty : AllKinds (FromDeclared p) ({} : TypeState).table := fun _ _ hk => nomatch hk
  obtain ⟨-, s', -, htable, hv⟩ := (foundIn_of_found (fromDeclared_maintained p) hempty h).1 x hx
  obtain ⟨id, m, l, hk⟩ := (built_synthesize hv).enum_of_mem_names e he
  have hkind := AllKinds.kind htable trivial id
  rw [show s'.types.table.kind id = .enumLiteral e m l from hk] at hkind
  exact hkind

/-- What is found in a file depends only on the declarations that its names lead to. -/
theorem found_only (p : Project) (index : Nat) (settings : Settings) :
    found (p.only index) index settings = found p index settings :=
  congrArg Prod.fst (visitChains_only (collect (p.file index) settings) (chains (p.file index) settings.factories) [] {})

/-- The bare names in validators are those of enums that the names of their file lead to. -/
theorem lookedUp_of_mem_names {p : Project} {index : Nat} {settings : Settings} {xs : List Finding}
    (h : found p index settings = .ok xs) {x : Finding} (hx : x ∈ xs) {e : String} (he : e ∈ x.validator.names) :
    ∃ d, LooksUp p index d ∧ d.name = e ∧ d.form = .enum := by
  obtain ⟨d, hd, hname, hform⟩ := declared_of_mem_names ((found_only p index settings).trans h) hx he
  exact ⟨d, @of_decide_eq_true _ (Classical.propDecidable _) (List.mem_filter.mp hd).2, hname, hform⟩

/-- A name that a file declares as an enum or binds in an import statement. -/
def InScope (p : Project) (index : Nat) (e : String) : Prop :=
  (∃ d ∈ p.types, d.name = e ∧ d.form = .enum ∧ d.file = index) ∨ ∃ s ∈ Import.statements (p.file index), e ∈ s.bindings

/-- Every bare name in a validator that a pass puts into a file is in scope there, if every enum that the names of the file lead to
is declared in the file or imported into it. -/
theorem emitted_names_in_scope (p : Project) (index : Nat) (settings : Settings) (report : FileReport)
    (h : (reportOnFile p index settings).1 = .ok report)
    (hreached : ∀ d, LooksUp p index d → d.form = .enum →
      d.file = index ∨ ∃ s ∈ Import.statements (p.file index), d.name ∈ s.bindings) :
    ∃ xs, found p index settings = .ok xs ∧
      report.procedures.map (·.validator) = xs.map (·.validator.print) ∧
      ∀ x ∈ xs, ∀ e ∈ x.validator.names, InScope p index e := by
  rw [reportOnFile_eq_found] at h
  obtain ⟨xs, hxs, h⟩ := Synthesis.exists_of_bind_eq_ok h
  obtain ⟨output, -, h⟩ := Synthesis.exists_of_bind_eq_ok h
  cases h
  refine ⟨xs, hxs, procedures_of _ xs, fun x hx e he => ?_⟩
  obtain ⟨d, hd, rfl, hform⟩ := lookedUp_of_mem_names hxs hx he
  obtain ⟨a, i, -, hnamed⟩ := id hd
  exact (hreached d hd hform).imp (fun hfile => ⟨d, (mem_of_mem_visible hnamed).1, rfl, hform, hfile⟩) id

/-- An enum that is reached through the alias of another file, and one in a third file that is not reached. -/
def reachedSources : List (String × String) :=
  [("models.ts", "type Paint = Color;"),
    ("router.ts", "import z from 'zod';enum Color \x7b Red, Green \x7d procedure.query((): Paint=>p)"),
    ("modes.ts", "enum Mode \x7b On, Off \x7d")]

theorem reached_report :
    ∃ report, (reportOnFile (Project.read reachedSources) 1 {}).1 = .ok report ∧
      report.output = some ("import z from 'zod';enum Color \x7b Red, Green \x7d procedure.output(/* BEGIN GENERATED CONTENT */ " ++
        "z.nativeEnum(Color) /* END GENERATED CONTENT */).query((): Paint=>p)") :=
  reportOnFile_of_edit (Project.read reachedSources) 1 {}
    ⟨⟨55, 55⟩, ".output(/* BEGIN GENERATED CONTENT */ z.nativeEnum(Color) /* END GENERATED CONTENT */)"⟩ _
    (by decide +kernel) (by decide +kernel) (by decide +kernel) (by decide +kernel)

theorem file_lt_two_of_named {a i : Nat} {d : Decl TypeForm} (ha : a < 2)
    (hd : d ∈ (Project.read reachedSources).typesNamed (((Project.read reachedSources).file a).tokenText i) a) : d.file < 2 := by
  obtain ⟨hmem, hname⟩ := mem_of_mem_visible hd
  obtain ⟨hmodes, hunnamed⟩ : (∀ d ∈ (Project.read reachedSources).types, d.name = "Mode" ∨ d.file < 2) ∧
      ∀ a < 2, ∀ t ∈ ((Project.read reachedSources).file a).tokens, t.text ≠ "Mode" := by
    decide +kernel
  refine (hmodes d hmem).resolve_left fun hmode => ?_
  rw [hmode] at hname
  unfold File.tokenText at hname
  split at hname
  · next t ht => exact hunnamed a ha t (Array.mem_of_getElem? ht) hname.symm
  · exact absurd hname (by decide)

theorem lt_two_of_leads {a : Nat} (h : Leads (Project.read reachedSources) 1 a) : a < 2 := by
  induction h with
  | start => decide
  | type _ hd ih => exact file_lt_two_of_named ih hd
  | value _ hd =>
    have hnone : (Project.read reachedSources).values = [] := by decide +kernel
    exact nomatch hnone ▸ (Project.valueNamed?_some hd).1

theorem reached_names_in_scope :
    ∃ report xs, (reportOnFile (Project.read reachedSources) 1 {}).1 = .ok report ∧
      found (Project.read reachedSources) 1 {} = .ok xs ∧
      report.procedures.map (·.validator) = xs.map (·.validator.print) ∧
      (∀ x ∈ xs, ∀ e ∈ x.validator.names, InScope (Project.read reachedSources) 1 e) ∧
      xs.map (·.validator.names) = [["Color"]] := by
  obtain ⟨report, hreport, -⟩ := reached_report
  have hnames : (found (Project.read reachedSources) 1 {}).toOption.map (fun xs => xs.map (·.validator.names)) =
      some [["Color"]] := by decide +kernel
  obtain ⟨xs, hxs, hvalidators, hscope⟩ := emitted_names_in_scope (Project.read reachedSources) 1 {} report hreport fun d hd hform => by
    obtain ⟨a, i, ha, hnamed⟩ := hd
    have henums : ∀ d ∈ (Project.read reachedSources).types, d.form = .enum → d.file < 2 → d.file = 1 := by decide +kernel
    exact .inl (henums d (mem_of_mem_visible hnamed).1 hform (file_lt_two_of_named (lt_two_of_leads ha) hnamed))
  rw [hxs] at hnames
  exact ⟨report, xs, hreport, hxs, hvalidators, hscope, Option.some.inj hnames⟩

/-- An enum and a type that uses it in one file, a procedure that returns the type in another. -/
def apartSources : List (String × String) :=
  [("models.ts", "enum Color \x7b Red, Green \x7d type Paint = Color;"),
    ("router.ts", "import z from 'zod';procedure.query((): Paint=>p)")]

def apartOutput : String :=
  "import z from 'zod';procedure.output(/* BEGIN GENERATED CONTENT */ z.nativeEnum(Color) " ++
    "/* END GENERATED CONTENT */).query((): Paint=>p)"

theorem apart_report :
    ∃ report, (reportOnFile (Project.read apartSources) 1 {}).1 = .ok report ∧ report.output = some apartOutput :=
  reportOnFile_of_edit (Project.read apartSources) 1 {}
    ⟨⟨29, 29⟩, ".output(/* BEGIN GENERATED CONTENT */ z.nativeEnum(Color) /* END GENERATED CONTENT */)"⟩ apartOutput
    (by decide +kernel) (by decide +kernel) (by decide +kernel) (by decide +kernel)

/-- The second file gets a validator that names the enum of the first, which it neither declares nor imports. -/
theorem apart_name_unbound :
    (∃ report, (reportOnFile (Project.read apartSources) 1 {}).1 = .ok report ∧ report.output = some apartOutput) ∧
      (found (Project.read apartSources) 1 {}).toOption.map (fun xs => xs.map (·.validator.names)) =
        some [["Color"]] ∧
      (∀ d ∈ (Project.read apartSources).types, d.name = "Color" → d.file ≠ 1) ∧
      ∀ s ∈ Import.statements ((Project.read apartSources).file 1), "Color" ∉ s.bindings :=
  ⟨apart_report, by decide +kernel⟩

end SchemaSplice
