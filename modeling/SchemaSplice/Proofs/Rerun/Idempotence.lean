import SchemaSplice.Proofs.Rerun.Rounds
/-!
# Idempotence

A run over the texts that a run leaves changes nothing, if type arguments stay within their brackets, if what is replaced holds no
other chain and no declaration, if calls are inserted at plain dots, and if an import that is added comes before everything else.
-/

namespace SchemaSplice

open Source SchemaSplice.Types Declaration Chain Pass

/-! ### Deciding whether a project can be run again -/

instance decidableForallOk {ε α : Type} (r : Except ε α) (P : α → Prop) [DecidablePred P] :
    Decidable (∀ a, r = .ok a → P a) :=
  match r with
  | .ok a => decidable_of_iff (P a) ⟨fun h _ heq => Except.ok.inj heq ▸ h, fun h => h a rfl⟩
  | .error _ => .isTrue nofun

instance (f : File) (s : Segment) : Decidable (s.Overruns f) :=
  decidable_of_iff (∃ a < s.dot, ∃ d ∈ f.closer? a, s.dot < d.1 ∧ d.1 < s.lparen) <| by
    constructor
    · rintro ⟨a, ha, d, hd, hdot, hlparen⟩
      exact ⟨a, d, hd, ha, hdot, hlparen⟩
    · rintro ⟨a, d, hd, ha, hdot, hlparen⟩
      exact ⟨a, ha, d, hd, hdot, hlparen⟩

instance (f : File) (factories : List String) (x : Finding) : Decidable (EditedApart f factories x) :=
  decidable_of_iff ((x.changes f = true → ∀ o ∈ lastNamed? x.procedure.segments "output", ∀ i < o.rparen, ∀ w ∈ f.word? i,
      o.lparen < i → w ∉ factories ∧ w ∉ declarers) ∧ ∀ d ∈ x.strategy.insertsAt?, f.hasKind d .dot = true) <| by
    constructor
    · rintro ⟨harguments, hdot⟩
      refine ⟨fun hchanges o ho i w hholds hw => ?_, hdot⟩
      exact harguments hchanges o (strategy_eq_replaceOutput_iff.mp ho) i hholds.2 w hw hholds.1
    · rintro ⟨harguments, hdot⟩
      refine ⟨fun hchanges o ho i hi w hw hi' => ?_, hdot⟩
      exact harguments hchanges o (strategy_eq_replaceOutput_iff.mpr ho) i w ⟨hi', hi⟩ hw

instance (p : Project) (settings : Settings) (index : Nat) : Decidable (ImportsFirst p settings index) :=
  decidable_of_iff (_ ∧ _ ∧ _) ⟨fun ⟨factories, types, values⟩ => ⟨factories, types, values⟩,
    fun ⟨factories, types, values⟩ => ⟨factories, types, values⟩⟩

instance (p : Project) (settings : Settings) (index : Nat) : Decidable (FileRerunnable p settings index) :=
  decidable_of_iff ((∀ c ∈ chains (p.file index) settings.factories, ∀ s ∈ c.2, ¬s.Overruns (p.file index)) ∧
      (∀ xs, found p index settings = .ok xs → ∀ x ∈ xs, EditedApart (p.file index) settings.factories x) ∧
      ∀ imported, Import.ensure (p.file index) settings.source = .ok imported → imported.isSome = true →
        ImportsFirst p settings index) <| by
    constructor
    · rintro ⟨chains, findings, imports⟩
      exact ⟨chains, findings, fun e he => imports _ he rfl⟩
    · rintro ⟨chains, findings, imports⟩
      refine ⟨chains, findings, fun imported h himported => ?_⟩
      obtain ⟨e, rfl⟩ := Option.isSome_iff_exists.mp himported
      exact imports e h

instance (p : Project) (settings : Settings) : Decidable (Rerunnable p settings) :=
  decidable_of_iff (_ ∧ _ ∧ _) ⟨fun ⟨source, enums, files⟩ => ⟨source, enums, files⟩,
    fun ⟨source, enums, files⟩ => ⟨source, enums, files⟩⟩

/-! ### The second run -/

variable {sources : List (String × String)} {settings : Settings}

/-- A run over the texts that a run leaves changes nothing: no file gets a new text, no procedure is changed, and the same files
fail. -/
theorem idempotent_of_rerunnable (h : Rerunnable (Project.read sources) settings) : Idempotent sources settings := by
  obtain ⟨files, old, new, hcommon⟩ := exists_common h
  constructor
  · intro report hmem
    rw [(process_eq _ _).1, List.mem_filterMap] at hmem
    obtain ⟨index, -, hreport⟩ := hmem
    replace hreport : (reportOnFile (Project.read (rewritten sources settings)) index settings).1 = .ok report := by
      generalize (reportOnFile (Project.read (rewritten sources settings)) index settings).1 = result at hreport
      cases result with
      | error => cases hreport
      | ok => exact congrArg Except.ok (Option.some.inj hreport)
    cases hfirst : (reportOnFile (Project.read sources) index settings).1 with
    | error e =>
      obtain ⟨e', he'⟩ := failed_again hcommon hfirst
      rw [hreport] at he'
      cases he'
    | ok first =>
      obtain ⟨ys, hys, hsettled⟩ := settled_again hcommon hfirst
      obtain ⟨ys', hys', hiff, hunchanged⟩ := unchanged_iff_settled hreport
      cases hys.symm.trans hys'
      have hchanged := hiff.mpr hsettled
      exact ⟨(hunchanged hchanged).1, fun r hr => ⟨hchanged r hr, (hunchanged hchanged).2 r hr⟩⟩
  · rw [(process_eq _ _).2, (process_eq _ _).2, size_rewritten, List.map_filterMap, List.map_filterMap]
    refine List.filterMap_congr fun index hindex => ?_
    have hpath := congrArg File.path (file_rewritten settings (List.mem_range.mp hindex))
    cases hfirst : (reportOnFile (Project.read sources) index settings).1 with
    | error e =>
      obtain ⟨e', he'⟩ := failed_again hcommon hfirst
      rw [he']
      exact congrArg some hpath
    | ok first =>
      obtain ⟨ys, hys, hsettled⟩ := settled_again hcommon hfirst
      obtain ⟨report, hreport⟩ := exists_report hys hsettled
      rw [hreport]
      rfl

/-- A file that declares a type, one with procedures that are edited in all three ways, and one that fails. -/
def accountProject : List (String × String) :=
  [("account.ts", "export interface Account \x7b name: string; tags: string[] \x7d"),
    ("router.ts", "import \x7b p \x7d from './p';p.input(a).query((): Account=>b);p.output(c).mutation((): string=>d);p.query((): any=>0);"),
    ("node.ts", "interface Node \x7b next: Node \x7d p.query((): Node=>n)")]

theorem accountProject_idempotent :
    Rerunnable (Project.read accountProject) outputSettings ∧ Idempotent accountProject outputSettings := by
  have h : Rerunnable (Project.read accountProject) outputSettings := by decide +kernel
  exact ⟨h, idempotent_of_rerunnable h⟩

/-! ### Dots of optional chains and imports inside types -/

/-- A call is inserted into a type, at the dot of an optional chain. -/
def optionalDot : List (String × String) :=
  [("a.ts", "import z from 'm';interface p \x7b x: p \x7d type Q=p?.query((): any=>0)"), ("b.ts", "p.query((): Q=>0)")]

theorem optionalDot_not_idempotent : ¬Idempotent optionalDot outputSettings := by
  intro h
  obtain ⟨hfirst, hsecond⟩ : (process (Project.read optionalDot) outputSettings).1.failures.map (·.1) = ["b.ts"] ∧
      (process (Project.read (rewritten optionalDot outputSettings)) outputSettings).1.failures = [] := by
    decide +kernel
  have hfailures := h.failures
  rw [hfirst, hsecond] at hfailures
  cases hfailures

/-- An import is added in the middle of a type, which takes its elements for an import. -/
def importInside : List (String × String) :=
  [("a.ts", "p.query((): any=>0);type import=string;interface A \x7b x:[import,A,'c'] \x7d"), ("b.ts", "p.query((): A=>0)")]

def brokenTuple : String :=
  "p.output(/* BEGIN GENERATED CONTENT */ z.any() /* END GENERATED CONTENT */).query((): any=>0);type import=string;" ++
    "interface A \x7b x:[import,A,'c'\nimport \x7b z \x7d from 'm';] \x7d"

theorem importInside_report :
    ∃ report, (reportOnFile (Project.read importInside) 0 outputSettings).1 = .ok report ∧ report.output = some brokenTuple := by
  obtain ⟨hfound, himport⟩ :
      (found (Project.read importInside) 0 outputSettings).toOption.map
          (fun xs => (Progress.of ((Project.read importInside).file 0) xs).edits) =
            some [⟨⟨1, 1⟩, ".output(/* BEGIN GENERATED CONTENT */ z.any() /* END GENERATED CONTENT */)"⟩] ∧
        Import.ensure ((Project.read importInside).file 0) outputSettings.source =
          .ok (some ⟨⟨68, 68⟩, "\nimport \x7b z \x7d from 'm';"⟩) := by
    decide +kernel
  obtain ⟨xs, hxs, hedits⟩ := exists_ok_of_toOption hfound
  have happly : applyEdits ((Project.read importInside).file 0).text
      [⟨⟨1, 1⟩, ".output(/* BEGIN GENERATED CONTENT */ z.any() /* END GENERATED CONTENT */)"⟩,
        ⟨⟨68, 68⟩, "\nimport \x7b z \x7d from 'm';"⟩] = .ok brokenTuple :=
    applyEdits_of_ordered (by decide) (by decide) (by decide +kernel)
  rw [reportOnFile_of_found hxs, hedits, outputOf_of_import (by simp) himport]
  refine ⟨_, congrArg _ (congrArg _ (congrArg _ happly)), ?_⟩
  change (if (brokenTuple == ((Project.read importInside).file 0).text) = true then none else some brokenTuple) = _
  exact if_neg (by decide +kernel)

/-- The file that cannot be dealt with at first has no procedure that counts in the second run. -/
theorem importInside_not_idempotent : ¬Idempotent importInside outputSettings := by
  intro h
  obtain ⟨report, hreport, houtput⟩ := importInside_report
  have herror : (reportOnFile (Project.read importInside) 1 outputSettings).1.toOption = none := by decide +kernel
  obtain ⟨e, he⟩ : ∃ e, (reportOnFile (Project.read importInside) 1 outputSettings).1 = .error e := by
    generalize (reportOnFile (Project.read importInside) 1 outputSettings).1 = result at herror
    cases result with
    | error e => exact ⟨e, rfl⟩
    | ok => cases herror
  have hrewritten : rewritten importInside outputSettings = [("a.ts", brokenTuple), ("b.ts", "p.query((): A=>0)")] := by
    have hfirst : ∀ text, textAfter (Project.read importInside) outputSettings 0 text = brokenTuple := fun text => by
      simp only [textAfter, hreport, houtput, Option.getD_some]
    have hsecond : ∀ text, textAfter (Project.read importInside) outputSettings 1 text = text := fun text => by
      simp only [textAfter, he]
    unfold rewritten
    rw [show importInside.zipIdx = [(("a.ts", _), 0), (("b.ts", _), 1)] from rfl]
    simp only [List.map_cons, List.map_nil, hfirst, hsecond]
  have hfirst : (process (Project.read importInside) outputSettings).1.failures.map (·.1) = ["b.ts"] := by
    rw [(process_eq _ _).2, show (Project.read importInside).files.size = 2 from rfl]
    simp [List.range_succ, failure?, hreport, he]
    rfl
  have hsecond : (process (Project.read [("a.ts", brokenTuple), ("b.ts", "p.query((): A=>0)")]) outputSettings).1.failures = [] := by
    decide +kernel
  have hfailures := h.failures
  rw [hrewritten, hfirst, hsecond] at hfailures
  cases hfailures

end SchemaSplice
