import SchemaSplice.Proofs.Splice.Settled
/-!
# Running again

A second run over the texts that a first run leaves should change nothing. It need not be so: two procedures that share an
output call without arguments both put their validator there.
-/

namespace SchemaSplice

open Source Declaration Chain Pass

/-- The text of a file after a run. -/
def textAfter (p : Project) (settings : Settings) (index : Nat) (text : String) : String :=
  match (reportOnFile p index settings).1 with
  | .ok report => report.output.getD text
  | .error _ => text

/-- The files after a run. -/
def rewritten (sources : List (String × String)) (settings : Settings) : List (String × String) :=
  sources.zipIdx.map fun ((path, text), index) =>
    (path, textAfter (Project.read sources) settings index text)

/-- A second run leaves all files alone, and the same files fail. -/
structure Idempotent (sources : List (String × String)) (settings : Settings) : Prop where
  unchanged : ∀ report ∈ (process (Project.read (rewritten sources settings)) settings).1.reports,
    report.output = none ∧ ∀ r ∈ report.procedures, r.changed = false ∧ r.replacedHandwritten = false
  failures : (process (Project.read (rewritten sources settings)) settings).1.failures.map (·.1) =
    (process (Project.read sources) settings).1.failures.map (·.1)

/-! ### A run as the runs over its files -/

/-- What a run makes of a file: its report, if that can be stored. -/
def dealtWith (persist : FileReport → Except Failure Unit) (p : Project) (settings : Settings) (index : Nat) :
    Except Failure FileReport :=
  (reportOnFile p index settings).1.bind fun report => (persist report).map fun _ => report

def failure? (p : Project) (index : Nat) : Except Failure FileReport → Option (String × Failure)
  | .ok _ => none
  | .error e => some ((p.file index).path, e)

theorem processFrom_succ (persist : FileReport → Except Failure Unit) (p : Project) (settings : Settings) (count index : Nat)
    (outcome : Outcome) (log : List Event) :
    Id.run (processFrom persist p settings (count + 1) index outcome log) =
      match dealtWith persist p settings index with
      | .ok report => Id.run (processFrom persist p settings count (index + 1) (outcome.addReport report)
          (log ++ (reportOnFile p index settings).2))
      | .error e => Id.run (processFrom persist p settings count (index + 1) (outcome.addFailure (p.file index).path e)
          (log ++ (reportOnFile p index settings).2 ++ [.leftUnchanged (p.file index).path e.message])) := by
  rw [processFrom, dealtWith]
  rcases reportOnFile p index settings with ⟨_ | report, events⟩
  · rfl
  · simp only [stored, Except.bind]
    rcases persist report with _ | _ <;> rfl

/-- A run goes over the files in order, and a file that fails does not keep it from the next ones. -/
theorem processFrom_eq (persist : FileReport → Except Failure Unit) (p : Project) (settings : Settings) (count index : Nat)
    (outcome : Outcome) (log : List Event) :
    let result := (Id.run (processFrom persist p settings count index outcome log)).1
    result.reports = outcome.reports ++ (List.range' index count).filterMap (fun i => (dealtWith persist p settings i).toOption) ∧
      result.failures = outcome.failures ++
        (List.range' index count).filterMap fun i => failure? p i (dealtWith persist p settings i) := by
  induction count generalizing index outcome log with
  | zero => exact ⟨(List.append_nil _).symm, (List.append_nil _).symm⟩
  | succ count ih =>
    simp only [processFrom_succ, List.range'_succ, List.filterMap_cons]
    cases dealtWith persist p settings index with
    | ok report =>
      obtain ⟨hreports, hfailures⟩ := ih (index + 1) (outcome.addReport report) (log ++ (reportOnFile p index settings).2)
      refine ⟨hreports.trans ?_, hfailures⟩
      simp [Outcome.addReport, Except.toOption]
    | error e =>
      obtain ⟨hreports, hfailures⟩ := ih (index + 1) (outcome.addFailure (p.file index).path e)
        (log ++ (reportOnFile p index settings).2 ++ [.leftUnchanged (p.file index).path e.message])
      refine ⟨hreports, hfailures.trans ?_⟩
      simp [Outcome.addFailure, failure?]

/-- The reports and the failures of a run are those of its files. -/
theorem process_eq (p : Project) (settings : Settings) :
    (process p settings).1.reports = (List.range p.files.size).filterMap (fun i => (reportOnFile p i settings).1.toOption) ∧
      (process p settings).1.failures = (List.range p.files.size).filterMap fun i => failure? p i (reportOnFile p i settings).1 := by
  have hdealt : ∀ i, dealtWith (fun _ => .ok ()) p settings i = (reportOnFile p i settings).1 := by
    intro i
    rw [dealtWith]
    cases (reportOnFile p i settings).1 <;> rfl
  have h := processFrom_eq (fun _ => .ok ()) p settings p.files.size 0 {} []
  simp only [hdealt] at h
  rw [List.range_eq_range']
  exact h

/-! ### A shared output without arguments -/

/-- A file whose procedures share an output without arguments. -/
def openOutput : List (String × String) :=
  [("a.ts", "import z from 'm';p.a<(p.b<x)>(h).output().query((): any=>0)")]

def doubledOutput : String :=
  "import z from 'm';p.a<(p.b<x)>(h).output(/* BEGIN GENERATED CONTENT */ z.any() /* END GENERATED CONTENT */" ++
    "/* BEGIN GENERATED CONTENT */ z.any() /* END GENERATED CONTENT */).query((): any=>0)"

theorem openOutput_report :
    ∃ report, (reportOnFile (Project.read openOutput) 0 outputSettings).1 = .ok report ∧
      report.output = some doubledOutput := by
  obtain ⟨hfound, himport⟩ :
      (found (Project.read openOutput) 0 outputSettings).toOption.map
          (fun xs => (Progress.of ((Project.read openOutput).file 0) xs).edits) =
            some (List.replicate 2 ⟨⟨41, 41⟩, "/* BEGIN GENERATED CONTENT */ z.any() /* END GENERATED CONTENT */"⟩) ∧
        Import.ensure ((Project.read openOutput).file 0) outputSettings.source = .ok none := by
    decide +kernel
  obtain ⟨xs, hxs, hedits⟩ := exists_ok_of_toOption hfound
  exact exists_report_of_ordered hxs himport hedits (by decide) (by decide) (by decide) (by decide +kernel)
    (by decide +kernel)

theorem openOutput_rewritten : rewritten openOutput outputSettings = [("a.ts", doubledOutput)] := by
  obtain ⟨report, hreport, houtput⟩ := openOutput_report
  have htext : textAfter (Project.read openOutput) outputSettings 0
      "import z from 'm';p.a<(p.b<x)>(h).output().query((): any=>0)" = doubledOutput := by
    unfold textAfter
    rw [hreport]
    simp only [houtput, Option.getD_some]
  unfold rewritten
  rw [show openOutput.zipIdx = [(("a.ts", "import z from 'm';p.a<(p.b<x)>(h).output().query((): any=>0)"), 0)] from rfl]
  simp only [List.map_cons, List.map_nil, htext]

/-- A run over the file gives it a text that the next run cannot deal with. -/
theorem openOutput_not_idempotent : ¬ Idempotent openOutput outputSettings := by
  intro h
  obtain ⟨report, hreport, -⟩ := openOutput_report
  obtain ⟨hfound, himport⟩ :
      (found (Project.read [("a.ts", doubledOutput)]) 0 outputSettings).toOption.map
          (fun xs => (Progress.of ((Project.read [("a.ts", doubledOutput)]).file 0) xs).edits.map (·.span)) =
            some [⟨41, 171⟩, ⟨41, 171⟩] ∧
        Import.ensure ((Project.read [("a.ts", doubledOutput)]).file 0) outputSettings.source = .ok none := by
    decide +kernel
  obtain ⟨xs, hxs, hspans⟩ := exists_ok_of_toOption hfound
  obtain ⟨a, b, herror⟩ := error_of_overlaps (isRead_file _ 0) hxs himport
    (not_pairwise_of_spans hspans (by decide))
  have hfirst : (process (Project.read openOutput) outputSettings).1.failures = [] := by
    rw [(process_eq _ _).2, show (Project.read openOutput).files.size = 1 from rfl]
    simp [List.range_succ, failure?, hreport]
  have hfailures := h.failures
  rw [openOutput_rewritten, hfirst, (process_eq _ _).2, show (Project.read [("a.ts", doubledOutput)]).files.size = 1 from rfl] at hfailures
  simp [List.range_succ, failure?, herror] at hfailures

end SchemaSplice
