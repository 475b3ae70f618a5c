import SchemaSplice.Proofs.Splice.Splicing
/-!
# What a pass finds

A pass over a file finds procedures and their validators, in the order of the text; all it does to the file follows from these
findings. Each finding comes from a chain of the file, and its validator is that of the table known by then.
-/

namespace SchemaSplice.Pass

open Source SchemaSplice.Types Annotation Declaration Chain

structure Finding where
  procedure : Procedure
  validator : Validator

namespace Finding

def strategy (x : Finding) : Strategy := .choose x.procedure

def splice (f : File) (x : Finding) : Splice := x.strategy.splice f x.validator

def changes (f : File) (x : Finding) : Bool := !(x.splice f).edit.keepsText f.text

end Finding

def Progress.of (f : File) (found : List Finding) : Progress :=
  found.foldl (fun progress x => progress.add f x.procedure x.validator x.strategy (x.splice f) (x.changes f)) {}

/-- Deals with one procedure by noting what was found. -/
def collect (f : File) (settings : Settings) (procedure : Procedure) (found : List Finding) (s : Inquiry) :
    Except Failure (List Finding) × Inquiry :=
  match validatorOfResult s.table settings.maxDepth procedure.returnType with
  | .error cause => (.error (.procedure f.path (f.lineAt procedure.root) cause), s)
  | .ok v => (.ok (found ++ [⟨procedure, v⟩]), (visit f settings procedure {} s).2)

/-- The findings of a pass over a file. -/
def found (p : Project) (index : Nat) (settings : Settings) : Except Failure (List Finding) :=
  (visitProcedures p index settings.factories (collect (p.file index) settings) []).1

/-! ### The pass in terms of its findings -/

theorem visit_eq_collect (f : File) (settings : Settings) (procedure : Procedure) (xs : List Finding) (s : Inquiry) :
    visit f settings procedure (.of f xs) s =
      ((collect f settings procedure xs s).1.map (Progress.of f), (collect f settings procedure xs s).2) := by
  unfold collect
  cases hv : validatorOfResult s.table settings.maxDepth procedure.returnType with
  | error cause =>
    unfold visit
    rw [hv]
    rfl
  | ok v =>
    unfold visit
    rw [hv]
    simp only [Except.map, Progress.of, List.foldl_append]
    rfl

theorem visitChains_eq_collect (p : Project) (index : Nat) (f : File) (settings : Settings)
    (candidates : List (Nat × List Segment)) (xs : List Finding) (s : Inquiry) :
    visitChains p index (visit f settings) candidates (.of f xs) s =
      ((visitChains p index (collect f settings) candidates xs s).1.map (Progress.of f),
        (visitChains p index (collect f settings) candidates xs s).2) := by
  induction candidates generalizing xs s with
  | nil => rfl
  | cons c rest ih =>
    obtain ⟨root, segments⟩ := c
    unfold visitChains
    cases procedureAt p s index root segments with
    | mk procedure? s₁ =>
      cases procedure? with
      | none => exact ih xs s₁
      | some procedure =>
        simp only [visit_eq_collect]
        cases hcollect : collect f settings procedure xs s₁ with
        | mk result s₂ =>
          cases result with
          | error e => rfl
          | ok ys => exact ih ys s₂

theorem visitProcedures_eq_found (p : Project) (index : Nat) (settings : Settings) :
    (visitProcedures p index settings.factories (visit (p.file index) settings) {}).1 =
      (found p index settings).map (Progress.of (p.file index)) :=
  congrArg Prod.fst (visitChains_eq_collect p index (p.file index) settings (chains (p.file index) settings.factories)
    [] {})

def Finding.report (f : File) (x : Finding) : ProcedureReport where
  line := f.lineAt x.procedure.root
  kind := x.procedure.kind
  strategy := x.strategy.name
  validator := x.validator.print
  changed := x.changes f
  replacedHandwritten := (x.splice f).replacedHandwritten

theorem reports_of (f : File) (xs : List Finding) : (Progress.of f xs).procedures = xs.map (·.report f) := by
  unfold Progress.of
  suffices h : ∀ progress : Progress,
      (xs.foldl (fun progress x => progress.add f x.procedure x.validator x.strategy (x.splice f) (x.changes f))
        progress).procedures = progress.procedures ++ xs.map (·.report f) by
    exact h {}
  induction xs with
  | nil => simp
  | cons x xs ih =>
    intro progress
    rw [List.foldl_cons, ih]
    simp [Progress.add, Finding.report]

theorem procedures_of (f : File) (xs : List Finding) :
    (Progress.of f xs).procedures.map (·.validator) = xs.map (·.validator.print) := by
  rw [reports_of, List.map_map]
  rfl

theorem edits_of (f : File) (xs : List Finding) :
    (Progress.of f xs).edits = (xs.filter (·.changes f)).map fun x => (x.splice f).edit := by
  unfold Progress.of
  suffices h : ∀ progress : Progress,
      (xs.foldl (fun progress x => progress.add f x.procedure x.validator x.strategy (x.splice f) (x.changes f))
        progress).edits = progress.edits ++ (xs.filter (·.changes f)).map fun x => (x.splice f).edit by
    exact h {}
  induction xs with
  | nil => simp
  | cons x xs ih =>
    intro progress
    rw [List.foldl_cons, ih]
    cases hx : x.changes f <;> simp [Progress.add, hx]

/-- The report on a file follows from the findings. -/
theorem reportOnFile_eq_found (p : Project) (index : Nat) (settings : Settings) :
    (reportOnFile p index settings).1 = do
      let xs ← found p index settings
      let output ← outputOf (p.file index) settings (Progress.of (p.file index) xs).edits
      return reportOf (p.file index) (.of (p.file index) xs) output := by
  unfold reportOnFile
  simp only
  rw [visitProcedures_eq_found]
  cases found p index settings with
  | error e => rfl
  | ok xs => rfl

/-! ### Where findings come from -/

/-- A finding of a chain, made in a state with a property. -/
def FoundIn (p : Project) (index : Nat) (settings : Settings) (Inv : TypeState → Prop) (x : Finding) : Prop :=
  ∃ s s', procedureAt p s index x.procedure.root x.procedure.segments = (some x.procedure, s') ∧ Inv s'.types ∧
    validatorOfResult s'.table settings.maxDepth x.procedure.returnType = .ok x.validator

theorem root_of_procedureAt {p : Project} {s s' : Inquiry} {current root : Nat} {segments : List Segment}
    {procedure : Procedure} (h : procedureAt p s current root segments = (some procedure, s')) :
    procedure.root = root := by
  unfold procedureAt at h
  simp only at h
  split at h
  · cases h
  · split at h
    · cases h
    · split at h
      · cases h
      · cases h
        rfl

theorem foundIn_visitChains {p : Project} {index : Nat} {settings : Settings} {Inv : TypeState → Prop}
    (M : Maintained p Inv) {candidates : List (Nat × List Segment)} {xs ys : List Finding} {s s' : Inquiry}
    (hs : Inv s.types)
    (h : visitChains p index (collect (p.file index) settings) candidates xs s = (.ok ys, s')) :
    ∃ zs, ys = xs ++ zs ∧ (∀ z ∈ zs, FoundIn p index settings Inv z) ∧
      (zs.map fun z => (z.procedure.root, z.procedure.segments)).Sublist candidates := by
  induction candidates generalizing xs s with
  | nil =>
    cases h
    exact ⟨[], by simp, by simp, by simp⟩
  | cons c rest ih =>
    obtain ⟨root, segments⟩ := c
    have hkept := M.procedureAt hs index root segments
    unfold visitChains at h
    split at h
    · next s₁ hprocedure =>
      rw [hprocedure] at hkept
      obtain ⟨zs, hys, hzs, hsublist⟩ := ih hkept h
      exact ⟨zs, hys, hzs, hsublist.cons _⟩
    · next procedure s₁ hprocedure =>
      rw [hprocedure] at hkept
      unfold collect at h
      cases hv : validatorOfResult s₁.table settings.maxDepth procedure.returnType with
      | error cause =>
        rw [hv] at h
        cases h
      | ok v =>
        rw [hv] at h
        have htypes : (visit (p.file index) settings procedure {} s₁).2.types = s₁.types := by
          unfold visit
          rw [hv]
        obtain ⟨zs, hys, hzs, hsublist⟩ := ih (by rw [htypes]; exact hkept) h
        have hsegments := (terminal_mem_of_procedureAt hprocedure).1
        have hroot := root_of_procedureAt hprocedure
        refine ⟨⟨procedure, v⟩ :: zs, by rw [hys, List.append_assoc]; rfl, ?_, ?_⟩
        · intro z hz
          rcases List.mem_cons.mp hz with rfl | hz
          · refine ⟨s, s₁, ?_, hkept, hv⟩
            simp only
            rw [hroot, hsegments]
            exact hprocedure
          · exact hzs z hz
        · rw [List.map_cons, hroot, hsegments]
          exact hsublist.cons_cons _

/-- Findings come from the chains of a file, in their order. -/
theorem foundIn_of_found {p : Project} {index : Nat} {settings : Settings} {Inv : TypeState → Prop}
    (M : Maintained p Inv) (hstart : Inv {}) {xs : List Finding} (h : found p index settings = .ok xs) :
    (∀ x ∈ xs, FoundIn p index settings Inv x) ∧
      (xs.map fun x => (x.procedure.root, x.procedure.segments)).Sublist
        (chains (p.file index) settings.factories) := by
  obtain ⟨zs, hys, hzs, hsublist⟩ := foundIn_visitChains M (s := {}) hstart (Prod.ext h rfl)
  obtain rfl : xs = zs := hys
  exact ⟨hzs, hsublist⟩

end SchemaSplice.Pass
