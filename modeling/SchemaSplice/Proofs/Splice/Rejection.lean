import SchemaSplice.Proofs.Splice.Clashes
/-!
# Nested procedures are rejected

When the arguments that a procedure has replaced hold the root of a second procedure, the edit of the second one comes
after the start of these arguments. It overlaps the replacement, and the file fails, unless it begins where the arguments
end or later. That happens in two ways: the text is inserted after an `input` call that ends where the arguments end, or the
chain of the second procedure has left the parentheses, for which its type arguments run past their end.
-/

namespace SchemaSplice.Chain

open Source

namespace Strategy

-- The call that a strategy looks at, the token of it where the edit begins, and the byte.

def call : Strategy → Segment
  | insertAfterInput input => input
  | replaceOutput output => output
  | insertBeforeTerminal terminal => terminal

def token : Strategy → Nat
  | insertAfterInput input => input.rparen
  | replaceOutput output => output.lparen
  | insertBeforeTerminal terminal => terminal.dot

def position (f : File) : Strategy → Nat
  | insertAfterInput input => (f.span input.rparen).stop
  | replaceOutput output => (f.span output.lparen).stop
  | insertBeforeTerminal terminal => (f.span terminal.dot).start

end Strategy

end SchemaSplice.Chain

namespace SchemaSplice.Pass

open Source SchemaSplice.Types Annotation Declaration Chain

variable {f : File} {x y : Finding} {o s : Segment}

/-! ### Edits behind the arguments that hold their procedure -/

theorem Finding.start_splice (f : File) (x : Finding) : (x.splice f).edit.span.start = x.strategy.position f := by
  unfold Finding.splice
  cases x.strategy with
  | insertAfterInput input => rfl
  | replaceOutput output => rfl
  | insertBeforeTerminal terminal => rfl

theorem Located.call_mem (hx : Located f x) : x.strategy.call ∈ x.procedure.segments := by
  unfold Finding.strategy Strategy.choose
  split
  · next output _ houtput => exact mem_of_lastNamed? houtput
  · next input _ hinput => exact mem_of_lastNamed? hinput
  · exact hx.terminal

/-- The text of a procedure is inserted after an `input` call that ends where the arguments of `o` end. -/
def Finding.Abuts (f : File) (y : Finding) (o : Segment) : Prop :=
  ∃ input, y.strategy = .insertAfterInput input ∧ input.rparen + 1 = o.rparen ∧
    (f.span input.rparen).stop = (f.span o.rparen).start

/-- A procedure is edited after the closing parenthesis of `o`. -/
def Finding.Leaves (y : Finding) (o : Segment) : Prop := o.rparen < y.strategy.token

/-- The calls of a procedure that begins between parentheses begin after the opening one, and close before the closing
one unless they begin after it. -/
theorem Located.call_within (hf : f.IsRead) (hx : Located f x) (hy : Located f y) (ho : o ∈ x.procedure.segments)
    (hholds : o.Holds y.procedure.root) (hs : s ∈ y.procedure.segments) :
    y.procedure.root < s.dot ∧ s.dot < s.lparen ∧ s.lparen < s.rparen ∧
      (s.rparen < o.rparen ∨ o.rparen < s.lparen) := by
  obtain ⟨⟨c, hc, hclose⟩, -, -⟩ := matched_of_mem_segmentsFrom o (hx.segments ▸ ho)
  obtain ⟨⟨d, hd, hclose'⟩, hdot, hlparen⟩ := matched_of_mem_segmentsFrom s (hy.segments ▸ hs)
  have hroot := hholds.1
  have hlt := (hy.isCall hf hs).lt
  have hcross := hf.laminar hc hd
  omega

theorem Located.abuts_or_leaves_iff (hf : f.IsRead) (hx : Located f x) (hy : Located f y)
    (ho : o ∈ x.procedure.segments) (hholds : o.Holds y.procedure.root) :
    (f.span o.rparen).start ≤ (y.splice f).edit.span.start ↔ y.Abuts f o ∨ y.Leaves o := by
  have hcall := hy.isCall hf hy.call_mem
  obtain ⟨hroot, hdot, hlparen, hclose⟩ := hx.call_within hf hy ho hholds hy.call_mem
  have hrparen := (hx.isCall hf ho).rparen
  have hsize := File.lt_size_of_hasKind hrparen
  have hsize' := File.lt_size_of_hasKind hcall.rparen
  have hwidth := hf.start_lt_stop hsize
  rw [Finding.start_splice]
  unfold Finding.Abuts Finding.Leaves
  generalize y.strategy = strategy at hcall hroot hdot hlparen hclose hsize' ⊢
  cases strategy with
  | insertAfterInput input =>
    simp only [Strategy.call, Strategy.token, Strategy.position, Strategy.insertAfterInput.injEq, exists_eq_left'] at *
    have hend := hf.start_lt_stop hsize'
    rcases hclose with hinside | hbehind
    · -- Only the last token before the closing parenthesis can end where that begins.
      have hbefore := hf.stop_le_start hinside hsize
      by_cases hlast : input.rparen + 1 = o.rparen
      · omega
      · have hbetween := hf.stop_le_start (i := input.rparen) (j := input.rparen + 1) (by omega) (by omega)
        have hnext : input.rparen + 1 < o.rparen := by omega
        have hwidth' := hf.start_lt_stop (i := input.rparen + 1) (by omega)
        have hbefore' := hf.stop_le_start hnext hsize
        omega
    · have hafter := hf.stop_le_start (Nat.lt_trans hbehind hlparen) hsize'
      omega
  | replaceOutput output =>
    simp only [Strategy.call, Strategy.token, Strategy.position, reduceCtorEq, false_and, exists_false, false_or] at *
    have hend := hf.start_lt_stop hsize'
    have hopen := hf.start_lt_stop (Nat.lt_trans hlparen hsize')
    rcases hclose with hinside | hbehind
    · have hinner := hf.stop_le_start hlparen hsize'
      have hbefore := hf.stop_le_start hinside hsize
      omega
    · have hafter := hf.stop_le_start hbehind (Nat.lt_trans hlparen hsize')
      omega
  | insertBeforeTerminal terminal =>
    simp only [Strategy.call, Strategy.token, Strategy.position, reduceCtorEq, false_and, exists_false, false_or] at *
    have hdot' : terminal.dot ≠ o.rparen := by
      rcases hcall.dot with hkind | hkind
      · exact File.ne_of_kind (beq_iff_eq.mp hkind) hrparen (by decide)
      · exact File.ne_of_kind (beq_iff_eq.mp hkind) hrparen (by decide)
    have hsize'' : terminal.dot < f.size := by omega
    have hwidth' := hf.start_lt_stop hsize''
    by_cases hinside : terminal.dot < o.rparen
    · have hbefore := hf.stop_le_start hinside hsize
      omega
    · have hafter := hf.stop_le_start (i := o.rparen) (j := terminal.dot) (by omega) hsize''
      omega

/-- A chain leaves the parentheses that hold its root only through type arguments that run past their end. -/
theorem Located.overruns_of_leaves (hf : f.IsRead) (hx : Located f x) (hy : Located f y) (ho : o ∈ x.procedure.segments)
    (hholds : o.Holds y.procedure.root) (h : y.Leaves o) : ∃ s ∈ y.procedure.segments, s.Overruns f := by
  obtain ⟨hroot, hdot, hlparen, hclose⟩ := hx.call_within hf hy ho hholds hy.call_mem
  obtain ⟨⟨c, hc, hrparen⟩, -, -⟩ := matched_of_mem_segmentsFrom o (hx.segments ▸ ho)
  have hbehind : o.rparen < y.strategy.call.lparen := by
    unfold Finding.Leaves at h
    generalize y.strategy = strategy at h hdot hlparen hclose ⊢
    cases strategy with
    | insertAfterInput input =>
      simp only [Strategy.call, Strategy.token] at *
      omega
    | replaceOutput output => exact h
    | insertBeforeTerminal terminal =>
      simp only [Strategy.call, Strategy.token] at *
      omega
  have hs := hy.call_mem
  rw [hy.segments] at hs ⊢
  unfold Segment.Holds at hholds
  exact overruns_of_mem_segmentsFrom hf hc (by omega) (by omega) hs (by omega)

/-! ### Rejection -/

/-- A replacement and the edit of a procedure whose root it removes overlap unless that edit stands behind the arguments. -/
theorem overlaps_nested_iff (hf : f.IsRead) (hx : Located f x) (hy : Located f y) (hreplaces : Replaces f x o)
    (hholds : o.Holds y.procedure.root) :
    (x.splice f).edit.span.overlaps (y.splice f).edit.span = true ↔ ¬ (y.Abuts f o ∨ y.Leaves o) := by
  obtain ⟨ho, hspan⟩ := segment_of_replaces hreplaces
  obtain ⟨hroot, hdot, hlparen, -⟩ := hx.call_within hf hy ho hholds hy.call_mem
  have hsize := File.lt_size_of_hasKind (hy.isCall hf hy.call_mem).rparen
  have hfits := (hy.fits hf).le
  -- The edit begins after the root of its procedure.
  have hbegins : (f.span y.procedure.root).stop ≤ (y.splice f).edit.span.start := by
    rw [Finding.start_splice]
    generalize y.strategy = strategy at hroot hdot hlparen hsize ⊢
    cases strategy with
    | insertAfterInput input =>
      simp only [Strategy.call, Strategy.position] at *
      have hle := hf.stop_le_start (i := y.procedure.root) (j := input.rparen) (by omega) hsize
      have hwidth := hf.start_lt_stop hsize
      omega
    | replaceOutput output =>
      simp only [Strategy.call, Strategy.position] at *
      have hle := hf.stop_le_start (i := y.procedure.root) (j := output.lparen) (by omega) (by omega)
      have hwidth := hf.start_lt_stop (i := output.lparen) (by omega)
      omega
    | insertBeforeTerminal terminal =>
      simp only [Strategy.call, Strategy.position] at *
      exact hf.stop_le_start hroot (by omega)
  have hrootsize := File.lt_size_of_hasKind hy.root
  have hafter := hf.stop_le_start hholds.1 hrootsize
  have hwidth := hf.start_lt_stop hrootsize
  rw [← hx.abuts_or_leaves_iff hf hy ho hholds, hspan]
  unfold Span.overlaps Segment.argumentsSpan
  rw [Bool.and_eq_true, decide_eq_true_eq, decide_eq_true_eq]
  simp only
  omega

variable {p : Project} {index : Nat} {settings : Settings} {xs : List Finding}

/-- A file with two changes that overlap fails. -/
theorem error_of_overlapping (hf : (p.file index).IsRead) (h : found p index settings = .ok xs) (hx : x ∈ xs)
    (hy : y ∈ xs) (hroots : x.procedure.root ≠ y.procedure.root) (hchanges : x.changes (p.file index) = true)
    (hchanges' : y.changes (p.file index) = true)
    (hover : (x.splice (p.file index)).edit.span.overlaps (y.splice (p.file index)).edit.span = true) :
    ∃ e, (reportOnFile p index settings).1 = .error e := by
  cases himport : Import.ensure (p.file index) settings.source with
  | error e =>
    refine ⟨e, ?_⟩
    have hmem : (x.splice (p.file index)).edit ∈ (Progress.of (p.file index) xs).edits := by
      rw [edits_of]
      exact List.mem_map_of_mem (List.mem_filter.mpr ⟨hx, hchanges⟩)
    rw [reportOnFile_of_found h]
    unfold outputOf
    rw [if_neg (by simpa using List.ne_nil_of_mem hmem), himport]
    rfl
  | ok imported =>
    obtain ⟨a, b, hreport⟩ := error_of_overlaps hf h himport fun hpairwise => by
      rw [List.pairwise_append, edits_of, List.pairwise_map] at hpairwise
      have hsymm : Std.Symm fun x y : Finding =>
          (x.splice (p.file index)).edit.span.overlaps (y.splice (p.file index)).edit.span = false :=
        ⟨fun _ _ h => (Span.overlaps_comm _ _).trans h⟩
      have hapart := hpairwise.1.forall (List.mem_filter.mpr ⟨hx, hchanges⟩) (List.mem_filter.mpr ⟨hy, hchanges'⟩)
        fun heq => hroots (congrArg (·.procedure.root) heq)
      rw [hover] at hapart
      cases hapart
    exact ⟨_, hreport⟩

end SchemaSplice.Pass

namespace SchemaSplice

open Source Declaration Chain Pass

/-- Two changes, the root of the second one among the arguments that the first one replaces: the file fails, or the second
change stands behind the arguments, in which case the two can be made together. It stands there only after an `input` call
at their very end or after type arguments that run past a closing bracket. -/
theorem nested_rejected_unless_behind (sources : List (String × String)) (index : Nat) (settings : Settings)
    (xs : List Finding) (h : found (Project.read sources) index settings = .ok xs) (x y : Finding) (hx : x ∈ xs)
    (hy : y ∈ xs) (o : Segment) (hreplaces : Replaces ((Project.read sources).file index) x o)
    (hholds : o.Holds y.procedure.root) (hchanges : y.changes ((Project.read sources).file index) = true) :
    let f := (Project.read sources).file index
    ((∃ e, (reportOnFile (Project.read sources) index settings).1 = .error e) ∨ y.Abuts f o ∨ y.Leaves o) ∧
      ((∃ text, applyEdits f.text [(x.splice f).edit, (y.splice f).edit] = .ok text) ↔ y.Abuts f o ∨ y.Leaves o) ∧
      (y.Leaves o → ∃ s ∈ y.procedure.segments, s.Overruns f) := by
  intro f
  have hf := isRead_file sources index
  have hlocated := located_of_found hf h x hx
  have hlocated' := located_of_found hf h y hy
  have ho := (segment_of_replaces hreplaces).1
  have hover := overlaps_nested_iff hf hlocated hlocated' hreplaces hholds
  refine ⟨?_, ?_, hlocated.overruns_of_leaves hf hlocated' ho hholds⟩
  · by_cases hbehind : y.Abuts f o ∨ y.Leaves o
    · exact Or.inr hbehind
    · -- The root of the first procedure stands before its calls.
      have hdot := matched_of_mem_segmentsFrom o (hlocated.segments ▸ ho)
      have hroots : x.procedure.root ≠ y.procedure.root := by
        have hafter := hholds.1
        omega
      exact Or.inl (error_of_overlapping hf h hx hy hroots hreplaces.1 hchanges (hover.mpr hbehind))
  · have hfits : ∀ e ∈ [(x.splice f).edit, (y.splice f).edit], e.span.Fits f.text := by
      intro e he
      simp only [List.mem_cons, List.not_mem_nil, or_false] at he
      rcases he with he | he
      · exact he ▸ hlocated.fits hf
      · exact he ▸ hlocated'.fits hf
    rw [exists_applyEdits_iff hfits, List.pairwise_pair, ← Bool.not_eq_true, hover, not_not]

/-- Two procedures of a file with what is read off them: the second one stands in what the first one replaces. -/
theorem exists_nested_of_places {f : File} {xs : List Finding} {i j : Nat} {o : Segment} {strategy : Strategy}
    (h : xs.map (fun x => (x.procedure.root, x.strategy, x.changes f)) =
      [(i, .replaceOutput o, true), (j, strategy, true)]) (hholds : o.Holds j) :
    ∃ x ∈ xs, ∃ y ∈ xs, Replaces f x o ∧ o.Holds y.procedure.root ∧ y.changes f = true ∧ y.strategy = strategy := by
  obtain ⟨x, rest, rfl, hx, hrest⟩ := List.map_eq_cons_iff.mp h
  obtain ⟨y, rest', rfl, hy, -⟩ := List.map_eq_cons_iff.mp hrest
  simp only [Prod.mk.injEq] at hx hy
  exact ⟨x, by simp, y, by simp, ⟨hx.2.2, hx.2.1⟩, hy.1 ▸ hholds, hy.2.2, hy.2.1⟩

theorem nestedProcedures_rejected :
    ∃ e, (reportOnFile (Project.read nestedProcedures) 0 outputSettings).1 = .error e := by
  have hfound : (found (Project.read nestedProcedures) 0 outputSettings).toOption.map
      (fun xs => xs.map fun x => (x.procedure.root, x.strategy, x.changes ((Project.read nestedProcedures).file 0))) =
        some [(5, .replaceOutput ⟨"output", 6, 8, 20⟩, true), (9, .insertBeforeTerminal ⟨"query", 10, 12, 19⟩, true)] := by
    decide +kernel
  obtain ⟨xs, hxs, hplaces⟩ := exists_ok_of_toOption hfound
  obtain ⟨x, hx, y, hy, hreplaces, hholds, hchanges, hstrategy⟩ := exists_nested_of_places hplaces (by decide)
  have hrejected := (nested_rejected_unless_behind nestedProcedures 0 outputSettings xs hxs x y hx hy _ hreplaces hholds
    hchanges).1
  unfold Finding.Abuts Finding.Leaves at hrejected
  rw [hstrategy] at hrejected
  simpa [Strategy.token] using hrejected

/-- A procedure that changes has its root among the arguments that another procedure replaces. -/
def Nested (p : Project) (index : Nat) (settings : Settings) : Prop :=
  ∃ xs, found p index settings = .ok xs ∧ ∃ x ∈ xs, ∃ y ∈ xs, ∃ o, Replaces (p.file index) x o ∧
    o.Holds y.procedure.root ∧ y.changes (p.file index) = true

theorem nested_of_places {p : Project} {index : Nat} {settings : Settings} {xs : List Finding} {i j : Nat} {o : Segment}
    {strategy : Strategy} (h : found p index settings = .ok xs)
    (hplaces : xs.map (fun x => (x.procedure.root, x.strategy, x.changes (p.file index))) =
      [(i, .replaceOutput o, true), (j, strategy, true)]) (hholds : o.Holds j) : Nested p index settings := by
  obtain ⟨x, hx, y, hy, hreplaces, hheld, hchanges, -⟩ := exists_nested_of_places hplaces hholds
  exact ⟨xs, h, x, hx, y, hy, o, hreplaces, hheld, hchanges⟩

/-- A file whose second procedure ends with an `input` call, right where the arguments that hold it end. -/
def inputAtEnd : List (String × String) :=
  [("a.ts", "import z from 'm';p.output(p.query((): any=>0).input(x)).query((): any=>0)")]

/-- A file whose second procedure goes on behind the arguments that hold its root. -/
def outputBehind : List (String × String) :=
  [("a.ts", "import z from 'm';p.output(p.a<x).query((): any=>0)>(h).query((): any=>0)")]

/-- Both ways to stand behind the arguments: a file gets a text from the two edits. -/
theorem nested_edits_merged :
    (Nested (Project.read inputAtEnd) 0 outputSettings ∧
      ∃ report, (reportOnFile (Project.read inputAtEnd) 0 outputSettings).1 = .ok report ∧
        report.output.isSome = true) ∧
    Nested (Project.read outputBehind) 0 outputSettings ∧
      ∃ report, (reportOnFile (Project.read outputBehind) 0 outputSettings).1 = .ok report ∧
        report.output.isSome = true := by
  have hinput : (found (Project.read inputAtEnd) 0 outputSettings).toOption.map
      (fun xs => (xs.map fun x => (x.procedure.root, x.strategy, x.changes ((Project.read inputAtEnd).file 0)),
        (Progress.of ((Project.read inputAtEnd).file 0) xs).edits)) =
        some ([(5, .replaceOutput ⟨"output", 6, 8, 25⟩, true), (9, .insertAfterInput ⟨"input", 20, 22, 24⟩, true)],
          [⟨⟨27, 55⟩, "/* BEGIN GENERATED CONTENT */ z.any() /* END GENERATED CONTENT */"⟩,
            ⟨⟨55, 55⟩, ".output(/* BEGIN GENERATED CONTENT */ z.any() /* END GENERATED CONTENT */)"⟩]) := by
    decide +kernel
  have houtput : (found (Project.read outputBehind) 0 outputSettings).toOption.map
      (fun xs => (xs.map fun x => (x.procedure.root, x.strategy, x.changes ((Project.read outputBehind).file 0)),
        (Progress.of ((Project.read outputBehind).file 0) xs).edits)) =
        some ([(5, .replaceOutput ⟨"output", 6, 8, 14⟩, true), (9, .insertBeforeTerminal ⟨"query", 29, 31, 38⟩, true)],
          [⟨⟨27, 32⟩, "/* BEGIN GENERATED CONTENT */ z.any() /* END GENERATED CONTENT */"⟩,
            ⟨⟨55, 55⟩, ".output(/* BEGIN GENERATED CONTENT */ z.any() /* END GENERATED CONTENT */)"⟩]) := by
    decide +kernel
  constructor
  · obtain ⟨xs, hxs, hboth⟩ := exists_ok_of_toOption hinput
    obtain ⟨hplaces, hedits⟩ := Prod.mk.inj hboth
    have hcopy : (copyFrom ((Project.read inputAtEnd).file 0).text.toList 0
        [⟨⟨27, 55⟩, "/* BEGIN GENERATED CONTENT */ z.any() /* END GENERATED CONTENT */"⟩,
          ⟨⟨55, 55⟩, ".output(/* BEGIN GENERATED CONTENT */ z.any() /* END GENERATED CONTENT */)"⟩]).map List.length =
        some 185 := by
      decide +kernel
    exact ⟨nested_of_places hxs hplaces (by decide), exists_output_of_ordered hxs (by decide +kernel) hedits (by decide)
      (by decide) (by decide) hcopy (by decide +kernel)⟩
  · obtain ⟨xs, hxs, hboth⟩ := exists_ok_of_toOption houtput
    obtain ⟨hplaces, hedits⟩ := Prod.mk.inj hboth
    have hcopy : (copyFrom ((Project.read outputBehind).file 0).text.toList 0
        [⟨⟨27, 32⟩, "/* BEGIN GENERATED CONTENT */ z.any() /* END GENERATED CONTENT */"⟩,
          ⟨⟨55, 55⟩, ".output(/* BEGIN GENERATED CONTENT */ z.any() /* END GENERATED CONTENT */)"⟩]).map List.length =
        some 207 := by
      decide +kernel
    exact ⟨nested_of_places hxs hplaces (by decide), exists_output_of_ordered hxs (by decide +kernel) hedits (by decide)
      (by decide) (by decide) hcopy (by decide +kernel)⟩

end SchemaSplice
