import SchemaSplice.Proofs.Splice.Findings
import SchemaSplice.Proofs.Splice.Nesting
import SchemaSplice.Proofs.Splice.Overlaps
/-!
# Clashes of edits

Every edit of a file fits its text. Edits of a file overlap only if one replaces the arguments of an `output` call
that hold the root of another procedure or the end of an import, or if two procedures replace the same arguments.
The latter happens to chains whose type arguments are left open.
-/

namespace SchemaSplice.Source.File

variable {f : File} {i j : Nat}

/-! ### Tokens in order -/

theorem span_eq_of_lt (hi : i < f.size) : ∃ t, f.tokens[i]? = some t ∧ f.span i = ⟨t.start, t.stop⟩ := by
  have ht : f.tokens[i]? = some f.tokens[i] := Array.getElem?_eq_getElem hi
  exact ⟨_, ht, span_of_token ht⟩

theorem IsRead.start_lt_stop (hf : f.IsRead) (hi : i < f.size) : (f.span i).start < (f.span i).stop := by
  obtain ⟨t, ht, hspan⟩ := span_eq_of_lt hi
  rw [hspan]
  exact (le_start_of_mem_scanFrom (mem_scan_of_token hf ht)).2

theorem IsRead.stop_le_start (hf : f.IsRead) (hij : i < j) (hj : j < f.size) :
    (f.span i).stop ≤ (f.span j).start := by
  obtain ⟨t, ht, hspan⟩ := span_eq_of_lt (Nat.lt_trans hij hj)
  obtain ⟨u, hu, hspan'⟩ := span_eq_of_lt hj
  rw [hspan, hspan']
  exact hf.stop_le_start_of_lt hij ht hu

theorem IsRead.isBoundary_span (hf : f.IsRead) (i : Nat) :
    IsBoundary f.text (f.span i).start ∧ IsBoundary f.text (f.span i).stop := by
  by_cases hi : i < f.size
  · obtain ⟨t, ht, hspan⟩ := span_eq_of_lt hi
    rw [hspan]
    obtain ⟨front, back, hscan, -, -⟩ := hf.exists_split ht
    obtain ⟨rest, hbefore⟩ := stop_before hscan
    obtain ⟨rest', hafter⟩ := stop_after hscan
    obtain ⟨x, hx, hposition⟩ := hbefore.cut
    obtain ⟨x', hx', hposition'⟩ := hafter.cut
    exact ⟨⟨x, _, hx, hposition⟩, ⟨x', _, hx', hposition'⟩⟩
  · have hend : f.span i = f.eof := by
      unfold span
      rw [Array.getElem?_eq_none (Nat.le_of_not_lt hi)]
    rw [hend]
    exact ⟨isBoundary_size f.text, isBoundary_size f.text⟩

def AtToken (f : File) (i position : Nat) : Prop :=
  i < f.size ∧ (position = (f.span i).start ∨ position = (f.span i).stop)

/-- A token with a boundary strictly between two tokens stands between them. -/
theorem IsRead.between_of_atToken (hf : f.IsRead) {o c position : Nat} (ho : o < f.size) (hc : c < f.size)
    (h : AtToken f i position) (hafter : (f.span o).stop < position) (hbefore : position < (f.span c).start) :
    o < i ∧ i < c := by
  obtain ⟨hi, hposition⟩ := h
  have hpos := hf.start_lt_stop hi
  constructor
  · by_contra hle
    rcases Nat.lt_or_eq_of_le (Nat.le_of_not_lt hle) with hlt | rfl
    · have := hf.stop_le_start hlt ho
      have := hf.start_lt_stop ho
      omega
    · omega
  · by_contra hle
    rcases Nat.lt_or_eq_of_le (Nat.le_of_not_lt hle) with hlt | rfl
    · have := hf.stop_le_start hlt hi
      have := hf.start_lt_stop hc
      omega
    · omega

/-- A token that ends before another one starts has the smaller index. -/
theorem IsRead.lt_of_stop_lt_start (hf : f.IsRead) (hi : i < f.size) (hj : j < f.size)
    (h : (f.span i).stop < (f.span j).start) : i < j := by
  by_contra hle
  have := hf.start_lt_stop hi
  have := hf.start_lt_stop hj
  rcases Nat.lt_or_eq_of_le (Nat.le_of_not_lt hle) with hlt | rfl
  · have := hf.stop_le_start hlt hi
    omega
  · omega

end SchemaSplice.Source.File

namespace SchemaSplice.Pass

open Source SchemaSplice.Types Annotation Declaration Chain

variable {f : File}

/-! ### Findings in their file -/

/-- A finding comes from a chain of a file. -/
structure Located (f : File) (x : Finding) : Prop where
  root : f.hasKind x.procedure.root .ident = true
  segments : x.procedure.segments = segmentsFrom f (x.procedure.root + 1)
  terminal : x.procedure.terminal ∈ x.procedure.segments

theorem segments_of_mem_chains {factories : List String} {c : Nat × List Segment} (h : c ∈ chains f factories) :
    c.2 = segmentsFrom f (c.1 + 1) := by
  obtain ⟨root, -, hroot⟩ := List.mem_filterMap.mp h
  split at hroot
  · simp only at hroot
    split at hroot
    · cases hroot
      rfl
    · cases hroot
  · cases hroot

theorem chains_pairwise (f : File) (factories : List String) :
    (chains f factories).Pairwise fun c d => c.1 < d.1 := by
  refine List.Pairwise.filterMap _ ?_ List.pairwise_lt_range
  intro i j hij c hc d hd
  have hi : c.1 = i := by
    split at hc
    · simp only at hc
      split at hc <;> cases hc
      rfl
    · cases hc
  have hj : d.1 = j := by
    split at hd
    · simp only at hd
      split at hd <;> cases hd
      rfl
    · cases hd
  rw [hi, hj]
  exact hij

variable {p : Project} {index : Nat} {settings : Settings} {xs : List Finding}

theorem located_of_found (hf : (p.file index).IsRead) (h : found p index settings = .ok xs) :
    ∀ x ∈ xs, Located (p.file index) x := by
  obtain ⟨hfound, hsublist⟩ := foundIn_of_found (extends_maintained p {}) (Extends.refl {}) h
  intro x hx
  have hchain := hsublist.mem (List.mem_map_of_mem hx)
  obtain ⟨s, s', hprocedure, -, -⟩ := hfound x hx
  exact ⟨(isCall_of_mem_chains hf hchain).1, segments_of_mem_chains hchain,
    (terminal_mem_of_procedureAt hprocedure).2⟩

theorem roots_of_found (h : found p index settings = .ok xs) :
    xs.Pairwise fun x y => x.procedure.root < y.procedure.root := by
  obtain ⟨-, hsublist⟩ := foundIn_of_found (extends_maintained p {}) (Extends.refl {}) h
  have hchains := (chains_pairwise (p.file index) settings.factories).sublist hsublist
  rwa [List.pairwise_map] at hchains

variable {x y : Finding} {o s : Segment}

theorem Located.isCall (hf : f.IsRead) (hx : Located f x) (hs : s ∈ x.procedure.segments) : IsCall f s := by
  rw [hx.segments] at hs
  exact isCall_of_mem_segmentsFrom hf ⟨_, rfl, Or.inl hx.root⟩ s hs

/-- A chain with a token of its calls between the parentheses of a call has its root there. -/
theorem Located.holds_root (hf : f.IsRead) (hx : Located f x) (hy : Located f y)
    (ho : o ∈ x.procedure.segments) (hs : s ∈ y.procedure.segments)
    (h : o.Holds s.dot ∨ o.Holds s.lparen ∨ o.Holds s.rparen) : o.Holds y.procedure.root := by
  have hcall := hx.isCall hf ho
  rw [hx.segments] at ho
  obtain ⟨⟨c, hc, hrparen⟩, -, -⟩ := matched_of_mem_segmentsFrom o ho
  by_contra houtside
  have hroot : File.Beyond o.lparen c.1 (y.procedure.root + 1) := by
    have hident : f.kind? y.procedure.root = some .ident := beq_iff_eq.mp hy.root
    have hne := File.ne_of_kind hident hcall.lparen (by decide)
    have hne' := File.ne_of_kind hident hcall.rparen (by decide)
    unfold Segment.Holds at houtside
    unfold File.Beyond
    omega
  rw [hy.segments] at hs
  have hbeyond := beyond_of_mem_segmentsFrom hf hcall.lparen hc hroot s hs
  unfold Segment.Holds at h
  unfold File.Beyond at hbeyond
  omega

/-- The splice of a finding replaces the arguments of a call, or inserts before or after a call. -/
theorem Located.span_splice (hf : f.IsRead) (hx : Located f x) :
    (∃ o ∈ x.procedure.segments, x.strategy = .replaceOutput o ∧ (x.splice f).edit.span = o.argumentsSpan f) ∨
      ∃ s ∈ x.procedure.segments, ∃ i position, (i = s.dot ∨ i = s.rparen) ∧ File.AtToken f i position ∧
        (x.splice f).edit.span = Span.empty position := by
  have hplace : x.strategy = Strategy.choose x.procedure := rfl
  unfold Strategy.choose at hplace
  unfold Finding.splice
  split at hplace
  · next output houtput =>
    rw [hplace]
    exact Or.inl ⟨output, mem_of_lastNamed? houtput, rfl, rfl⟩
  · next input _ hinput =>
    rw [hplace]
    have hs := mem_of_lastNamed? hinput
    have hsize := File.lt_size_of_hasKind (hx.isCall hf hs).rparen
    exact Or.inr ⟨input, hs, _, _, Or.inr rfl, ⟨hsize, Or.inr rfl⟩, rfl⟩
  · rw [hplace]
    have hsize : x.procedure.terminal.dot < f.size := by
      rcases (hx.isCall hf hx.terminal).dot with hdot | hdot
      all_goals exact File.lt_size_of_hasKind hdot
    exact Or.inr ⟨_, hx.terminal, _, _, Or.inl rfl, ⟨hsize, Or.inl rfl⟩, rfl⟩

theorem Located.fits (hf : f.IsRead) (hx : Located f x) : (x.splice f).edit.span.Fits f.text := by
  rcases hx.span_splice hf with ⟨o, ho, -, hspan⟩ | ⟨s, hs, i, position, -, ⟨-, hposition⟩, hspan⟩
  · have hcall := hx.isCall hf ho
    rw [hspan]
    exact ⟨hf.stop_le_start hcall.lt (File.lt_size_of_hasKind hcall.rparen), (hf.isBoundary_span _).2,
      (hf.isBoundary_span _).1⟩
  · rw [hspan]
    have hboundary : IsBoundary f.text position := by
      rcases hposition with rfl | rfl
      · exact (hf.isBoundary_span i).1
      · exact (hf.isBoundary_span i).2
    exact ⟨Nat.le_refl _, hboundary, hboundary⟩

/-! ### Two procedures -/

/-- A position strictly inside the arguments of a call belongs to a token inside them. -/
theorem holds_of_atToken (hf : f.IsRead) (ho : IsCall f o) {i position : Nat} (hi : File.AtToken f i position)
    (h : (o.argumentsSpan f).overlaps (Span.empty position) = true) : o.Holds i := by
  unfold Span.overlaps Span.empty Segment.argumentsSpan at h
  rw [Bool.and_eq_true, decide_eq_true_eq, decide_eq_true_eq] at h
  exact hf.between_of_atToken (File.lt_size_of_hasKind ho.lparen) (File.lt_size_of_hasKind ho.rparen) hi h.1 h.2

/-- Splices overlap only if one replaces arguments that hold the root of the other, or both replace the same arguments. -/
theorem nested_or_shared_of_overlaps (hf : f.IsRead) (hx : Located f x) (hy : Located f y)
    (h : (x.splice f).edit.span.overlaps (y.splice f).edit.span = true) :
    (∃ o, x.strategy = .replaceOutput o ∧ o.Holds y.procedure.root) ∨
      (∃ o, y.strategy = .replaceOutput o ∧ o.Holds x.procedure.root) ∨
      ∃ o o', x.strategy = .replaceOutput o ∧ y.strategy = .replaceOutput o' ∧ o.lparen = o'.lparen := by
  rcases hx.span_splice hf with ⟨o, ho, hreplace, hspan⟩ | ⟨s, hs, i, position, hi, hat, hspan⟩ <;>
    rcases hy.span_splice hf with ⟨o', ho', hreplace', hspan'⟩ | ⟨s', hs', i', position', hi', hat', hspan'⟩ <;>
    rw [hspan, hspan'] at h
  · -- Two replacements: their parentheses do not cross.
    have hcall := hx.isCall hf ho
    have hcall' := hy.isCall hf ho'
    have hlt : o.lparen < o'.rparen ∧ o'.lparen < o.rparen := by
      unfold Span.overlaps Segment.argumentsSpan at h
      rw [Bool.and_eq_true, decide_eq_true_eq, decide_eq_true_eq] at h
      exact ⟨hf.lt_of_stop_lt_start (File.lt_size_of_hasKind hcall.lparen) (File.lt_size_of_hasKind hcall'.rparen) h.1,
        hf.lt_of_stop_lt_start (File.lt_size_of_hasKind hcall'.lparen) (File.lt_size_of_hasKind hcall.rparen) h.2⟩
    obtain ⟨⟨c, hc, hrparen⟩, -, -⟩ := matched_of_mem_segmentsFrom o (hx.segments ▸ ho)
    obtain ⟨⟨c', hc', hrparen'⟩, -, -⟩ := matched_of_mem_segmentsFrom o' (hy.segments ▸ ho')
    rcases hf.laminar hc hc' with ⟨hsame, -⟩ | hapart | hapart | ⟨hinside, -⟩ | ⟨hinside, -⟩
    · exact Or.inr (Or.inr ⟨o, o', hreplace, hreplace', hsame⟩)
    · omega
    · omega
    · exact Or.inr (Or.inl ⟨o', hreplace', hy.holds_root hf hx ho' ho (Or.inr (Or.inl ⟨hinside, hlt.1⟩))⟩)
    · exact Or.inl ⟨o, hreplace, hx.holds_root hf hy ho ho' (Or.inr (Or.inl ⟨hinside, hlt.2⟩))⟩
  · have hholds := holds_of_atToken hf (hx.isCall hf ho) hat' h
    refine Or.inl ⟨o, hreplace, hx.holds_root hf hy ho hs' ?_⟩
    rcases hi' with rfl | rfl
    · exact Or.inl hholds
    · exact Or.inr (Or.inr hholds)
  · rw [Span.overlaps_comm] at h
    have hholds := holds_of_atToken hf (hy.isCall hf ho') hat h
    refine Or.inr (Or.inl ⟨o', hreplace', hy.holds_root hf hx ho' hs ?_⟩)
    rcases hi with rfl | rfl
    · exact Or.inl hholds
    · exact Or.inr (Or.inr hholds)
  · rw [Span.overlaps_empty] at h
    cases h

/-! ### The import -/

/-- The import is inserted after the last token of an import, or before a token that no word precedes. -/
theorem span_of_ensure {source : String} {e : Edit} (h : Import.ensure f source = .ok (some e)) :
    (∃ s ∈ Import.statements f, ∃ position, File.AtToken f s.last position ∧ e.span = Span.empty position) ∨
      ∃ i, e.span = Span.empty (f.span i).start ∧ ∀ root, f.hasKind root .ident = true → i ≤ root := by
  cases (inserts_of_ensure h).2 with
  | @afterLast last hlast =>
    have hmem := List.mem_of_getLast? hlast
    exact Or.inl ⟨last, hmem, _, ⟨(mayEnd_last_of_mem_statementsFrom 0 last hmem).lt_size, Or.inr rfl⟩, rfl⟩
  | afterDirectives => exact Or.inr ⟨_, rfl, fun root hroot => directivesEnd_le hroot (Nat.zero_le root)⟩

theorem fits_of_ensure (hf : f.IsRead) {source : String} {e : Edit} (h : Import.ensure f source = .ok (some e)) :
    e.span.Fits f.text := by
  rcases span_of_ensure h with ⟨s, -, position, ⟨-, hposition⟩, hspan⟩ | ⟨i, hspan, -⟩
  · rw [hspan]
    have hboundary : IsBoundary f.text position := by
      rcases hposition with rfl | rfl
      · exact (hf.isBoundary_span _).1
      · exact (hf.isBoundary_span _).2
    exact ⟨Nat.le_refl _, hboundary, hboundary⟩
  · rw [hspan]
    exact ⟨Nat.le_refl _, (hf.isBoundary_span i).1, (hf.isBoundary_span i).1⟩

/-- A splice overlaps the import only if it replaces arguments that hold the end of an import. -/
theorem holds_last_of_overlaps (hf : f.IsRead) (hx : Located f x) {source : String} {e : Edit}
    (he : Import.ensure f source = .ok (some e)) (h : (x.splice f).edit.span.overlaps e.span = true) :
    ∃ o, x.strategy = .replaceOutput o ∧ ∃ s ∈ Import.statements f, o.Holds s.last := by
  rcases hx.span_splice hf with ⟨o, ho, hreplace, hspan⟩ | ⟨s, hs, i, position, -, -, hspan⟩ <;>
    rcases span_of_ensure he with ⟨s', hs', position', hat, hspan'⟩ | ⟨i', hspan', hfirst⟩ <;>
    rw [hspan, hspan'] at h
  · exact ⟨o, hreplace, s', hs', holds_of_atToken hf (hx.isCall hf ho) hat h⟩
  · -- The chain starts after the directives.
    exfalso
    have hle := hfirst _ hx.root
    have hsize := Nat.lt_of_le_of_lt hle (File.lt_size_of_hasKind hx.root)
    have hholds := holds_of_atToken hf (hx.isCall hf ho) ⟨hsize, Or.inl rfl⟩ h
    rw [hx.segments] at ho
    obtain ⟨-, hdot, hlparen⟩ := matched_of_mem_segmentsFrom o ho
    have := hholds.1
    omega
  all_goals
    rw [Span.overlaps_empty] at h
    cases h

/-! ### The pass -/

theorem mem_edits {e : Edit} (h : e ∈ (Progress.of f xs).edits) :
    ∃ x ∈ xs, x.changes f = true ∧ (x.splice f).edit = e := by
  rw [edits_of] at h
  obtain ⟨x, hx, he⟩ := List.mem_map.mp h
  obtain ⟨hmem, hchanges⟩ := List.mem_filter.mp hx
  exact ⟨x, hmem, hchanges, he⟩

/-- The edits of a pass in terms of its findings. -/
theorem appliedEdits_eq_found (p : Project) (index : Nat) (settings : Settings) :
    appliedEdits p index settings = do
      let xs ← found p index settings
      let imported ← Import.ensure (p.file index) settings.source
      return (Progress.of (p.file index) xs).edits ++ imported.toList := by
  unfold appliedEdits
  simp only
  rw [visitProcedures_eq_found]
  cases found p index settings with
  | error e => rfl
  | ok xs => rfl

/-- A pass without findings fails because of a procedure. -/
theorem procedure_of_visitChains {candidates : List (Nat × List Segment)} {s s' : Inquiry} {e : Failure}
    (h : visitChains p index (collect f settings) candidates xs s = (.error e, s')) :
    ∃ path line cause, e = .procedure path line cause := by
  induction candidates generalizing xs s with
  | nil => cases h
  | cons c rest ih =>
    obtain ⟨root, segments⟩ := c
    unfold visitChains at h
    split at h
    · exact ih h
    · next procedure s₁ _ =>
      unfold collect at h
      cases hv : validatorOfResult s₁.table settings.maxDepth procedure.returnType with
      | error cause =>
        rw [hv] at h
        cases h
        exact ⟨_, _, _, rfl⟩
      | ok v =>
        rw [hv] at h
        exact ih h

theorem reportOnFile_of_found (h : found p index settings = .ok xs) :
    (reportOnFile p index settings).1 =
      (outputOf (p.file index) settings (Progress.of (p.file index) xs).edits).map
        (reportOf (p.file index) (.of (p.file index) xs)) := by
  rw [reportOnFile_eq_found, h]
  cases houtput : outputOf (p.file index) settings (Progress.of (p.file index) xs).edits with
  | error e =>
    show (outputOf (p.file index) settings (Progress.of (p.file index) xs).edits >>= _) = _
    rw [houtput]
    rfl
  | ok output =>
    show (outputOf (p.file index) settings (Progress.of (p.file index) xs).edits >>= _) = _
    rw [houtput]
    rfl

theorem outputOf_of_import {edits : List Edit} (hne : edits ≠ []) {imported : Option Edit}
    (himport : Import.ensure f settings.source = .ok imported) :
    outputOf f settings edits =
      ((applyEdits f.text (edits ++ imported.toList)).mapError .edits).map fun text =>
        if text == f.text then none else some text := by
  unfold outputOf
  rw [if_neg (by simpa using hne), himport]
  show ((applyEdits f.text (edits ++ imported.toList)).mapError Failure.edits >>= _) = _
  cases applyEdits f.text (edits ++ imported.toList) with
  | error e => rfl
  | ok text => rfl

theorem importConflict_of_ensure {source : String} {e : Failure} (h : Import.ensure f source = .error e) :
    ∃ name source' binding, e = .importConflict name source' binding := by
  unfold Import.ensure at h
  simp only at h
  repeat' split at h
  all_goals cases h
  all_goals exact ⟨_, _, _, rfl⟩

/-- A file whose edits cannot be made together: they were all found before. -/
theorem applyEdits_of_error {cause : EditError}
    (h : (reportOnFile p index settings).1 = .error (.edits cause)) :
    ∃ xs imported, found p index settings = .ok xs ∧ Import.ensure (p.file index) settings.source = .ok imported ∧
      applyEdits (p.file index).text ((Progress.of (p.file index) xs).edits ++ imported.toList) = .error cause := by
  cases hfound : found p index settings with
  | error e =>
    rw [reportOnFile_eq_found, hfound] at h
    cases h
    obtain ⟨path, line, cause', hcause⟩ := procedure_of_visitChains (Prod.ext hfound rfl)
    cases hcause
  | ok xs =>
    rw [reportOnFile_of_found hfound] at h
    by_cases hne : (Progress.of (p.file index) xs).edits = []
    · rw [hne] at h
      cases h
    cases himport : Import.ensure (p.file index) settings.source with
    | error e =>
      obtain ⟨name, source, binding, rfl⟩ := importConflict_of_ensure himport
      unfold outputOf at h
      rw [if_neg (by simpa using hne), himport] at h
      cases h
    | ok imported =>
      rw [outputOf_of_import hne himport] at h
      refine ⟨xs, imported, rfl, rfl, ?_⟩
      cases happly : applyEdits (p.file index).text
          ((Progress.of (p.file index) xs).edits ++ imported.toList) with
      | error cause' =>
        rw [happly] at h
        cases h
        rfl
      | ok text =>
        rw [happly] at h
        cases h

theorem fits_edits (hf : (p.file index).IsRead) (h : found p index settings = .ok xs) {imported : Option Edit}
    (himport : Import.ensure (p.file index) settings.source = .ok imported) :
    ∀ e ∈ (Progress.of (p.file index) xs).edits ++ imported.toList, e.span.Fits (p.file index).text := by
  intro e he
  rcases List.mem_append.mp he with he | he
  · obtain ⟨x, hx, -, rfl⟩ := mem_edits he
    exact (located_of_found hf h x hx).fits hf
  · rw [Option.mem_toList] at he
    rw [he] at himport
    exact fits_of_ensure hf himport

/-- A finding has the arguments of a call of `output` replaced by others. -/
def Replaces (f : File) (x : Finding) (o : Segment) : Prop := x.changes f = true ∧ x.strategy = .replaceOutput o

/-- The arguments that a finding has replaced hold the root of another procedure or the end of an import. -/
def Nests (f : File) (xs : List Finding) (x : Finding) : Prop :=
  ∃ o, Replaces f x o ∧ ((∃ y ∈ xs, y.procedure.root ≠ x.procedure.root ∧ o.Holds y.procedure.root) ∨
    ∃ s ∈ Import.statements f, o.Holds s.last)

/-- Two procedures, the first one before the second, have the arguments of the call `o` replaced. -/
def Shares (f : File) (x y : Finding) (o : Segment) : Prop :=
  x.procedure.root < y.procedure.root ∧ Replaces f x o ∧ ∃ o', Replaces f y o' ∧ o.lparen = o'.lparen

/-- Without nested procedures, nested imports and shared arguments no edits overlap. -/
theorem pairwise_edits (hf : (p.file index).IsRead) (h : found p index settings = .ok xs) {imported : Option Edit}
    (himport : Import.ensure (p.file index) settings.source = .ok imported)
    (hnests : ∀ x ∈ xs, ¬ Nests (p.file index) xs x) (hshares : ∀ x ∈ xs, ∀ y ∈ xs, ∀ o, ¬ Shares (p.file index) x y o) :
    ((Progress.of (p.file index) xs).edits ++ imported.toList).Pairwise
      fun a b => a.span.overlaps b.span = false := by
  have hlocated := located_of_found hf h
  rw [List.pairwise_append]
  refine ⟨?_, ?_, ?_⟩
  · rw [edits_of, List.pairwise_map, List.pairwise_filter]
    refine (roots_of_found h).imp_of_mem ?_
    intro x y hx hy hroots hchanges hchanges'
    rw [← Bool.not_eq_true]
    intro hover
    have hne : x.procedure.root ≠ y.procedure.root := Nat.ne_of_lt hroots
    rcases nested_or_shared_of_overlaps hf (hlocated x hx) (hlocated y hy) hover with
      ⟨o, ho, hholds⟩ | ⟨o, ho, hholds⟩ | ⟨o, o', ho, ho', hsame⟩
    · exact hnests x hx ⟨o, ⟨hchanges, ho⟩, Or.inl ⟨y, hy, hne.symm, hholds⟩⟩
    · exact hnests y hy ⟨o, ⟨hchanges', ho⟩, Or.inl ⟨x, hx, hne, hholds⟩⟩
    · exact hshares x hx y hy o ⟨hroots, ⟨hchanges, ho⟩, o', ⟨hchanges', ho'⟩, hsame⟩
  · cases imported with
    | none => exact .nil
    | some e => exact List.pairwise_singleton _ _
  · intro a ha e he
    rw [Option.mem_toList] at he
    rw [he] at himport
    obtain ⟨x, hx, hchanges, rfl⟩ := mem_edits ha
    rw [← Bool.not_eq_true]
    intro hover
    obtain ⟨o, ho, hholds⟩ := holds_last_of_overlaps hf (hlocated x hx) himport hover
    exact hnests x hx ⟨o, ⟨hchanges, ho⟩, Or.inr hholds⟩

theorem Located.rparen_eq (hx : Located f x) (hy : Located f y) {o o' : Segment}
    (ho : o ∈ x.procedure.segments) (ho' : o' ∈ y.procedure.segments) (h : o.lparen = o'.lparen) :
    o.rparen = o'.rparen := by
  obtain ⟨⟨c, hc, hrparen⟩, -, -⟩ := matched_of_mem_segmentsFrom o (hx.segments ▸ ho)
  obtain ⟨⟨c', hc', hrparen'⟩, -, -⟩ := matched_of_mem_segmentsFrom o' (hy.segments ▸ ho')
  obtain ⟨name, dot, lparen, rparen⟩ := o
  obtain ⟨name', dot', lparen', rparen'⟩ := o'
  obtain rfl : lparen = lparen' := h
  rw [hc] at hc'
  cases hc'
  exact hrparen.symm.trans hrparen'

theorem segment_of_replaces (h : Replaces f x o) :
    o ∈ x.procedure.segments ∧ (x.splice f).edit.span = o.argumentsSpan f := by
  have hstrategy := h.2
  refine ⟨?_, ?_⟩
  · unfold Finding.strategy Strategy.choose at hstrategy
    split at hstrategy
    · next houtput =>
      cases hstrategy
      exact mem_of_lastNamed? houtput
    · cases hstrategy
    · cases hstrategy
  · unfold Finding.splice
    rw [hstrategy]
    rfl

/-- Procedures that share a call: the type arguments of the later one run past the end of brackets. -/
theorem overruns_of_shares (hx : Located f x) (hy : Located f y) (hf : f.IsRead) (h : Shares f x y o) :
    ∃ s ∈ y.procedure.segments, s.Overruns f := by
  obtain ⟨hroots, ho, o', ho', hsame⟩ := h
  have hsegment := (segment_of_replaces ho).1
  have hsegment' := (segment_of_replaces ho').1
  rw [hx.segments] at hsegment
  rw [hy.segments] at hsegment' ⊢
  exact overruns_of_shared hf hy.root hroots hsegment hsegment' hsame

/-- A file with overlapping edits fails. -/
theorem error_of_overlaps (hf : (p.file index).IsRead) (h : found p index settings = .ok xs) {imported : Option Edit}
    (himport : Import.ensure (p.file index) settings.source = .ok imported)
    (hover : ¬ ((Progress.of (p.file index) xs).edits ++ imported.toList).Pairwise
      fun a b => a.span.overlaps b.span = false) :
    ∃ a b, (reportOnFile p index settings).1 = .error (.edits (.overlap a b)) := by
  have hfits := fits_edits hf h himport
  have hne : (Progress.of (p.file index) xs).edits ≠ [] := by
    intro hnil
    rw [hnil, List.nil_append] at hover
    cases imported with
    | none => exact hover .nil
    | some e => exact hover (List.pairwise_singleton _ _)
  cases happly : applyEdits (p.file index).text
      ((Progress.of (p.file index) xs).edits ++ imported.toList) with
  | ok text => exact absurd ((exists_applyEdits_iff hfits).mp ⟨text, happly⟩) hover
  | error cause =>
    obtain ⟨a, b, rfl⟩ := overlap_of_applyEdits hfits happly
    refine ⟨a, b, ?_⟩
    rw [reportOnFile_of_found h, outputOf_of_import hne himport, happly]
    rfl

/-- Two procedures cannot replace the same arguments, unless there are none. -/
theorem error_of_shares (hf : (p.file index).IsRead) (h : found p index settings = .ok xs) (hx : x ∈ xs) (hy : y ∈ xs)
    (hshares : Shares (p.file index) x y o) (hspan : (o.argumentsSpan (p.file index)).isEmpty = false)
    {imported : Option Edit} (himport : Import.ensure (p.file index) settings.source = .ok imported) :
    ∃ a b, (reportOnFile p index settings).1 = .error (.edits (.overlap a b)) := by
  obtain ⟨hroots, ho, o', ho', hsame⟩ := hshares
  have hlocated := located_of_found hf h
  obtain ⟨hsegment, hx'⟩ := segment_of_replaces ho
  obtain ⟨hsegment', hy'⟩ := segment_of_replaces ho'
  apply error_of_overlaps hf h himport
  intro hpairwise
  rw [List.pairwise_append, edits_of, List.pairwise_map] at hpairwise
  have hsymm : Std.Symm fun x y : Finding =>
      (x.splice (p.file index)).edit.span.overlaps (y.splice (p.file index)).edit.span = false :=
    ⟨fun _ _ h => (Span.overlaps_comm _ _).trans h⟩
  have hapart := hpairwise.1.forall (List.mem_filter.mpr ⟨hx, ho.1⟩) (List.mem_filter.mpr ⟨hy, ho'.1⟩)
    fun heq => Nat.ne_of_lt hroots (congrArg (·.procedure.root) heq)
  have hspans : o'.argumentsSpan (p.file index) = o.argumentsSpan (p.file index) := by
    unfold Segment.argumentsSpan
    rw [hsame, (hlocated x hx).rparen_eq (hlocated y hy) hsegment hsegment' hsame]
  have hfits := ((hlocated x hx).fits hf).le
  rw [hx'] at hfits
  rw [hx', hy', hspans, Span.overlaps_eq_false_iff] at hapart
  unfold Span.isEmpty at hspan
  rw [beq_eq_false_iff_ne] at hspan
  omega

end SchemaSplice.Pass

namespace SchemaSplice

open Source Declaration Chain Pass

theorem exists_ok_of_toOption {ε α β : Type} {r : Except ε α} {g : α → β} {b : β}
    (h : r.toOption.map g = some b) : ∃ a, r = .ok a ∧ g a = b := by
  cases r with
  | error e => cases h
  | ok a => exact ⟨a, rfl, Option.some.inj h⟩

/-- A file that binds the namespace gets the text that its edits, given in order, make of it. -/
theorem exists_report_of_ordered {p : Project} {index : Nat} {settings : Settings} {xs : List Finding}
    {edits : List Edit} {out : String} (h : found p index settings = .ok xs)
    (himport : Import.ensure (p.file index) settings.source = .ok none)
    (hedits : (Progress.of (p.file index) xs).edits = edits) (hne : edits ≠ [])
    (hordered : edits.Pairwise fun a b => a.le b = true) (hnone : firstOverlap? edits = none)
    (hcopy : copyFrom (p.file index).text.toList 0 edits = some out.toList)
    (hchanged : (out == (p.file index).text) = false) :
    ∃ report, (reportOnFile p index settings).1 = .ok report ∧ report.output = some out := by
  have happly : applyEdits (p.file index).text (edits ++ (none : Option Edit).toList) = .ok out := by
    rw [Option.toList_none, List.append_nil]
    exact applyEdits_of_ordered hordered hnone hcopy
  have houtput : outputOf (p.file index) settings edits = .ok (some out) := by
    rw [outputOf_of_import hne himport, happly]
    simp [Except.mapError, Except.map, hchanged]
  refine ⟨reportOf (p.file index) (.of (p.file index) xs) (some out), ?_, rfl⟩
  rw [reportOnFile_of_found h, hedits, houtput]
  rfl

theorem exists_output_of_ordered {p : Project} {index : Nat} {settings : Settings} {xs : List Finding}
    {edits : List Edit} {n : Nat} (h : found p index settings = .ok xs)
    (himport : Import.ensure (p.file index) settings.source = .ok none)
    (hedits : (Progress.of (p.file index) xs).edits = edits) (hne : edits ≠ [])
    (hordered : edits.Pairwise fun a b => a.le b = true) (hnone : firstOverlap? edits = none)
    (hcopy : (copyFrom (p.file index).text.toList 0 edits).map List.length = some n)
    (hlength : n ≠ (p.file index).text.length) :
    ∃ report, (reportOnFile p index settings).1 = .ok report ∧ report.output.isSome = true := by
  obtain ⟨cs, hcs, hn⟩ := Option.map_eq_some_iff.mp hcopy
  have hchanged : String.ofList cs ≠ (p.file index).text := by
    intro heq
    rw [← heq, String.length_ofList] at hlength
    exact hlength hn.symm
  obtain ⟨report, hreport, hout⟩ := exists_report_of_ordered h himport hedits hne hordered hnone
    (hcs.trans (by rw [String.toList_ofList])) (beq_eq_false_iff_ne.mpr hchanged)
  exact ⟨report, hreport, by rw [hout, Option.isSome_some]⟩

/-- The edits of a file fit its text. They overlap only if a procedure replaces arguments that hold the root of another one or
the end of an import, or if two procedures replace the same arguments. The latter needs type arguments that run past a
closing bracket, and then the file fails unless there is nothing between the parentheses. -/
theorem overlap_only_nested_or_shared (sources : List (String × String)) (index : Nat) (settings : Settings) :
    let p := Project.read sources
    let f := p.file index
    (∀ edits, appliedEdits p index settings = .ok edits → ∀ e ∈ edits,
      e.span.start ≤ e.span.stop ∧ e.span.stop ≤ Text.size f.text ∧
        IsBoundary f.text e.span.start ∧ IsBoundary f.text e.span.stop) ∧
    (∀ cause, (reportOnFile p index settings).1 = .error (.edits cause) →
      (∃ a b, cause = .overlap a b) ∧ ∃ xs, found p index settings = .ok xs ∧
        ((∃ x ∈ xs, Nests f xs x) ∨
          ∃ x ∈ xs, ∃ y ∈ xs, ∃ o, Shares f x y o ∧ ∃ s ∈ y.procedure.segments, s.Overruns f)) ∧
    ∀ xs, found p index settings = .ok xs → ∀ x ∈ xs, ∀ y ∈ xs, ∀ o, Shares f x y o →
      (o.argumentsSpan f).isEmpty = false → ∀ imported, Import.ensure f settings.source = .ok imported →
        ∃ a b, (reportOnFile p index settings).1 = .error (.edits (.overlap a b)) := by
  have hf := isRead_file sources index
  generalize Project.read sources = p at hf
  intro _ f
  refine ⟨?_, ?_, ?_⟩
  · intro edits hedits e he
    rw [appliedEdits_eq_found] at hedits
    obtain ⟨xs, hfound, hedits⟩ := Synthesis.exists_of_bind_eq_ok hedits
    obtain ⟨imported, himport, hedits⟩ := Synthesis.exists_of_bind_eq_ok hedits
    cases hedits
    have hfits := fits_edits hf hfound himport e he
    exact ⟨hfits.le, hfits.stop.le_size, hfits.start, hfits.stop⟩
  · intro cause hcause
    obtain ⟨xs, imported, hfound, himport, happly⟩ := applyEdits_of_error hcause
    have hfits := fits_edits hf hfound himport
    have hlocated := located_of_found hf hfound
    refine ⟨overlap_of_applyEdits hfits happly, xs, hfound, ?_⟩
    by_contra hneither
    rw [not_or] at hneither
    have hnests : ∀ x ∈ xs, ¬ Nests f xs x := fun x hx h => hneither.1 ⟨x, hx, h⟩
    have hshares : ∀ x ∈ xs, ∀ y ∈ xs, ∀ o, ¬ Shares f x y o := fun x hx y hy o h =>
      hneither.2 ⟨x, hx, y, hy, o, h, overruns_of_shares (hlocated x hx) (hlocated y hy) hf h⟩
    obtain ⟨text, hmade⟩ := (exists_applyEdits_iff hfits).mpr (pairwise_edits hf hfound himport hnests hshares)
    rw [happly] at hmade
    cases hmade
  · intro xs hfound x hx y hy o hshares hspan imported himport
    exact error_of_shares hf hfound hx hy hshares hspan himport

/-- A file whose first procedure has the second one among the arguments of its output. -/
def nestedProcedures : List (String × String) :=
  [("a.ts", "import z from 'm';p.output(p.query((): any=>0)).query((): any=>0)")]

theorem nestedProcedures_overlap :
    ∃ a b xs, (reportOnFile (Project.read nestedProcedures) 0 outputSettings).1 = .error (.edits (.overlap a b)) ∧
      found (Project.read nestedProcedures) 0 outputSettings = .ok xs ∧
      ((∃ x ∈ xs, Nests ((Project.read nestedProcedures).file 0) xs x) ∨
        ∃ x ∈ xs, ∃ y ∈ xs, ∃ o, Shares ((Project.read nestedProcedures).file 0) x y o ∧
          ∃ s ∈ y.procedure.segments, s.Overruns ((Project.read nestedProcedures).file 0)) := by
  have hfound : (found (Project.read nestedProcedures) 0 outputSettings).toOption.map
      (fun xs => (Progress.of ((Project.read nestedProcedures).file 0) xs).edits.map (·.span)) =
        some [⟨27, 46⟩, ⟨28, 28⟩] := by
    decide +kernel
  obtain ⟨xs, hxs, hspans⟩ := exists_ok_of_toOption hfound
  have himport : Import.ensure ((Project.read nestedProcedures).file 0) outputSettings.source = .ok none := by
    decide +kernel
  obtain ⟨a, b, hreport⟩ := error_of_overlaps (isRead_file nestedProcedures 0) hxs himport
    (not_pairwise_of_spans hspans (by decide))
  obtain ⟨-, xs', hxs', hcases⟩ := (overlap_only_nested_or_shared nestedProcedures 0 outputSettings).2.1 _ hreport
  exact ⟨a, b, xs', hreport, hxs', hcases⟩

/-- A file whose procedures share an output, since the type arguments that begin between the parentheses end after them. -/
def openTypeArguments : List (String × String) :=
  [("a.ts", "publicProcedure.foo < (procedure.bar < x) > (h).output(x).query((): string => '')")]

/-- The edits of the file overlap, though no procedure and no import stands in the output. -/
theorem openTypeArguments_overlap :
    (∃ a b, (reportOnFile (Project.read openTypeArguments) 0 {}).1 = .error (.edits (.overlap a b))) ∧
      ∃ xs, found (Project.read openTypeArguments) 0 {} = .ok xs ∧
        ∀ x ∈ xs, ∀ o, x.strategy = .replaceOutput o → (∀ y ∈ xs, ¬ o.Holds y.procedure.root) ∧
          ∀ s ∈ Import.statements ((Project.read openTypeArguments).file 0), ¬ o.Holds s.last := by
  have hfound : (found (Project.read openTypeArguments) 0 {}).toOption.map
      (fun xs => (xs.map (fun x => (x.procedure.root, x.strategy)),
        (Progress.of ((Project.read openTypeArguments).file 0) xs).edits.map (·.span))) =
        some ([(0, .replaceOutput ⟨"output", 15, 17, 19⟩), (5, .replaceOutput ⟨"output", 15, 17, 19⟩)],
          [⟨55, 56⟩, ⟨55, 56⟩]) := by
    decide +kernel
  obtain ⟨xs, hxs, hboth⟩ := exists_ok_of_toOption hfound
  obtain ⟨hplaces, hspans⟩ := Prod.mk.inj hboth
  have himport : Import.ensure ((Project.read openTypeArguments).file 0) ({} : Settings).source =
      .ok (some ⟨⟨0, 0⟩, "import \x7b z \x7d from 'zod';\n"⟩) := by
    decide +kernel
  have hstatements : Import.statements ((Project.read openTypeArguments).file 0) = [] := by decide +kernel
  have hplace : ∀ x ∈ xs, (x.procedure.root = 0 ∨ x.procedure.root = 5) ∧
      x.strategy = .replaceOutput ⟨"output", 15, 17, 19⟩ := by
    intro x hx
    have hmem := List.mem_map_of_mem (f := fun x : Finding => (x.procedure.root, x.strategy)) hx
    rw [hplaces] at hmem
    simpa [← or_and_right] using hmem
  refine ⟨error_of_overlaps (isRead_file openTypeArguments 0) hxs himport
    (not_pairwise_of_spans hspans (by decide)), xs, hxs, ?_⟩
  intro x hx o ho
  rw [(hplace x hx).2] at ho
  cases ho
  rw [hstatements]
  refine ⟨fun y hy => ?_, by simp⟩
  rcases (hplace y hy).1 with hroot | hroot <;> rw [hroot] <;> decide

end SchemaSplice
