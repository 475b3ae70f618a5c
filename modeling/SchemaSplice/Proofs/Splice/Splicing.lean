import SchemaSplice.Proofs.Splice.Places
import SchemaSplice.Proofs.Splice.Synthesized
import SchemaSplice.Run.Pass
/-!
# A pass splices tokens

Every edit that a pass makes in a file is anchored: calls are put after a parenthesis or before the dot of a call, arguments
stand between parentheses, and the import stands after a statement or before the first token that is no directive. So
the tokens of the new text are those of the old one with the tokens of the edits put in.
-/

namespace SchemaSplice

open Source SchemaSplice.Types Declaration Chain

/-! ### Projects that were read -/

/-- The project of some texts, each with its path. -/
def Declaration.Project.read (sources : List (String × String)) : Project :=
  Project.ofFiles (sources.map fun (path, text) => File.parse path text)

theorem isRead_file (sources : List (String × String)) (index : Nat) :
    ((Project.read sources).file index).IsRead := by
  unfold Project.file
  cases h : (Project.read sources).files[index]? with
  | none => exact File.isRead_parse "" ""
  | some f =>
    have hmem : f ∈ sources.map fun (path, text) => File.parse path text := by
      rw [← List.mem_toArray]
      exact Array.mem_of_getElem? h
    obtain ⟨⟨path, text⟩, -, rfl⟩ := List.mem_map.mp hmem
    exact File.isRead_parse path text

theorem exists_token_of_hasKind {f : File} {i : Nat} {k : Kind} (h : f.hasKind i k = true) :
    ∃ t, f.tokens[i]? = some t ∧ t.kind = k := by
  unfold File.hasKind File.kind? at h
  rw [beq_iff_eq] at h
  obtain ⟨t, ht, hk⟩ := Option.map_eq_some_iff.mp h
  exact ⟨t, ht, hk⟩

theorem mem_scan_of_token {f : File} (hf : f.IsRead) {i : Nat} {t : Token} (h : f.tokens[i]? = some t) :
    t ∈ scanFrom 0 f.text.toList := by
  have hmem : t ∈ f.tokens.toList := by
    rw [Array.mem_toList_iff]
    exact Array.mem_of_getElem? h
  rw [hf.tokens_toList] at hmem
  exact List.mem_of_mem_filter hmem

theorem quietText_of_word? {f : File} (hf : f.IsRead) {i : Nat} {w : String} (h : f.word? i = some w) :
    QuietText w := by
  unfold File.word? at h
  split at h
  · next hkind =>
    obtain ⟨t, ht, hident⟩ := exists_token_of_hasKind hkind
    rw [Option.some.injEq] at h
    subst h
    unfold File.tokenText
    rw [ht]
    intro c hc
    exact isQuiet_of_isIdentPart (isIdentPart_of_mem_scanFrom (mem_scan_of_token hf ht) hident c hc)
  · cases h

/-- Declared names are words. -/
theorem quietText_of_mem_types {sources : List (String × String)} {d : Decl TypeForm}
    (h : d ∈ (Project.read sources).types) : QuietText d.name := by
  obtain ⟨⟨f, index⟩, hf, hd⟩ := List.mem_flatMap.mp h
  obtain ⟨⟨path, text⟩, -, rfl⟩ := List.mem_map.mp (List.fst_mem_of_mem_zipIdx hf)
  obtain ⟨i, -, hi⟩ := List.mem_filterMap.mp hd
  simp only at hi
  split at hi
  · cases hi
  · split at hi
    · next name form hword _ =>
      cases hi
      exact quietText_of_word? (File.isRead_parse path text) hword
    · cases hi

/-! ### Edits of chains -/

/-- A call of a chain: a dot after a word or a parenthesis, and two parentheses. -/
structure IsCall (f : File) (s : Segment) : Prop where
  dot : f.hasKind s.dot .dot = true ∨ f.hasKind s.dot .questionDot = true
  before : ∃ j, s.dot = j + 1 ∧ (f.hasKind j .ident = true ∨ f.hasKind j .rparen = true)
  lparen : f.hasKind s.lparen .lparen = true
  rparen : f.hasKind s.rparen .rparen = true
  lt : s.lparen < s.rparen

variable {f : File}

theorem isCall_of_parens? (hf : f.IsRead) {i : Nat}
    {q : { q : Nat × Nat // i ≤ q.1 ∧ q.1 < q.2 ∧ q.2 < f.size }} (h : f.parens? i = some q) :
    f.hasKind q.1.1 .lparen = true ∧ f.hasKind q.1.2 .rparen = true := by
  unfold File.parens? at h
  split at h
  · cases h
  · split at h
    · next hopen =>
      split at h
      · cases h
      · next hcloser =>
        cases h
        exact ⟨hopen, hf.rparen_of_closer? hopen hcloser⟩
    · cases h

theorem isCall_of_mem_segmentsFrom (hf : f.IsRead) {i : Nat}
    (hbefore : ∃ j, i = j + 1 ∧ (f.hasKind j .ident = true ∨ f.hasKind j .rparen = true)) :
    ∀ s ∈ segmentsFrom f i, IsCall f s := by
  fun_induction segmentsFrom f i with
  | case1 i hdot name lparen rparen hlt hparens hname ih =>
    obtain ⟨hopen, hclose⟩ := isCall_of_parens? hf hparens
    intro s hs
    rcases List.mem_cons.mp hs with rfl | hs
    · rw [Bool.or_eq_true] at hdot
      exact ⟨hdot, hbefore, hopen, hclose, hlt.2.1⟩
    · exact ih ⟨rparen, rfl, Or.inr hclose⟩ s hs
  | case2 => simp
  | case3 => simp

theorem mem_of_lastNamed? {segments : List Segment} {name : String} {s : Segment}
    (h : lastNamed? segments name = some s) : s ∈ segments :=
  List.mem_reverse.mp (List.mem_of_find?_eq_some h)

theorem isCall_of_mem_chains (hf : f.IsRead) {factories : List String} {c : Nat × List Segment}
    (h : c ∈ chains f factories) : f.hasKind c.1 .ident = true ∧ ∀ s ∈ c.2, IsCall f s := by
  obtain ⟨root, -, hroot⟩ := List.mem_filterMap.mp h
  split at hroot
  · next word hword =>
    simp only at hroot
    split at hroot
    · cases hroot
      have hident : f.hasKind root .ident = true := by
        unfold File.word? at hword
        split at hword
        · assumption
        · cases hword
      exact ⟨hident, isCall_of_mem_segmentsFrom hf ⟨root, rfl, Or.inl hident⟩⟩
    · cases hroot
  · cases hroot

theorem terminal_mem_of_procedureAt {p : Project} {s s' : Inquiry} {current root : Nat}
    {segments : List Segment} {procedure : Procedure}
    (h : procedureAt p s current root segments = (some procedure, s')) :
    procedure.segments = segments ∧ procedure.terminal ∈ segments := by
  unfold procedureAt at h
  simp only at h
  split at h
  · cases h
  · next kind terminal hterminal =>
    have hmem : terminal ∈ segments := by
      unfold terminal? at hterminal
      split at hterminal
      · next hquery _ =>
        cases hterminal
        exact mem_of_lastNamed? hquery
      · next hmutation =>
        cases hterminal
        exact mem_of_lastNamed? hmutation
      · cases hterminal
      · cases hterminal
    split at h
    · cases h
    · split at h
      · cases h
      · cases h
        exact ⟨rfl, hmem⟩

theorem span_of_token {i : Nat} {t : Token} (h : f.tokens[i]? = some t) : f.span i = ⟨t.start, t.stop⟩ := by
  unfold File.span
  rw [h]

/-- A dot does not continue a word. -/
theorem noExtend_dot (hf : f.IsRead) {i : Nat} {t : Token} (h : f.tokens[i]? = some t)
    (hdot : t.kind = .dot ∨ t.kind = .questionDot) (rest : List Char) : NoExtend (t.text.toList ++ rest) := by
  obtain ⟨c, body, l, htext, -, hkind⟩ := exists_head_of_mem_scanFrom (mem_scan_of_token hf h)
  rw [htext]
  rintro a ⟨rfl⟩
  rw [hkind] at hdot
  refine ⟨?_, ?_, ?_⟩
  · cases hs : isIdentStart c with
    | true =>
      rw [lexeme_of_isIdentStart hs] at hdot
      rcases hdot with hdot | hdot <;> cases hdot
    | false =>
      cases hd : c.isDigit with
      | true =>
        rw [lexeme_of_isDigit hs hd, numberLexeme_eq] at hdot
        rcases hdot with hdot | hdot <;> (repeat' split at hdot) <;> cases hdot
      | false => rw [isIdentPart, hs, hd, Bool.or_false]
  · rintro rfl
    rcases hdot with hdot | hdot <;> cases hdot
  · rintro rfl
    rcases hdot with hdot | hdot <;> cases hdot

theorem noExtend_insertedCall (v : Validator) (r : List Char) :
    NoExtend ((insertedCall v).toList ++ r) := by
  rw [insertedCall_toList, List.append_assoc, List.append_assoc]
  rintro c ⟨rfl⟩
  decide

theorem anchored_insertedCall (hf : f.IsRead) {s : Segment} (hs : IsCall f s) {v : Validator}
    (hv : Tame v.chars) : Anchored f.text (.insert (f.span s.dot).start (insertedCall v)) := by
  obtain ⟨t, ht, hkind⟩ : ∃ t, f.tokens[s.dot]? = some t ∧ (t.kind = .dot ∨ t.kind = .questionDot) := by
    rcases hs.dot with h | h
    · obtain ⟨t, ht, hk⟩ := exists_token_of_hasKind h
      exact ⟨t, ht, Or.inl hk⟩
    · obtain ⟨t, ht, hk⟩ := exists_token_of_hasKind h
      exact ⟨t, ht, Or.inr hk⟩
  rw [span_of_token ht]
  apply hf.anchored_before ht (selfContained_insertedCall hv)
  intro j u hj hu rest r
  obtain ⟨j', hj', hbefore⟩ := hs.before
  obtain rfl : j' = j := by omega
  rcases hbefore with h | h
  · obtain ⟨u', hu', hk⟩ := exists_token_of_hasKind h
    rw [hu, Option.some.injEq] at hu'
    subst hu'
    rw [hk]
    exact ⟨noExtend_dot hf ht hkind rest, noExtend_insertedCall v r⟩
  · obtain ⟨u', hu', hk⟩ := exists_token_of_hasKind h
    rw [hu, Option.some.injEq] at hu'
    subst hu'
    rw [hk]
    trivial

/-- The edit of a procedure is anchored, whichever way is taken. -/
theorem anchored_splice (hf : f.IsRead) {procedure : Procedure}
    (hcalls : ∀ s ∈ procedure.segments, IsCall f s) (hterminal : procedure.terminal ∈ procedure.segments)
    {v : Validator} (hv : Tame v.chars) :
    Anchored f.text ((Strategy.choose procedure).splice f v).edit := by
  unfold Strategy.choose
  split
  · next output houtput =>
    have hs := hcalls output (mem_of_lastNamed? houtput)
    obtain ⟨t, ht, hk⟩ := exists_token_of_hasKind hs.lparen
    obtain ⟨u, hu, -⟩ := exists_token_of_hasKind hs.rparen
    have hspan : output.argumentsSpan f = ⟨t.stop, u.start⟩ := by
      unfold Segment.argumentsSpan
      rw [span_of_token ht, span_of_token hu]
    show Anchored f.text ⟨output.argumentsSpan f, v.printMarked⟩
    rw [hspan]
    apply hf.anchored_between hs.lt ht hu (selfContained_printMarked hv)
    intro r r'
    rw [hk]
    trivial
  · next input _ hinput =>
    have hs := hcalls input (mem_of_lastNamed? hinput)
    obtain ⟨t, ht, hk⟩ := exists_token_of_hasKind hs.rparen
    show Anchored f.text (.insert (f.span input.rparen).stop (insertedCall v))
    rw [span_of_token ht]
    apply hf.anchored_after ht (selfContained_insertedCall hv)
    intro r r'
    rw [hk]
    trivial
  · exact anchored_insertedCall hf (hcalls _ hterminal) hv

/-! ### The import -/

/-- Where an import statement may end: at a semicolon, or at a string that none follows. -/
def Import.MayEnd (f : File) (i : Nat) : Prop :=
  f.hasKind i .semi = true ∨ f.hasKind i .str = true ∧ f.hasKind (i + 1) .semi = false

theorem Import.MayEnd.lt_size {i : Nat} (h : Import.MayEnd f i) : i < f.size := by
  rcases h with h | ⟨h, -⟩
  · exact File.lt_size_of_hasKind h
  · exact File.lt_size_of_hasKind h

theorem mayEnd_last_of_statementFrom? {i : Nat} {s : Import.Statement} (h : Import.statementFrom? f i = some s) :
    Import.MayEnd f s.last := by
  fun_induction Import.statementFrom? f i generalizing s with
  | case1 i hkind =>
    cases h
    simp only
    split
    · next hsemi => exact Or.inl hsemi
    · next hsemi =>
      rw [Bool.not_eq_true] at hsemi
      refine Or.inr ⟨?_, hsemi⟩
      unfold File.hasKind
      rw [hkind, beq_self_eq_true]
  | case2 _ _ _ ih => exact ih h
  | case3 _ _ _ ih =>
    obtain ⟨later, hlater, rfl⟩ := Option.map_eq_some_iff.mp h
    have hlast := ih hlater
    exact hlast
  | case4 _ _ ih => exact ih h
  | case5 _ _ _ _ _ ih =>
    obtain ⟨later, hlater, rfl⟩ := Option.map_eq_some_iff.mp h
    have hlast := ih hlater
    exact hlast
  | case6 => cases h
  | case7 => cases h
  | case8 _ _ _ _ _ ih =>
    obtain ⟨later, hlater, rfl⟩ := Option.map_eq_some_iff.mp h
    have hlast := ih hlater
    exact hlast
  | case9 => cases h
  | case10 => cases h

theorem mayEnd_last_of_mem_statementsFrom (i : Nat) : ∀ s ∈ Import.statementsFrom f i, Import.MayEnd f s.last := by
  fun_induction Import.statementsFrom f i with
  | case1 i hlt hbegins s hs _ _ ih =>
    intro s' hs'
    rcases List.mem_cons.mp hs' with rfl | hs'
    · exact mayEnd_last_of_statementFrom? hs
    · exact ih s' hs'
  | case2 _ _ _ _ ih => exact ih
  | case3 _ _ _ ih => exact ih
  | case4 => simp

/-- Directives end before the first word. -/
theorem directivesEnd_le {i root : Nat} (hroot : f.hasKind root .ident = true) (hle : i ≤ root) :
    Import.directivesEnd f i ≤ root := by
  fun_induction Import.directivesEnd f i with
  | case1 i h ih =>
    have hne : ∀ j k, f.hasKind j k = true → k ≠ .ident → root ≠ j := by
      rintro j k hj hk rfl
      unfold File.hasKind at hroot hj
      rw [beq_iff_eq] at hroot hj
      rw [hroot, Option.some.injEq] at hj
      exact hk hj.symm
    have h₀ := hne i .str h.1 (by decide)
    have h₁ := hne (i + 1) .semi h.2 (by decide)
    exact ih (by omega)
  | case2 i h => exact hle

/-- Only a semicolon stands before the end of directives. -/
theorem semi_before_directivesEnd (i : Nat) :
    Import.directivesEnd f i = i ∨ ∃ j, Import.directivesEnd f i = j + 1 ∧ f.hasKind j .semi = true := by
  fun_induction Import.directivesEnd f i with
  | case1 i h ih =>
    right
    rcases ih with heq | hsemi
    · exact ⟨i + 1, heq, h.2⟩
    · exact hsemi
  | case2 i h => exact Or.inl rfl

/-- The import stands after the last import statement, or after the directives if there is none. -/
inductive Import.Inserts (f : File) (source : String) : Edit → Prop
  | afterLast {last : Import.Statement} (h : (Import.statements f).getLast? = some last) :
      Inserts f source (.insert (f.span last.last).stop ("\n" ++ Import.statementText source))
  | afterDirectives (h : Import.statements f = []) :
      Inserts f source (.insert (f.span (Import.directivesEnd f 0)).start (Import.statementText source ++ "\n"))

theorem inserts_of_ensure {source : String} {e : Edit} (h : Import.ensure f source = .ok (some e)) :
    (∀ s ∈ Import.statements f, Import.namespaceName ∉ s.bindings) ∧ Import.Inserts f source e := by
  unfold Import.ensure at h
  simp only at h
  split at h
  · split at h <;> cases h
  next hnone =>
  refine ⟨fun s hs hmem => ?_, ?_⟩
  · have hs' := List.find?_eq_none.mp hnone s hs
    rw [List.contains_iff_mem] at hs'
    exact hs' hmem
  split at h
  · cases h
  split at h
  · next last hlast =>
    cases h
    exact .afterLast hlast
  · next hlast =>
    cases h
    exact .afterDirectives (List.getLast?_eq_none_iff.mp hlast)

/-- The import can be put into a file that has an import or a token after its directives. -/
theorem anchored_import (hf : f.IsRead) {source : String} (hsource : PlainSource source)
    (hplace : Import.statements f ≠ [] ∨ Import.directivesEnd f 0 < f.size) {e : Edit}
    (h : Import.Inserts f source e) : Anchored f.text e := by
  cases h with
  | @afterLast last hlast =>
    have hself : SelfContained ("\n" ++ Import.statementText source).toList := by
      rw [String.toList_append]
      exact selfContained_statementText hsource _ (by decide)
    obtain ⟨t, ht, hk⟩ : ∃ t, f.tokens[last.last]? = some t ∧ (t.kind = .semi ∨ t.kind = .str) := by
      rcases mayEnd_last_of_mem_statementsFrom 0 last (List.mem_of_getLast? hlast) with hk | ⟨hk, -⟩
      · obtain ⟨t, ht, hk⟩ := exists_token_of_hasKind hk
        exact ⟨t, ht, Or.inl hk⟩
      · obtain ⟨t, ht, hk⟩ := exists_token_of_hasKind hk
        exact ⟨t, ht, Or.inr hk⟩
    rw [span_of_token ht]
    apply hf.anchored_after ht hself
    intro r r'
    rcases hk with hk | hk
    all_goals
      rw [hk]
      trivial
  | afterDirectives hnone =>
    have hself : SelfContained (Import.statementText source ++ "\n").toList := by
      rw [String.toList_append]
      apply SelfContained.append_space ?_ (by decide)
      exact selfContained_statementText hsource [] rfl
    have hlt : Import.directivesEnd f 0 < f.tokens.size := hplace.resolve_left (not_not_intro hnone)
    have ht := Array.getElem?_eq_getElem hlt
    rw [span_of_token ht]
    apply hf.anchored_before ht hself
    intro j u hj hu rest r
    rcases semi_before_directivesEnd (f := f) 0 with hzero | ⟨j', hj', hsemi⟩
    · omega
    · obtain rfl : j' = j := by omega
      obtain ⟨u', hu', hk⟩ := exists_token_of_hasKind hsemi
      rw [hu, Option.some.injEq] at hu'
      subst hu'
      rw [hk]
      trivial

/-! ### The pass -/

namespace Pass

/-- The edits that a pass makes in a file: those of its procedures, and the import. -/
def appliedEdits (p : Project) (index : Nat) (settings : Settings) : Except Failure (List Edit) := do
  let f := p.file index
  let progress ← (visitProcedures p index settings.factories (visit f settings) {}).1
  return progress.edits ++ (← Import.ensure f settings.source).toList

/-- One procedure adds an anchored edit, if any. -/
theorem anchored_visit {settings : Settings} {procedure : Procedure} {progress progress' : Progress}
    {s s' : Inquiry} (hf : f.IsRead) (hcalls : ∀ c ∈ procedure.segments, IsCall f c)
    (hterminal : procedure.terminal ∈ procedure.segments) (htable : PrintableTable s.types.table)
    (hedits : ∀ e ∈ progress.edits, Anchored f.text e)
    (h : visit f settings procedure progress s = (.ok progress', s')) :
    s'.types = s.types ∧ ∀ e ∈ progress'.edits, Anchored f.text e := by
  unfold visit at h
  split at h
  · cases h
  · next v hv =>
    cases h
    refine ⟨rfl, ?_⟩
    intro e he
    simp only [Progress.add] at he
    split at he
    · rcases List.mem_append.mp he with he | he
      · exact hedits e he
      · rw [List.mem_singleton.mp he]
        exact anchored_splice hf hcalls hterminal (tame_validatorOfResult htable hv)
    · exact hedits e he

/-- All edits of a run over chains are anchored. -/
theorem anchored_visitChains {p : Project} (hnames : ∀ d ∈ p.types, QuietText d.name) {index : Nat}
    {settings : Settings} (hf : f.IsRead) {candidates : List (Nat × List Segment)}
    (hcalls : ∀ c ∈ candidates, ∀ s ∈ c.2, IsCall f s) {progress progress' : Progress} {s s' : Inquiry}
    (htable : PrintableTable s.types.table) (hedits : ∀ e ∈ progress.edits, Anchored f.text e)
    (h : visitChains p index (visit f settings) candidates progress s = (.ok progress', s')) :
    ∀ e ∈ progress'.edits, Anchored f.text e := by
  induction candidates generalizing progress s with
  | nil =>
    cases h
    exact hedits
  | cons c rest ih =>
    obtain ⟨root, segments⟩ := c
    have hrest : ∀ c ∈ rest, ∀ s ∈ c.2, IsCall f s := fun c hc => hcalls c (List.mem_cons_of_mem _ hc)
    have hkept := (maintained_printable hnames).procedureAt htable index root segments
    unfold visitChains at h
    split at h
    · next s₁ hprocedure =>
      rw [hprocedure] at hkept
      exact ih hrest hkept hedits h
    · next procedure s₁ hprocedure =>
      rw [hprocedure] at hkept
      obtain ⟨hsegments, hterminal⟩ := terminal_mem_of_procedureAt hprocedure
      rw [← hsegments] at hterminal
      have hown : ∀ c ∈ procedure.segments, IsCall f c := by
        rw [hsegments]
        exact hcalls (root, segments) List.mem_cons_self
      split at h
      · next progress₁ s₂ hvisit =>
        obtain ⟨htypes, hedits₁⟩ := anchored_visit hf hown hterminal hkept hedits hvisit
        rw [← htypes] at hkept
        exact ih hrest hkept hedits₁ h
      · cases h

end Pass

open Pass

/-- Edits of a file come with a chain, whose root is a word. -/
theorem exists_word_of_edits {p : Project} {index : Nat} {settings : Settings} {progress : Progress}
    (hf : (p.file index).IsRead)
    (h : (visitProcedures p index settings.factories (visit (p.file index) settings) {}).1 = .ok progress)
    (hne : progress.edits ≠ []) : ∃ root, (p.file index).hasKind root .ident = true := by
  unfold visitProcedures at h
  cases hchains : chains (p.file index) settings.factories with
  | nil =>
    rw [hchains] at h
    cases h
    exact absurd rfl hne
  | cons c rest =>
    have hmem : c ∈ chains (p.file index) settings.factories := by
      rw [hchains]
      exact List.mem_cons_self
    exact ⟨c.1, (isCall_of_mem_chains hf hmem).1⟩

/-- Rewriting only splices tokens: when a file gets a new text, that text is the old one with the edits made, and its tokens,
comments included, are the old ones with the tokens of each edit in place of those inside its span. -/
theorem lexemes_output (sources : List (String × String)) (index : Nat) (settings : Settings)
    (hsource : PlainSource settings.source) {report : FileReport} {text : String}
    (hreport : (reportOnFile (Project.read sources) index settings).1 = .ok report)
    (htext : report.output = some text) :
    ∃ edits, appliedEdits (Project.read sources) index settings = .ok edits ∧
      applyEdits ((Project.read sources).file index).text edits = .ok text ∧
      lexemes text =
        spliced (scan ((Project.read sources).file index).text) (edits.mergeSort Edit.le) := by
  have hf := isRead_file sources index
  have hnames : ∀ d ∈ (Project.read sources).types, QuietText d.name := fun d => quietText_of_mem_types
  generalize Project.read sources = p at hreport hf hnames ⊢
  unfold reportOnFile at hreport
  simp only at hreport
  obtain ⟨progress, hprogress, hreport⟩ := Synthesis.exists_of_bind_eq_ok hreport
  obtain ⟨output, houtput, hreport⟩ := Synthesis.exists_of_bind_eq_ok hreport
  cases hreport
  obtain rfl : output = some text := htext
  unfold outputOf at houtput
  split at houtput
  · cases houtput
  next hedits =>
  obtain ⟨imported, himported, houtput⟩ := Synthesis.exists_of_bind_eq_ok houtput
  obtain ⟨text', happlied, houtput⟩ := Synthesis.exists_of_bind_eq_ok houtput
  have hmade : applyEdits (p.file index).text (progress.edits ++ imported.toList) = .ok text' := by
    cases hres : applyEdits (p.file index).text (progress.edits ++ imported.toList) with
    | error e =>
      rw [hres] at happlied
      cases happlied
    | ok t =>
      rw [hres] at happlied
      cases happlied
      rfl
  split at houtput
  · cases houtput
  cases houtput
  refine ⟨progress.edits ++ imported.toList, ?_, hmade, ?_⟩
  · unfold appliedEdits
    simp only
    rw [hprogress]
    show (Import.ensure (p.file index) settings.source >>= fun e => _) = _
    rw [himported]
    rfl
  · apply lexemes_applyEdits ?_ hmade
    intro e he
    rcases List.mem_append.mp he with he | he
    · refine anchored_visitChains hnames hf (fun c hc => (isCall_of_mem_chains hf hc).2) ?_ ?_
        (Prod.ext hprogress rfl) e he
      · intro i k hi
        cases hi
      · simp
    · obtain ⟨root, hroot⟩ := exists_word_of_edits hf hprogress (by simpa using hedits)
      cases imported with
      | none => cases he
      | some e' =>
        rw [Option.toList_some, List.mem_singleton] at he
        subst he
        have hlt := Nat.lt_of_le_of_lt (directivesEnd_le hroot (Nat.zero_le root)) (File.lt_size_of_hasKind hroot)
        exact anchored_import hf hsource (Or.inr hlt) (inserts_of_ensure himported).2

/-! ### A replaced argument -/

/-- A file with a single edit and the import already there. -/
theorem reportOnFile_of_edit (p : Project) (index : Nat) (settings : Settings) (e : Edit) (text : String)
    (hedits : (visitProcedures p index settings.factories (visit (p.file index) settings) {}).1.toOption.map
      (·.edits) = some [e])
    (himport : Import.ensure (p.file index) settings.source = .ok none)
    (hcopy : copyFrom (p.file index).text.toList 0 [e] = some text.toList)
    (hne : text ≠ (p.file index).text) :
    ∃ report, (reportOnFile p index settings).1 = .ok report ∧ report.output = some text := by
  obtain ⟨progress, hprogress, hlist⟩ := Option.map_eq_some_iff.mp hedits
  have hok : (visitProcedures p index settings.factories (visit (p.file index) settings) {}).1 =
      .ok progress := by
    cases hres : (visitProcedures p index settings.factories (visit (p.file index) settings) {}).1 with
    | error e =>
      rw [hres] at hprogress
      cases hprogress
    | ok a =>
      rw [hres] at hprogress
      cases hprogress
      rfl
  have hmade : applyEdits (p.file index).text [e] = .ok text := by
    unfold applyEdits
    simp only [List.mergeSort_singleton, firstOverlap?, hcopy, String.ofList_toList]
  have houtput : outputOf (p.file index) settings progress.edits = .ok (some text) := by
    unfold outputOf
    rw [hlist, himport]
    simp [hmade, hne, Except.mapError, bind, Except.bind, pure, Except.pure]
  refine ⟨reportOf (p.file index) progress (some text), ?_, rfl⟩
  unfold reportOnFile
  simp only
  rw [hok]
  show (outputOf (p.file index) settings progress.edits >>= fun o =>
    pure (reportOf (p.file index) progress o)) = _
  rw [houtput]
  rfl

/-- A file whose procedure has a handwritten output. -/
def handwrittenOutput : List (String × String) := [("a.ts", "import z from 'm';p.output(o).query((): any=>0)")]

def generatedOutput : String :=
  "import z from 'm';p.output(/* BEGIN GENERATED CONTENT */ z.any() /* END GENERATED CONTENT */).query((): any=>0)"

def outputSettings : Settings := { factories := ["p"], source := "m" }

theorem generatedOutput_lexemes :
    ∃ report, (reportOnFile (Project.read handwrittenOutput) 0 outputSettings).1 = .ok report ∧
      report.output = some generatedOutput ∧
      ∃ edits, appliedEdits (Project.read handwrittenOutput) 0 outputSettings = .ok edits ∧
        applyEdits ((Project.read handwrittenOutput).file 0).text edits = .ok generatedOutput ∧
        lexemes generatedOutput =
          spliced (scan ((Project.read handwrittenOutput).file 0).text) (edits.mergeSort Edit.le) := by
  obtain ⟨report, hreport, houtput⟩ := reportOnFile_of_edit (Project.read handwrittenOutput) 0 outputSettings
    ⟨⟨27, 28⟩, "/* BEGIN GENERATED CONTENT */ z.any() /* END GENERATED CONTENT */"⟩ generatedOutput
    (by decide +kernel) (by decide +kernel) (by decide +kernel) (by decide +kernel)
  exact ⟨report, hreport, houtput, lexemes_output handwrittenOutput 0 outputSettings (by decide) hreport houtput⟩

end SchemaSplice
