import SchemaSplice.Proofs.Rerun.Renewal
/-!
# Tracing the tokens that a pass keeps

The chains and the declarations that stand among the kept tokens are found again in the new file, and what is put in brings none of its
own: its words are followed by something that continues no chain, or stand in a validator.
-/

namespace SchemaSplice.Pass

open Source SchemaSplice.Types Annotation Declaration Chain
open File (Widened Woven Seen Enters AfterDot InParens)

variable {f f' : File} {words : List String} {source out : String} {xs : List Finding} {imported : Option Edit}
  {x y : Finding} {o s t : Segment} {d i j n : Nat} {front back : List Piece} {p : Piece} {ps : List Piece}
  {last : List Glyph} {w : String} {k : Kind}

theorem noProcedure_of_names {c : Nat × List Segment} (h : ∀ s ∈ c.2, s.name ≠ "query" ∧ s.name ≠ "mutation") : NoProcedure c := by
  have hnone : ∀ name, (∀ s ∈ c.2, s.name ≠ name) → lastNamed? c.2 name = none := fun _ hne => lastNamed?_eq_none_iff.mpr hne
  refine ⟨.neitherKind, ?_⟩
  unfold terminal?
  rw [hnone "query" fun s hs => (h s hs).1, hnone "mutation" fun s hs => (h s hs).2]

def EndsName (f : File) (j : Nat) : Prop :=
  f.word? (j + 1) = none ∧ (f.hasKind (j + 1) .dot || f.hasKind (j + 1) .questionDot) = false

theorem EndsName.of_spells {u v : Lexeme} {vs : List Lexeme} (h : f.Spells j (u :: v :: vs))
    (hv : (v.1 == .ident || v.1 == .dot || v.1 == .questionDot) = false) : EndsName f j := by
  simp only [Bool.or_eq_false_iff] at hv
  rw [EndsName, File.word?, h.tail.hasKind, h.tail.hasKind, h.tail.hasKind, hv.1.1, hv.1.2, hv.2]
  exact ⟨rfl, rfl⟩

/-- A word of an output call is its name, or stands in its validator. -/
theorem word_in_call {v : Validator} {back : List Lexeme} (h : f.Spells j (outputTokens v ++ [dotToken] ++ back))
    (hn : n < (outputTokens v ++ [dotToken]).length) (hkind : f.hasKind (j + n) .ident = true) :
    EndsName f j ∧ n = 0 ∨ ∃ m < (printedTokens v).length, n = m + 2 := by
  have hspells : f.Spells j ((.ident, "output") :: sign .lparen :: (printedTokens v ++ (sign .rparen :: dotToken :: back))) := by
    simpa [outputTokens, bracketed] using h
  have hrest := hspells.tail.tail.right
  simp only [outputTokens, bracketed, List.length_append, List.length_cons, List.length_nil] at hn
  rcases n with _ | _ | m
  · exact Or.inl ⟨.of_spells hspells rfl, rfl⟩
  · rw [hspells.tail.hasKind] at hkind
    cases hkind
  · rcases Nat.lt_or_ge m (printedTokens v).length with hlt | hge
    · exact Or.inr ⟨m, hlt, rfl⟩
    · obtain hm | hm : j + (m + 2) = j + 1 + 1 + (printedTokens v).length ∨
          j + (m + 2) = j + 1 + 1 + (printedTokens v).length + 1 := by omega
      · rw [hm, hrest.hasKind] at hkind
        cases hkind
      · rw [hm, hrest.tail.hasKind] at hkind
        cases hkind

/-- The words of an import statement are followed by brackets and by the text of its module. -/
theorem word_in_statement {back : List Lexeme} (h : f.Spells j (Import.statementLexemes source ++ back))
    (hn : n < (Import.statementLexemes source).length) (hkind : f.hasKind (j + n) .ident = true) : EndsName f (j + n) := by
  rw [Import.statementLexemes, Import.statementWords] at h hn
  rcases n with _ | _ | _ | _ | _ | _ | _ | n
  · exact .of_spells h rfl
  · rw [h.tail.hasKind] at hkind
    cases hkind
  · exact .of_spells h.tail.tail rfl
  · rw [h.tail.tail.tail.hasKind] at hkind
    cases hkind
  · exact .of_spells h.tail.tail.tail.tail rfl
  · rw [h.tail.tail.tail.tail.tail.hasKind] at hkind
    cases hkind
  · rw [h.tail.tail.tail.tail.tail.tail.hasKind] at hkind
    cases hkind
  · exact absurd hn (by simp)

theorem isIgnored_congr (h : (f'.comments j).map Token.lexeme = (f.comments i).map Token.lexeme) : isIgnored f' j = isIgnored f i := by
  have hany : ∀ (f : File) i, isIgnored f i =
      ((f.comments i).map Token.lexeme).any fun w => w.1 == .blockComment && Text.contains w.2 ignoreMarker := by
    intro f i
    rw [isIgnored, List.any_map]
    rfl
  rw [hany, hany, h]

namespace Retouched

section

variable (h : Touched f words source xs imported) (hr : Retouched f xs imported out ps last)

include h hr

/-- The token before the place of the import is kept, and ends a statement. -/
theorem before_place (hn : woven (oldRun ps) (i + 1) = Import.place f) (himport : imported.isSome = true) :
    woven (oldRun ps) (i + 1) = woven (oldRun ps) i + 1 ∧
      ((skeleton f ps last).hasKind i .semi = true ∨ (skeleton f ps last).hasKind i .str = true) := by
  have hrun : oldRun ps (i + 1) = [] := by
    by_contra hne
    obtain ⟨_, x, o, hj, hx, -, hs, -, hrparen⟩ := hr.exists_replaced hne
    have hroot := h.place_le_root himport hx
    have hcut := (h.root_lt_cutFrom hx)
    have hmem := (h.located x hx).output_mem hs
    rw [hs] at hcut
    simp only [Strategy.cutFrom, Strategy.cutTo] at hcut
    omega
  have hplace := woven_succ_of_nil hrun
  refine ⟨hplace, ?_⟩
  rw [hr.hasKind_old h, hr.hasKind_old h]
  rcases Import.place_before f with hzero | ⟨j, hj, hkind⟩
  · omega
  · rwa [show woven (oldRun ps) i = j by omega]

/-- A cut behind an opening parenthesis is that of replaced arguments. -/
theorem replaced_after_lparen (hi : (skeleton f ps last).hasKind i .lparen = true) (hps : ps = front ++ p :: back)
    (hcut : cutAfter front p = i + 1) :
    ∃ x o, x ∈ xs ∧ x.changes f = true ∧ x.strategy = .replaceOutput o ∧ woven (oldRun ps) i = o.lparen ∧
      woven (oldRun ps) (i + 1) = o.rparen := by
  have hspot := hr.spot_cutAfter hps
  have hkind := (hr.hasKind_old h i .lparen).symm.trans hi
  rw [hcut, runStart_succ] at hspot
  generalize ha : woven (oldRun ps) i + 1 = a, hb : woven (oldRun ps) (i + 1) = b at hspot
  cases hspot with
  | @replaced x o hx hchanges hs => exact ⟨x, o, hx, hchanges, hs, Nat.succ.inj ha, rfl⟩
  | inserted hx hat =>
    obtain ⟨j, hj, hbefore⟩ := (h.located _ hx).dot_of_insertsAt? h.read hat
    obtain rfl : woven (oldRun ps) i = j := by omega
    rcases hbefore with hbefore | hbefore <;> cases File.hasKind_unique hkind hbefore
  | added he =>
    obtain ⟨-, hbefore⟩ := hr.before_place h hb (by rw [he]; rfl)
    rcases hbefore with hbefore | hbefore <;> cases File.hasKind_unique hi hbefore

/-- The parentheses of replaced arguments are matched with each other when the arguments are gone. -/
theorem newRun_after_lparen (hi : (skeleton f ps last).hasKind i .lparen = true) (hne : newRun ps (i + 1) ≠ []) :
    ∃ x o, x ∈ xs ∧ x.changes f = true ∧ x.strategy = .replaceOutput o ∧ woven (oldRun ps) i = o.lparen ∧
      woven (oldRun ps) (i + 1) = o.rparen := by
  obtain ⟨front, p, back, hps, hcut, -⟩ := hr.exists_spot hne
  exact hr.replaced_after_lparen h hi hps hcut.symm

theorem slidRun_of_not_dot (hi : (skeleton f ps last).hasKind i .dot = false) (hnone : newRun ps (i + 1) = []) :
    slidRun ps last (i + 1) = [] := by
  have hslides : ¬Slides dotToken (newRun ps) (keptWords ps last) i := fun hslides => by
    rw [((hr.slides_iff h).mp hslides).1] at hi
    cases hi
  rw [slidRun, slide, if_neg hslides, List.nil_append]
  split
  · rfl
  · exact hnone

/-- Nothing comes behind a kept token that is none of a few kinds. -/
theorem slidRun_after (hi : (skeleton f ps last).hasKind i k = true) (hk : k ≠ .dot ∧ k ≠ .lparen ∧ k ≠ .semi ∧ k ≠ .str) :
    slidRun ps last (i + 1) = [] := by
  have hkind := (hr.hasKind_old h i k).symm.trans hi
  have hslid := hr.slidIn_slid h (i + 1)
  generalize hm : i + 1 = m, slidRun ps last (i + 1) = run at hslid
  cases hslid with
  | none => rfl
  | printed hx hs hlparen =>
    cases hm
    rw [hlparen] at hkind
    exact absurd (File.hasKind_unique hkind ((h.located _ hx).callAt ((h.located _ hx).output_mem hs)).lparen) hk.2.1
  | call hx hat =>
    cases hm
    exact absurd (File.hasKind_unique hkind (h.dots _ hx _ hat)) hk.1
  | statement himport hn =>
    subst hm
    rcases (hr.before_place h hn himport).2 with hbefore | hbefore
    · exact absurd (File.hasKind_unique hi hbefore) hk.2.2.1
    · exact absurd (File.hasKind_unique hi hbefore) hk.2.2.2

end

section

variable (h : Touched f words source xs imported) (hr : Retouched f xs imported out ps last) (hf' : f'.IsRead) (hout : f'.text = out)

include h hr hf' hout

/-- Behind the place of the import, all that is put in are calls behind dots and validators between parentheses. -/
theorem seen_new (hi : imported.isSome = true → Import.place f ≤ woven (oldRun ps) i) :
    Seen (skeleton f ps last) f' (newPlace ps last) words i := by
  intro j hij
  have hslid := hr.slidIn_slid h (j + 1)
  have hplace := woven_succ (slidRun ps last) j
  generalize hm : j + 1 = m, hrun : slidRun ps last (j + 1) = run at hslid hplace
  cases hslid with
  | none =>
    subst hm
    exact Or.inl (woven_succ_of_nil hrun)
  | @printed i x o hx hs hlparen hrparen =>
    cases hm
    by_cases hgap : newPlace ps last (j + 1) = newPlace ps last j + 1
    · exact Or.inl hgap
    · exact Or.inr (Or.inr (hr.inParens_old h hx hs hlparen hrparen hgap))
  | call hx hat =>
    cases hm
    exact Or.inr (Or.inl (hr.afterDot_new h hf' hout hx hat hrun))
  | statement himport hn =>
    subst hm
    have hlt := strictMono_woven (oldRun ps) (Nat.lt_succ_of_le hij)
    have hle := hi himport
    rw [Nat.succ_eq_add_one, hn] at hlt
    omega

/-- The tokens of the new file around a run that holds one of them. -/
theorem exists_slid (hlt : runStart (slidRun ps last) n + i < f'.size) (hi : i < (slidRun ps last n).length) :
    ∃ front back, f'.lexemes = front ++ (slidRun ps last n ++ back) ∧ front.length = runStart (slidRun ps last) n ∧
      back.head? = (keptWords ps last)[n]? := by
  have hn : n ≤ (keptWords ps last).length := by
    by_contra hgt
    obtain ⟨n, rfl⟩ := Nat.exists_eq_succ_of_ne_zero (n := n) (by omega)
    have hle : woven (slidRun ps last) (keptWords ps last).length ≤ woven (slidRun ps last) n :=
      (strictMono_woven _).monotone (by omega)
    have hsize : f'.size = woven (slidRun ps last) (keptWords ps last).length := by
      rw [← f'.length_lexemes, (hr.woven_new h hf' hout).lexemes, length_weave, lexemes_skeleton]
    rw [Nat.succ_eq_add_one, runStart_succ] at hlt
    omega
  obtain ⟨front, back, hsplit, hlength, hhead⟩ := weave_split (slidRun ps last) hn
  exact ⟨front, back, by rw [(hr.woven_new h hf' hout).lexemes, lexemes_skeleton, hsplit], hlength, hhead⟩

/-- A word that is put in stands in a validator, or what follows it is no word and no dot. -/
theorem word_in_run (hj : j ∉ Set.range (newPlace ps last)) (hw : f'.word? j = some w) :
    (∃ front ts back m, RunBefore f' front ts back ∧ m < ts.length ∧ j = front.length + m) ∨ EndsName f' j := by
  rcases exists_woven_or_run (slidRun ps last) j with ⟨n, rfl⟩ | ⟨n, m, hm, rfl⟩
  · exact absurd ⟨n, rfl⟩ hj
  have hkind := hasKind_of_word? hw
  obtain ⟨front, back, hlexemes, hlength, hhead⟩ := hr.exists_slid h hf' hout (File.lt_size_of_hasKind hkind) hm
  have hspells : f'.Spells front.length (slidRun ps last n ++ back) := by
    rw [File.Spells, ← File.lexemes, hlexemes, List.drop_left]
  have hslid := hr.slidIn_slid h n
  rw [← hlength] at hkind ⊢
  generalize slidRun ps last n = run at hm hlexemes hspells hslid
  cases hslid with
  | none => cases hm
  | @printed i x o hx hs hlparen hrparen =>
    refine Or.inl ⟨front, _, back, m, ⟨hf', hlexemes, ?_, h.orderly_printed hx⟩, hm, rfl⟩
    have hclose := ((h.located x hx).isCall h.read ((h.located x hx).output_mem hs)).rparen
    rw [← hrparen, ← hr.hasKind_old h, File.hasKind, File.kind?_eq_lexeme, lexemes_skeleton, beq_iff_eq] at hclose
    rw [hhead]
    exact hclose
  | @call i x hx hat =>
    rcases word_in_call hspells hm hkind with ⟨hends, rfl⟩ | ⟨r, hr, rfl⟩
    · exact Or.inr hends
    · refine Or.inl ⟨front ++ [(.ident, "output"), sign .lparen], printedTokens x.validator, sign .rparen :: dotToken :: back, r,
        ⟨hf', ?_, rfl, h.orderly_printed hx⟩, hr, ?_⟩
      · rw [hlexemes]
        simp [outputTokens, bracketed]
      · simp only [List.length_append, List.length_cons, List.length_nil]
        omega
  | statement => exact Or.inr (word_in_statement hspells hm hkind)

/-- A chain that starts among the tokens that are put in is no procedure. -/
theorem noProcedure_in_run (hj : j ∉ Set.range (newPlace ps last)) {c : Nat × List Segment} (hc : c ∈ chainFrom? f' words j) :
    NoProcedure c := by
  obtain ⟨⟨w, -, hw⟩, hne, rfl⟩ := chainFrom?_eq_some_iff.mp (Option.mem_def.mp hc)
  rcases hr.word_in_run h hf' hout hj hw with ⟨front, ts, back, m, hrun, hm, rfl⟩ | ⟨-, hdot⟩
  · refine noProcedure_of_names ?_
    rw [Nat.add_assoc]
    exact hrun.names hm
  · exact absurd (segmentsFrom_of_not_dot hdot) hne

theorem word_after_word_in_run (hj : j ∉ Set.range (newPlace ps last)) (hw : f'.word? j = some w) : f'.word? (j + 1) = none := by
  rcases hr.word_in_run h hf' hout hj hw with ⟨front, ts, back, m, hrun, hm, rfl⟩ | hends
  · exact hrun.word_after_word hm hw
  · exact hends.1

/-- A factory word before the place of the import starts no chain. -/
theorem no_chain_before (himport : imported.isSome = true) (hi : woven (oldRun ps) i < Import.place f) (hword : w ∈ words)
    (hw : (skeleton f ps last).word? i = some w) :
    segmentsFrom (skeleton f ps last) (i + 1) = [] ∧ segmentsFrom f' (newPlace ps last i + 1) = [] := by
  have hkind := hasKind_of_word? hw
  obtain ⟨hdot, hquestion⟩ := h.before himport _ hi w hword ((hr.word?_old h i).symm.trans hw)
  have hrun := hr.slidRun_after h hkind (by decide)
  rw [← woven_succ_of_nil (hr.oldRun_of_hasKind h hkind (by decide)), ← hr.hasKind_old h] at hdot hquestion
  refine ⟨segmentsFrom_of_not_dot (by rw [hdot, hquestion]; rfl), ?_⟩
  rw [← woven_succ_of_nil hrun]
  apply segmentsFrom_of_not_dot
  rw [(hr.widened_new h hf' hout).hasKind_eq, (hr.widened_new h hf' hout).hasKind_eq, hdot, hquestion]
  rfl

/-- The comments behind a parenthesis are the same, unless what they stand before is replaced. -/
theorem comments_new (hi : (skeleton f ps last).hasKind i .lparen = true)
    (hopen : ((skeleton f ps last).closer? i).map (·.1) ≠ some (i + 1)) :
    (f'.comments (newPlace ps last (i + 1))).map Token.lexeme = ((skeleton f ps last).comments (i + 1)).map Token.lexeme := by
  have hcut : ∀ front p back, ps = front ++ p :: back → cutAfter front p ≠ i + 1 := by
    intro front p back hps hcut
    obtain ⟨x, o, hx, -, hs, hlparen, hrparen⟩ := hr.replaced_after_lparen h hi hps hcut
    exact hopen (hr.closer_old h hx hs hlparen hrparen)
  have hrun : ∀ run, runAt run ps (i + 1) = [] := by
    intro run
    by_contra hne
    obtain ⟨front, p, back, hps, hn⟩ := exists_cutAfter hne
    exact hcut front p back hps hn.symm
  rw [hr.comments_skeleton h]
  rcases Nat.lt_or_ge (i + 1) (keptWords ps last).length with hlt | hge
  · obtain ⟨M, hM⟩ := exists_flanks_glue (Nat.lt_succ_self i) hlt fun front p back hps hbetween =>
      hcut front p back hps (by omega)
    have hold : f.Between (woven (oldRun ps) i) (woven (oldRun ps) i + 1) M := by
      have hflanks := hM Piece.old
      rw [← hr.cut.old, woven_succ_of_nil (hrun _)] at hflanks
      exact hflanks
    have hnew : f'.Between (woven (newRun ps) i) (woven (newRun ps) i + 1) M := by
      have hflanks := hM Piece.new
      rw [← hr.cut.new, ← hout, woven_succ_of_nil (hrun _)] at hflanks
      exact hflanks
    have hplace : newPlace ps last (i + 1) = woven (newRun ps) i + 1 := by
      rw [newPlace, woven_slide, if_neg fun hslides => ?_, woven_succ_of_nil (hrun _)]
      have hhead := hslides.1
      rw [newRun, hrun] at hhead
      cases hhead
    rw [hplace, woven_succ_of_nil (hrun _), hnew.comments hf', hold.comments h.read]
  · have hsize : (skeleton f ps last).size ≤ i + 1 := by
      rw [← (skeleton f ps last).length_lexemes, lexemes_skeleton]
      exact hge
    have hpast := (hr.widened_old h).size_le.trans ((hr.widened_old h).place_le_place hsize)
    have hpast' := (hr.widened_new h hf' hout).size_le.trans ((hr.widened_new h hf' hout).place_le_place hsize)
    rw [hf'.comments_eq_nil hpast', h.read.comments_eq_nil hpast]

/-- The chains of the kept tokens are found again in the new file, and no procedure is added. -/
theorem undisturbed_new : Undisturbed (skeleton f ps last) f' (newPlace ps last) words where
  widened := hr.widened_new h hf' hout
  seen := by
    intro i w hw hword
    by_cases hbefore : imported.isSome = true ∧ woven (oldRun ps) i < Import.place f
    · exact Or.inr (hr.no_chain_before h hf' hout hbefore.1 hbefore.2 hword hw)
    · exact Or.inl (hr.seen_new h hf' hout fun himport => Nat.le_of_not_lt fun hlt => hbefore ⟨himport, hlt⟩)
  runs _ hj _ hc := hr.noProcedure_in_run h hf' hout hj hc
  terminals := by
    intro c hc kind t ht hparens
    have hne : newRun ps (t.lparen + 1) ≠ [] := fun hnone =>
      hparens.gap (woven_succ_of_nil (hr.slidRun_of_not_dot h (File.hasKind_eq_false (beq_iff_eq.mp hparens.lparen) (by decide)) hnone))
    obtain ⟨x, o, hx, -, hs, hlparen, -⟩ := hr.newRun_after_lparen h hparens.lparen hne
    exact hr.terminal_ne_old h hc ht hx hs hlparen
  ignored _ hi hopen := isIgnored_congr (hr.comments_new h hf' hout hi hopen)

/-- What is put in before a kept word ends with a dot only if the word stands behind a dot. -/
theorem afterDot_word (hw : (skeleton f ps last).word? i = some w) :
    f'.afterDot (newPlace ps last i) = (skeleton f ps last).afterDot i := by
  have hwidened := hr.widened_new h hf' hout
  have hkind := hasKind_of_word? hw
  have hlt : i ≤ (skeleton f ps last).lexemes.length := by
    rw [File.length_lexemes]
    exact Nat.le_of_lt (File.lt_size_of_hasKind hkind)
  have hspells := ((hr.woven_new h hf' hout).spells hlt).left
  have hlength : newPlace ps last i = runStart (slidRun ps last) i + (slidRun ps last i).length := rfl
  have hslid := hr.slidIn_slid h i
  generalize hrun : slidRun ps last i = run at hspells hlength hslid
  cases hslid with
  | none =>
    cases i with
    | zero => rw [hlength]; rfl
    | succ i => rw [newPlace, woven_succ_of_nil hrun, File.afterDot, File.afterDot, hwidened.hasKind_eq, hwidened.hasKind_eq]
  | @printed i x o hx hs _ hrparen =>
    have hclose := ((h.located x hx).isCall h.read ((h.located x hx).output_mem hs)).rparen
    rw [← hrparen, ← hr.hasKind_old h] at hclose
    cases File.hasKind_unique hkind hclose
  | @call i x hx hat =>
    obtain ⟨c, -, hdot, hplace⟩ := (hr.afterDot_new h hf' hout hx hat hrun).dot'
    have hdot' := h.dots x hx _ hat
    rw [← hr.hasKind_old h] at hdot'
    rw [← hplace, File.afterDot, File.afterDot, hdot, hdot']
    rfl
  | statement himport hn =>
    have hsemi := hspells.tail.tail.tail.tail.tail.tail
    have hnew : f'.afterDot (newPlace ps last i) = false := by
      rw [hlength]
      show (f'.hasKind (runStart (slidRun ps last) i + 6) .dot || f'.hasKind (runStart (slidRun ps last) i + 6) .questionDot) = false
      rw [hsemi.hasKind, hsemi.hasKind]
      rfl
    rw [hnew]
    cases i with
    | zero => rfl
    | succ i =>
      rw [File.afterDot]
      rcases (hr.before_place h hn himport).2 with hbefore | hbefore <;>
        rw [File.hasKind_eq_false (beq_iff_eq.mp hbefore) (by decide), File.hasKind_eq_false (beq_iff_eq.mp hbefore) (by decide)] <;>
        rfl

/-- The declarations of the kept tokens are found again in the new file, and none is added. -/
theorem reindexed_new : Reindexed (skeleton f ps last) f' (newPlace ps last) where
  widened := hr.widened_new h hf' hout
  next _ _ hw := woven_succ_of_nil (hr.slidRun_after h (hasKind_of_word? hw) (by decide))
  afterDot _ _ hw := hr.afterDot_word h hf' hout hw
  runs _ hj _ _ hw := hr.word_after_word_in_run h hf' hout hj hw

end

end Retouched

end SchemaSplice.Pass
