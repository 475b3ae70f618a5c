import SchemaSplice.Proofs.Rerun.Runs
import SchemaSplice.Proofs.Rerun.Skeleton
/-!
# The tokens that a pass puts in

The file after a pass is the tokens that the pass keeps with what it prints put between them: validators between parentheses, calls of
`output` behind a dot, and the import. A call is inserted before a dot; it is the same text that comes after this dot and brings a
dot of its own.
-/

namespace SchemaSplice.Source

open Chain Annotation Validator

/-- A token of one character. -/
theorem glyphs_sign {c : Char} {k : Kind} {cs : List Char} (hc : isSpace c = false) (h : lexeme c cs = (k, 0)) :
    glyphs (c :: cs) = ⟨some k, [c]⟩ :: glyphs cs := by
  rw [glyphs_token hc, h, List.take_zero, List.drop_zero]

theorem glyphs_insertedCall {v : Validator} (hv : Tame v.chars) :
    glyphs (insertedCall v).toList = ⟨some .dot, ['.']⟩ :: ⟨some .ident, "output".toList⟩ :: ⟨some .lparen, ['(']⟩ ::
      (glyphs v.printMarked.toList ++ [⟨some .rparen, [')']⟩]) := by
  have hword : lexeme 'o' ("utput".toList ++ ('(' :: (v.printMarked.toList ++ [')']))) = (.ident, 5) := rfl
  have houtput : glyphs ("output".toList ++ ('(' :: (v.printMarked.toList ++ [')']))) =
      ⟨some .ident, "output".toList⟩ :: glyphs ('(' :: (v.printMarked.toList ++ [')'])) := by
    rw [show "output".toList = 'o' :: "utput".toList from rfl, List.cons_append, glyphs_token rfl, hword]
    rfl
  rw [insertedCall_toList, List.append_assoc, show ".output(".toList = '.' :: ("output".toList ++ ['(']) from rfl, List.cons_append,
    List.append_assoc, List.singleton_append, glyphs_sign rfl rfl, houtput, glyphs_sign rfl rfl,
    glyphs_append (selfContained_printMarked hv), glyphs_sign rfl rfl, glyphs_nil]

end SchemaSplice.Source

namespace SchemaSplice.Pass

open Source SchemaSplice.Types Annotation Declaration Chain
open File (Widened Woven Seen Enters AfterDot InParens)

abbrev dotToken : Lexeme := (.dot, ".")

def printedTokens (v : Validator) : List Lexeme := wordsOf (glyphs v.printMarked.toList)

/-- The tokens of an inserted call behind its dot. -/
def outputTokens (v : Validator) : List Lexeme := (.ident, "output") :: bracketed .lparen .rparen (printedTokens v)

theorem wordsOf_insertedCall {v : Validator} (hv : Tame v.chars) :
    wordsOf (glyphs (insertedCall v).toList) = dotToken :: outputTokens v := by
  rw [glyphs_insertedCall hv, wordsOf_cons, wordsOf_cons ⟨some .ident, _⟩, wordsOf_cons ⟨some .lparen, _⟩, wordsOf_append]
  rfl

theorem wordsOf_of_scans {text : String} {ts : List Lexeme} (h : Scans text.toList ts []) (hts : ∀ w ∈ ts, w.1.isComment = false) :
    wordsOf (glyphs text.toList) = ts := by
  have hspelled : spelled (glyphs text.toList) = ts := by
    rw [spelled_glyphs 0]
    exact lexemes_of_scans h
  rw [wordsOf, hspelled, List.filter_eq_self]
  intro w hw
  rw [hts w hw]
  rfl

/-- The runs that a pass puts in, by the kept token before which it puts them; `place` says where that was. -/
inductive PutIn (f : File) (source : String) (xs : List Finding) (imported : Option Edit) (place : Nat → Nat) :
    Nat → List Lexeme → Prop
  | none {n : Nat} : PutIn f source xs imported place n []
  | printed {i : Nat} {x : Finding} {o : Segment} (hx : x ∈ xs) (hs : x.strategy = .replaceOutput o) (hi : place i = o.lparen)
    (hi' : place (i + 1) = o.rparen) : PutIn f source xs imported place (i + 1) (printedTokens x.validator)
  | call {n : Nat} {x : Finding} (hx : x ∈ xs) (hat : x.strategy.insertsAt? = some (place n)) :
    PutIn f source xs imported place n (dotToken :: outputTokens x.validator)
  | statement {n : Nat} (himport : imported.isSome = true) (hn : place n = Import.place f) :
    PutIn f source xs imported place n (Import.statementLexemes source)

/-- The runs with the inserted calls behind the dots that they come before. -/
inductive SlidIn (f : File) (source : String) (xs : List Finding) (imported : Option Edit) (place : Nat → Nat) :
    Nat → List Lexeme → Prop
  | none {n : Nat} : SlidIn f source xs imported place n []
  | printed {i : Nat} {x : Finding} {o : Segment} (hx : x ∈ xs) (hs : x.strategy = .replaceOutput o) (hi : place i = o.lparen)
    (hi' : place (i + 1) = o.rparen) : SlidIn f source xs imported place (i + 1) (printedTokens x.validator)
  | call {i : Nat} {x : Finding} (hx : x ∈ xs) (hat : x.strategy.insertsAt? = some (place i)) :
    SlidIn f source xs imported place (i + 1) (outputTokens x.validator ++ [dotToken])
  | statement {n : Nat} (himport : imported.isSome = true) (hn : place n = Import.place f) :
    SlidIn f source xs imported place n (Import.statementLexemes source)

variable {f f' : File} {words : List String} {source out : String} {xs : List Finding} {imported : Option Edit}
  {x y : Finding} {o s t : Segment} {d i n : Nat} {e : Edit} {front back : List Piece} {p : Piece} {ps : List Piece}
  {last : List Glyph}

theorem wordsOf_inserts (h : Import.Inserts f source e) (hsource : PlainSource source) :
    wordsOf (glyphs e.text.toList) = Import.statementLexemes source := by
  have hcomment : ∀ w ∈ Import.statementLexemes source, w.1.isComment = false := fun w hw =>
    ((Import.phrase_statementLexemes source).steady w hw).significant
  cases h with
  | afterLast =>
    refine wordsOf_of_scans ?_ hcomment
    rw [Edit.insert, String.toList_append, ← List.append_nil (_ ++ _), List.append_assoc]
    exact .space rfl (Import.scans_statementText hsource [])
  | afterDirectives =>
    refine wordsOf_of_scans ?_ hcomment
    rw [Edit.insert, String.toList_append, ← List.append_nil (Import.statementLexemes source)]
    exact (Import.scans_statementText hsource _).trans (.space rfl (.stop []))

abbrev slidRun (ps : List Piece) (last : List Glyph) : Nat → List Lexeme := slide dotToken (newRun ps) (keptWords ps last)

/-- Where a kept token stands in the new file. -/
abbrev newPlace (ps : List Piece) (last : List Glyph) : Nat → Nat := woven (slidRun ps last)

theorem text_of_replaceOutput (hs : x.strategy = .replaceOutput o) : (x.splice f).edit.text = x.validator.printMarked := by
  rw [Finding.splice, hs]
  rfl

theorem text_of_insertsAt? (hat : x.strategy.insertsAt? = some d) : (x.splice f).edit.text = insertedCall x.validator := by
  rw [Finding.splice]
  cases hs : x.strategy with
  | insertAfterInput => rfl
  | insertBeforeTerminal => rfl
  | replaceOutput => rw [hs] at hat; cases hat

theorem Touched.orderly_printed (h : Touched f words source xs imported) (hx : x ∈ xs) : Orderly (printedTokens x.validator) :=
  orderly_printMarked (h.validators x hx)

theorem balanced_call {v : Validator} (hv : Orderly (printedTokens v)) :
    Balanced ((outputTokens v ++ [dotToken]).map (·.1)) := by
  rw [List.map_append]
  exact .append (.plain rfl rfl (hv.bracketed rfl).balanced) (.plain rfl rfl .nil)

namespace Retouched

section

variable (h : Touched f words source xs imported) (hr : Retouched f xs imported out ps last)

include h hr

theorem putIn_new (n : Nat) : PutIn f source xs imported (woven (oldRun ps)) n (newRun ps n) := by
  by_cases hne : newRun ps n = []
  · rw [hne]
    exact .none
  obtain ⟨front, p, back, -, -, hrun, hspot⟩ := hr.exists_spot hne
  rw [newRun, hrun, Piece.new]
  have hlength : woven (oldRun ps) n = runStart (oldRun ps) n + (oldRun ps n).length := rfl
  generalize ha : runStart (oldRun ps) n = a, hb : woven (oldRun ps) n = b at hspot hlength
  cases hspot with
  | @replaced x o hx hchanges hs he =>
    cases n with
    | zero => cases ha
    | succ i =>
      rw [← he, text_of_replaceOutput hs]
      exact .printed hx hs (Nat.succ.inj ha) hb
  | @inserted x d hx hat he =>
    rw [← he, text_of_insertsAt? hat, wordsOf_insertedCall (h.tame x hx)]
    exact .call hx (hb ▸ hat)
  | added he =>
    rw [wordsOf_inserts (h.inserts _ he).1 h.plain]
    exact .statement (by rw [he]; rfl) hb

/-- Nothing is put in behind most tokens. -/
theorem newRun_after_dot (hi : (skeleton f ps last).hasKind i .dot = true) : newRun ps (i + 1) = [] := by
  have hplace : woven (oldRun ps) (i + 1) = woven (oldRun ps) i + 1 := woven_succ_of_nil (hr.oldRun_of_hasKind h hi (by decide))
  have hdot := hi
  rw [hr.hasKind_old h] at hdot
  have hput := hr.putIn_new h (i + 1)
  generalize hm : i + 1 = m, newRun ps (i + 1) = run at hput
  cases hput with
  | none => rfl
  | printed hx hs hlparen =>
    cases hm
    rw [hlparen] at hdot
    cases File.hasKind_unique hdot ((h.located _ hx).callAt ((h.located _ hx).output_mem hs)).lparen
  | call hx hat =>
    subst hm
    obtain ⟨j, hj, hkind⟩ := (h.located _ hx).dot_of_insertsAt? h.read hat
    rw [hplace] at hj
    obtain rfl := Nat.succ.inj hj
    rcases hkind with hkind | hkind <;> cases File.hasKind_unique hdot hkind
  | statement _ hn =>
    subst hm
    rw [hplace] at hn
    rcases Import.place_before f with hzero | ⟨j, hj, hkind⟩
    · rw [hzero] at hn
      cases hn
    · obtain rfl := Nat.succ.inj (hn.trans hj)
      rcases hkind with hkind | hkind <;> cases File.hasKind_unique hdot hkind

/-- A run comes behind a dot if it is a call that is inserted before it. -/
theorem slides_iff : Slides dotToken (newRun ps) (keptWords ps last) n ↔
    (skeleton f ps last).hasKind n .dot = true ∧
      ∃ x ∈ xs, x.strategy.insertsAt? = some (woven (oldRun ps) n) ∧ newRun ps n = dotToken :: outputTokens x.validator := by
  have hlexeme : (keptWords ps last)[n]? = f.lexemes[woven (oldRun ps) n]? := by
    rw [(hr.woven_old h).lexeme_eq, lexemes_skeleton]
  constructor
  · rintro ⟨hhead, hnext⟩
    have hdot : f.hasKind (woven (oldRun ps) n) .dot = true := by
      rw [File.hasKind, File.kind?_eq_lexeme, ← hlexeme, hnext]
      rfl
    refine ⟨(hr.hasKind_old h n .dot).trans hdot, ?_⟩
    have hput := hr.putIn_new h n
    generalize newRun ps n = run at hput hhead ⊢
    cases hput with
    | none => cases hhead
    | printed hx hs hi hi' =>
      rw [hi'] at hdot
      cases File.hasKind_unique hdot ((h.located _ hx).isCall h.read ((h.located _ hx).output_mem hs)).rparen
    | call hx hat => exact ⟨_, hx, hat, rfl⟩
    | statement =>
      exact absurd (congrArg (Option.map (·.1)) hhead) (by simp [Import.statementLexemes, Import.statementWords])
  · rintro ⟨hdot, x, hx, hat, hrun⟩
    refine ⟨by rw [hrun]; rfl, hlexeme.trans (h.read.lexeme_of_dot ?_)⟩
    rw [← hr.hasKind_old h]
    exact hdot

theorem slidIn_slid (n : Nat) : SlidIn f source xs imported (woven (oldRun ps)) n (slidRun ps last n) := by
  have hrest : ∀ n, SlidIn f source xs imported (woven (oldRun ps)) n
      (if Slides dotToken (newRun ps) (keptWords ps last) n then [] else newRun ps n) := by
    intro n
    split
    · exact .none
    next hslides =>
    have hput := hr.putIn_new h n
    generalize hrun : newRun ps n = run at hput
    cases hput with
    | none => exact .none
    | printed hx hs hi hi' => exact .printed hx hs hi hi'
    | call hx hat =>
      refine absurd ((hr.slides_iff h).mpr ⟨?_, _, hx, hat, hrun⟩) hslides
      rw [hr.hasKind_old h]
      exact h.dots _ hx _ hat
    | statement himport hn => exact .statement himport hn
  cases n with
  | zero => exact hrest 0
  | succ i =>
    rw [slidRun, slide]
    by_cases hslides : Slides dotToken (newRun ps) (keptWords ps last) i
    · obtain ⟨hdot, x, hx, hat, hrun⟩ := (hr.slides_iff h).mp hslides
      have hnone : (if Slides dotToken (newRun ps) (keptWords ps last) (i + 1) then [] else newRun ps (i + 1)) = [] := by
        split
        · rfl
        · exact hr.newRun_after_dot h hdot
      rw [if_pos hslides, hrun, hnone, List.append_nil]
      exact .call hx hat
    · rw [if_neg hslides]
      exact hrest (i + 1)

end

section

variable (h : Touched f words source xs imported) (hr : Retouched f xs imported out ps last) (hf' : f'.IsRead) (hout : f'.text = out)

include h hr hf' hout

/-- The new file is the kept tokens with runs put between them, each of which matches its brackets. -/
theorem woven_new : Woven (skeleton f ps last) f' (slidRun ps last) where
  bracketed := File.bracketed_ofWords ..
  bracketed' := hf'.bracketed
  lexemes := by rw [hf'.lexemes_eq, hout, hr.cut.new, wordsOf_glue, lexemes_skeleton, weave_slide]
  fits := by
    intro n _
    have hslid := hr.slidIn_slid h n
    refine .balanced ?_
    generalize slidRun ps last n = run at hslid
    cases hslid with
    | none => exact .nil
    | printed hx => exact (h.orderly_printed hx).balanced
    | call hx => exact balanced_call (h.orderly_printed hx)
    | statement => exact (Import.phrase_statementLexemes source).balanced

theorem widened_new : Widened (skeleton f ps last) f' (newPlace ps last) := (hr.woven_new h hf' hout).widened

/-- The run behind a kept token, and the token after it. -/
theorem spells_new {k : Kind} (hi : (skeleton f ps last).hasKind i k = true) :
    f'.Spells (newPlace ps last i + 1) (slidRun ps last (i + 1) ++ (skeleton f ps last).lexemes[i + 1]?.toList) := by
  have hlt : i + 1 ≤ (skeleton f ps last).lexemes.length := by
    rw [File.hasKind, beq_iff_eq, File.kind?_eq_lexeme] at hi
    obtain ⟨w, hw, -⟩ := Option.map_eq_some_iff.mp hi
    exact (List.getElem?_eq_some_iff.mp hw).1
  exact (hr.woven_new h hf' hout).spells hlt

/-- A call that is inserted stands behind a dot. -/
theorem afterDot_new (hx : x ∈ xs) (hat : x.strategy.insertsAt? = some (woven (oldRun ps) i))
    (hrun : slidRun ps last (i + 1) = outputTokens x.validator ++ [dotToken]) :
    AfterDot (skeleton f ps last) f' (newPlace ps last) words i := by
  have hlocated := h.located x hx
  have hdot : (skeleton f ps last).hasKind i .dot = true := by
    rw [hr.hasKind_old h]
    exact h.dots x hx _ hat
  have hnone := hr.oldRun_of_hasKind' h hdot (by decide)
  have hspells := hr.spells_new h hf' hout hdot
  rw [hrun, outputTokens, bracketed] at hspells
  have hname : f'.Spells (newPlace ps last i + 1) ((.ident, "output") ::
      (sign .lparen :: printedTokens x.validator ++ [sign .rparen, dotToken])) := by simpa using hspells.left
  obtain ⟨hc, hclose⟩ := hf'.closer?_of_balanced rfl hname.tail (h.orderly_printed hx).balanced
  have hrparen := hname.tail.right
  have hnext : newPlace ps last (i + 1) = newPlace ps last i + (printedTokens x.validator).length + 5 := by
    rw [newPlace, woven_succ, hrun]
    simp [outputTokens, bracketed]
    omega
  refine ⟨hdot, ?_, Import.word?_of_spells hname, ?_, ⟨_, Option.map_eq_some_iff.mpr ⟨_, hclose, rfl⟩, ?_, ?_⟩, ?_⟩
  · rintro j rfl
    obtain ⟨k, hk, hkind⟩ := hlocated.dot_of_insertsAt? h.read hat
    rw [woven_succ_of_nil hnone] at hk
    rwa [hr.hasKind_old h, hr.hasKind_old h, Nat.succ.inj hk]
  · rw [hname.tail.hasKind]
    rfl
  · have hlast := hrparen.tail.hasKind .dot
    rw [List.length_cons] at hlast
    rw [show newPlace ps last i + 1 + 1 + 1 + (printedTokens x.validator).length + 1 =
      newPlace ps last i + 1 + 1 + ((printedTokens x.validator).length + 1) + 1 by omega, hlast]
    rfl
  · change newPlace ps last i + 1 + 1 + 1 + (printedTokens x.validator).length + 2 = newPlace ps last (i + 1)
    omega
  · rintro j w rfl hw
    have hplace := woven_succ_of_nil hnone
    have hroot := hr.word?_old h j
    rw [hw] at hroot
    rcases hlocated.comesTo hat with hd | ⟨s, hs, hd⟩
    · obtain ⟨w', hw', hroot'⟩ := h.named x hx
      rw [← Nat.succ.inj (hplace.symm.trans hd), ← hroot] at hroot'
      cases hroot'
      refine ⟨hw', ?_⟩
      rw [ne_eq, ← segmentsFrom_eq_nil_iff (hr.widened_old h) (hr.seen_old h j) hw, ← hplace, hd, ← hlocated.segments]
      exact List.ne_nil_of_mem hlocated.terminal
    · have hrparen := (hlocated.isCall h.read hs).rparen
      rw [← Nat.succ.inj (hplace.symm.trans hd)] at hrparen
      cases File.hasKind_unique (hasKind_of_word? hroot.symm) hrparen

end

end Retouched

end SchemaSplice.Pass
