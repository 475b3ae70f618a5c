import SchemaSplice.Proofs.Rerun.Retracing
/-!
# Settled procedures

A procedure that a pass deals with has its printed validator in the new file: in the call of `output` that was inserted into its chain,
or in its last such call, whose arguments were replaced or had been printed before.
-/

namespace SchemaSplice.Pass

open Source SchemaSplice.Types Annotation Declaration Chain
open File (Widened Woven Seen Enters AfterDot InParens)

variable {f f' : File} {words : List String} {source out : String} {xs : List Finding} {imported : Option Edit}
  {x y : Finding} {o s t : Segment} {d i j n : Nat} {front back : List Piece} {p : Piece} {ps : List Piece}
  {last : List Glyph} {w : String} {k : Kind}

theorem settled_of_arguments (ho : lastNamed? x.procedure.segments "output" = some o)
    (harguments : o.arguments f = some x.validator.printMarked) : Settled f x :=
  ⟨o, strategy_eq_replaceOutput_iff.mpr ho, harguments⟩

theorem mem_editsOf (hx : x ∈ xs) (hchanges : x.changes f = true) : (x.splice f).edit ∈ editsOf f xs imported := by
  rw [editsOf, edits_of]
  exact List.mem_append_left _ (List.mem_map_of_mem (List.mem_filter.mpr ⟨hx, hchanges⟩))

theorem changes_of_insertsAt? (h : x.strategy.insertsAt? = some d) : x.changes f = true := by
  cases hchanges : x.changes f with
  | true => rfl
  | false =>
    obtain ⟨o, hs, -⟩ := (changes_eq_false_iff f x).mp hchanges
    rw [hs] at h
    cases h

/-- What stands between the parentheses of a settled procedure is its printed validator. -/
theorem eq_printMarked (hf : f.IsRead) (hv : Tame x.validator.chars) (hs : x.strategy = .replaceOutput o) (hsettled : Settled f x)
    {M : List Glyph} (hM : f.Between o.lparen o.rparen M) : M = glyphs x.validator.printMarked.toList := by
  obtain ⟨o', hs', harguments⟩ := hsettled
  rw [hs] at hs'
  cases hs'
  have hflatten : flatten M = x.validator.printMarked.toList := by
    have heq := Option.some.inj ((hM.arguments hf).symm.trans harguments)
    rw [← heq, String.toList_ofList]
  obtain ⟨P, g, g', Q, -, -, hglyphs, -⟩ := hM.split
  rw [← List.cons_append, List.cons_append, List.append_cons] at hglyphs
  obtain ⟨-, hrest, -⟩ := scans_of_glyphs hglyphs
  rw [flatten_append, hflatten, glyphs_append (selfContained_printMarked hv)] at hrest
  refine (prefix_unique hrest ?_ ?_).1.symm
  · rw [← glyphs_append (selfContained_printMarked hv)]
    exact fun g hg => chars_ne_nil_of_mem_glyphs hg
  · rw [flatten_glyphs, hflatten]

theorem Touched.eq_of_root (h : Touched f words source xs imported) (hx : x ∈ xs) (hy : y ∈ xs)
    (heq : x.procedure.root = y.procedure.root) : x = y := by
  by_contra hne
  have happart : xs.Pairwise fun x y => x.procedure.root ≠ y.procedure.root := h.roots.imp Nat.ne_of_lt
  have hsymm : Std.Symm fun x y : Finding => x.procedure.root ≠ y.procedure.root := ⟨fun _ _ => Ne.symm⟩
  exact happart.forall hx hy hne heq

/-- Chains of procedures that are edited in one place are those of one procedure. -/
theorem Touched.eq_of_comesTo (h : Touched f words source xs imported) (hx : x ∈ xs) (hy : y ∈ xs)
    (hd : CallsMoved.ComesTo (x.procedure.root + 1) x.procedure.segments d)
    (hat : y.strategy.insertsAt? = some d) : x = y :=
  h.eq_of_root hx hy (root_eq_of_comesTo h.read (h.located x hx) (h.located y hy) (h.unentangled_finding hx)
    (h.unentangled_finding hy) hd hat)

/-- No procedure starts between the parentheses of a settled one. -/
theorem Touched.not_holds_root (h : Touched f words source xs imported) (hx : x ∈ xs) (hy : y ∈ xs)
    (hs : x.strategy = .replaceOutput o) (hsettled : Settled f x) :
    ¬o.Holds y.procedure.root := by
  rintro ⟨hafter, hbefore⟩
  have hcall := (h.located x hx).callAt ((h.located x hx).output_mem hs)
  have hsize : o.rparen < (wordsOf (glyphs f.text.toList)).length := by
    rw [← h.read.lexemes_eq, f.length_lexemes]
    exact hcall.lt.2.2
  obtain ⟨M, hM⟩ := exists_flanks hcall.lt.2.1 hsize
  obtain rfl := eq_printMarked h.read (h.tame x hx) hs hsettled hM
  obtain ⟨P, g, g', Q, w, w', hglyphs, hg, hg', hlength⟩ := hM.split
  have hlexemes : f.lexemes = (wordsOf P ++ [w]) ++ (printedTokens x.validator ++ (w' :: wordsOf Q)) := by
    rw [h.read.lexemes_eq, hglyphs, wordsOf_append, wordsOf_cons, hg, wordsOf_append, wordsOf_cons g', hg', printedTokens]
    simp
  have hstop : (wordsOf P).length + 1 + (printedTokens x.validator).length = o.rparen := by
    rw [hlength]
    exact hM.length
  have hrparen := ((h.located x hx).isCall h.read ((h.located x hx).output_mem hs)).rparen
  rw [File.hasKind, File.kind?_eq_lexeme, ← hstop, hlexemes, List.getElem?_append_right (by simp),
    List.getElem?_append_right (by simp), beq_iff_eq] at hrparen
  have hrun : RunBefore f (wordsOf P ++ [w]) (printedTokens x.validator) (w' :: wordsOf Q) :=
    ⟨h.read, hlexemes, by simpa using hrparen, h.orderly_printed hx⟩
  obtain ⟨n, hn⟩ := Nat.exists_eq_add_of_lt hafter
  have hnames := hrun.names (n := n + 1) (by omega) y.procedure.terminal (by
    rw [List.length_append, hlength, List.length_singleton, show o.lparen + 1 + (n + 1) = y.procedure.root + 1 by omega,
      ← (h.located y hy).segments]
    exact (h.located y hy).terminal)
  rcases h.terminals y hy with hname | hname
  · exact hnames.1 hname
  · exact hnames.2 hname

namespace Retouched

theorem newPlace_of_not_dot (hi : (skeleton f ps last).hasKind i k = true) (hk : k ≠ .dot) :
    newPlace ps last i = woven (newRun ps) i := by
  refine woven_slide_of_ne fun hdot => ?_
  rw [File.hasKind, File.kind?_eq_lexeme, lexemes_skeleton, hdot, beq_iff_eq] at hi
  exact hk (Option.some.inj hi).symm

/-- An edit between two tokens keeps both. -/
theorem tokens_beside (hr : Retouched f xs imported out ps last) (hf : f.IsRead) (hps : ps = front ++ p :: back)
    (hi : i < f.size) (hj : j < f.size) (hspan : p.edit.span = ⟨(f.span i).stop, (f.span j).start⟩) :
    (∃ K g w, p.kept = K ++ [g] ∧ wordsOf [g] = [w]) ∧
      ∀ run, ∃ g Q w, glue run back last = g :: Q ∧ wordsOf [g] = [w] := by
  have hcut := hr.cut.span front p back hps
  rw [hspan, Span.mk.injEq, Nat.zero_add, Nat.zero_add] at hcut
  have hold := hr.cut.old
  have hapart := hr.apart
  rw [hps] at hapart
  rw [hps, glue_append] at hold
  constructor
  · obtain ⟨t, ht, htoken⟩ := File.span_eq_of_lt hi
    rw [htoken] at hcut
    obtain ⟨P, g, w, hP, hg, -⟩ := hf.exists_concat_of_stop hold ht hcut.1
    obtain ⟨K, hK⟩ := hapart.exists_concat hP
    exact ⟨K, g, w, hK, hg⟩
  · intro run
    obtain ⟨t, ht, htoken⟩ := File.span_eq_of_lt hj
    rw [htoken] at hcut
    rw [← List.append_assoc] at hold
    obtain ⟨-, g, w, Q, hQ, hg⟩ := hf.exists_cons_of_start hold ht hcut.2
    obtain ⟨Q', hQ'⟩ := hapart.exists_cons hQ run
    exact ⟨g, Q', w, hQ', hg⟩

section

variable (h : Touched f words source xs imported) (hr : Retouched f xs imported out ps last)

include h hr

/-- The edit of a finding is made where its strategy says. -/
theorem exists_cut (hx : x ∈ xs) (hchanges : x.changes f = true) :
    ∃ front p back, ps = front ++ p :: back ∧ p.edit = (x.splice f).edit ∧
      runStart (oldRun ps) (cutAfter front p) = x.strategy.cutFrom ∧ woven (oldRun ps) (cutAfter front p) = x.strategy.cutTo := by
  have hmem : (x.splice f).edit ∈ editsOf f xs imported := mem_editsOf hx hchanges
  rw [← (List.mergeSort_perm _ Edit.le).mem_iff, ← hr.cut.edits, List.mem_map] at hmem
  obtain ⟨p, hp, hedit⟩ := hmem
  obtain ⟨front, back, hps⟩ := List.append_of_mem hp
  obtain ⟨hstart, hstop⟩ := cutsAt_of_cutUp hr.cut hps
  rw [hedit] at hstart hstop
  have hfrom := ((h.located x hx).cuts h.read).1 hstart
  have hto := ((h.located x hx).cuts h.read).2 hstop
  have hapart := hr.apart
  rw [hps] at hapart
  rw [length_wordsOf_old] at hto
  rw [length_wordsOf_glue hapart] at hfrom hto
  have hrun := runAt_cutAfter hapart Piece.old
  rw [← hps] at hfrom hto hrun
  refine ⟨front, p, back, hps, hedit, hfrom, ?_⟩
  rw [woven, oldRun, hrun]
  exact hto

/-- Nothing is put in between the parentheses of a settled procedure. -/
theorem not_cut_settled (hx : x ∈ xs) (hs : x.strategy = .replaceOutput o) (hsettled : Settled f x)
    (hi : woven (oldRun ps) i = o.lparen) (hj : woven (oldRun ps) j = o.rparen) (hps : ps = front ++ p :: back) :
    ¬(i < cutAfter front p ∧ cutAfter front p ≤ j) := by
  rintro ⟨hafter, hbefore⟩
  have hspot := hr.spot_cutAfter hps
  have hlocated := h.located x hx
  have hmem := hlocated.output_mem hs
  have hstop : woven (oldRun ps) (cutAfter front p) ≤ o.rparen := by
    rw [← hj]
    exact (strictMono_woven _).monotone hbefore
  have hstart : o.lparen < runStart (oldRun ps) (cutAfter front p) := by
    obtain ⟨m, hm⟩ := Nat.exists_eq_succ_of_ne_zero (n := cutAfter front p) (by omega)
    rw [hm, Nat.succ_eq_add_one, runStart_succ, ← hi]
    exact Nat.lt_succ_of_le ((strictMono_woven _).monotone (by omega))
  have hlparen := (hlocated.callAt hmem).lparen
  have hrparen := (hlocated.isCall h.read hmem).rparen
  -- A procedure that is edited between the parentheses starts there.
  have hapart : ∀ y ∈ xs, ∀ t ∈ y.procedure.segments, ¬(o.Holds t.dot ∨ o.Holds t.lparen ∨ o.Holds t.rparen) :=
    fun y hy t ht hholds =>
      h.not_holds_root hx hy hs hsettled (hlocated.holds_root h.read (h.located y hy) hmem ht hholds)
  generalize runStart (oldRun ps) (cutAfter front p) = a, woven (oldRun ps) (cutAfter front p) = b at hspot hstop hstart
  cases hspot with
  | @replaced y t hy hchanges ht =>
    have htmem := (h.located y hy).output_mem ht
    have hlt := ((h.located y hy).callAt htmem).lt.2.1
    rcases Nat.eq_or_lt_of_le (Nat.le_of_lt_succ hstart) with heq | hlt'
    · have hxy : x = y := by
        apply h.eq_of_root hx hy
        by_contra hne
        exact not_shared h.read hlocated (h.located y hy) (h.unentangled_finding hx) (h.unentangled_finding hy) hne hmem htmem heq
      subst hxy
      rw [(changes_eq_false_iff f x).mpr hsettled] at hchanges
      cases hchanges
    · exact hapart y hy t htmem (Or.inr (Or.inl ⟨hlt', by omega⟩))
  | @inserted y _ hy hat =>
    have hdot := h.dots y hy _ hat
    have hne : a ≠ o.rparen := fun heq => by
      rw [heq] at hdot
      cases File.hasKind_unique hdot hrparen
    rcases (h.located y hy).callBy hat with ⟨t, ht, rfl | rfl⟩
    · exact hapart y hy t ht (Or.inl ⟨hstart, by omega⟩)
    · have hclose := ((h.located y hy).isCall h.read ht).rparen
      have hne' : t.rparen ≠ o.lparen := fun heq => by
        rw [heq] at hclose
        cases File.hasKind_unique hclose hlparen
      exact hapart y hy t ht (Or.inr (Or.inr ⟨by omega, by omega⟩))
  | added he =>
    have hplace := h.place_le_root (by rw [he]; rfl) hx
    obtain ⟨-, hdot, -⟩ := matched_of_mem_segmentsFrom o (hlocated.segments ▸ hmem)
    have := (hlocated.callAt hmem).lt
    omega

/-! ### Chains of the kept tokens -/

theorem segments_old {c c' : Nat × List Segment} (hc : ChainMoved (skeleton f ps last) f (woven (oldRun ps)) words c c') :
    c'.2 = c.2.map (Segment.moved (woven (oldRun ps))) :=
  (hc.calls (hr.widened_old h)).eq_map fun d _ => hr.not_afterDot_old h d

/-- A chain of the kept tokens comes to the places that its procedure comes to. -/
theorem comesTo_old_iff {c : Nat × List Segment} (hx : x ∈ xs)
    (hc : ChainMoved (skeleton f ps last) f (woven (oldRun ps)) words c (x.procedure.root, x.procedure.segments)) :
    CallsMoved.ComesTo (x.procedure.root + 1) x.procedure.segments d ↔
      ∃ n, CallsMoved.ComesTo (c.1 + 1) c.2 n ∧ woven (oldRun ps) n = d := by
  have hroot : woven (oldRun ps) (c.1 + 1) = x.procedure.root + 1 := by
    rw [woven_succ_of_nil (hr.oldRun_of_hasKind h hc.name (by decide)), ← hc.root]
  have hsegments : x.procedure.segments = c.2.map (Segment.moved (woven (oldRun ps))) := hr.segments_old h hc
  have hrparen : ∀ s ∈ c.2, woven (oldRun ps) (s.rparen + 1) = (s.moved (woven (oldRun ps))).rparen + 1 := by
    intro s hs
    have hcall := (h.located x hx).isCall h.read (hsegments ▸ List.mem_map_of_mem hs)
    have hkind : (skeleton f ps last).hasKind s.rparen .rparen = true := by
      rw [hr.hasKind_old h]
      exact hcall.rparen
    exact woven_succ_of_nil (hr.oldRun_of_hasKind h hkind (by decide))
  constructor
  · rintro (rfl | ⟨s, hs, rfl⟩)
    · exact ⟨c.1 + 1, Or.inl rfl, hroot⟩
    · rw [hsegments, List.mem_map] at hs
      obtain ⟨t, ht, rfl⟩ := hs
      exact ⟨t.rparen + 1, Or.inr ⟨t, ht, rfl⟩, hrparen t ht⟩
  · rintro ⟨n, rfl | ⟨t, ht, rfl⟩, rfl⟩
    · exact Or.inl hroot
    · exact Or.inr ⟨t.moved _, hsegments ▸ List.mem_map_of_mem ht, hrparen t ht⟩

/-- A call of `output` that is new behind a dot was inserted at that dot. -/
theorem exists_inserted (hd : AfterDot (skeleton f ps last) f' (newPlace ps last) words d) :
    ∃ y ∈ xs, y.strategy.insertsAt? = some (woven (oldRun ps) d) := by
  obtain ⟨c, hc, -, hnext⟩ := hd.dot'
  have hlt := (show f'.Matched _ c from hc).lt.1
  have hslid := hr.slidIn_slid h (d + 1)
  have hplace : newPlace ps last (d + 1) = newPlace ps last d + 1 + (slidRun ps last (d + 1)).length := woven_succ ..
  generalize hm : d + 1 = m, hrun : slidRun ps last (d + 1) = run at hslid hplace
  cases hslid with
  | none =>
    rw [List.length_nil, ← hm] at hplace
    omega
  | printed hx hs hi =>
    cases hm
    have hlparen := ((h.located _ hx).callAt ((h.located _ hx).output_mem hs)).lparen
    rw [← hi, ← hr.hasKind_old h] at hlparen
    cases File.hasKind_unique hd.dot hlparen
  | call hx hat =>
    cases hm
    exact ⟨_, hx, hat⟩
  | statement himport hn =>
    subst hm
    rcases (hr.before_place h hn himport).2 with hkind | hkind <;> cases File.hasKind_unique hd.dot hkind

/-- Where a call of `output` is inserted, it comes behind the dot. -/
theorem slidRun_inserted (hx : x ∈ xs) (hat : x.strategy.insertsAt? = some (woven (oldRun ps) n)) :
    Slides dotToken (newRun ps) (keptWords ps last) n ∧ slidRun ps last (n + 1) = outputTokens x.validator ++ [dotToken] := by
  obtain ⟨front, p, back, hps, hedit, -, hstop⟩ := hr.exists_cut h hx (changes_of_insertsAt? hat)
  rw [(Strategy.cuts_of_insertsAt? hat).2] at hstop
  have hcut := (strictMono_woven _).injective hstop
  have hapart := hr.apart
  rw [hps] at hapart
  have hrun : newRun ps n = dotToken :: outputTokens x.validator := by
    rw [← hcut, newRun, hps, runAt_cutAfter hapart, Piece.new, hedit, text_of_insertsAt? hat, wordsOf_insertedCall (h.tame x hx)]
  have hdot : (skeleton f ps last).hasKind n .dot = true := by
    rw [hr.hasKind_old h]
    exact h.dots x hx _ hat
  have hslides := (hr.slides_iff h).mpr ⟨hdot, x, hx, hat, hrun⟩
  refine ⟨hslides, ?_⟩
  simp only [slidRun, slide, if_pos hslides, hrun, hr.newRun_after_dot h hdot, ite_self, List.append_nil, List.tail_cons]

end

/-- Where arguments are replaced, the validator stands between the parentheses. -/
theorem between_new (h : Touched f words source xs imported) (hr : Retouched f xs imported out ps last) (hout : f'.text = out)
    (hx : x ∈ xs) (hs : x.strategy = .replaceOutput o) (hi : woven (oldRun ps) i = o.lparen)
    (hj : woven (oldRun ps) j = o.rparen) :
    f'.Between (newPlace ps last i) (newPlace ps last j) (glyphs x.validator.printMarked.toList) := by
  have hlocated := h.located x hx
  have hcall := hlocated.callAt (hlocated.output_mem hs)
  have hlparen : (skeleton f ps last).hasKind i .lparen = true := by
    rw [hr.hasKind_old h, hi]
    exact hcall.lparen
  have hrparen : (skeleton f ps last).hasKind j .rparen = true := by
    rw [hr.hasKind_old h, hj]
    exact (hlocated.isCall h.read (hlocated.output_mem hs)).rparen
  rw [newPlace_of_not_dot hlparen (by decide), newPlace_of_not_dot hrparen (by decide), File.Between, hout, hr.cut.new]
  cases hchanges : x.changes f with
  | true =>
    obtain ⟨front, p, back, hps, hedit, hstart, hstop⟩ := hr.exists_cut h hx hchanges
    rw [hs, Strategy.cutFrom] at hstart
    rw [hs, Strategy.cutTo, ← hj] at hstop
    have hcut := (strictMono_woven _).injective hstop
    rw [hcut] at hstart
    obtain rfl : j = i + 1 := by
      cases j with
      | zero => cases hstart
      | succ m => rw [(strictMono_woven (oldRun ps)).injective (hi.trans (Nat.succ.inj hstart).symm)]
    have hspan : p.edit.span = ⟨(f.span o.lparen).stop, (f.span o.rparen).start⟩ := by
      rw [hedit, Finding.splice, hs]
      rfl
    obtain ⟨⟨K, g, w, hkept, hg⟩, hnext⟩ :=
      hr.tokens_beside h.read hps (Nat.lt_trans hcall.lt.2.1 hcall.lt.2.2) hcall.lt.2.2 hspan
    obtain ⟨g', Q, w', hback, hg'⟩ := hnext Piece.new
    have hapart := hr.apart
    rw [hps] at hapart
    have hflanks := flanks_run hapart hkept hg hback hg' hcut
    have hnew : p.new = glyphs x.validator.printMarked.toList := by
      rw [Piece.new, hedit, text_of_replaceOutput hs]
    rwa [hnew, ← hps] at hflanks
  | false =>
    have hsettled := (changes_eq_false_iff f x).mp hchanges
    have hij : i < j := (strictMono_woven (oldRun ps)).lt_iff_lt.mp (by rw [hi, hj]; exact hcall.lt.2.1)
    have hsize : j < (keptWords ps last).length := by
      have hlt := File.lt_size_of_hasKind hrparen
      rwa [← File.length_lexemes, lexemes_skeleton] at hlt
    obtain ⟨M, hM⟩ := exists_flanks_glue hij hsize fun front p back hps => hr.not_cut_settled h hx hs hsettled hi hj hps
    have hbetween : f.Between o.lparen o.rparen M := by
      rw [File.Between, hr.cut.old, ← hi, ← hj]
      exact hM Piece.old
    rw [← eq_printMarked h.read (h.tame x hx) hs hsettled hbetween]
    exact hM Piece.new

/-- An inserted call of `output` has the validator between its parentheses. -/
theorem between_inserted (h : Touched f words source xs imported) (hr : Retouched f xs imported out ps last)
    (hout : f'.text = out) (hx : x ∈ xs) (hat : x.strategy.insertsAt? = some (woven (oldRun ps) n))
    (hnew : NewOutput (skeleton f ps last) f' (newPlace ps last) words n o) :
    f'.Between o.lparen o.rparen (glyphs x.validator.printMarked.toList) := by
  obtain ⟨hslides, hrun⟩ := hr.slidRun_inserted h hx hat
  obtain ⟨front, p, back, hps, hedit, -, hstop⟩ := hr.exists_cut h hx (changes_of_insertsAt? hat)
  rw [(Strategy.cuts_of_insertsAt? hat).2] at hstop
  have hcut := (strictMono_woven _).injective hstop
  have hapart := hr.apart
  rw [hps] at hapart
  have hplace : newPlace ps last n = (wordsOf (glue Piece.new front p.kept)).length := by
    rw [newPlace, woven_slide, if_pos hslides, length_wordsOf_glue hapart, hcut, ← hps]
  have hnext : newPlace ps last (n + 1) = newPlace ps last n + 1 + (slidRun ps last (n + 1)).length := woven_succ ..
  rw [hrun] at hnext
  have hglyphs : glyphs f'.text.toList = (glue Piece.new front p.kept ++ [⟨some .dot, ['.']⟩, ⟨some .ident, "output".toList⟩]) ++
      ⟨some .lparen, ['(']⟩ :: (glyphs x.validator.printMarked.toList ++ ⟨some .rparen, [')']⟩ :: glue Piece.new back last) := by
    rw [hout, hr.cut.new, hps, glue_append, Piece.new, hedit, text_of_insertsAt? hat, glyphs_insertedCall (h.tame x hx)]
    simp
  refine ⟨⟨_, _, _, _, _, _, hglyphs, rfl, rfl, ?_⟩, ?_⟩
  · rw [wordsOf_append, List.length_append, ← hplace, hnew.lparen]
    rfl
  · have hrparen := hnew.rparen
    have hlparen := hnew.lparen
    simp [outputTokens, bracketed] at hnext
    rw [printedTokens] at hnext
    omega

section

variable (h : Touched f words source xs imported) (hr : Retouched f xs imported out ps last) (hf' : f'.IsRead) (hout : f'.text = out)

include h hr hf' hout

/-- No call of `output` is put into a chain whose arguments of `output` are replaced. -/
theorem segments_new {x₀ : Finding} (hx : x ∈ xs) (hs : x.strategy = .replaceOutput o)
    (hm : FindingMoved (skeleton f ps last) f (woven (oldRun ps)) words x₀ x)
    (hm' : FindingMoved (skeleton f ps last) f' (newPlace ps last) words x₀ y) :
    y.procedure.segments = x₀.procedure.segments.map (Segment.moved (newPlace ps last)) := by
  refine (hm'.chain.calls (hr.widened_new h hf' hout)).eq_map fun d hd hafter => ?_
  obtain ⟨z, hz, hat⟩ := hr.exists_inserted h hafter
  obtain rfl := h.eq_of_comesTo hx hz ((hr.comesTo_old_iff h hx hm.chain).mpr ⟨d, hd, rfl⟩) hat
  rw [hs] at hat
  cases hat

theorem settled_replaced {x₀ : Finding} (hx : x ∈ xs) (hs : x.strategy = .replaceOutput o)
    (hm : FindingMoved (skeleton f ps last) f (woven (oldRun ps)) words x₀ x)
    (hm' : FindingMoved (skeleton f ps last) f' (newPlace ps last) words x₀ y) : Settled f' y := by
  have ho := strategy_eq_replaceOutput_iff.mp hs
  have hsegments : x.procedure.segments = x₀.procedure.segments.map (Segment.moved (woven (oldRun ps))) :=
    hr.segments_old h hm.chain
  rw [hsegments, lastNamed?_moved] at ho
  obtain ⟨o₀, ho₀, rfl⟩ := Option.map_eq_some_iff.mp ho
  have hnew : lastNamed? y.procedure.segments "output" = some (o₀.moved (newPlace ps last)) := by
    rw [hr.segments_new h hf' hout hx hs hm hm', lastNamed?_moved, ho₀]
    rfl
  have hbetween : f'.Between (o₀.moved (newPlace ps last)).lparen (o₀.moved (newPlace ps last)).rparen
      (glyphs x.validator.printMarked.toList) := hr.between_new h hout hx hs rfl rfl
  refine settled_of_arguments hnew ?_
  rw [hbetween.arguments hf', flatten_glyphs, String.ofList_toList, hm'.validator, hm.validator]

theorem settled_inserted {x₀ : Finding} (hx : x ∈ xs) (hat : x.strategy.insertsAt? = some d)
    (hm : FindingMoved (skeleton f ps last) f (woven (oldRun ps)) words x₀ x)
    (hm' : FindingMoved (skeleton f ps last) f' (newPlace ps last) words x₀ y) : Settled f' y := by
  obtain ⟨n, hn, rfl⟩ := (hr.comesTo_old_iff h hx hm.chain).mp ((h.located x hx).comesTo hat)
  have hafter := hr.afterDot_new h hf' hout hx hat (hr.slidRun_inserted h hx hat).2
  have hcalls := hm'.chain.calls (hr.widened_new h hf' hout)
  obtain ⟨o, ho, hnew⟩ := hcalls.exists_mem hn hafter
  -- No other call of the chain is one of `output`.
  have hlast : lastNamed? y.procedure.segments "output" = some o := by
    cases hlast : lastNamed? y.procedure.segments "output" with
    | none => exact absurd hnew.name (lastNamed?_eq_none_iff.mp hlast o ho)
    | some o' =>
      have ho' := mem_of_lastNamed? hlast
      rcases hcalls.mem ho' with ⟨s, hs, rfl⟩ | ⟨n', hn', hnew'⟩
      · have hmem : s.moved (woven (oldRun ps)) ∈ x.procedure.segments := by
          rw [show x.procedure.segments = _ from hr.segments_old h hm.chain]
          exact List.mem_map_of_mem hs
        cases hnone : lastNamed? x.procedure.segments "output" with
        | some => rw [strategy_eq_replaceOutput_iff.mpr hnone] at hat; cases hat
        | none =>
          obtain ⟨_, _, _, hname, _⟩ := lastNamed?_eq_some_iff.mp hlast
          exact (lastNamed?_eq_none_iff.mp hnone _ hmem hname).elim
      · obtain ⟨z, hz, hat'⟩ := hr.exists_inserted h hnew'.afterDot
        obtain rfl := h.eq_of_comesTo hx hz ((hr.comesTo_old_iff h hx hm.chain).mpr ⟨n', hn', rfl⟩) hat'
        obtain rfl := (strictMono_woven _).injective (Option.some.inj (hat.symm.trans hat'))
        rw [eq_of_lparen_eq (hm'.chain.segments' ▸ ho) (hm'.chain.segments' ▸ ho') (hnew.lparen.trans hnew'.lparen.symm)]
  refine settled_of_arguments hlast ?_
  rw [(hr.between_inserted h hout hx hat hnew).arguments hf', flatten_glyphs, String.ofList_toList, hm'.validator, hm.validator]

/-- Each procedure that a pass deals with is settled in the new file. -/
theorem settled_new {x₀ : Finding} (hx : x ∈ xs) (hm : FindingMoved (skeleton f ps last) f (woven (oldRun ps)) words x₀ x)
    (hm' : FindingMoved (skeleton f ps last) f' (newPlace ps last) words x₀ y) : Settled f' y := by
  cases hat : x.strategy.insertsAt? with
  | some d => exact hr.settled_inserted h hf' hout hx hat hm hm'
  | none =>
    obtain ⟨o, hs⟩ := Strategy.eq_replaceOutput hat
    exact hr.settled_replaced h hf' hout hx hs hm hm'

end

end Retouched

end SchemaSplice.Pass
