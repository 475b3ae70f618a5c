import SchemaSplice.Proofs.Rerun.Retouching
/-!
# The tokens that a pass keeps

The tokens that a pass keeps make up a file of their own. The file before the pass is this one with the replaced arguments put between
the parentheses of their calls, so it is walked, read and indexed like it.
-/

namespace SchemaSplice.Source.File

variable {ws : List (Kind × String)} {leading : Nat → List Token} {f : File} {path : String} {i depth q : Nat}

def ofWords (path : String) (ws : List (Kind × String)) (leading : Nat → List Token) : File where
  path := path
  text := ""
  tokens := (ws.map fun w => ⟨w.1, w.2, 0⟩).toArray
  leading := ((List.range ws.length).map leading).toArray
  partners := partnerTable ws.length (pairs (ws.map (·.1)))

theorem lexemes_ofWords (path : String) (ws : List (Kind × String)) (leading : Nat → List Token) :
    (ofWords path ws leading).lexemes = ws := by
  rw [lexemes, ofWords, List.map_map]
  exact List.map_id ws

theorem bracketed_ofWords (path : String) (ws : List (Kind × String)) (leading : Nat → List Token) :
    (ofWords path ws leading).Bracketed := by
  rw [Bracketed, ofWords, List.size_toArray, List.length_map, List.map_map]
  rfl

theorem comments_ofWords (path : String) (leading : Nat → List Token) (hi : i < ws.length) :
    (ofWords path ws leading).comments i = leading i := by
  rw [comments, ofWords, List.getElem?_toArray, List.getElem?_map, List.getElem?_range hi]
  rfl

theorem exists_gt_of_anglesEnd? (h : f.anglesEnd? depth i = some q) : ∃ j, j + 1 = q ∧ f.hasKind j .gt = true := by
  fun_induction anglesEnd? f depth i with
  | case1 => cases h
  | case2 _ _ _ _ _ ih => exact ih h
  | case3 depth i k hk hlt hgt hle =>
    rw [beq_iff_eq] at hgt
    subst hgt
    exact ⟨i, Option.some.inj h, beq_iff_eq.mpr hk⟩
  | case4 _ _ _ _ _ _ _ ih => exact ih h
  | case5 => cases h
  | case6 _ _ _ _ _ _ _ _ _ _ _ ih => exact ih h
  | case7 => cases h
  | case8 _ _ _ _ _ _ _ _ ih => exact ih h

end SchemaSplice.Source.File

namespace SchemaSplice.Pass

open Source SchemaSplice.Types Annotation Declaration Chain
open File (Widened Woven Seen Enters AfterDot InParens)

variable {f : File} {words : List String} {source out : String} {xs : List Finding} {imported : Option Edit}
  {x y : Finding} {o s t : Segment} {d i n : Nat} {e : Edit} {front back : List Piece} {p : Piece} {ps : List Piece}
  {last : List Glyph}

/-- The run before a kept token that a pass takes out. -/
abbrev oldRun (ps : List Piece) : Nat → List Lexeme := runAt Piece.old ps

abbrev newRun (ps : List Piece) : Nat → List Lexeme := runAt Piece.new ps

/-- The tokens that a pass keeps. -/
def skeleton (f : File) (ps : List Piece) (last : List Glyph) : File :=
  .ofWords f.path (keptWords ps last) fun n => f.comments (woven (oldRun ps) n)

theorem lexemes_skeleton (f : File) (ps : List Piece) (last : List Glyph) : (skeleton f ps last).lexemes = keptWords ps last :=
  File.lexemes_ofWords ..

/-- A call stands before its parenthesis: its name, or the end of its type arguments. -/
theorem before_lparen (h : CallAt f o) : ∃ j, j + 1 = o.lparen ∧ (f.word? j = some o.name ∨ f.hasKind j .gt = true) := by
  have hangles := h.angles
  unfold File.anglesFrom? at hangles
  split at hangles
  · obtain ⟨j, hj, hgt⟩ := File.exists_gt_of_anglesEnd? hangles
    exact ⟨j, hj, Or.inr hgt⟩
  · exact ⟨o.dot + 1, Option.some.inj hangles, Or.inl h.word⟩

theorem terminal_mem_of_terminal? {kind : ProcedureKind} {segments : List Segment} (h : terminal? segments = .ok (kind, t)) :
    t ∈ segments ∧ t.name = kind.name := by
  have hlast : lastNamed? segments kind.name = some t := by
    unfold terminal? at h
    split at h <;> cases h <;> assumption
  obtain ⟨_, _, _, hname, _⟩ := lastNamed?_eq_some_iff.mp hlast
  exact ⟨mem_of_lastNamed? hlast, hname⟩

theorem eq_of_lparen_eq (hs : s ∈ segmentsFrom f i) (ht : t ∈ segmentsFrom f i) (h : s.lparen = t.lparen) : s = t := by
  fun_induction segmentsFrom f i with
  | case1 i hdot name lparen rparen hlt hparens hname ih =>
    have hafter : ∀ u ∈ segmentsFrom f (rparen + 1), lparen < u.lparen := by
      intro u hu
      obtain ⟨-, hdot, hlparen⟩ := matched_of_mem_segmentsFrom u hu
      simp only at hlt
      omega
    rcases List.mem_cons.mp hs with rfl | hs <;> rcases List.mem_cons.mp ht with rfl | ht
    · rfl
    · exact absurd h (Nat.ne_of_lt (hafter t ht))
    · exact absurd h (Nat.ne_of_gt (hafter s hs))
    · exact ih hs ht
  | case2 => cases hs
  | case3 => cases hs

theorem strategy_eq_replaceOutput_iff : x.strategy = .replaceOutput o ↔ lastNamed? x.procedure.segments "output" = some o := by
  rw [Finding.strategy, Strategy.choose]
  cases lastNamed? x.procedure.segments "output" with
  | some => simp
  | none => cases lastNamed? x.procedure.segments "input" <;> simp

theorem name_of_replaceOutput (h : x.strategy = .replaceOutput o) : o.name = "output" := by
  obtain ⟨_, _, _, hname, _⟩ := lastNamed?_eq_some_iff.mp (strategy_eq_replaceOutput_iff.mp h)
  exact hname

namespace Retouched

section

variable (h : Touched f words source xs imported) (hr : Retouched f xs imported out ps last)

include hr

/-- The spot of the edit at a cut, by kept tokens. -/
theorem spot_cutAfter (hps : ps = front ++ p :: back) :
    Spot f xs imported p.edit (runStart (oldRun ps) (cutAfter front p)) (woven (oldRun ps) (cutAfter front p)) := by
  have hspot := hr.spot front p back hps
  have hapart := hr.apart
  rw [hps] at hapart
  rw [length_wordsOf_old, length_wordsOf_glue hapart] at hspot
  have hrun := runAt_cutAfter hapart Piece.old
  rw [hps, woven, oldRun, hrun]
  exact hspot

theorem exists_spot {run : Piece → List Glyph} (hne : runAt run ps n ≠ []) :
    ∃ front p back, ps = front ++ p :: back ∧ n = cutAfter front p ∧ runAt run ps n = wordsOf (run p) ∧
      Spot f xs imported p.edit (runStart (oldRun ps) n) (woven (oldRun ps) n) := by
  obtain ⟨front, p, back, hps, rfl⟩ := exists_cutAfter hne
  have hapart := hr.apart
  rw [hps] at hapart
  refine ⟨front, p, back, hps, rfl, ?_, hr.spot_cutAfter hps⟩
  rw [hps]
  exact runAt_cutAfter hapart run

/-- A run that is taken out stands between the parentheses of the output call of a finding. -/
theorem exists_replaced (hne : oldRun ps n ≠ []) :
    ∃ i x o, n = i + 1 ∧ x ∈ xs ∧ x.changes f = true ∧ x.strategy = .replaceOutput o ∧ woven (oldRun ps) i = o.lparen ∧
      woven (oldRun ps) n = o.rparen := by
  obtain ⟨front, p, back, hps, -, -, hspot⟩ := hr.exists_spot hne
  have hlength : woven (oldRun ps) n = runStart (oldRun ps) n + (oldRun ps n).length := rfl
  have hpos := List.length_pos_iff.mpr hne
  generalize ha : runStart (oldRun ps) n = a, hb : woven (oldRun ps) n = b at hspot hlength
  cases hspot with
  | @replaced x o hx hchanges hs =>
    cases n with
    | zero => cases ha
    | succ i => exact ⟨i, x, o, rfl, hx, hchanges, hs, Nat.succ.inj ha, rfl⟩
  | inserted => omega
  | added => omega

/-- A token that is taken out stands between the parentheses of the output call of a finding. -/
theorem exists_holds {j : Nat} (hj : j ∉ Set.range (woven (oldRun ps))) :
    ∃ x o, x ∈ xs ∧ x.changes f = true ∧ x.strategy = .replaceOutput o ∧ o.Holds j := by
  rcases exists_woven_or_run (oldRun ps) j with ⟨n, rfl⟩ | ⟨n, t, ht, rfl⟩
  · exact absurd ⟨n, rfl⟩ hj
  obtain ⟨i, x, o, rfl, hx, hchanges, hs, hlparen, hrparen⟩ := hr.exists_replaced (List.ne_nil_of_length_pos (Nat.zero_lt_of_lt ht))
  refine ⟨x, o, hx, hchanges, hs, ?_, ?_⟩
  · rw [runStart_succ, hlparen]
    omega
  · rw [← hrparen, woven]
    omega

include h

theorem lexemes_old : f.lexemes = weave (oldRun ps) (skeleton f ps last).lexemes := by
  rw [h.read.lexemes_eq, hr.cut.old, wordsOf_glue, lexemes_skeleton]

theorem kind?_skeleton_of_lexemes (i : Nat) : (skeleton f ps last).kind? i = f.kind? (woven (oldRun ps) i) := by
  rw [File.kind?_eq_lexeme, File.kind?_eq_lexeme, hr.lexemes_old h, getElem?_weave]

/-- Brackets are matched around a run that is taken out. -/
theorem enclosed_old (hx : x ∈ xs) (hs : x.strategy = .replaceOutput o) (hi : woven (oldRun ps) i = o.lparen)
    (hn : woven (oldRun ps) (i + 1) = o.rparen) (hle : i + 1 ≤ (skeleton f ps last).lexemes.length) :
    Enclosed ((oldRun ps (i + 1)).map (·.1)) := by
  have hmem := (h.located x hx).output_mem hs
  have hcall := (h.located x hx).callAt hmem
  have hmatched : f.Matched o.lparen o.rparen := Option.map_eq_some_iff.mpr hcall.matched
  have hrparen := h.read.rparen_of_closer? hcall.lparen hcall.matched.choose_spec.1
  rw [hcall.matched.choose_spec.2] at hrparen
  obtain ⟨A, B, hsplit, hlength, -⟩ := weave_split (oldRun ps) hle
  rw [← hr.lexemes_old h] at hsplit
  rw [runStart_succ, hi] at hlength
  have hrun : o.rparen = o.lparen + 1 + (oldRun ps (i + 1)).length := by rw [← hn, woven_succ, hi]
  -- The tokens around the run are the parentheses.
  obtain ⟨A, a, rfl⟩ : ∃ A' a, A = A' ++ [a] := by
    rcases List.eq_nil_or_concat A with rfl | ⟨A', a, rfl⟩
    · cases hlength
    · exact ⟨A', a, List.concat_eq_append⟩
  have hA : A.length = o.lparen := by simpa using hlength
  have ha : a.1 = .lparen := by
    have hkind := hcall.lparen
    rw [File.hasKind, File.kind?_eq_lexeme, hsplit, ← hA, List.append_assoc, List.getElem?_append_right (Nat.le_refl _),
      Nat.sub_self] at hkind
    simpa using hkind
  obtain ⟨b, B, rfl, hb⟩ : ∃ b B', B = b :: B' ∧ b.1 = .rparen := by
    rw [File.hasKind, File.kind?_eq_lexeme, hsplit, List.getElem?_append_right (by simp; omega),
      List.getElem?_append_right (by simp; omega), show o.rparen - (A ++ [a]).length - (oldRun ps (i + 1)).length = 0 by simp; omega]
      at hrparen
    cases B with
    | nil => cases hrparen
    | cons b B => exact ⟨b, B, rfl, by simpa using hrparen⟩
  rw [enclosed_iff (A.map (·.1)) (B.map (·.1)), List.length_map, List.length_map, hA, ← hrun]
  have hkinds : f.tokens.toList.map Token.kind =
      A.map (·.1) ++ .lparen :: ((oldRun ps (i + 1)).map (·.1) ++ .rparen :: B.map (·.1)) := by
    rw [← File.lexemes_map_kind, hsplit]
    simp [ha, hb]
  rw [← hkinds]
  exact h.read.matched_iff.mp hmatched

/-- The file is its kept tokens with the replaced arguments put in. -/
theorem woven_old : Woven (skeleton f ps last) f (oldRun ps) where
  bracketed := File.bracketed_ofWords ..
  bracketed' := h.read.bracketed
  lexemes := hr.lexemes_old h
  fits := by
    intro n hn
    by_cases hne : oldRun ps n = []
    · rw [hne]
      exact .balanced .nil
    obtain ⟨i, x, o, rfl, hx, -, hs, hi, hrparen⟩ := hr.exists_replaced hne
    have hmem := (h.located x hx).output_mem hs
    have hcall := (h.located x hx).isCall h.read hmem
    have hkind : ∀ {j : Nat} {k : Kind}, f.hasKind (woven (oldRun ps) j) k = true →
        ((skeleton f ps last).lexemes.map (·.1))[j]? = some k := by
      intro j k hk
      rw [File.hasKind, beq_iff_eq, ← hr.kind?_skeleton_of_lexemes h, File.kind?_eq_lexeme, ← List.getElem?_map] at hk
      exact hk
    refine .enclosed i rfl (hkind ?_) (hkind ?_) (hr.enclosed_old h hx hs hi hrparen hn)
    · rw [hi]
      exact hcall.lparen
    · rw [hrparen]
      exact hcall.rparen

theorem widened_old : Widened (skeleton f ps last) f (woven (oldRun ps)) := (hr.woven_old h).widened

/-! ### Walking the kept tokens -/

theorem hasKind_old (i : Nat) (k : Kind) : (skeleton f ps last).hasKind i k = f.hasKind (woven (oldRun ps) i) k :=
  ((hr.widened_old h).hasKind_eq i k).symm

theorem word?_old (i : Nat) : (skeleton f ps last).word? i = f.word? (woven (oldRun ps) i) := ((hr.widened_old h).word?_eq i).symm

/-- No run is taken out behind a token, unless it is an opening parenthesis. -/
theorem oldRun_of_hasKind {k : Kind} (hi : (skeleton f ps last).hasKind i k = true) (hk : k ≠ .lparen) : oldRun ps (i + 1) = [] := by
  by_contra hne
  obtain ⟨i, x, o, hn, hx, -, hs, hlparen, -⟩ := hr.exists_replaced hne
  cases hn
  have hmem := (h.located x hx).output_mem hs
  have hkind := ((h.located x hx).callAt hmem).lparen
  rw [hr.hasKind_old h, hlparen] at hi
  exact hk (File.hasKind_unique hi hkind)

/-- No run is taken out before a token, unless it is a closing parenthesis. -/
theorem oldRun_of_hasKind' {k : Kind} (hi : (skeleton f ps last).hasKind i k = true) (hk : k ≠ .rparen) : oldRun ps i = [] := by
  by_contra hne
  obtain ⟨j, x, o, rfl, hx, -, hs, -, hrparen⟩ := hr.exists_replaced hne
  have hmem := (h.located x hx).output_mem hs
  have hkind := ((h.located x hx).isCall h.read hmem).rparen
  rw [hr.hasKind_old h, hrparen] at hi
  exact hk (File.hasKind_unique hi hkind)

/-- The kept parentheses of a replaced call stand side by side. -/
theorem closer_old (hx : x ∈ xs) (hs : x.strategy = .replaceOutput o) (hi : woven (oldRun ps) i = o.lparen)
    (hi' : woven (oldRun ps) (i + 1) = o.rparen) : ((skeleton f ps last).closer? i).map (·.1) = some (i + 1) := by
  obtain ⟨c, hc, hco⟩ := ((h.located x hx).callAt ((h.located x hx).output_mem hs)).matched
  have hclosed := (hr.widened_old h).map_closer? i
  rw [hi, hc, Option.map_some, hco, ← hi'] at hclosed
  obtain ⟨c', hc', hplace⟩ := Option.map_eq_some_iff.mp hclosed.symm
  exact Option.map_eq_some_iff.mpr ⟨c', hc', (hr.widened_old h).mono.injective hplace⟩

theorem inParens_old {place : Nat → Nat} (hx : x ∈ xs) (hs : x.strategy = .replaceOutput o) (hi : woven (oldRun ps) i = o.lparen)
    (hi' : woven (oldRun ps) (i + 1) = o.rparen) (hgap : place (i + 1) ≠ place i + 1) :
    InParens (skeleton f ps last) place i := by
  have hcall := (h.located x hx).callAt ((h.located x hx).output_mem hs)
  have hkind : (skeleton f ps last).hasKind i .lparen = true := by
    rw [hr.hasKind_old h, hi]
    exact hcall.lparen
  refine ⟨hgap, hkind, hr.closer_old h hx hs hi hi', ?_⟩
  obtain ⟨t, ht, hbefore⟩ := before_lparen hcall
  rw [name_of_replaceOutput hs] at hbefore
  have hrun := hr.oldRun_of_hasKind' h hkind (by decide)
  cases i with
  | zero =>
    rw [woven, hrun] at hi
    cases ht.trans hi.symm
  | succ i =>
    rw [woven_succ_of_nil hrun, ← ht] at hi
    rw [← Nat.succ.inj hi, ← hr.word?_old h, ← hr.hasKind_old h] at hbefore
    exact ⟨i, rfl, hbefore⟩

/-- The only runs that are taken out are the arguments of calls. -/
theorem seen_old (i : Nat) : Seen (skeleton f ps last) f (woven (oldRun ps)) words i := by
  intro j _
  by_cases hne : oldRun ps (j + 1) = []
  · exact Or.inl (woven_succ_of_nil hne)
  obtain ⟨_, x, o, hj, hx, -, hs, hlparen, hrparen⟩ := hr.exists_replaced hne
  cases hj
  refine Or.inr (Or.inr (hr.inParens_old h hx hs hlparen hrparen ?_))
  have := List.length_pos_iff.mpr hne
  rw [woven_succ]
  omega

theorem not_afterDot_old (i : Nat) : ¬AfterDot (skeleton f ps last) f (woven (oldRun ps)) words i := by
  intro hdot
  have hrun := hr.oldRun_of_hasKind h hdot.dot (by decide)
  obtain ⟨c, hc, -, hnext⟩ := hdot.dot'
  obtain ⟨d, -, hd⟩ := Option.map_eq_some_iff.mp hc
  have := d.2
  have := woven_succ_of_nil hrun
  omega

theorem mem_chains_old {c : Nat × List Segment} (hc : c ∈ chains (skeleton f ps last) words) :
    (woven (oldRun ps) c.1, c.2.map (Segment.moved (woven (oldRun ps)))) ∈ chains f words := by
  obtain ⟨⟨w, hw, hword⟩, hne, hsegments⟩ := chainFrom?_eq_some_iff.mp (mem_chains_iff.mp hc)
  have hcalls := segmentsFrom_root (hr.widened_old h) (hr.seen_old h c.1) (hasKind_of_word? hword)
  have hmap := hcalls.eq_map fun d _ => hr.not_afterDot_old h d
  have hsegments : c.2 = segmentsFrom (skeleton f ps last) (c.1 + 1) := congrArg Prod.snd hsegments
  rw [hsegments, ← hmap]
  refine mem_chains_iff.mpr (chainFrom?_eq_some_iff.mpr ⟨⟨w, hw, ?_⟩, ?_, rfl⟩)
  · rw [← hr.word?_old h]
    exact hword
  · rwa [hmap, ne_eq, List.map_eq_nil_iff]

/-- The output call of a finding ends no procedure. -/
theorem terminal_ne_old {c : Nat × List Segment} (hc : c ∈ chains (skeleton f ps last) words) {kind : ProcedureKind}
    (ht : terminal? c.2 = .ok (kind, t)) (hx : x ∈ xs) (hs : x.strategy = .replaceOutput o) :
    woven (oldRun ps) t.lparen ≠ o.lparen := by
  intro hlparen
  have hmem := (h.located x hx).output_mem hs
  have hchain := hr.mem_chains_old h hc
  have hsegments := segments_of_mem_chains hchain
  have hmoved := List.mem_map_of_mem (f := Segment.moved (woven (oldRun ps))) (terminal_mem_of_terminal? ht).1
  have hroot : f.hasKind (woven (oldRun ps) c.1) .ident = true := (isCall_of_mem_chains h.read hchain).1
  have hfinding := h.mem_chains hx
  have hsegments' := (h.located x hx).segments
  simp only at hsegments
  rcases Nat.lt_trichotomy (woven (oldRun ps) c.1) x.procedure.root with hlt | heq | hgt
  · rw [hsegments] at hmoved
    rw [hsegments'] at hmem
    obtain ⟨s, hs, hover⟩ := overruns_of_shared h.read (h.located x hx).root hlt hmoved hmem hlparen
    exact h.unentangled _ hfinding s (hsegments' ▸ hs) hover
  · rw [hsegments, heq, ← hsegments'] at hmoved
    have hsame := eq_of_lparen_eq (hsegments' ▸ hmoved) (hsegments' ▸ hmem) hlparen
    have hname : t.name = "output" := (congrArg Segment.name hsame).trans (name_of_replaceOutput hs)
    have := (terminal_mem_of_terminal? ht).2
    rw [hname] at this
    cases kind <;> exact absurd this (by decide)
  · rw [hsegments] at hmoved
    rw [hsegments'] at hmem
    obtain ⟨s, hs, hover⟩ := overruns_of_shared h.read hroot hgt hmem hmoved hlparen.symm
    exact h.unentangled _ hchain s (hsegments ▸ hs) hover

theorem comments_skeleton (i : Nat) : (skeleton f ps last).comments i = f.comments (woven (oldRun ps) i) := by
  rcases Nat.lt_or_ge i (keptWords ps last).length with hlt | hge
  · exact File.comments_ofWords _ _ hlt
  · have hsize : f.size ≤ woven (oldRun ps) i := by
      rw [← f.length_lexemes, hr.lexemes_old h, length_weave, lexemes_skeleton]
      exact (strictMono_woven _).monotone hge
    rw [h.read.comments_eq_nil hsize, File.comments, skeleton, File.ofWords, List.getElem?_toArray, List.getElem?_map,
      List.getElem?_eq_none (by rwa [List.length_range])]
    rfl

/-- The chains and the comments of the file are those of its kept tokens. -/
theorem undisturbed_old : Undisturbed (skeleton f ps last) f (woven (oldRun ps)) words where
  widened := hr.widened_old h
  seen i _ _ _ := Or.inl (hr.seen_old h i)
  runs := by
    intro j hj c hc
    obtain ⟨⟨w, hw, hword⟩, -⟩ := chainFrom?_eq_some_iff.mp (Option.mem_def.mp hc)
    obtain ⟨x, o, hx, hchanges, hs, hholds⟩ := hr.exists_holds hj
    exact absurd hw (h.arguments x hx hchanges o hs j w hholds hword).1
  terminals := by
    intro c hc kind t ht hparens
    obtain ⟨_, x, o, hj, hx, -, hs, hlparen, -⟩ := hr.exists_replaced fun hrun => hparens.gap (woven_succ_of_nil hrun)
    cases hj
    exact hr.terminal_ne_old h hc ht hx hs hlparen
  ignored i _ _ := by rw [isIgnored, isIgnored, hr.comments_skeleton h]

theorem reindexed_old : Reindexed (skeleton f ps last) f (woven (oldRun ps)) where
  widened := hr.widened_old h
  next i _ hw := woven_succ_of_nil (hr.oldRun_of_hasKind h (hasKind_of_word? hw) (by decide))
  afterDot := by
    intro i w hw
    have hrun := hr.oldRun_of_hasKind' h (hasKind_of_word? hw) (by decide)
    cases i with
    | zero =>
      rw [woven, hrun]
      rfl
    | succ i =>
      rw [woven_succ_of_nil hrun, File.afterDot, File.afterDot, hr.hasKind_old h, hr.hasKind_old h]
  runs := by
    intro j hj w hw hword
    obtain ⟨x, o, hx, hchanges, hs, hholds⟩ := hr.exists_holds hj
    exact absurd hw (h.arguments x hx hchanges o hs j w hholds hword).2

end

end Retouched

end SchemaSplice.Pass
