import SchemaSplice.Proofs.Rerun.Glyphs
import SchemaSplice.Proofs.Rerun.Weaving
/-!
# Pieces of an edited text

Edits cut a text into pieces that are kept and pieces that are replaced. The kept pieces have the same tokens and blanks in both texts. So
both are the tokens that are kept with runs of tokens between them: those that are replaced, and those of the edits.
-/

namespace SchemaSplice.Source

/-- A kept part of a text with the part that an edit replaces after it. -/
structure Piece where
  kept : List Glyph
  old : List Glyph
  edit : Edit

def Piece.new (p : Piece) : List Glyph := glyphs p.edit.text.toList

/-- The kept parts with runs between them. -/
def glue (run : Piece → List Glyph) : List Piece → List Glyph → List Glyph
  | [], last => last
  | p :: ps, last => p.kept ++ (run p ++ glue run ps last)

def keptWords (ps : List Piece) (last : List Glyph) : List (Kind × String) := wordsOf (glue (fun _ => []) ps last)

/-- The run of tokens before kept token `n`. -/
def runAt (run : Piece → List Glyph) : List Piece → Nat → List (Kind × String)
  | [], _ => []
  | p :: ps, n =>
    if n < (wordsOf p.kept).length then []
    else (if n - (wordsOf p.kept).length = 0 then wordsOf (run p) else []) ++ runAt run ps (n - (wordsOf p.kept).length)

def Apart (ps : List Piece) : Prop := ∀ p ∈ ps.tail, wordsOf p.kept ≠ []

/-- The kept token before which the edit after some pieces stands. -/
def cutAfter (front : List Piece) (p : Piece) : Nat := (keptWords front p.kept).length

section

variable {run : Piece → List Glyph} {ps front back : List Piece} {p q : Piece} {last : List Glyph} {n m i j : Nat}

theorem glue_append (run : Piece → List Glyph) (front : List Piece) (p : Piece) (back : List Piece) (last : List Glyph) :
    glue run (front ++ p :: back) last = glue run front p.kept ++ (run p ++ glue run back last) := by
  induction front with
  | nil => rfl
  | cons q front ih =>
    rw [List.cons_append, glue, ih, glue]
    simp only [List.append_assoc]

theorem Apart.tail (h : Apart (p :: ps)) : Apart ps := fun q hq => h q (List.mem_of_mem_tail hq)

theorem Apart.of_append (h : Apart (q :: (front ++ p :: back))) : wordsOf p.kept ≠ [] :=
  h p (List.mem_append_right _ List.mem_cons_self)

/-! ### Runs between the kept tokens -/

theorem glue_last (run : Piece → List Glyph) (front : List Piece) (last : List Glyph) :
    glue run front last = glue run front [] ++ last := by
  induction front with
  | nil => rfl
  | cons q front ih => rw [glue, glue, ih, List.append_assoc, List.append_assoc]

/-- A last glyph before an edit is a kept one. -/
theorem Apart.exists_concat (h : Apart (front ++ p :: back)) {P : List Glyph} {g : Glyph} (hg : glue run front p.kept = P ++ [g]) :
    ∃ K, p.kept = K ++ [g] := by
  have hkept : front = [] ∨ p.kept ≠ [] := by
    cases front with
    | nil => exact Or.inl rfl
    | cons q front => exact Or.inr fun hnil => Apart.of_append h (by rw [hnil]; rfl)
  rcases List.eq_nil_or_concat p.kept with hnil | ⟨K, g', hK⟩
  · obtain rfl := hkept.resolve_right (not_not_intro hnil)
    exact ⟨P, hg⟩
  · rw [List.concat_eq_append] at hK
    rw [glue_last, hK, ← List.append_assoc] at hg
    exact ⟨K, by rw [hK, (List.append_inj' hg rfl).2]⟩

/-- A first glyph behind an edit is a kept one. -/
theorem Apart.exists_cons (h : Apart (front ++ p :: back)) {Q : List Glyph} {g : Glyph} (hg : glue run back last = g :: Q)
    (run' : Piece → List Glyph) : ∃ Q', glue run' back last = g :: Q' := by
  cases back with
  | nil => exact ⟨Q, hg⟩
  | cons q back =>
    have hkept : q.kept ≠ [] := fun hnil => h q (by cases front <;> simp) (by rw [hnil]; rfl)
    obtain ⟨g', K, hK⟩ := List.exists_cons_of_ne_nil hkept
    rw [glue, hK, List.cons_append, List.cons.injEq] at hg
    rw [glue, hK, hg.1]
    exact ⟨_, rfl⟩

theorem runAt_of_lt (h : n < (wordsOf p.kept).length) : runAt run (p :: ps) n = [] := by rw [runAt, if_pos h]

theorem runAt_add (run : Piece → List Glyph) (p : Piece) (ps : List Piece) (n : Nat) :
    runAt run (p :: ps) ((wordsOf p.kept).length + n) = (if n = 0 then wordsOf (run p) else []) ++ runAt run ps n := by
  rw [runAt, if_neg (by omega), Nat.add_sub_cancel_left]

theorem wordsOf_glue (run : Piece → List Glyph) (ps : List Piece) (last : List Glyph) :
    wordsOf (glue run ps last) = weave (runAt run ps) (keptWords ps last) := by
  induction ps with
  | nil =>
    have hnone : ∀ l : List (Kind × String), weave (fun _ => []) l = l := by
      intro l
      induction l with
      | nil => rfl
      | cons x l ih => rw [weave, ih]; rfl
    exact (hnone _).symm
  | cons p ps ih =>
    have hkept : keptWords (p :: ps) last = wordsOf p.kept ++ keptWords ps last := by
      rw [keptWords, glue, wordsOf_append]
      rfl
    rw [glue, wordsOf_append, wordsOf_append, ih, hkept, weave_append _ _ _ fun n hn => runAt_of_lt hn,
      ← weave_prefix]
    congr 2
    funext n
    exact (runAt_add run p ps n).symm

theorem cutAfter_cons (q : Piece) (front : List Piece) (p : Piece) :
    cutAfter (q :: front) p = (wordsOf q.kept).length + cutAfter front p := by
  rw [cutAfter, keptWords, glue, wordsOf_append, List.length_append]
  rfl

theorem cutAfter_nil (p : Piece) : cutAfter [] p = (wordsOf p.kept).length := rfl

/-- Behind the first edit the cuts are behind a kept token. -/
theorem Apart.cutAfter_pos (h : Apart (q :: (front ++ p :: back))) : 0 < cutAfter front p := by
  cases front with
  | nil =>
    rw [cutAfter_nil]
    exact List.length_pos_iff.mpr h.of_append
  | cons r front =>
    rw [cutAfter_cons]
    have := List.length_pos_iff.mpr (h r List.mem_cons_self)
    omega

theorem Apart.runAt_zero (h : Apart (p :: ps)) (run : Piece → List Glyph) : runAt run ps 0 = [] := by
  cases ps with
  | nil => rfl
  | cons q ps => exact runAt_of_lt (List.length_pos_iff.mpr (h q List.mem_cons_self))

/-- The run at a cut is that of its edit. -/
theorem runAt_cutAfter (h : Apart (front ++ p :: back)) (run : Piece → List Glyph) :
    runAt run (front ++ p :: back) (cutAfter front p) = wordsOf (run p) := by
  induction front with
  | nil =>
    have hadd := runAt_add run p back 0
    rw [if_pos rfl, Apart.runAt_zero h, List.append_nil] at hadd
    exact hadd
  | cons q front ih =>
    have hpos := Apart.cutAfter_pos h
    rw [cutAfter_cons, List.cons_append, runAt_add, if_neg (by omega), List.nil_append]
    exact ih h.tail

/-- Runs are at cuts only. -/
theorem exists_cutAfter (h : runAt run ps n ≠ []) : ∃ front p back, ps = front ++ p :: back ∧ n = cutAfter front p := by
  induction ps generalizing n with
  | nil => exact absurd rfl h
  | cons p ps ih =>
    rcases Nat.lt_or_ge n (wordsOf p.kept).length with hlt | hge
    · exact absurd (runAt_of_lt hlt) h
    obtain ⟨m, rfl⟩ := Nat.exists_eq_add_of_le hge
    rcases Nat.eq_zero_or_pos m with rfl | hpos
    · exact ⟨[], p, ps, rfl, rfl⟩
    · rw [runAt_add, if_neg (by omega), List.nil_append] at h
      obtain ⟨front, q, back, rfl, rfl⟩ := ih h
      exact ⟨p :: front, q, back, rfl, (cutAfter_cons p front q).symm⟩

/-! ### Places -/

theorem woven_of_lt (h : n < (wordsOf p.kept).length) : woven (runAt run (p :: ps)) n = n := by
  induction n with
  | zero => rw [woven, runAt_of_lt h]; rfl
  | succ n ih => rw [woven_succ, runAt_of_lt h, ih (by omega), List.length_nil]

theorem woven_add (run : Piece → List Glyph) (p : Piece) (ps : List Piece) (n : Nat) :
    woven (runAt run (p :: ps)) ((wordsOf p.kept).length + n) =
      (wordsOf p.kept).length + (wordsOf (run p)).length + woven (runAt run ps) n := by
  induction n with
  | zero =>
    have hstart : runStart (runAt run (p :: ps)) (wordsOf p.kept).length = (wordsOf p.kept).length := by
      cases hlength : (wordsOf p.kept).length with
      | zero => rfl
      | succ k => rw [runStart_succ, woven_of_lt (by omega)]
    rw [Nat.add_zero, woven, hstart, ← Nat.add_zero (wordsOf p.kept).length, runAt_add, if_pos rfl, List.length_append]
    simp only [woven, runStart]
    omega
  | succ n ih =>
    rw [← Nat.add_assoc, woven_succ, ih, woven_succ, Nat.add_assoc _ n 1, runAt_add, if_neg (Nat.succ_ne_zero n),
      List.nil_append]
    omega

/-- How many tokens there are before an edit. -/
theorem length_wordsOf_glue (h : Apart (front ++ p :: back)) (run : Piece → List Glyph) :
    (wordsOf (glue run front p.kept)).length = runStart (runAt run (front ++ p :: back)) (cutAfter front p) := by
  have hplace : woven (runAt run (front ++ p :: back)) (cutAfter front p) =
      (wordsOf (glue run front p.kept)).length + (wordsOf (run p)).length := by
    induction front with
    | nil =>
      have hadd := woven_add run p back 0
      have hzero : woven (runAt run back) 0 = 0 := by
        rw [woven, Apart.runAt_zero h]
        rfl
      rw [Nat.add_zero, hzero, Nat.add_zero] at hadd
      exact hadd
    | cons q front ih =>
      rw [cutAfter_cons, List.cons_append, woven_add, ih h.tail, glue, wordsOf_append, wordsOf_append, List.length_append,
        List.length_append]
      omega
  rw [woven, runAt_cutAfter h] at hplace
  omega

/-! ### What stands between kept tokens -/

/-- What stands between kept tokens without an edit between them is the same whatever the runs are. -/
theorem exists_flanks_glue (hij : i < j) (hj : j < (keptWords ps last).length)
    (hnone : ∀ front p back, ps = front ++ p :: back → ¬(i < cutAfter front p ∧ cutAfter front p ≤ j)) :
    ∃ M, ∀ run : Piece → List Glyph, Flanks (glue run ps last) (woven (runAt run ps) i) (woven (runAt run ps) j) M := by
  induction ps generalizing i j with
  | nil =>
    have hid : ∀ n, woven (fun _ => ([] : List (Kind × String))) n = n := by
      intro n
      induction n with
      | zero => rfl
      | succ n ih => rw [woven_succ, ih, List.length_nil]
    obtain ⟨M, hM⟩ := exists_flanks hij hj
    refine ⟨M, fun run => ?_⟩
    have hgap : runAt run [] = fun _ => [] := rfl
    rw [hgap, hid, hid]
    exact hM
  | cons p ps ih =>
    rcases Nat.lt_or_ge j (wordsOf p.kept).length with hlt | hge
    · obtain ⟨M, hM⟩ := exists_flanks hij hlt
      refine ⟨M, fun run => ?_⟩
      rw [woven_of_lt hlt, woven_of_lt (Nat.lt_trans hij hlt)]
      exact hM.append_right _
    · have hcut : (wordsOf p.kept).length ≤ i := by
        have := hnone [] p ps rfl
        rw [cutAfter_nil] at this
        omega
      obtain ⟨i, rfl⟩ := Nat.exists_eq_add_of_le hcut
      obtain ⟨j, rfl⟩ := Nat.exists_eq_add_of_le hge
      rw [keptWords, glue, wordsOf_append, List.length_append] at hj
      obtain ⟨M, hM⟩ := ih (i := i) (j := j) (by omega) (by exact Nat.lt_of_add_lt_add_left hj) fun front q back hps => by
        have := hnone (p :: front) q back (by rw [hps]; rfl)
        rw [cutAfter_cons] at this
        omega
      refine ⟨M, fun run => ?_⟩
      rw [woven_add, woven_add, glue, ← List.append_assoc]
      have happend := (hM run).append_left (p.kept ++ run p)
      rwa [wordsOf_append, List.length_append] at happend

/-- What an edit puts in between two tokens that it reaches. -/
theorem flanks_run (h : Apart (front ++ p :: back)) {K Q : List Glyph} {g g' : Glyph} {w w' : Kind × String}
    (hkept : p.kept = K ++ [g]) (hg : wordsOf [g] = [w]) (hnext : glue run back last = g' :: Q) (hg' : wordsOf [g'] = [w'])
    (hn : cutAfter front p = n + 1) :
    Flanks (glue run (front ++ p :: back) last) (woven (runAt run (front ++ p :: back)) n)
      (woven (runAt run (front ++ p :: back)) (n + 1)) (run p) := by
  have hlength := length_wordsOf_glue h run
  have hrun := runAt_cutAfter h run
  have hfront : ∃ K', glue run front p.kept = K' ++ [g] := by
    rw [hkept]
    clear hrun hlength hn h
    induction front with
    | nil => exact ⟨K, rfl⟩
    | cons q front ih =>
      obtain ⟨K', hK'⟩ := ih
      exact ⟨q.kept ++ (run q ++ K'), by rw [glue, hK']; simp⟩
  obtain ⟨K', hK'⟩ := hfront
  rw [hK', wordsOf_append, hg, List.length_append, List.length_singleton, hn, runStart_succ, Nat.succ.injEq] at hlength
  rw [hn] at hrun
  refine ⟨⟨K', g, g', Q, w, w', ?_, hg, hg', hlength⟩, ?_⟩
  · rw [glue_append, hK', hnext, List.append_assoc, List.singleton_append]
  · rw [woven_succ, hrun]

end

/-! ### Pieces of a text -/

/-- A text and the edited one are cut into the same kept pieces; `start` bytes stand before them. -/
structure CutUp (start : Nat) (text out : List Char) (edits : List Edit) (ps : List Piece) (last : List Glyph) : Prop where
  edits : ps.map Piece.edit = edits
  old : glyphs text = glue Piece.old ps last
  new : glyphs out = glue Piece.new ps last
  span : ∀ front p back, ps = front ++ p :: back →
    p.edit.span = ⟨start + Text.byteCount (flatten (glue Piece.old front p.kept)),
      start + Text.byteCount (flatten (glue Piece.old front p.kept ++ p.old))⟩

theorem exists_cutUp_of_copyFrom {text : String} {edits : List Edit} (hedits : ∀ e ∈ edits, Anchored text e)
    {x rest : List Char} {front : List (Kind × String)} (htext : text.toList = x ++ rest)
    (hstop : Scans text.toList front rest) {out : List Char}
    (h : copyFrom text.toList (Text.byteCount x) edits = some out) :
    ∃ ps last, CutUp (Text.byteCount x) rest out edits ps last := by
  induction edits generalizing x rest front out with
  | nil =>
    unfold copyFrom at h
    rw [htext, sliceChars?_rest, Option.some.injEq] at h
    subst h
    exact ⟨[], glyphs rest, rfl, rfl, rfl, fun _ _ _ hps => by simp at hps⟩
  | cons e es ih =>
    obtain ⟨kept, tail, hkept, htail, rfl⟩ := copyFrom_cons_eq_some h
    obtain ⟨hself, xe, d, reste, before, inside, hcut, hstart, hend, hbefore, hinside, hseam⟩ :=
      hedits e List.mem_cons_self
    rw [htext] at hkept
    obtain ⟨rest', rfl, hcount⟩ := sliceChars?_eq_some hkept
    -- The kept piece ends where the edit begins.
    obtain ⟨rfl, rfl⟩ : x ++ kept = xe ∧ rest' = d ++ reste := by
      apply append_inj_of_byteCount
      · rw [List.append_assoc, ← htext, hcut]
      · rw [hcount, hstart]
    obtain ⟨vs, hpiece, rfl⟩ := hstop.between hbefore
    have hafter : text.toList = (x ++ kept ++ d) ++ reste := by
      rw [hcut]
      simp only [List.append_assoc]
    rw [← hend] at htail
    obtain ⟨ps, last, hps⟩ := ih (fun e' he' => hedits e' (List.mem_cons_of_mem _ he')) hafter (hbefore.trans hinside) htail
    have hpiece' : Scans (kept ++ (e.text.toList ++ tail)) vs (e.text.toList ++ tail) := by
      apply hpiece.replace
      intro t ht
      apply hseam
      rw [List.getLast?_append, ht]
      rfl
    obtain ⟨gs, hgs, hgs', rfl, -⟩ := glyphs_congr hpiece hpiece'
    obtain ⟨ds, hds, rfl, -⟩ := exists_glyphs hinside
    refine ⟨⟨gs, ds, e⟩ :: ps, last, ?_, ?_, ?_, ?_⟩
    · rw [List.map_cons, hps.edits]
    · rw [hgs, hds, hps.old]
      rfl
    · rw [List.append_assoc, hgs', glyphs_append hself, hps.new]
      rfl
    · intro front p back hsplit
      cases front with
      | nil =>
        obtain ⟨rfl, -⟩ := List.cons.inj hsplit
        simp only [glue, flatten_append, Text.byteCount_append] at hstart hend ⊢
        rw [← Nat.add_assoc, hend, hstart]
      | cons q front =>
        obtain ⟨rfl, rfl⟩ := List.cons.inj hsplit
        rw [hps.span front p back rfl]
        simp only [glue, flatten_append, Text.byteCount_append, Nat.add_assoc]

/-- Anchored edits cut a text up. -/
theorem exists_cutUp {text out : String} {edits : List Edit} (hedits : ∀ e ∈ edits, Anchored text e)
    (h : applyEdits text edits = .ok out) :
    ∃ ps last, CutUp 0 text.toList out.toList (edits.mergeSort Edit.le) ps last := by
  unfold applyEdits at h
  simp only at h
  split at h
  · cases h
  split at h
  · next cs hcopy =>
    cases h
    rw [String.toList_ofList]
    exact exists_cutUp_of_copyFrom (x := []) (fun e he => hedits e (List.mem_mergeSort.mp he)) rfl (.stop _) hcopy
  · cases h

end SchemaSplice.Source
