import SchemaSplice.Proofs.Splice.Edits
/-!
# Edits that can be made together

Sorted edits of which no neighbours overlap stand one after the other, so no two of them overlap at all, and the text can
be copied between them. Edits whose spans hold whole characters are therefore made if and only if no two overlap.
-/

namespace SchemaSplice.Source

/-- Byte `n` of a text stands between two characters, before the first or after the last. -/
def IsBoundary (text : String) (n : Nat) : Prop := ∃ x rest, text.toList = x ++ rest ∧ Text.byteCount x = n

structure Span.Fits (text : String) (s : Span) : Prop where
  le : s.start ≤ s.stop
  start : IsBoundary text s.start
  stop : IsBoundary text s.stop

variable {text : String} {edits : List Edit}

theorem IsBoundary.le_size {n : Nat} (h : IsBoundary text n) : n ≤ Text.size text := by
  obtain ⟨x, rest, htext, rfl⟩ := h
  rw [Text.size, htext, Text.byteCount_append]
  exact Nat.le_add_right _ _

theorem isBoundary_zero (text : String) : IsBoundary text 0 := ⟨[], text.toList, rfl, rfl⟩

theorem isBoundary_size (text : String) : IsBoundary text (Text.size text) :=
  ⟨text.toList, [], (List.append_nil _).symm, rfl⟩

/-- What stands between two boundaries. -/
theorem exists_slice {a b : Nat} (ha : IsBoundary text a) (hb : IsBoundary text b) (hle : a ≤ b) :
    ∃ k, Text.sliceChars? text.toList a b = some k := by
  obtain ⟨x, rest, htext, rfl⟩ := ha
  obtain ⟨y, rest', htext', rfl⟩ := hb
  -- The longer prefix extends the shorter one, unless both have one length.
  have hprefix : ∃ d, Text.byteCount y - Text.byteCount x = Text.byteCount d ∧ rest = d ++ rest' := by
    rcases List.append_eq_append_iff.mp (htext.symm.trans htext') with ⟨d, rfl, hrest⟩ | ⟨d, rfl, hrest⟩
    · exact ⟨d, by simp, hrest⟩
    · have hsame := (append_inj_of_byteCount (htext.symm.trans htext')
        (Nat.le_antisymm hle (by simp))).2
      exact ⟨[], by simp, hsame⟩
  obtain ⟨d, hlength, hrest⟩ := hprefix
  refine ⟨d, ?_⟩
  unfold Text.sliceChars?
  rw [if_pos hle, htext, Text.splitAt?_byteCount]
  simp only [hlength, hrest, Text.splitAt?_byteCount, Option.map_some]

/-! ### Neighbours -/

theorem Edit.le_iff (a b : Edit) :
    a.le b = true ↔
      a.span.start < b.span.start ∨ (a.span.start = b.span.start ∧ a.span.stop ≤ b.span.stop) := by
  simp [Edit.le]

theorem Edit.le_trans (a b c : Edit) (hab : a.le b = true) (hbc : b.le c = true) : a.le c = true := by
  rw [Edit.le_iff] at hab hbc ⊢
  omega

theorem Edit.le_total (a b : Edit) : (a.le b || b.le a) = true := by
  rw [Bool.or_eq_true, Edit.le_iff, Edit.le_iff]
  omega

theorem pairwise_le_mergeSort (edits : List Edit) :
    (edits.mergeSort Edit.le).Pairwise fun a b => a.le b = true :=
  List.pairwise_mergeSort Edit.le_trans Edit.le_total edits

theorem Span.overlaps_eq_false_iff (a b : Span) : a.overlaps b = false ↔ b.stop ≤ a.start ∨ a.stop ≤ b.start := by
  simp only [Span.overlaps, Bool.and_eq_false_iff, decide_eq_false_iff_not]
  omega

/-- Insertions never overlap. -/
theorem Span.overlaps_empty (i j : Nat) : (Span.empty i).overlaps (Span.empty j) = false := by
  rw [Span.overlaps_eq_false_iff]
  exact Nat.le_total j i

/-- The first of two edits in order ends before the second one starts, unless they overlap. -/
theorem stop_le_start_of_le {a b : Edit} (hb : b.span.start ≤ b.span.stop) (hle : a.le b = true)
    (h : a.span.overlaps b.span = false) : a.span.stop ≤ b.span.start := by
  rw [Edit.le_iff] at hle
  rw [Span.overlaps_eq_false_iff] at h
  omega

/-- Sorted edits without overlapping neighbours stand one after the other. -/
theorem pairwise_of_firstOverlap? (hfits : ∀ e ∈ edits, e.span.Fits text)
    (hsorted : edits.Pairwise fun a b => a.le b = true) (h : firstOverlap? edits = none) :
    edits.Pairwise fun a b => a.span.stop ≤ b.span.start := by
  induction edits with
  | nil => exact .nil
  | cons a rest ih =>
    cases rest with
    | nil => exact List.pairwise_singleton _ _
    | cons b rest =>
      unfold firstOverlap? at h
      split at h
      · cases h
      next hapart =>
      rw [Bool.not_eq_true] at hapart
      have hlater := ih (fun e he => hfits e (List.mem_cons_of_mem _ he)) hsorted.of_cons h
      have hb := (hfits b (by simp)).le
      have hnext := stop_le_start_of_le hb (List.rel_of_pairwise_cons hsorted List.mem_cons_self) hapart
      refine hlater.cons fun c hc => ?_
      rcases List.mem_cons.mp hc with rfl | hc
      · exact hnext
      · exact Nat.le_trans hnext (Nat.le_trans hb (List.rel_of_pairwise_cons hlater hc))

theorem firstOverlap?_eq_none (h : edits.Pairwise fun a b => a.span.overlaps b.span = false) :
    firstOverlap? edits = none := by
  fun_induction firstOverlap? edits with
  | case1 a b rest hover => simp [List.rel_of_pairwise_cons h List.mem_cons_self] at hover
  | case2 a b rest _ ih => exact ih h.of_cons
  | case3 => rfl

theorem not_pairwise_of_spans {spans : List Span} {others : List Edit} (h : edits.map (·.span) = spans)
    (hspans : ¬ spans.Pairwise fun a b => a.overlaps b = false) :
    ¬ (edits ++ others).Pairwise fun a b => a.span.overlaps b.span = false := by
  rw [← h, List.pairwise_map] at hspans
  intro hpairwise
  exact hspans (List.pairwise_append.mp hpairwise).1

/-! ### Copying -/

theorem copyFrom_isSome {cursor : Nat} (hfits : ∀ e ∈ edits, e.span.Fits text)
    (hordered : edits.Pairwise fun a b => a.span.stop ≤ b.span.start) (hcursor : IsBoundary text cursor)
    (hle : ∀ e ∈ edits, cursor ≤ e.span.start) : ∃ cs, copyFrom text.toList cursor edits = some cs := by
  induction edits generalizing cursor with
  | nil => exact exists_slice hcursor (isBoundary_size text) hcursor.le_size
  | cons e rest ih =>
    have he := hfits e List.mem_cons_self
    obtain ⟨kept, hkept⟩ := exists_slice hcursor he.start (hle e List.mem_cons_self)
    obtain ⟨tail, htail⟩ := ih (fun e he => hfits e (List.mem_cons_of_mem _ he)) hordered.of_cons he.stop
      fun b hb => List.rel_of_pairwise_cons hordered hb
    refine ⟨kept ++ e.text.toList ++ tail, ?_⟩
    rw [copyFrom, hkept, htail]
    rfl

/-- Edits whose spans fit a text are made unless two of them overlap. -/
theorem exists_applyEdits_iff (hfits : ∀ e ∈ edits, e.span.Fits text) :
    (∃ out, applyEdits text edits = .ok out) ↔ edits.Pairwise fun a b => a.span.overlaps b.span = false := by
  have hperm := List.mergeSort_perm edits Edit.le
  have hsymm : ∀ {a b : Edit}, a.span.overlaps b.span = false → b.span.overlaps a.span = false := by
    intro a b h
    rw [Span.overlaps_comm, h]
  have hfits' : ∀ e ∈ edits.mergeSort Edit.le, e.span.Fits text := fun e he => hfits e (hperm.mem_iff.mp he)
  rw [← hperm.pairwise_iff hsymm]
  constructor
  · rintro ⟨out, h⟩
    unfold applyEdits at h
    simp only at h
    split at h
    · cases h
    next hnone =>
    refine (pairwise_of_firstOverlap? hfits' (pairwise_le_mergeSort edits) hnone).imp ?_
    intro a b hab
    exact (Span.overlaps_eq_false_iff _ _).mpr (Or.inr hab)
  · intro h
    have hnone := firstOverlap?_eq_none h
    have hordered := pairwise_of_firstOverlap? hfits' (pairwise_le_mergeSort edits) hnone
    obtain ⟨cs, hcopy⟩ := copyFrom_isSome hfits' hordered (isBoundary_zero text) fun _ _ => Nat.zero_le _
    refine ⟨String.ofList cs, ?_⟩
    unfold applyEdits
    simp only [hnone, hcopy]

/-- Edits that are given in order are made in that order. -/
theorem applyEdits_of_ordered {out : String} (hordered : edits.Pairwise fun a b => a.le b = true)
    (hnone : firstOverlap? edits = none) (hcopy : copyFrom text.toList 0 edits = some out.toList) :
    applyEdits text edits = .ok out := by
  unfold applyEdits
  simp only [List.mergeSort_of_pairwise hordered, hnone, hcopy, String.ofList_toList]

/-- The only reason why they are not made is an overlap. -/
theorem overlap_of_applyEdits (hfits : ∀ e ∈ edits, e.span.Fits text) {cause : EditError}
    (h : applyEdits text edits = .error cause) : ∃ a b, cause = .overlap a b := by
  cases cause with
  | overlap a b => exact ⟨a, b, rfl⟩
  | outside =>
    exfalso
    unfold applyEdits at h
    simp only at h
    split at h
    · cases h
    next hnone =>
    have hfits' : ∀ e ∈ edits.mergeSort Edit.le, e.span.Fits text := fun e he =>
      hfits e (List.mem_mergeSort.mp he)
    obtain ⟨cs, hcopy⟩ := copyFrom_isSome hfits'
      (pairwise_of_firstOverlap? hfits' (pairwise_le_mergeSort edits) hnone) (isBoundary_zero text)
      fun _ _ => Nat.zero_le _
    rw [hcopy] at h
    cases h

end SchemaSplice.Source
