import SchemaSplice.Proofs.Splice.Overlaps
/-!
# Edits made one at a time

The text with all edits made is the text in which the edits are made one at a time, the last one first: an edit does not move
what stands before it. Sorting is stable, so insertions at one place keep their order, and sorting edits of which some
are left out leaves them out of the sorted edits.
-/

namespace SchemaSplice.Source

variable {source : String} {edits ordered : List Edit}

/-! ### One edit -/

/-- The text with one edit made; nothing if the span of the edit leaves the text or cuts a character. -/
def Edit.make? (e : Edit) (source : String) : Option String := do
  let front ← Text.slice? source 0 e.span.start
  let back ← Text.slice? source e.span.stop (Text.size source)
  return front ++ e.text ++ back

theorem sliceChars?_zero (x rest : List Char) :
    Text.sliceChars? (x ++ rest) 0 (Text.byteCount x) = some x := by
  have hsplit := Text.splitAt?_byteCount x rest
  unfold Text.sliceChars?
  rw [if_pos (Nat.zero_le _)]
  simp only [Text.splitAt?, Nat.sub_zero, hsplit, Option.map_some]

theorem Edit.make?_eq_some (e : Edit) (x d rest : List Char) (hstart : Text.byteCount x = e.span.start)
    (hstop : Text.byteCount (x ++ d) = e.span.stop) :
    e.make? (String.ofList (x ++ (d ++ rest))) = some (String.ofList (x ++ e.text.toList ++ rest)) := by
  have hfront := sliceChars?_zero x (d ++ rest)
  have hback := sliceChars?_rest (x ++ d) rest
  unfold Edit.make? Text.slice? Text.size
  rw [String.toList_ofList, ← hstart, ← hstop, hfront, ← List.append_assoc, hback]
  simp [← String.toList_inj]

/-! ### Order -/

/-- Edits in the order of their spans, those with one span in the given order. -/
structure InOrder (edits ordered : List Edit) : Prop where
  perm : ordered.Perm edits
  sorted : ordered.Pairwise fun a b => a.le b = true
  stable : ∀ s : Span, ordered.filter (·.span == s) = edits.filter (·.span == s)

theorem Span.eq_of_bounds {a b : Span} (hstart : a.start = b.start) (hstop : a.stop = b.stop) : a = b := by
  cases a
  cases b
  rw [Span.mk.injEq]
  exact ⟨hstart, hstop⟩

/-- A list is cut in one way into members with a property and members without it. -/
theorem split_unique {α : Type} {p : α → Bool} {u v u' v' : List α} (h : u ++ v = u' ++ v')
    (hu : ∀ a ∈ u, p a = true) (hv : ∀ a ∈ v, p a = false) (hu' : ∀ a ∈ u', p a = true)
    (hv' : ∀ a ∈ v', p a = false) : u = u' ∧ v = v' := by
  have hfront : ∀ w z : List α, (∀ a ∈ w, p a = true) → (∀ a ∈ z, p a = false) → (w ++ z).filter p = w := by
    intro w z hw hz
    have hnone : z.filter p = [] := List.filter_eq_nil_iff.mpr fun a ha => by simp [hz a ha]
    rw [List.filter_append, List.filter_eq_self.mpr hw, hnone, List.append_nil]
  have hsame : u = u' := by rw [← hfront u v hu hv, h, hfront u' v' hu' hv']
  subst hsame
  exact ⟨rfl, List.append_cancel_left h⟩

/-- Sorting what is left of edits leaves the same of the sorted edits. -/
theorem mergeSort_filter (p : Edit → Bool) (edits : List Edit) :
    (edits.filter p).mergeSort Edit.le = (edits.mergeSort Edit.le).filter p := by
  induction edits with
  | nil => rw [List.filter_nil, List.mergeSort_nil, List.filter_nil]
  | cons a edits ih =>
    obtain ⟨l, r, hcons, hrest, hbefore⟩ := List.mergeSort_cons Edit.le_trans Edit.le_total a edits
    have hsorted := pairwise_le_mergeSort (a :: edits)
    rw [hcons, List.pairwise_append, List.pairwise_cons] at hsorted
    by_cases hp : p a = true
    · -- The first edit goes where the later ones begin not to precede it, with or without those left out.
      obtain ⟨l', r', hcons', hrest', hbefore'⟩ :=
        List.mergeSort_cons Edit.le_trans Edit.le_total a (edits.filter p)
      have hsorted' := pairwise_le_mergeSort (a :: edits.filter p)
      rw [hcons', List.pairwise_append, List.pairwise_cons] at hsorted'
      have hcut : l' ++ r' = l.filter p ++ r.filter p := by
        rw [← hrest', ih, hrest, List.filter_append]
      obtain ⟨rfl, rfl⟩ := split_unique (p := fun b => !a.le b) hcut hbefore'
        (fun b hb => by simp [hsorted'.2.1.1 b hb]) (fun b hb => hbefore b (List.mem_filter.mp hb).1)
        fun b hb => by simp [hsorted.2.1.1 b (List.mem_filter.mp hb).1]
      rw [List.filter_cons_of_pos hp, hcons', hcons, List.filter_append, List.filter_cons_of_pos hp]
    · rw [List.filter_cons_of_neg hp, ih, hrest, hcons, List.filter_append, List.filter_append,
        List.filter_cons_of_neg hp]

theorem mergeSort_of_span {s : Span} (h : ∀ e ∈ edits, e.span = s) : edits.mergeSort Edit.le = edits := by
  apply List.mergeSort_of_pairwise
  refine List.pairwise_of_forall_mem_list fun a ha b hb => ?_
  rw [Edit.le_iff, h a ha, h b hb]
  exact Or.inr ⟨rfl, Nat.le_refl _⟩

theorem inOrder_mergeSort (edits : List Edit) : InOrder edits (edits.mergeSort Edit.le) where
  perm := List.mergeSort_perm edits Edit.le
  sorted := pairwise_le_mergeSort edits
  stable s := by
    rw [← mergeSort_filter, mergeSort_of_span (s := s)]
    intro e he
    exact beq_iff_eq.mp (List.mem_filter.mp he).2

theorem InOrder.unique {ordered' : List Edit} (h : InOrder edits ordered) (h' : InOrder edits ordered') :
    ordered = ordered' := by
  have hperm := h.perm.trans h'.perm.symm
  have hsame : ∀ s : Span, ordered.filter (·.span == s) = ordered'.filter (·.span == s) := fun s =>
    (h.stable s).trans (h'.stable s).symm
  have hsorted := h.sorted
  have hsorted' := h'.sorted
  clear h h'
  induction ordered generalizing ordered' with
  | nil => exact hperm.nil_eq
  | cons a rest ih =>
    cases ordered' with
    | nil => exact absurd hperm.symm.nil_eq (by simp)
    | cons b rest' =>
      -- The first edits precede each other, so they have one span, and the edits of this span are in one order.
      have hspan : a.span = b.span := by
        have hab : a.le b = true := by
          rcases List.mem_cons.mp (hperm.mem_iff.mpr (List.mem_cons_self (a := b) (l := rest'))) with rfl | hb
          · exact (Edit.le_iff _ _).mpr (Or.inr ⟨rfl, Nat.le_refl _⟩)
          · exact List.rel_of_pairwise_cons hsorted hb
        have hba : b.le a = true := by
          rcases List.mem_cons.mp (hperm.mem_iff.mp (List.mem_cons_self (a := a) (l := rest))) with rfl | ha
          · exact (Edit.le_iff _ _).mpr (Or.inr ⟨rfl, Nat.le_refl _⟩)
          · exact List.rel_of_pairwise_cons hsorted' ha
        rw [Edit.le_iff] at hab hba
        exact Span.eq_of_bounds (by omega) (by omega)
      have hhead := hsame a.span
      rw [List.filter_cons_of_pos (by simp), List.filter_cons_of_pos (by simp [hspan])] at hhead
      obtain ⟨rfl, -⟩ := List.cons.inj hhead
      refine congrArg (a :: ·) (ih ((List.perm_cons a).mp hperm) (fun s => ?_) hsorted.of_cons hsorted'.of_cons)
      have hs := hsame s
      rw [List.filter_cons, List.filter_cons] at hs
      split at hs
      · exact (List.cons.inj hs).2
      · exact hs

/-! ### Copying in parts -/

variable {x d y front back tail : List Char} {cursor : Nat} {before after : List Edit}

theorem sliceChars?_front {stop : Nat} {k : List Char} (h : Text.sliceChars? x cursor stop = some k) (y : List Char) :
    Text.sliceChars? (x ++ y) cursor stop = some k := by
  unfold Text.sliceChars? at h
  split at h
  · next hle =>
    split at h
    · next front rest hsplit =>
      obtain ⟨⟨a, b⟩, hk, rfl⟩ := Option.map_eq_some_iff.mp h
      obtain ⟨rfl, rfl⟩ := Text.splitAt?_eq_some hsplit
      obtain ⟨rfl, hcount⟩ := Text.splitAt?_eq_some hk
      have hsecond := Text.splitAt?_byteCount a (b ++ y)
      unfold Text.sliceChars?
      rw [if_pos hle, List.append_assoc, Text.splitAt?_byteCount]
      simp only [List.append_assoc, ← hcount, hsecond, Option.map_some]
    · cases h
  · cases h

/-- A slice that begins earlier holds more of the text. -/
theorem sliceChars?_earlier {stop : Nat} {k : List Char} (hle : Text.byteCount (x ++ d) ≤ stop)
    (h : Text.sliceChars? (x ++ d ++ y) (Text.byteCount (x ++ d)) stop = some k) :
    Text.sliceChars? (x ++ d ++ y) (Text.byteCount x) stop = some (d ++ k) := by
  obtain ⟨rest, rfl, rfl⟩ := sliceChars?_eq_some h
  have hsplit := Text.splitAt?_byteCount (d ++ k) rest
  unfold Text.sliceChars?
  rw [if_pos (by simp only [Text.byteCount_append]; omega), List.append_assoc, Text.splitAt?_byteCount]
  simp only [Text.byteCount_append, Nat.add_sub_cancel_left, List.append_assoc] at hsplit ⊢
  rw [hsplit, Option.map_some]

theorem copyFrom_cons_eq_some {source : List Char} {e : Edit} (h : copyFrom source cursor (e :: edits) = some tail) :
    ∃ kept rest, Text.sliceChars? source cursor e.span.start = some kept ∧
      copyFrom source e.span.stop edits = some rest ∧ tail = kept ++ e.text.toList ++ rest := by
  unfold copyFrom at h
  obtain ⟨kept, hkept, h⟩ := Option.bind_eq_some_iff.mp h
  obtain ⟨rest, hrest, h⟩ := Option.bind_eq_some_iff.mp h
  simp only [Option.pure_def, Option.some.injEq] at h
  exact ⟨kept, rest, hkept, hrest, h.symm⟩

theorem copyFrom_cons {source kept rest : List Char} {e : Edit}
    (hkept : Text.sliceChars? source cursor e.span.start = some kept)
    (hrest : copyFrom source e.span.stop edits = some rest) :
    copyFrom source cursor (e :: edits) = some (kept ++ e.text.toList ++ rest) := by
  rw [copyFrom, hkept, hrest]
  rfl

/-- Copying from an earlier place on copies more of the text. -/
theorem copyFrom_earlier (hafter : ∀ e ∈ edits, Text.byteCount (x ++ d) ≤ e.span.start)
    (h : copyFrom (x ++ d ++ y) (Text.byteCount (x ++ d)) edits = some tail) :
    copyFrom (x ++ d ++ y) (Text.byteCount x) edits = some (d ++ tail) := by
  cases edits with
  | nil =>
    unfold copyFrom at h ⊢
    exact sliceChars?_earlier (by simp only [Text.byteCount_append]; omega) h
  | cons e rest =>
    obtain ⟨kept, tail, hkept, htail, rfl⟩ := copyFrom_cons_eq_some h
    rw [copyFrom_cons (sliceChars?_earlier (hafter e List.mem_cons_self) hkept) htail]
    simp only [List.append_assoc]

theorem exists_prefix_of_sliceChars? {stop : Nat} {k : List Char} (h : Text.sliceChars? x cursor stop = some k) :
    ∃ u v, x = u ++ v ∧ Text.byteCount u = cursor := by
  unfold Text.sliceChars? at h
  split at h
  · split at h
    · next u v hsplit =>
      obtain ⟨happ, hcount⟩ := Text.splitAt?_eq_some hsplit
      exact ⟨u, v, happ.symm, hcount⟩
    · cases h
  · cases h

/-- A text is copied from places between its characters only. -/
theorem exists_prefix_of_copyFrom (h : copyFrom x cursor edits = some tail) :
    ∃ u v, x = u ++ v ∧ Text.byteCount u = cursor := by
  cases edits with
  | nil => exact exists_prefix_of_sliceChars? h
  | cons e rest =>
    obtain ⟨kept, tail, hkept, -, -⟩ := copyFrom_cons_eq_some h
    exact exists_prefix_of_sliceChars? hkept

/-- Edits before a place and edits after it are made in the parts of the text before and after that place. -/
theorem copyFrom_append (hle : ∀ e ∈ after, Text.byteCount x ≤ e.span.start)
    (hbefore : copyFrom x cursor before = some front)
    (hafter : copyFrom (x ++ y) (Text.byteCount x) after = some back) :
    copyFrom (x ++ y) cursor (before ++ after) = some (front ++ back) := by
  induction before generalizing cursor front with
  | nil =>
    obtain ⟨u, v, rfl, rfl⟩ := exists_prefix_of_copyFrom hbefore
    rw [copyFrom, sliceChars?_rest, Option.some.injEq] at hbefore
    subst hbefore
    exact copyFrom_earlier hle hafter
  | cons e rest ih =>
    obtain ⟨kept, tail, hkept, htail, rfl⟩ := copyFrom_cons_eq_some hbefore
    rw [List.cons_append, copyFrom_cons (sliceChars?_front hkept y) (ih htail)]
    simp only [List.append_assoc]

/-- Insertions at one place put their texts there, one after the other. -/
theorem copyFrom_insertions (hempty : ∀ e ∈ before, e.span = Span.empty (Text.byteCount x))
    (h : copyFrom (x ++ y) (Text.byteCount x) after = some back) :
    copyFrom (x ++ y) (Text.byteCount x) (before ++ after) =
      some (before.flatMap (fun e => e.text.toList) ++ back) := by
  induction before with
  | nil => exact h
  | cons e rest ih =>
    have hspan := hempty e List.mem_cons_self
    have hkept : Text.sliceChars? (x ++ y) (Text.byteCount x) e.span.start = some [] := by
      have hsplit := Text.splitAt?_byteCount [] y
      unfold Text.sliceChars?
      rw [hspan, Span.empty, if_pos (Nat.le_refl _), Text.splitAt?_byteCount]
      simp only [Nat.sub_self]
      exact congrArg (Option.map Prod.fst) hsplit
    have hrest := ih fun e he => hempty e (List.mem_cons_of_mem _ he)
    rw [List.cons_append, copyFrom_cons hkept (by rw [hspan]; exact hrest)]
    simp only [List.flatMap_cons, List.nil_append, List.append_assoc]

/-- The text of an edit that begins where copying begins comes first, unless insertions stand there. -/
theorem isPrefix_of_copyFrom {e : Edit} (hordered : after.Pairwise fun a b => a.span.stop ≤ b.span.start)
    (hstart : ∀ a ∈ after, Text.byteCount x ≤ a.span.start) (hle : ∀ a ∈ after, a.span.start ≤ a.span.stop)
    (hnone : ∀ a ∈ after, a.span ≠ Span.empty (Text.byteCount x)) (he : e ∈ after)
    (hplace : e.span.start = Text.byteCount x)
    (h : copyFrom (x ++ y) (Text.byteCount x) after = some back) : e.text.toList <+: back := by
  cases after with
  | nil => cases he
  | cons a rest =>
    rcases List.mem_cons.mp he with rfl | he
    · obtain ⟨kept, tail, hkept, -, rfl⟩ := copyFrom_cons_eq_some h
      obtain ⟨-, -, hcount⟩ := sliceChars?_eq_some hkept
      have hkept : kept = [] := by
        rw [hplace, Text.byteCount_append] at hcount
        cases kept with
        | nil => rfl
        | cons c kept =>
          have hpos := Char.utf8Size_pos c
          rw [Text.byteCount_cons] at hcount
          omega
      subst hkept
      exact ⟨tail, rfl⟩
    · -- The first edit would have to end before it begins.
      exfalso
      have hbefore := List.rel_of_pairwise_cons hordered he
      have hafter := hstart a List.mem_cons_self
      have hspan := hle a List.mem_cons_self
      exact hnone a List.mem_cons_self (Span.eq_of_bounds (by simp only [Span.empty]; omega) (by simp only [Span.empty]; omega))

/-! ### One edit after the other -/

/-- A text around its first edit, where that is copied. -/
theorem exists_cut {e : Edit} (hfit : e.span.Fits (String.ofList (x ++ y)))
    (h : copyFrom (x ++ y) (Text.byteCount x) (e :: edits) = some tail) :
    ∃ kept d z rest, y = kept ++ (d ++ z) ∧ Text.byteCount (x ++ kept) = e.span.start ∧
      Text.byteCount (x ++ kept ++ d) = e.span.stop ∧
      copyFrom (x ++ kept ++ d ++ z) (Text.byteCount (x ++ kept ++ d)) edits = some rest ∧
      tail = kept ++ e.text.toList ++ rest := by
  obtain ⟨kept, rest, hkept, hrest, rfl⟩ := copyFrom_cons_eq_some h
  obtain ⟨y, rfl, hstart⟩ := sliceChars?_eq_some hkept
  obtain ⟨d, hd⟩ := exists_slice hfit.start hfit.stop hfit.le
  rw [String.toList_ofList, ← List.append_assoc, ← hstart] at hd
  obtain ⟨z, rfl, hstop⟩ := sliceChars?_eq_some hd
  refine ⟨kept, d, z, rest, rfl, hstart, hstop, ?_, rfl⟩
  rw [hstop]
  simp only [List.append_assoc] at hrest ⊢
  exact hrest

/-- Where edits stand one after the other, making them from the last one on copies the text between them. -/
theorem foldrM_make? (hfits : ∀ e ∈ edits, e.span.Fits (String.ofList (x ++ y)))
    (h : copyFrom (x ++ y) (Text.byteCount x) edits = some tail) :
    edits.foldrM Edit.make? (String.ofList (x ++ y)) = some (String.ofList (x ++ tail)) := by
  induction edits generalizing x y tail with
  | nil =>
    rw [copyFrom, sliceChars?_rest, Option.some.injEq] at h
    rw [List.foldrM_nil, h]
    rfl
  | cons e rest ih =>
    obtain ⟨kept, d, z, tail, rfl, hstart, hstop, htail, rfl⟩ := exists_cut (hfits e List.mem_cons_self) h
    have htext : x ++ (kept ++ (d ++ z)) = x ++ kept ++ d ++ z := by simp only [List.append_assoc]
    rw [htext] at hfits ⊢
    have hrest := ih (fun a ha => hfits a (List.mem_cons_of_mem _ ha)) htail
    have hmake := Edit.make?_eq_some e (x ++ kept) d tail hstart hstop
    rw [← List.append_assoc] at hmake
    rw [List.foldrM_cons, hrest, Option.bind_eq_bind, Option.bind_some, hmake]
    simp only [List.append_assoc]

theorem copyFrom_filter (hfits : ∀ e ∈ edits, e.span.Fits (String.ofList (x ++ y)))
    (hordered : edits.Pairwise fun a b => a.span.stop ≤ b.span.start)
    (h : copyFrom (x ++ y) (Text.byteCount x) edits = some tail) :
    copyFrom (x ++ y) (Text.byteCount x) (edits.filter fun e => !e.keepsText (String.ofList (x ++ y))) =
      some tail := by
  induction edits generalizing x y tail with
  | nil => exact h
  | cons e rest ih =>
    obtain ⟨kept, d, z, tail, rfl, hstart, hstop, htail, rfl⟩ := exists_cut (hfits e List.mem_cons_self) h
    have htext : x ++ (kept ++ (d ++ z)) = x ++ kept ++ d ++ z := by simp only [List.append_assoc]
    rw [htext] at hfits ⊢
    have hrest := ih (fun a ha => hfits a (List.mem_cons_of_mem _ ha)) hordered.of_cons htail
    have hslice := sliceChars?_front (sliceChars?_rest (x ++ kept) d) z
    rw [hstart, hstop] at hslice
    cases hkeeps : e.keepsText (String.ofList (x ++ kept ++ d ++ z)) with
    | false =>
      have hkept := sliceChars?_front (sliceChars?_rest x kept) (d ++ z)
      rw [hstart, ← List.append_assoc] at hkept
      rw [hstop] at hrest
      rw [List.filter_cons_of_pos (by rw [hkeeps]; rfl)]
      exact copyFrom_cons hkept hrest
    | true =>
      -- The edit puts what stands in its span.
      have hsame : e.text.toList = d := by
        rw [Edit.keepsText, Text.slice?, String.toList_ofList, hslice, Option.map_some, beq_iff_eq,
          Option.some.injEq] at hkeeps
        rw [← hkeeps, String.toList_ofList]
      rw [List.append_assoc x kept d] at hstop hrest ⊢
      rw [List.filter_cons_of_neg (by rw [← List.append_assoc x, hkeeps]; simp), hsame]
      refine copyFrom_earlier (fun a ha => ?_) hrest
      rw [hstop]
      exact List.rel_of_pairwise_cons hordered (List.mem_filter.mp ha).1

/-! ### Sorted edits -/

/-- Edits are made if, sorted, they stand one after the other. -/
theorem applyEdits_eq_ok_iff {out : String} (hfits : ∀ e ∈ edits, e.span.Fits source) :
    applyEdits source edits = .ok out ↔
      (edits.mergeSort Edit.le).Pairwise (fun a b => a.span.stop ≤ b.span.start) ∧
        copyFrom source.toList 0 (edits.mergeSort Edit.le) = some out.toList := by
  constructor
  · intro h
    unfold applyEdits at h
    simp only at h
    split at h
    · cases h
    next hnone =>
    split at h
    · next cs hcopy =>
      cases h
      rw [String.toList_ofList]
      exact ⟨pairwise_of_firstOverlap? (fun e he => hfits e (List.mem_mergeSort.mp he))
        (pairwise_le_mergeSort edits) hnone, hcopy⟩
    · cases h
  · rintro ⟨hordered, hcopy⟩
    have hnone := firstOverlap?_eq_none (hordered.imp fun {a b} hab =>
      (Span.overlaps_eq_false_iff a.span b.span).mpr (Or.inr hab))
    unfold applyEdits
    simp only [hnone, hcopy, String.ofList_toList]

/-- A list is cut by what is true of everything before a member it is true of. -/
theorem filter_append_of_pairwise {α : Type} {p : α → Bool} {l : List α}
    (h : l.Pairwise fun a b => p b = true → p a = true) : l = l.filter p ++ l.filter (fun a => !p a) := by
  induction l with
  | nil => rfl
  | cons a rest ih =>
    cases hp : p a with
    | true =>
      rw [List.filter_cons_of_pos hp, List.filter_cons_of_neg (by rw [hp]; simp), List.cons_append, ← ih h.of_cons]
    | false =>
      have hnone : rest.filter p = [] := by
        refine List.filter_eq_nil_iff.mpr fun b hb hpb => ?_
        rw [List.rel_of_pairwise_cons h hb hpb] at hp
        cases hp
      have hall : rest.filter (fun a => !p a) = rest := by
        have hrest := ih h.of_cons
        rw [hnone, List.nil_append] at hrest
        exact hrest.symm
      rw [List.filter_cons_of_neg (by rw [hp]; simp), List.filter_cons_of_pos (by rw [hp]; rfl), hnone, hall,
        List.nil_append]

theorem IsBoundary.of_le {n : Nat} (h : IsBoundary source n) (htext : source.toList = x ++ y)
    (hle : n ≤ Text.byteCount x) : IsBoundary (String.ofList x) n := by
  obtain ⟨u, v, huv, rfl⟩ := h
  rw [htext] at huv
  rcases List.append_eq_append_iff.mp huv with ⟨d, rfl, -⟩ | ⟨d, rfl, -⟩
  · obtain ⟨hsame, -⟩ := append_inj_of_byteCount huv (Nat.le_antisymm (by simp) hle)
    exact ⟨x, [], by rw [String.toList_ofList, List.append_nil], congrArg Text.byteCount hsame⟩
  · exact ⟨u, d, String.toList_ofList, rfl⟩

theorem Span.Fits.of_le {s : Span} (h : s.Fits source) (htext : source.toList = x ++ y)
    (hle : s.stop ≤ Text.byteCount x) : s.Fits (String.ofList x) :=
  ⟨h.le, h.start.of_le htext (Nat.le_trans h.le hle), h.stop.of_le htext hle⟩

/-! ### All edits -/

/-- Two edits of a list overlap. -/
def Clash (edits : List Edit) : Prop :=
  ∃ (i j : Nat) (a b : Edit), i ≠ j ∧ edits[i]? = some a ∧ edits[j]? = some b ∧ a.span.overlaps b.span = true

theorem clash_iff (edits : List Edit) :
    Clash edits ↔ ¬ edits.Pairwise fun a b => a.span.overlaps b.span = false := by
  rw [List.pairwise_iff_getElem]
  constructor
  · rintro ⟨i, j, a, b, hne, ha, hb, hover⟩ hapart
    obtain ⟨hi, rfl⟩ := List.getElem?_eq_some_iff.mp ha
    obtain ⟨hj, rfl⟩ := List.getElem?_eq_some_iff.mp hb
    rcases Nat.lt_or_gt_of_ne hne with hlt | hlt
    · rw [hapart i j hi hj hlt] at hover
      cases hover
    · rw [Span.overlaps_comm, hapart j i hj hi hlt] at hover
      cases hover
  · intro h
    refine Classical.byContradiction fun hnone => h fun i j hi hj hlt => Bool.eq_false_iff.mpr fun hover => hnone ?_
    exact ⟨i, j, edits[i], edits[j], Nat.ne_of_lt hlt, List.getElem?_eq_getElem hi, List.getElem?_eq_getElem hj, hover⟩

def Edit.insertsAt (place : Nat) (e : Edit) : Bool := e.span == Span.empty place

/-- The insertions at one place stand there together, in the given order, after the text before that place with its
edits made and before all that the other edits leave of the rest, the text of a replacement that begins there first. -/
def StandTogether (source : String) (edits : List Edit) (out : String) (place : Nat) : Prop :=
  ∃ x y front back, source.toList = x ++ y ∧ Text.byteCount x = place ∧
    applyEdits (String.ofList x) (edits.filter (·.span.start < place)) = .ok (String.ofList front) ∧
    applyEdits source (edits.filter fun e => !e.insertsAt place) = .ok (String.ofList (front ++ back)) ∧
    out.toList = front ++ (edits.filter (·.insertsAt place)).flatMap (fun e => e.text.toList) ++ back ∧
    ∀ e ∈ edits, e.span.start = place → e.insertsAt place = false → e.text.toList <+: back

theorem Edit.insertsAt_iff (place : Nat) (e : Edit) :
    e.insertsAt place = true ↔ e.span.start = place ∧ e.span.stop = place := by
  unfold Edit.insertsAt
  rw [beq_iff_eq]
  constructor
  · intro h
    rw [h]
    exact ⟨rfl, rfl⟩
  · rintro ⟨hstart, hstop⟩
    exact Span.eq_of_bounds hstart hstop

/-- Sorted edits around one place: those that begin before it, the insertions there, and the others. -/
structure Around (edits : List Edit) (place : Nat) (before after : List Edit) : Prop where
  sorted : edits.mergeSort Edit.le = before ++ (edits.filter (·.insertsAt place) ++ after)
  first : (edits.filter (·.span.start < place)).mergeSort Edit.le = before
  others : (edits.filter fun e => !e.insertsAt place).mergeSort Edit.le = before ++ after
  low : ∀ e ∈ before, e.span.start < place
  high : ∀ e ∈ after, place ≤ e.span.start
  none_high : ∀ e ∈ after, e.insertsAt place = false

theorem exists_around (hfits : ∀ e ∈ edits, e.span.Fits source) (place : Nat) :
    ∃ before after, Around edits place before after := by
  have hsorted := pairwise_le_mergeSort edits
  have hmem : ∀ e ∈ edits.mergeSort Edit.le, e.span.start ≤ e.span.stop := fun e he =>
    (hfits e (List.mem_mergeSort.mp he)).le
  generalize hbefore : (edits.mergeSort Edit.le).filter (·.span.start < place) = before
  generalize hrest : (edits.mergeSort Edit.le).filter (fun e => !decide (e.span.start < place)) = rest
  have hcut : edits.mergeSort Edit.le = before ++ rest := by
    rw [← hbefore, ← hrest]
    refine filter_append_of_pairwise (hsorted.imp fun {a b} hab hb => ?_)
    rw [Edit.le_iff] at hab
    rw [decide_eq_true_eq] at hb ⊢
    omega
  have hlow : ∀ e ∈ before, e.span.start < place := by
    intro e he
    rw [← hbefore] at he
    exact of_decide_eq_true (List.mem_filter.mp he).2
  have hhigh : ∀ e ∈ rest, place ≤ e.span.start ∧ e.span.start ≤ e.span.stop := by
    intro e he
    rw [← hrest] at he
    obtain ⟨he, hstart⟩ := List.mem_filter.mp he
    rw [Bool.not_eq_true', decide_eq_false_iff_not] at hstart
    exact ⟨Nat.le_of_not_lt hstart, hmem e he⟩
  have hrestcut : rest = rest.filter (·.insertsAt place) ++ rest.filter fun e => !e.insertsAt place := by
    have hpairwise : rest.Pairwise fun a b => a.le b = true := by
      rw [← hrest]
      exact hsorted.filter _
    refine filter_append_of_pairwise (hpairwise.imp_of_mem fun {a b} ha hb hab hplace => ?_)
    have hle := hhigh a ha
    rw [Edit.le_iff] at hab
    rw [Edit.insertsAt_iff] at hplace ⊢
    omega
  have hnone : ∀ e ∈ before, e.insertsAt place = false := by
    intro e he
    have hlt := hlow e he
    rw [Bool.eq_false_iff, ne_eq, Edit.insertsAt_iff]
    omega
  have hinsertions : rest.filter (·.insertsAt place) = edits.filter (·.insertsAt place) := by
    have hstable : (edits.mergeSort Edit.le).filter (·.insertsAt place) = edits.filter (·.insertsAt place) :=
      (inOrder_mergeSort edits).stable (Span.empty place)
    rw [hcut, List.filter_append, List.filter_eq_nil_iff.mpr fun e he => Bool.eq_false_iff.mp (hnone e he)] at hstable
    exact hstable
  refine ⟨before, rest.filter fun e => !e.insertsAt place, ?_, ?_, ?_, hlow, ?_, ?_⟩
  · rw [← hinsertions, ← hrestcut, hcut]
  · rw [mergeSort_filter, hbefore]
  · rw [mergeSort_filter, hcut, List.filter_append, List.filter_eq_self.mpr fun e he => by rw [hnone e he]; rfl]
  · exact fun e he => (hhigh e (List.mem_filter.mp he).1).1
  · exact fun e he => by simpa using (List.mem_filter.mp he).2

namespace Around

variable {place : Nat}

theorem mem_iff (h : Around edits place before after) (e : Edit) :
    e ∈ edits ↔ e ∈ before ∨ e ∈ edits.filter (·.insertsAt place) ∨ e ∈ after := by
  rw [← List.mem_append, ← List.mem_append, ← h.sorted, List.mem_mergeSort]

theorem mem_after (h : Around edits place before after) {e : Edit} (he : e ∈ edits) (hstart : e.span.start = place)
    (hreplaces : e.insertsAt place = false) : e ∈ after := by
  rcases (h.mem_iff e).mp he with he | he | he
  · exact absurd (h.low e he) (by omega)
  · rw [(List.mem_filter.mp he).2] at hreplaces
    cases hreplaces
  · exact he

/-- An insertion at a place keeps the edits that begin before it from reaching over it, so the text is copied in two parts. -/
theorem exists_copies (h : Around edits place before after) (hfits : ∀ e ∈ edits, e.span.Fits source)
    (hordered : (edits.mergeSort Edit.le).Pairwise fun a b => a.span.stop ≤ b.span.start) {insertion : Edit}
    (hinsertion : insertion ∈ edits) (hinserts : insertion.insertsAt place = true) :
    ∃ x y front back, source.toList = x ++ y ∧ Text.byteCount x = place ∧ (∀ e ∈ before, e.span.Fits (String.ofList x)) ∧
      copyFrom x 0 before = some front ∧ copyFrom (x ++ y) place after = some back := by
  obtain ⟨hstart, -⟩ := (Edit.insertsAt_iff place insertion).mp hinserts
  obtain ⟨x, y, htext, hcount⟩ := (hfits insertion hinsertion).start
  rw [hstart] at hcount
  rw [h.sorted] at hordered
  obtain ⟨horderedBefore, horderedRest, hcross⟩ := List.pairwise_append.mp hordered
  obtain ⟨-, horderedAfter, -⟩ := List.pairwise_append.mp horderedRest
  have hfitsBefore : ∀ e ∈ before, e.span.Fits (String.ofList x) := by
    intro e he
    have hle := hcross e he insertion (List.mem_append_left _ (List.mem_filter.mpr ⟨hinsertion, hinserts⟩))
    rw [hstart, ← hcount] at hle
    exact (hfits e ((h.mem_iff e).mpr (.inl he))).of_le htext hle
  have hfitsAfter : ∀ e ∈ after, e.span.Fits source := fun e he => hfits e ((h.mem_iff e).mpr (.inr (.inr he)))
  obtain ⟨front, hfront⟩ := copyFrom_isSome hfitsBefore horderedBefore (isBoundary_zero _) fun _ _ => Nat.zero_le _
  have hplace : IsBoundary source place := ⟨x, y, htext, hcount⟩
  obtain ⟨back, hback⟩ := copyFrom_isSome hfitsAfter horderedAfter hplace h.high
  rw [String.toList_ofList] at hfront
  rw [htext] at hback
  exact ⟨x, y, front, back, htext, hcount, hfitsBefore, hfront, hback⟩

end Around

theorem standTogether (hfits : ∀ e ∈ edits, e.span.Fits source) {out : String} (h : applyEdits source edits = .ok out)
    {place : Nat} (hplace : ∃ e ∈ edits, e.insertsAt place = true) : StandTogether source edits out place := by
  obtain ⟨insertion, hinsertion, hinserts⟩ := hplace
  obtain ⟨hordered, hcopy⟩ := (applyEdits_eq_ok_iff hfits).mp h
  obtain ⟨before, after, haround⟩ := exists_around hfits place
  obtain ⟨x, y, front, back, htext, rfl, hfitsBefore, hfront, hback⟩ :=
    haround.exists_copies hfits hordered hinsertion hinserts
  rw [haround.sorted] at hordered hcopy
  obtain ⟨horderedBefore, horderedRest, hcross⟩ := List.pairwise_append.mp hordered
  obtain ⟨-, horderedAfter, -⟩ := List.pairwise_append.mp horderedRest
  have hinsertions : ∀ e ∈ edits.filter (·.insertsAt (Text.byteCount x)), e.span = Span.empty (Text.byteCount x) :=
    fun e he => beq_iff_eq.mp (List.mem_filter.mp he).2
  have hrest : ∀ e ∈ edits.filter (·.insertsAt (Text.byteCount x)) ++ after, Text.byteCount x ≤ e.span.start := by
    intro e he
    rcases List.mem_append.mp he with he | he
    · rw [hinsertions e he]
      exact Nat.le_refl _
    · exact haround.high e he
  rw [htext, copyFrom_append hrest hfront (copyFrom_insertions hinsertions hback), Option.some.injEq] at hcopy
  refine ⟨x, y, front, back, htext, rfl, ?_, ?_, ?_, ?_⟩
  · have hedits : ∀ e ∈ edits.filter (·.span.start < Text.byteCount x), e.span.Fits (String.ofList x) := by
      intro e he
      have hsorted : e ∈ (edits.filter (·.span.start < Text.byteCount x)).mergeSort Edit.le :=
        List.mem_mergeSort.mpr he
      rw [haround.first] at hsorted
      exact hfitsBefore e hsorted
    rw [applyEdits_eq_ok_iff hedits, haround.first, String.toList_ofList, String.toList_ofList]
    exact ⟨horderedBefore, hfront⟩
  · rw [applyEdits_eq_ok_iff fun e he => hfits e (List.mem_filter.mp he).1, haround.others, htext, String.toList_ofList]
    refine ⟨List.pairwise_append.mpr ⟨horderedBefore, horderedAfter, fun a ha b hb => ?_⟩, ?_⟩
    · exact hcross a ha b (List.mem_append_right _ hb)
    · exact copyFrom_append haround.high hfront hback
  · rw [← hcopy, List.append_assoc]
  · intro e he hbegins hreplaces
    have hle : ∀ a ∈ after, a.span.start ≤ a.span.stop := fun a ha =>
      (hfits a ((haround.mem_iff a).mpr (.inr (.inr ha)))).le
    refine isPrefix_of_copyFrom horderedAfter haround.high hle (fun a ha heq => ?_)
      (haround.mem_after he hbegins hreplaces) hbegins hback
    have hnone := haround.none_high a ha
    rw [Edit.insertsAt, heq, beq_self_eq_true] at hnone
    cases hnone

/-- Edits whose spans hold whole characters are refused exactly if two of them overlap, neighbours or not. Otherwise the
text with all of them made is the text in which they are made one at a time, the last one first; insertions at one place
stand there in the given order, before what replaces the text there; and edits that keep the text may be left out. -/
theorem applyEdits_one_at_a_time (source : String) (edits : List Edit) (hfits : ∀ e ∈ edits, e.span.Fits source) :
    ((∃ a b, applyEdits source edits = .error (.overlap a b)) ↔ Clash edits) ∧
    (¬ Clash edits → ∃ out, applyEdits source edits = .ok out) ∧
    ∀ out, applyEdits source edits = .ok out →
      (∀ ordered, InOrder edits ordered → ordered.foldrM Edit.make? source = some out) ∧
      (∀ place, (∃ e ∈ edits, e.insertsAt place = true) → StandTogether source edits out place) ∧
      applyEdits source (edits.filter fun e => !e.keepsText source) = .ok out := by
  have hmade := exists_applyEdits_iff hfits
  have hcause : ∀ {cause}, applyEdits source edits = .error cause → ∃ a b, cause = .overlap a b := fun h =>
    overlap_of_applyEdits hfits h
  refine ⟨?_, fun hapart => ?_, fun out hout => ⟨fun ordered hordered => ?_, fun place hplace => ?_, ?_⟩⟩
  · rw [clash_iff, ← hmade]
    constructor
    · rintro ⟨a, b, hover⟩ ⟨out, hout⟩
      rw [hover] at hout
      cases hout
    · intro hnone
      cases hresult : applyEdits source edits with
      | ok out => exact absurd ⟨out, hresult⟩ hnone
      | error cause =>
        obtain ⟨a, b, rfl⟩ := hcause hresult
        exact ⟨a, b, rfl⟩
  · rw [clash_iff, Classical.not_not, ← hmade] at hapart
    exact hapart
  · obtain ⟨-, hcopy⟩ := (applyEdits_eq_ok_iff hfits).mp hout
    rw [hordered.unique (inOrder_mergeSort edits)]
    have hall := foldrM_make? (x := []) (y := source.toList) (fun e he => by
      rw [List.nil_append, String.ofList_toList]
      exact hfits e (List.mem_mergeSort.mp he)) hcopy
    rwa [List.nil_append, List.nil_append, String.ofList_toList, String.ofList_toList] at hall
  · exact standTogether hfits hout hplace
  · obtain ⟨hordered, hcopy⟩ := (applyEdits_eq_ok_iff hfits).mp hout
    rw [applyEdits_eq_ok_iff fun e he => hfits e (List.mem_filter.mp he).1, mergeSort_filter]
    refine ⟨hordered.filter _, ?_⟩
    have hleft := copyFrom_filter (x := []) (y := source.toList) (fun e he => by
      rw [List.nil_append, String.ofList_toList]
      exact hfits e (List.mem_mergeSort.mp he)) hordered hcopy
    rwa [List.nil_append, String.ofList_toList] at hleft

/-- A replacement, an edit that keeps the text, and two insertions where the replacement begins. -/
def crowdedEdits : List Edit := [⟨⟨2, 4⟩, "Y"⟩, ⟨⟨5, 6⟩, "e"⟩, .insert 2 "1", .insert 2 "2"]

theorem mergeSort_crowdedEdits :
    crowdedEdits.mergeSort Edit.le = [.insert 2 "1", .insert 2 "2", ⟨⟨2, 4⟩, "Y"⟩, ⟨⟨5, 6⟩, "e"⟩] := by
  simp [crowdedEdits, List.mergeSort, List.MergeSort.Internal.splitInTwo, Edit.le, Edit.insert, Span.empty]

theorem applyEdits_crowdedEdits : applyEdits "a-bc-e" crowdedEdits = .ok "a-12Y-e" := by
  unfold applyEdits
  rw [mergeSort_crowdedEdits]
  rfl

theorem crowdedEdits_one_at_a_time :
    (∀ e ∈ crowdedEdits, e.span.Fits "a-bc-e") ∧ ¬ Clash crowdedEdits ∧
    (crowdedEdits.mergeSort Edit.le).foldrM Edit.make? "a-bc-e" = some "a-12Y-e" ∧
    StandTogether "a-bc-e" crowdedEdits "a-12Y-e" 2 ∧
    applyEdits "a-bc-e" (crowdedEdits.filter fun e => !e.keepsText "a-bc-e") = .ok "a-12Y-e" := by
  have htwo : IsBoundary "a-bc-e" 2 := ⟨['a', '-'], ['b', 'c', '-', 'e'], by decide, by decide⟩
  have hfour : IsBoundary "a-bc-e" 4 := ⟨['a', '-', 'b', 'c'], ['-', 'e'], by decide, by decide⟩
  have hfive : IsBoundary "a-bc-e" 5 := ⟨['a', '-', 'b', 'c', '-'], ['e'], by decide, by decide⟩
  have hfits : ∀ e ∈ crowdedEdits, e.span.Fits "a-bc-e" := by
    simp only [crowdedEdits, List.forall_mem_cons, List.not_mem_nil, false_implies, implies_true, and_true]
    exact ⟨⟨by decide, htwo, hfour⟩, ⟨by decide, hfive, isBoundary_size _⟩, ⟨by decide, htwo, htwo⟩,
      ⟨by decide, htwo, htwo⟩⟩
  obtain ⟨hclash, -, hall⟩ := applyEdits_one_at_a_time "a-bc-e" crowdedEdits hfits
  obtain ⟨hsequence, htogether, hleft⟩ := hall _ applyEdits_crowdedEdits
  refine ⟨hfits, ?_, hsequence _ (inOrder_mergeSort _), htogether 2 ⟨.insert 2 "1", by decide, by decide⟩, hleft⟩
  rw [← hclash, applyEdits_crowdedEdits]
  rintro ⟨a, b, h⟩
  cases h

end SchemaSplice.Source
