import SchemaSplice.Proofs.Splice.Clashes
/-!
# Files that a run leaves alone

A run leaves a file as it is if and only if each procedure that it finds there calls `output` and has its printed validator, with
the marks, between the parentheses of the last such call.
-/

namespace SchemaSplice.Pass

open Source Chain Declaration Validator

variable {f : File} {x : Finding}

/-- The chain of a finding has the printed validator as the arguments of its last call of `output`. -/
def Settled (f : File) (x : Finding) : Prop :=
  ∃ o, x.strategy = .replaceOutput o ∧
    Text.slice? f.text (o.argumentsSpan f).start (o.argumentsSpan f).stop = some x.validator.printMarked

/-! ### One finding -/

theorem isGenerated_printMarked (v : Validator) : isGenerated v.printMarked = true := by
  unfold isGenerated Text.contains
  rw [Bool.and_eq_true, Text.occursIn_eq_true_iff, Text.occursIn_eq_true_iff, printMarked_toList]
  exact ⟨⟨[], ' ' :: (v.chars ++ [' ']) ++ Validator.endMarker.toList, by simp⟩,
    ⟨Validator.beginMarker.toList ++ ' ' :: (v.chars ++ [' ']), [], by simp⟩⟩

theorem insertedCall_ne_empty (v : Validator) : insertedCall v ≠ "" := by
  intro h
  have hlist := congrArg String.toList h
  rw [insertedCall_toList] at hlist
  cases hlist

/-- An insertion of something changes the text. -/
theorem keepsText_insert {text inserted : String} (hinserted : inserted ≠ "") (position : Nat) :
    (Edit.insert position inserted).keepsText text = false := by
  have hslice : ∀ cs k, Text.sliceChars? cs position position = some k → k = [] := by
    intro cs k h
    unfold Text.sliceChars? at h
    rw [if_pos (Nat.le_refl position), Nat.sub_self] at h
    split at h
    · next rest _ =>
      cases rest <;> exact (Option.some.inj h).symm
    · cases h
  unfold Edit.keepsText
  rw [beq_eq_false_iff_ne]
  intro h
  obtain ⟨k, hk, rfl⟩ := Option.map_eq_some_iff.mp h
  rw [hslice _ k hk] at hinserted
  exact hinserted rfl

theorem changes_eq_false_iff (f : File) (x : Finding) : x.changes f = false ↔ Settled f x := by
  unfold Finding.changes Settled Finding.splice
  rw [Bool.not_eq_false']
  cases x.strategy with
  | insertAfterInput input =>
    constructor
    · intro h
      rw [show ((Strategy.insertAfterInput input).splice f x.validator).edit.keepsText f.text = false from
        keepsText_insert (insertedCall_ne_empty _) _] at h
      cases h
    · rintro ⟨o, h, -⟩
      cases h
  | insertBeforeTerminal terminal =>
    constructor
    · intro h
      rw [show ((Strategy.insertBeforeTerminal terminal).splice f x.validator).edit.keepsText f.text = false from
        keepsText_insert (insertedCall_ne_empty _) _] at h
      cases h
    · rintro ⟨o, h, -⟩
      cases h
  | replaceOutput output =>
    constructor
    · intro h
      exact ⟨output, rfl, beq_iff_eq.mp h⟩
    · rintro ⟨o, h, hslice⟩
      cases h
      exact beq_iff_eq.mpr hslice

/-- Generated text is not taken for written by hand. -/
theorem Settled.replacedHandwritten (h : Settled f x) : (x.splice f).replacedHandwritten = false := by
  obtain ⟨o, hstrategy, hslice⟩ := h
  unfold Finding.splice
  rw [hstrategy]
  unfold Strategy.splice
  simp only
  rw [hslice]
  simp [isGenerated_printMarked]

theorem edits_of_settled {xs : List Finding} (h : ∀ x ∈ xs, Settled f x) : (Progress.of f xs).edits = [] := by
  rw [edits_of, List.map_eq_nil_iff, List.filter_eq_nil_iff]
  intro x hx
  rw [(changes_eq_false_iff f x).mpr (h x hx)]
  exact Bool.false_ne_true

/-! ### A file -/

variable {p : Project} {index : Nat} {settings : Settings}

/-- A file is left alone if and only if all its findings are settled. -/
theorem unchanged_iff_settled {report : FileReport} (h : (reportOnFile p index settings).1 = .ok report) :
    ∃ xs, found p index settings = .ok xs ∧
      ((∀ r ∈ report.procedures, r.changed = false) ↔ ∀ x ∈ xs, Settled (p.file index) x) ∧
      ((∀ r ∈ report.procedures, r.changed = false) →
        report.output = none ∧ ∀ r ∈ report.procedures, r.replacedHandwritten = false) := by
  rw [reportOnFile_eq_found] at h
  obtain ⟨xs, hxs, h⟩ := Synthesis.exists_of_bind_eq_ok h
  obtain ⟨output, houtput, h⟩ := Synthesis.exists_of_bind_eq_ok h
  cases h
  have hreports : (reportOf (p.file index) (.of (p.file index) xs) output).procedures =
      xs.map (·.report (p.file index)) := reports_of _ xs
  have hsettled : (∀ r ∈ xs.map (·.report (p.file index)), r.changed = false) ↔
      ∀ x ∈ xs, Settled (p.file index) x := by
    rw [List.forall_mem_map]
    exact forall₂_congr fun x _ => changes_eq_false_iff (p.file index) x
  rw [hreports]
  refine ⟨xs, hxs, hsettled, fun hchanged => ?_⟩
  have hall := hsettled.mp hchanged
  refine ⟨?_, ?_⟩
  · rw [edits_of_settled hall] at houtput
    cases houtput
    rfl
  · rw [List.forall_mem_map]
    exact fun x hx => (hall x hx).replacedHandwritten

end SchemaSplice.Pass
