/-!
# Searching text
-/

namespace SchemaSplice.Text

def occursIn (part : List Char) : List Char → Bool
  | [] => part.isEmpty
  | c :: cs => part.isPrefixOf (c :: cs) || occursIn part cs

def contains (text part : String) : Bool := occursIn part.toList text.toList

theorem occursIn_eq_true_iff {part cs : List Char} :
    occursIn part cs = true ↔ ∃ a b, cs = a ++ part ++ b := by
  induction cs with
  | nil =>
    simp only [occursIn, List.isEmpty_iff]
    constructor
    · rintro rfl
      exact ⟨[], [], rfl⟩
    · rintro ⟨a, b, h⟩
      have := congrArg List.length h
      simp only [List.length_nil, List.length_append] at this
      exact List.eq_nil_of_length_eq_zero (by omega)
  | cons c cs ih =>
    simp only [occursIn, Bool.or_eq_true, List.isPrefixOf_iff_prefix, ih]
    constructor
    · rintro (⟨b, hb⟩ | ⟨a, b, rfl⟩)
      · exact ⟨[], b, by simp [hb]⟩
      · exact ⟨c :: a, b, by simp⟩
    · rintro ⟨a, b, h⟩
      cases a with
      | nil => exact Or.inl ⟨b, by simpa using h.symm⟩
      | cons d a =>
        simp only [List.cons_append, List.cons.injEq] at h
        exact Or.inr ⟨a, b, h.2⟩

end SchemaSplice.Text
