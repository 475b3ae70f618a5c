import SchemaSplice.Text.Quoted
/-!
# Reading back quoted text

The escapes of JSON are more than those that are resolved when a quoted token is read: an escape without a name there stands
for the character after the backslash. So a string comes back from its JSON form if and only if it needs none of the
others, that is, if its only control characters are tabs, line feeds and carriage returns.
-/

namespace SchemaSplice.Text

variable {c : Char}

/-! ### Resolving escapes -/

theorem resolveEscapes_cons (hc : c ≠ '\\') (cs : List Char) : resolveEscapes (c :: cs) = c :: resolveEscapes cs := by
  rw [resolveEscapes.eq_def]
  split
  · next heq => cases heq
  · next heq =>
    cases heq
    exact absurd rfl hc
  · next heq =>
    cases heq
    exact absurd rfl hc
  · next heq =>
    cases heq
    rfl

theorem resolveEscapes_append {cs : List Char} (hcs : ∀ c ∈ cs, c ≠ '\\') (rest : List Char) :
    resolveEscapes (cs ++ rest) = cs ++ resolveEscapes rest := by
  induction cs with
  | nil => rfl
  | cons c cs ih =>
    obtain ⟨hc, hcs⟩ := List.forall_mem_cons.mp hcs
    rw [List.cons_append, resolveEscapes_cons hc, ih hcs, List.cons_append]

/-- The content of a token stands between its first and its last byte. -/
theorem unquoteChars_enclosed {quote : Char} (hquote : quote.utf8Size = 1) (body : List Char) :
    unquoteChars (quote :: (body ++ [quote])) = resolveEscapes body := by
  have hone : byteCount [quote] = 1 := by rw [byteCount_cons, hquote, byteCount_nil]
  have hlength : byteCount (quote :: (body ++ [quote])) - 1 = 1 + byteCount body := by
    rw [byteCount_cons, byteCount_append, hone, hquote]
    omega
  have hfront := splitAt?_byteCount [quote] (body ++ [quote])
  rw [hone, List.singleton_append] at hfront
  have hslice : sliceChars? (quote :: (body ++ [quote])) 1 (1 + byteCount body) = some body := by
    rw [sliceChars?, if_pos (Nat.le_add_right _ _), hfront]
    simp only [Nat.add_sub_cancel_left, splitAt?_byteCount, Option.map_some]
  rw [unquoteChars, hlength, hslice, Option.getD_some]

/-! ### Escapes of JSON -/

/-- Characters that come back from their JSON form. -/
def ComesBack (c : Char) : Prop := c.toNat < 0x20 → c = '\t' ∨ c = '\n' ∨ c = '\r'

/-- What stands after a written character is read as if it stood alone. -/
theorem resolveEscapes_escapeJson (c : Char) (rest : List Char) :
    resolveEscapes (escapeJson c ++ rest) = resolveEscapes (escapeJson c) ++ resolveEscapes rest := by
  have hdigit : ∀ n < 16, hexDigit n ≠ '\\' := by decide
  unfold escapeJson
  split
  · rfl
  · rfl
  · rfl
  · rfl
  · rfl
  next hbackslash _ _ _ =>
  split
  · rfl
  split
  · rfl
  split
  · have hdigits : ∀ d ∈ ['0', '0', hexDigit (c.toNat / 16), hexDigit (c.toNat % 16)], d ≠ '\\' := by
      simp only [List.forall_mem_cons]
      exact ⟨by decide, by decide, hdigit _ (by omega), hdigit _ (Nat.mod_lt _ (by decide)), by simp⟩
    have hletter : ∀ l, resolveEscapes ('\\' :: 'u' :: l) = 'u' :: resolveEscapes l := fun _ => rfl
    have halone := resolveEscapes_append hdigits []
    rw [List.append_nil, resolveEscapes, List.append_nil] at halone
    rw [List.cons_append, List.cons_append, hletter, hletter, resolveEscapes_append hdigits, halone]
    rfl
  · have hne : c ≠ '\\' := fun h => hbackslash h
    rw [List.singleton_append, resolveEscapes_cons hne, resolveEscapes_cons hne]
    rfl

theorem resolveEscapes_of_comesBack (hc : ComesBack c) : resolveEscapes (escapeJson c) = [c] := by
  unfold escapeJson
  split
  · rfl
  · rfl
  · rfl
  · rfl
  · rfl
  next hbackslash hfeed hreturn htab =>
  have hplain : ¬c.toNat < 0x20 := by
    intro hlow
    rcases hc hlow with h | h | h
    · exact htab h
    · exact hfeed h
    · exact hreturn h
  rw [if_neg, if_neg, if_neg hplain, resolveEscapes_cons fun h => hbackslash h]
  · rfl
  · intro h
    rw [beq_iff_eq] at h
    omega
  · intro h
    rw [beq_iff_eq] at h
    omega

/-- Any other control character comes back as a letter. -/
theorem head_of_not_comesBack (hc : ¬ComesBack c) : ∃ d l, resolveEscapes (escapeJson c) = d :: l ∧ d ≠ c := by
  obtain ⟨hlow, hother⟩ := Classical.not_imp.mp hc
  have hletter : ∀ d : Char, 0x20 ≤ d.toNat → d ≠ c := by
    rintro d hd rfl
    omega
  unfold escapeJson
  split
  · exact absurd hlow (by decide)
  · exact absurd hlow (by decide)
  · exact absurd (Or.inr (Or.inl rfl)) hother
  · exact absurd (Or.inr (Or.inr rfl)) hother
  · exact absurd (Or.inl rfl) hother
  split
  · exact ⟨'b', [], rfl, hletter 'b' (by decide)⟩
  split
  · exact ⟨'f', [], rfl, hletter 'f' (by decide)⟩
  exact ⟨'u', _, rfl, hletter 'u' (by decide)⟩

theorem resolveEscapes_flatMap_escapeJson (cs : List Char) :
    resolveEscapes (cs.flatMap escapeJson) = cs.flatMap fun c => resolveEscapes (escapeJson c) := by
  induction cs with
  | nil => rfl
  | cons c cs ih => rw [List.flatMap_cons, resolveEscapes_escapeJson, ih, List.flatMap_cons]

/-- The first character that does not come back makes the difference, whatever follows it. -/
theorem resolveEscapes_eq_self_iff (cs : List Char) :
    resolveEscapes (cs.flatMap escapeJson) = cs ↔ ∀ c ∈ cs, ComesBack c := by
  rw [resolveEscapes_flatMap_escapeJson]
  induction cs with
  | nil => simp
  | cons c cs ih =>
    rw [List.flatMap_cons, List.forall_mem_cons]
    by_cases hc : ComesBack c
    · rw [resolveEscapes_of_comesBack hc, List.singleton_append, List.cons.injEq, and_iff_right rfl, ih,
        and_iff_right hc]
    · obtain ⟨d, l, hd, hne⟩ := head_of_not_comesBack hc
      rw [hd, List.cons_append, List.cons.injEq]
      exact ⟨fun h => absurd h.1 hne, fun h => absurd h.1 hc⟩

/-- A string is read back from its JSON form if and only if its only control characters are tabs, line feeds and carriage
returns. -/
theorem unquote_quoteJson_iff (s : String) :
    unquote (quoteJson s) = s ↔ ∀ c ∈ s.toList, c.toNat < 0x20 → c = '\t' ∨ c = '\n' ∨ c = '\r' := by
  have hcontent : unquoteChars (quoteJson s).toList = resolveEscapes (s.toList.flatMap escapeJson) := by
    rw [quoteJson, String.toList_ofList, quoteJsonChars, List.cons_append, unquoteChars_enclosed rfl]
  rw [unquote, hcontent, ← String.toList_inj, String.toList_ofList]
  exact resolveEscapes_eq_self_iff s.toList

/-- A backspace comes back as the letter that its escape is written with. -/
example : unquote (quoteJson "a\x08") = "ab" := by cbv

end SchemaSplice.Text
