import SchemaSplice.Proofs.Grammar.Numerals
import SchemaSplice.Proofs.Printing.Unquoting
import SchemaSplice.Proofs.Splice.Places
/-!
# Tokens of a spelled text

A token is steady if the scanner finds it whatever stands after it, as long as that begins with a space or a semicolon or is
nothing at all. Steady tokens with spaces between them are found again in the text. The tokens of a type are steady and
their brackets match.
-/

namespace SchemaSplice.Source

open Annotation

/-! ### Steady tokens -/

/-- A text that continues no token: it is empty or begins with a space or a semicolon. -/
def Stops (r : List Char) : Prop := ∀ c, r.head? = some c → c = ' ' ∨ c = ';'

theorem Stops.nil : Stops [] := fun _ h => nomatch h

theorem Stops.space (r : List Char) : Stops (' ' :: r) := by
  intro c hc
  cases hc
  exact Or.inl rfl

theorem Stops.semi (r : List Char) : Stops (';' :: r) := by
  intro c hc
  cases hc
  exact Or.inr rfl

theorem Stops.head_ne {r : List Char} (h : Stops r) {c : Char} (hc : c ≠ ' ' ∧ c ≠ ';') : r.head? ≠ some c := by
  intro hhead
  rcases h c hhead with rfl | rfl
  · exact hc.1 rfl
  · exact hc.2 rfl

/-- A token that is found before any text that continues no token. -/
structure Steady (w : Lexeme) : Prop where
  significant : w.1.isComment = false
  scanned : ∃ c body, w.2.toList = c :: body ∧ isSpace c = false ∧
    ∀ r, Stops r → lexeme c (body ++ r) = (w.1, body.length)

theorem spanLength_stops {p : Char → Bool} (hp : p ' ' = false ∧ p ';' = false) (u : List Char) {r : List Char}
    (hr : Stops r) : spanLength p (u ++ r) = spanLength p u := by
  induction u with
  | nil =>
    cases r with
    | nil => rfl
    | cons c r =>
      rw [List.nil_append, spanLength_cons, if_neg]
      · rfl
      · rcases hr c rfl with rfl | rfl
        · simp [hp.1]
        · simp [hp.2]
  | cons c u ih => rw [List.cons_append, spanLength_cons, spanLength_cons, ih]

theorem spanLength_of_all {p : Char → Bool} {u : List Char} (h : u.all p = true) : spanLength p u = u.length := by
  induction u with
  | nil => rfl
  | cons c u ih =>
    rw [List.all_cons, Bool.and_eq_true] at h
    rw [spanLength_cons, if_pos h.1, ih h.2, List.length_cons]

theorem steady_sign {k : Kind} (hk : k.sign ≠ "") : Steady (sign k) := by
  cases k with
  | lparen => exact ⟨rfl, _, [], rfl, rfl, fun _ _ => rfl⟩
  | rparen => exact ⟨rfl, _, [], rfl, rfl, fun _ _ => rfl⟩
  | lbrace => exact ⟨rfl, _, [], rfl, rfl, fun _ _ => rfl⟩
  | rbrace => exact ⟨rfl, _, [], rfl, rfl, fun _ _ => rfl⟩
  | lbracket => exact ⟨rfl, _, [], rfl, rfl, fun _ _ => rfl⟩
  | rbracket => exact ⟨rfl, _, [], rfl, rfl, fun _ _ => rfl⟩
  | ellipsis => exact ⟨rfl, _, ['.', '.'], rfl, rfl, fun _ _ => rfl⟩
  | comma => exact ⟨rfl, _, [], rfl, rfl, fun _ _ => rfl⟩
  | semi => exact ⟨rfl, _, [], rfl, rfl, fun _ _ => rfl⟩
  | colon => exact ⟨rfl, _, [], rfl, rfl, fun _ _ => rfl⟩
  | question => exact ⟨rfl, _, [], rfl, rfl, fun _ hr => lexeme_question (hr.head_ne (by decide))⟩
  | fatArrow => exact ⟨rfl, _, ['>'], rfl, rfl, fun _ _ => rfl⟩
  | pipe => exact ⟨rfl, _, [], rfl, rfl, fun _ _ => rfl⟩
  | amp => exact ⟨rfl, _, [], rfl, rfl, fun _ _ => rfl⟩
  | minus => exact ⟨rfl, _, [], rfl, rfl, fun _ _ => rfl⟩
  | _ => exact absurd rfl hk

theorem sign_ne_of_closer? {o c : Kind} (h : o.closer? = some c) : o.sign ≠ "" ∧ c.sign ≠ "" := by
  unfold Kind.closer? at h
  split at h <;> cases h <;> decide

theorem isSpace_eq_false_of_isIdentPart {c : Char} (h : isIdentPart c = true) : isSpace c = false := by
  have hne : ∀ d, isIdentPart d = false → c ≠ d := by
    rintro d hd rfl
    rw [h] at hd
    cases hd
  have hformFeed : c.toNat ≠ 0x0C := by
    intro hc
    exact hne (Char.ofNat 0x0C) (by decide) (by rw [← hc, Char.ofNat_toNat])
  simp only [isSpace, Bool.or_eq_false_iff, beq_eq_false_iff_ne]
  exact ⟨⟨⟨⟨hne _ rfl, hne _ rfl⟩, hne _ rfl⟩, hne _ rfl⟩, hformFeed⟩

theorem steady_ident {name : String} (h : isIdentifier name = true) : Steady (.ident, name) := by
  unfold isIdentifier at h
  split at h
  · cases h
  · next c cs hname =>
    rw [Bool.and_eq_true] at h
    refine ⟨rfl, c, cs, hname, isSpace_eq_false_of_isIdentPart (by rw [isIdentPart, h.1, Bool.true_or]), fun r hr => ?_⟩
    rw [lexeme_of_isIdentStart h.1, spanLength_stops (by decide) cs hr, spanLength_of_all h.2]

/-! ### Quoted strings -/

theorem escapeQuoted_plain {c : Char} (h : c ≠ '\'' ∧ c ≠ '\\' ∧ c ≠ '\n') : escapeQuoted c = [c] := by
  unfold escapeQuoted
  split
  · exact absurd rfl h.1
  · exact absurd rfl h.2.1
  · exact absurd rfl h.2.2
  · rfl

/-- The quote after an escaped string is the first one that ends it. -/
theorem quotedBody_escapeQuoted (cs r : List Char) :
    quotedBody '\'' false (cs.flatMap escapeQuoted ++ '\'' :: r) = ((cs.flatMap escapeQuoted).length, true) := by
  induction cs with
  | nil =>
    rw [List.flatMap_nil, List.nil_append, quotedBody_cons _ _ (by decide), if_pos rfl]
    rfl
  | cons c cs ih =>
    rw [List.flatMap_cons, List.append_assoc, List.length_append]
    by_cases hplain : c ≠ '\'' ∧ c ≠ '\\' ∧ c ≠ '\n'
    · rw [escapeQuoted_plain hplain, List.cons_append, List.nil_append, quotedBody_cons _ _ hplain.2.1,
        if_neg hplain.1, if_neg fun h => hplain.2.2 h.1, ih, List.length_singleton, Nat.add_comm]
    · have hescaped : ∃ d, escapeQuoted c = ['\\', d] ∧ d ≠ '\n' := by
        simp only [ne_eq, not_and_or, Decidable.not_not] at hplain
        rcases hplain with rfl | rfl | rfl
        · exact ⟨'\'', rfl, by decide⟩
        · exact ⟨'\\', rfl, by decide⟩
        · exact ⟨'n', rfl, by decide⟩
      obtain ⟨d, hd, hne⟩ := hescaped
      rw [hd, List.cons_append, List.cons_append, List.nil_append, quotedBody_escape, if_neg hne, ih]
      simp only [List.length_cons, List.length_nil, Nat.add_comm]

theorem steady_quoted (value : String) : Steady (.str, quoted value) := by
  refine ⟨rfl, '\'', value.toList.flatMap escapeQuoted ++ ['\''], String.toList_ofList, rfl, fun r _ => ?_⟩
  rw [List.append_assoc, List.singleton_append, lexeme_quote rfl, quotedBody_escapeQuoted, if_pos rfl,
    List.length_append, List.length_singleton]

theorem resolveEscapes_escapeQuoted (cs : List Char) : Text.resolveEscapes (cs.flatMap escapeQuoted) = cs := by
  induction cs with
  | nil => rfl
  | cons c cs ih =>
    rw [List.flatMap_cons]
    by_cases hplain : c ≠ '\'' ∧ c ≠ '\\' ∧ c ≠ '\n'
    · rw [escapeQuoted_plain hplain, List.singleton_append, Text.resolveEscapes_cons hplain.2.1, ih]
    · simp only [ne_eq, not_and_or, Decidable.not_not] at hplain
      rcases hplain with rfl | rfl | rfl
      all_goals
        show _ :: Text.resolveEscapes (cs.flatMap escapeQuoted) = _
        rw [ih]
        rfl

/-- A quoted string stands for the string. -/
theorem unquote_quoted (value : String) : Text.unquote (quoted value) = value := by
  rw [Text.unquote, quoted, String.toList_ofList, List.cons_append, Text.unquoteChars_enclosed rfl,
    resolveEscapes_escapeQuoted, String.ofList_toList]

/-! ### Numbers -/

theorem isIdentStart_eq_false_of_isDigit {c : Char} (h : c.isDigit = true) : isIdentStart c = false := by
  simp only [Char.isDigit, Bool.and_eq_true, decide_eq_true_eq, ge_iff_le] at h
  obtain ⟨hlow, hhigh⟩ := h
  rw [UInt32.le_iff_toNat_le] at hlow hhigh
  have hne : ∀ d : Char, 57 < d.val.toNat → c ≠ d := by
    rintro d hd rfl
    exact absurd hhigh (Nat.not_le_of_lt hd)
  have hlt : ∀ d : Char, 57 < d.val.toNat → ¬ d ≤ c := fun d hd hle => by
    rw [Char.le_def, UInt32.le_iff_toNat_le] at hle
    exact absurd (Nat.le_trans hle hhigh) (Nat.not_le_of_lt hd)
  simp only [isIdentStart, Bool.or_eq_false_iff, Bool.and_eq_false_iff, decide_eq_false_iff_not,
    beq_eq_false_iff_ne]
  refine ⟨⟨⟨Or.inl (hlt _ (by decide)), Or.inl (hlt _ (by decide))⟩, hne _ (by decide)⟩, ?_⟩
  rintro rfl
  exact absurd hlow (by decide)

theorem isSpace_eq_false_of_isDigit {c : Char} (h : c.isDigit = true) : isSpace c = false :=
  isSpace_eq_false_of_isIdentPart (isIdentPart_of_isDigit h)

theorem fractionLength_stops (u : List Char) {r : List Char} (hr : Stops r) :
    fractionLength (u ++ r) = fractionLength u := by
  have hstop : ∀ {c : Char}, c = ' ' ∨ c = ';' → c ≠ '.' ∧ c.isDigit = false := by
    rintro c (rfl | rfl)
    · decide
    · decide
  cases u with
  | nil =>
    cases r with
    | nil => rfl
    | cons c r => exact fractionLength_of_ne (hstop (hr c rfl)).1 r
  | cons a u =>
    by_cases ha : a = '.'
    · subst ha
      cases u with
      | nil =>
        cases r with
        | nil => rfl
        | cons c r =>
          rw [List.singleton_append, fractionLength_point, (hstop (hr c rfl)).2]
          rfl
      | cons d u =>
        rw [List.cons_append, List.cons_append, fractionLength_point, fractionLength_point,
          spanLength_stops (by decide) u hr]
    · rw [List.cons_append, fractionLength_of_ne ha, fractionLength_of_ne ha]

theorem signLength_stops (u : List Char) {r : List Char} (hr : Stops r) : signLength (u ++ r) = signLength u := by
  cases u with
  | nil =>
    cases r with
    | nil => rfl
    | cons c r => rcases hr c rfl with rfl | rfl <;> rfl
  | cons a u => rfl

theorem exponentLength_stops (u : List Char) {r : List Char} (hr : Stops r) :
    exponentLength (u ++ r) = exponentLength u := by
  cases u with
  | nil =>
    cases r with
    | nil => rfl
    | cons c r => rcases hr c rfl with rfl | rfl <;> rfl
  | cons e u =>
    rw [List.cons_append]
    by_cases he : e = 'e' ∨ e = 'E'
    · rw [exponentLength_of_eq he, exponentLength_of_eq he, signLength_stops u hr]
      have hle : signLength u ≤ u.length := by
        cases u with
        | nil => exact Nat.le_refl 0
        | cons a u => exact Nat.le_trans (signLength_le _) (Nat.le_add_left 1 _)
      rw [List.drop_append_of_le_length hle, spanLength_stops (by decide) _ hr]
    · rw [exponentLength_of_ne (not_or.mp he), exponentLength_of_ne (not_or.mp he)]

theorem hexLength_stops (d : Char) (u : List Char) {r : List Char} (hr : Stops r) :
    hexLength d (u ++ r) = hexLength d u := by
  cases u with
  | nil =>
    cases r with
    | nil => rfl
    | cons c r => rcases hr c rfl with rfl | rfl <;> simp [hexLength]
  | cons x u =>
    simp only [List.cons_append, hexLength]
    rw [spanLength_stops (by decide) u hr]

theorem fractionLength_le (cs : List Char) : fractionLength cs ≤ cs.length := by
  unfold fractionLength
  split
  · next d cs =>
    have := spanLength_le isDigitPart cs
    split
    · simp only [List.length_cons]
      omega
    · exact Nat.zero_le _
  · exact Nat.zero_le _

/-- A number is read in the same way before a text that continues no token. -/
theorem numberLexeme_stops (d : Char) (u : List Char) {r : List Char} (hr : Stops r) :
    numberLexeme d (u ++ r) = numberLexeme d u := by
  have hhead : ∀ v : List Char, (v ++ r).head? = some 'n' ↔ v.head? = some 'n' := by
    intro v
    cases v with
    | nil => exact iff_of_false (hr.head_ne (by decide)) (by simp)
    | cons a v => exact Iff.rfl
  have hdrop : (u ++ r).drop (spanLength isDigitPart u) = u.drop (spanLength isDigitPart u) ++ r :=
    List.drop_append_of_le_length (spanLength_le isDigitPart u)
  rw [numberLexeme_eq, numberLexeme_eq, hexLength_stops d u hr, spanLength_stops (by decide) u hr, hdrop]
  simp only [hhead]
  rw [fractionLength_stops _ hr, List.drop_append_of_le_length (fractionLength_le _), exponentLength_stops _ hr]

theorem steady_numeral (n : Numeral) : Steady (.number, n.text) := by
  obtain ⟨c, body, hchars, hdigit, hscanned⟩ := n.scanned
  refine ⟨rfl, c, body, String.toList_ofList.trans hchars, isSpace_eq_false_of_isDigit hdigit, fun r hr => ?_⟩
  rw [lexeme_of_isDigit (isIdentStart_eq_false_of_isDigit hdigit) hdigit, numberLexeme_stops _ _ hr, hscanned]

theorem steady_bigNumeral (n : BigNumeral) : Steady (.bigInt, n.text) := by
  refine ⟨rfl, n.first, n.rest ++ ['n'], String.toList_ofList, isSpace_eq_false_of_isDigit n.isDigit_first,
    fun r hr => ?_⟩
  rw [lexeme_of_isDigit (isIdentStart_eq_false_of_isDigit n.isDigit_first) n.isDigit_first, numberLexeme_stops _ _ hr,
    BigNumeral.scanned, List.length_append, List.length_singleton]

/-! ### Phrases -/

/-- Steady tokens whose brackets match. -/
inductive Phrase : List Lexeme → Prop
  | nil : Phrase []
  | plain {w : Lexeme} {ws : List Lexeme} (hw : Steady w) (hopens : w.1.opens = false) (hcloses : w.1.closes = false)
      (h : Phrase ws) : Phrase (w :: ws)
  | between {o c : Kind} {ws vs : List Lexeme} (hoc : o.closer? = some c) (h : Phrase ws) (h' : Phrase vs) :
      Phrase (sign o :: ws ++ sign c :: vs)

namespace Phrase

variable {ws vs : List Lexeme}

theorem append (h : Phrase ws) (h' : Phrase vs) : Phrase (ws ++ vs) := by
  induction h with
  | nil => exact h'
  | plain hw hopens hcloses _ ih => exact .plain hw hopens hcloses ih
  | between hoc h _ _ ih =>
    rw [List.append_assoc, List.cons_append]
    exact .between hoc h ih

theorem steady (h : Phrase ws) : ∀ w ∈ ws, Steady w := by
  induction h with
  | nil => simp
  | plain hw _ _ _ ih =>
    intro w hmem
    rcases List.mem_cons.mp hmem with rfl | hmem
    · exact hw
    · exact ih w hmem
  | @between o c ws vs hoc _ _ ih ih' =>
    intro w hmem
    rw [List.cons_append, List.mem_cons, List.mem_append, List.mem_cons] at hmem
    rcases hmem with rfl | hmem | rfl | hmem
    · exact steady_sign (sign_ne_of_closer? hoc).1
    · exact ih w hmem
    · exact steady_sign (sign_ne_of_closer? hoc).2
    · exact ih' w hmem

theorem ident {name : String} (h : isIdentifier name = true) : Phrase [(.ident, name)] :=
  .plain (steady_ident h) rfl rfl .nil

/-- A sign that is no bracket. -/
theorem sign {k : Kind} (hk : k.sign ≠ "") (hopens : k.opens = false) (hcloses : k.closes = false) (h : Phrase ws) :
    Phrase (Source.sign k :: ws) :=
  .plain (steady_sign hk) hopens hcloses h

theorem enclosed (least : Nat) (e : TypeExpr) (h : Phrase ws) : Phrase (enclosed least e ws) := by
  unfold Annotation.enclosed
  split
  · exact .between rfl h .nil
  · exact h

theorem enclose (mark : ElementMark) (h : Phrase ws) : Phrase (mark.enclose ws) := by
  cases mark with
  | required => exact h
  | optional => exact h.append (.sign (by decide) rfl rfl .nil)
  | spread => exact .sign (by decide) rfl rfl h

theorem separator (sep : Separators) : Phrase [Source.sign sep.separator] := by
  rcases sep.isSeparator with h | h
  · rw [h]
    exact .sign (by decide) rfl rfl .nil
  · rw [h]
    exact .sign (by decide) rfl rfl .nil

theorem after (sep : Separators) {α : Type} (rest : List α) : Phrase (sep.after rest) := by
  cases rest with
  | nil =>
    rw [Separators.after]
    split
    · exact separator sep
    · exact .nil
  | cons a rest => exact separator sep

end Phrase

/-- Operators between members. -/
def IsOperator (k : Kind) : Prop := k = .amp ∨ k = .pipe

theorem Phrase.operator {k : Kind} (hk : IsOperator k) {ws : List Lexeme} (h : Phrase ws) : Phrase (Source.sign k :: ws) := by
  rcases hk with rfl | rfl
  · exact .sign (by decide) rfl rfl h
  · exact .sign (by decide) rfl rfl h

mutual

/-- The tokens of a type are steady and their brackets match. -/
theorem phrase_tokens (sep : Separators) : ∀ e : TypeExpr, Phrase (e.tokens sep)
  | .primitive p => .ident (by cases p <;> rfl)
  | .flag value => .ident (by cases value <;> rfl)
  | .text value => .plain (steady_quoted value) rfl rfl .nil
  | .number negative n => by
    have hnumber : Phrase [(.number, n.text)] := .plain (steady_numeral n) rfl rfl .nil
    cases negative with
    | false => exact hnumber
    | true => exact .sign (by decide) rfl rfl hnumber
  | .bigInt n => .plain (steady_bigNumeral n) rfl rfl .nil
  | .array element => (Phrase.enclosed 2 element (phrase_tokens sep element)).append (.between rfl Phrase.nil .nil)
  | .tuple elements => .between rfl (phrase_elementTokens sep elements) .nil
  | .object fields => .between rfl (phrase_fieldTokens sep fields) .nil
  | .function result => .between rfl Phrase.nil (.sign (by decide) rfl rfl (phrase_tokens sep result))
  | .intersection first second rest =>
    (Phrase.enclosed 2 first (phrase_tokens sep first)).append
      (.operator (Or.inl rfl) ((Phrase.enclosed 2 second (phrase_tokens sep second)).append
        (phrase_memberTokens sep (Or.inl rfl) 2 rest)))
  | .union first second rest =>
    (Phrase.enclosed 1 first (phrase_tokens sep first)).append
      (.operator (Or.inr rfl) ((Phrase.enclosed 1 second (phrase_tokens sep second)).append
        (phrase_memberTokens sep (Or.inr rfl) 1 rest)))

theorem phrase_memberTokens (sep : Separators) {operator : Kind} (hoperator : IsOperator operator) (least : Nat) :
    ∀ es : List TypeExpr, Phrase (memberTokens sep operator least es)
  | [] => .nil
  | e :: rest =>
    .operator hoperator ((Phrase.enclosed least e (phrase_tokens sep e)).append
      (phrase_memberTokens sep hoperator least rest))

theorem phrase_elementTokens (sep : Separators) :
    ∀ es : List (ElementMark × TypeExpr), Phrase (elementTokens sep es)
  | [] => .nil
  | (mark, e) :: rest => by
    refine (Phrase.enclose mark (phrase_tokens sep e)).append ?_
    have hrest := phrase_elementTokens sep rest
    split
    · exact .nil
    · exact .sign (by decide) rfl rfl hrest

theorem phrase_fieldTokens (sep : Separators) : ∀ fs : List (TypedProperty TypeExpr), Phrase (fieldTokens sep fs)
  | [] => .nil
  | ⟨key, isOptional, e⟩ :: rest => by
    have htail := (phrase_tokens sep e).append ((Phrase.after sep rest).append (phrase_fieldTokens sep rest))
    have htyped : Phrase (Source.sign .colon :: (e.tokens sep ++ (sep.after rest ++ fieldTokens sep rest))) :=
      .sign (by decide) rfl rfl htail
    refine .plain (steady_ident key.2) rfl rfl ?_
    cases isOptional with
    | false => exact htyped
    | true => exact .sign (by decide) rfl rfl htyped

end

/-! ### Spelled texts -/

/-- Steady tokens with spaces between them are found in the text. -/
theorem scans_spelled {ws : List Lexeme} (h : ∀ w ∈ ws, Steady w) {r : List Char} (hr : Stops r) :
    Scans ((" ".intercalate (ws.map (·.2))).toList ++ r) ws r := by
  induction ws with
  | nil => exact .stop r
  | cons w ws ih =>
    obtain ⟨-, c, body, htext, hspace, hlexeme⟩ := h w List.mem_cons_self
    have hfirst : ∀ {r' : List Char}, Stops r' → Scans r' ws r → Scans (w.2.toList ++ r') (w :: ws) r := by
      intro r' hr' hrest
      have hrun := Scans.of_lexeme hspace (hlexeme r' hr') hrest
      rw [← htext, String.ofList_toList] at hrun
      rw [htext]
      exact hrun
    cases ws with
    | nil =>
      rw [List.map_singleton, String.toList_intercalate, List.map_singleton, List.intercalate_singleton]
      exact hfirst hr (.stop r)
    | cons v ws =>
      have hrest := ih fun w hw => h w (List.mem_cons_of_mem _ hw)
      rw [String.toList_intercalate] at hrest ⊢
      simp only [List.map_cons, List.intercalate_cons_cons, List.append_assoc] at hrest ⊢
      exact hfirst (.space _) (.space rfl hrest)

end SchemaSplice.Source
