import SchemaSplice.Proofs.Grammar.Forms
import SchemaSplice.Proofs.Splice.Locality
import SchemaSplice.Proofs.Splice.Seams
/-!
# Written numbers

A number as it is written is one numeric token, and what the token stands for is the number nearest to what its digits say.
-/

namespace SchemaSplice.Annotation

open Source Binary64

/-! ### Characters -/

theorem isDigitPart_iff {c : Char} : isDigitPart c = true ↔ c.isDigit = true ∨ c = '_' := by
  rw [isDigitPart, Bool.or_eq_true, beq_iff_eq]

theorem isHexPart_of_isHexDigit {c : Char} (h : isHexDigit c = true) : isHexPart c = true := by
  unfold isHexDigit hexValue? at h
  unfold isHexPart
  split at h
  · next h' => simp [h']
  · split at h
    · next h' => simp_all
    · split at h
      · next h' => simp_all
      · cases h

/-- A digit is none of the other characters of a number. -/
theorem ne_of_isDigit {c d : Char} (h : c.isDigit = true) (hd : d.isDigit = false) : c ≠ d := by
  rintro rfl
  rw [h] at hd
  cases hd

namespace Digits

variable {isDigit : Char → Bool}

theorem chars_digit (d : Digits isDigit) : ∀ c ∈ d.chars, isDigit c = true ∨ c = '_' :=
  List.forall_mem_cons.mpr ⟨Or.inl d.isDigit_first, d.isDigit_rest⟩

theorem plain_digit (d : Digits isDigit) : ∀ c ∈ d.plain, isDigit c = true := by
  intro c hc
  obtain ⟨hmem, hne⟩ := List.mem_filter.mp hc
  rcases d.chars_digit c hmem with h | rfl
  · exact h
  · cases hne

/-- The first digit is no separator. -/
theorem plain_eq_cons (d : Digits isDigit) (h : isDigit '_' = false) :
    d.plain = d.first :: d.rest.filter (· != '_') := by
  have hne : d.first ≠ '_' := by
    intro heq
    rw [← heq, d.isDigit_first] at h
    cases h
  rw [plain, chars, List.filter_cons_of_pos (by simpa using hne)]

theorem isDigitPart_rest (d : Digits Char.isDigit) : ∀ c ∈ d.rest, isDigitPart c = true :=
  fun c hc => isDigitPart_iff.mpr (d.isDigit_rest c hc)

end Digits

/-! ### Numeric tokens -/

theorem spanLength_of_stop {p : Char → Bool} {u r : List Char} (hu : ∀ a ∈ u, p a = true)
    (hr : ∀ c, r.head? = some c → p c = false) : spanLength p (u ++ r) = u.length := by
  rw [spanLength_append_of_all hu]
  cases r with
  | nil => rfl
  | cons c r => rw [spanLength_cons, if_neg (by simp [hr c rfl]), Nat.add_zero]

theorem Exponent.head_chars (e? : Option Exponent) :
    ∀ c, (e?.elim [] Exponent.chars).head? = some c → c = 'e' ∨ c = 'E' := by
  intro c hc
  cases e? with
  | none => cases hc
  | some e =>
    cases hc
    exact e.isLetter

theorem Exponent.signLength_eq (e : Exponent) : signLength (e.sign?.toList ++ e.digits) = e.sign?.toList.length := by
  cases hsign : e.sign? with
  | none =>
    obtain ⟨d, ds, hdigits⟩ := List.exists_cons_of_ne_nil e.digits_ne_nil
    have hd : d.isDigit = true := e.isDigit_digits d (hdigits ▸ List.mem_cons_self)
    rw [hdigits]
    exact if_neg (by simp [ne_of_isDigit hd (show ('+').isDigit = false by decide),
      ne_of_isDigit hd (show ('-').isDigit = false by decide)])
  | some c => exact if_pos (by simpa using e.isSign c hsign)

/-- An exponent is scanned to its end. -/
theorem Exponent.exponentLength_eq (e? : Option Exponent) :
    exponentLength (e?.elim [] Exponent.chars) = (e?.elim [] Exponent.chars).length := by
  cases e? with
  | none => rfl
  | some e =>
    have hdigits : spanLength Char.isDigit e.digits = e.digits.length := by
      rw [← List.append_nil e.digits, spanLength_of_stop e.isDigit_digits (by simp), List.append_nil]
    have hne : e.digits.length ≠ 0 := fun h => e.digits_ne_nil (List.length_eq_zero_iff.mp h)
    rw [Option.elim_some, Exponent.chars, exponentLength_of_eq e.isLetter, e.signLength_eq, List.drop_left, hdigits,
      if_neg hne, List.length_cons, List.length_append]
    omega

/-- A fraction is scanned up to the exponent. -/
theorem fractionLength_eq (d? : Option (Digits Char.isDigit)) (e? : Option Exponent) :
    fractionLength ((d?.elim [] fun d => '.' :: d.chars) ++ e?.elim [] Exponent.chars) =
      (d?.elim [] fun d => '.' :: d.chars).length := by
  have hexponent := Exponent.head_chars e?
  generalize e?.elim [] Exponent.chars = cs at hexponent
  cases d? with
  | none =>
    cases cs with
    | nil => rfl
    | cons c cs =>
      refine fractionLength_of_ne ?_ cs
      rintro rfl
      rcases hexponent _ rfl with h | h <;> cases h
  | some d =>
    show fractionLength ('.' :: d.first :: (d.rest ++ cs)) = _
    rw [fractionLength_point, if_pos d.isDigit_first, spanLength_of_stop d.isDigitPart_rest]
    · show 2 + d.rest.length = d.rest.length + 1 + 1
      omega
    · intro c hc
      rcases hexponent c hc with rfl | rfl <;> decide

/-- What follows the whole digits begins with a point or a letter. -/
theorem head_afterWhole {α : Type} (chars : α → List Char) (d? : Option α) (e? : Option Exponent) :
    ∀ c, ((d?.elim [] fun d => '.' :: chars d) ++ e?.elim [] Exponent.chars).head? = some c →
      c = '.' ∨ c = 'e' ∨ c = 'E' := by
  intro c hc
  cases d? with
  | none => exact Or.inr (Exponent.head_chars e? c hc)
  | some d =>
    cases hc
    exact Or.inl rfl

/-- A digit begins no hexadecimal number when no marker follows. -/
theorem hexLength_eq_zero {d : Char} {cs : List Char} (h : ∀ c, cs.head? = some c → c ≠ 'x' ∧ c ≠ 'X') :
    hexLength d cs = 0 := by
  cases cs with
  | nil => rfl
  | cons c cs => exact if_neg (by simp [h c rfl])

theorem ne_marker_afterWhole {α : Type} (chars : α → List Char) (d? : Option α) (e? : Option Exponent) :
    ∀ c, ((d?.elim [] fun d => '.' :: chars d) ++ e?.elim [] Exponent.chars).head? = some c → c ≠ 'x' ∧ c ≠ 'X' := by
  intro c hc
  rcases head_afterWhole chars d? e? c hc with rfl | rfl | rfl <;> decide

/-- The first digit of a decimal is not followed by a marker. -/
theorem ne_marker_of_digits {ds r : List Char} (hds : ∀ c ∈ ds, c.isDigit = true ∨ c = '_')
    (hr : ∀ c, r.head? = some c → c ≠ 'x' ∧ c ≠ 'X') : ∀ c, (ds ++ r).head? = some c → c ≠ 'x' ∧ c ≠ 'X' := by
  intro c hc
  cases ds with
  | nil => exact hr c hc
  | cons d ds =>
    cases hc
    rcases hds c List.mem_cons_self with h | rfl
    · exact ⟨ne_of_isDigit h (by decide), ne_of_isDigit h (by decide)⟩
    · decide

/-- The token of a number ends where the number does. -/
theorem Numeral.scanned (n : Numeral) :
    ∃ c body, n.chars = c :: body ∧ c.isDigit = true ∧ numberLexeme c body = (.number, body.length) := by
  cases n with
  | decimal whole fraction? exponent? =>
    refine ⟨_, _, rfl, whole.isDigit_first, ?_⟩
    have hhead := head_afterWhole Digits.chars fraction? exponent?
    have hfraction := fractionLength_eq fraction? exponent?
    have hexponent := Exponent.exponentLength_eq exponent?
    have hhex := hexLength_eq_zero (d := whole.first)
      (ne_marker_of_digits whole.isDigit_rest (ne_marker_afterWhole Digits.chars fraction? exponent?))
    rw [List.append_eq, numberLexeme_eq, hhex, if_neg (by decide), spanLength_of_stop whole.isDigitPart_rest, List.drop_left,
      if_neg, hfraction, List.drop_left, hexponent, List.length_append, List.length_append, Nat.add_assoc]
    · intro heq
      rcases hhead _ heq with h | h | h <;> cases h
    · intro c hc
      rcases hhead c hc with rfl | rfl | rfl <;> decide
  | hexadecimal marker isMarker digits isSmall =>
    refine ⟨_, _, rfl, by decide, ?_⟩
    have hspan : hexLength '0' (marker :: digits.chars) = digits.chars.length := by
      rw [hexLength, if_pos (by simpa using isMarker), ← List.append_nil digits.chars, spanLength_of_stop _ (by simp),
        List.append_nil]
      intro c hc
      rcases digits.chars_digit c hc with h | rfl
      · exact isHexPart_of_isHexDigit h
      · decide
    have hne : digits.chars.length ≠ 0 := Nat.succ_ne_zero _
    rw [numberLexeme_eq, hspan, if_pos hne]
    rfl

/-- The token of a big integer ends with its letter. -/
theorem BigNumeral.scanned (n : BigNumeral) :
    numberLexeme n.first (n.rest ++ ['n']) = (.bigInt, n.rest.length + 1) := by
  have hhex := hexLength_eq_zero (d := n.first) (ne_marker_of_digits n.isDigit_rest (r := ['n']) (by rintro c ⟨⟩; decide))
  rw [numberLexeme_eq, hhex, if_neg (by decide), spanLength_of_stop n.isDigitPart_rest (by rintro c ⟨⟩; decide),
    List.drop_left, List.head?_cons, if_pos rfl]

/-! ### What a token stands for -/

/-- The digits of a big integer are what its token stands for. -/
theorem BigNumeral.read (n : BigNumeral) : bigIntDigits n.text = String.ofList n.plain := by
  have hsame : ∀ c ∈ n.chars, c.isDigit = (c != '_') := by
    intro c hc
    rcases n.chars_digit c hc with h | rfl
    · rw [h, eq_comm, bne_iff_ne]
      exact ne_of_isDigit h (by decide)
    · decide
  rw [bigIntDigits, BigNumeral.text, String.toList_ofList, List.filter_append, Digits.plain, ← List.filter_congr hsame]
  exact congrArg String.ofList (List.append_nil _)

theorem splitSign_of_isDigit {ds : List Char} (h : ∀ c ∈ ds, c.isDigit = true) : splitSign ds = (false, ds) := by
  unfold splitSign
  split
  · exact absurd (h '-' List.mem_cons_self) (by decide)
  · exact absurd (h '+' List.mem_cons_self) (by decide)
  · rfl

theorem exponent?_chars (e? : Option Exponent) :
    Binary64.exponent? (e?.elim [] Exponent.chars) = some (e?.elim 0 Exponent.value) := by
  cases e? with
  | none => rfl
  | some e =>
    have hletter : (e.letter == 'e' || e.letter == 'E') = true := by simpa using e.isLetter
    have hdigits : (e.digits.isEmpty || !e.digits.all Char.isDigit) = false := by
      rw [Bool.or_eq_false_iff, List.isEmpty_eq_false_iff, Bool.not_eq_false', List.all_eq_true]
      exact ⟨e.digits_ne_nil, e.isDigit_digits⟩
    have hsplit : splitSign (e.sign?.toList ++ e.digits) = (e.sign? == some '-', e.digits) := by
      cases hsign : e.sign? with
      | none => exact splitSign_of_isDigit e.isDigit_digits
      | some c => rcases e.isSign c hsign with rfl | rfl <;> rfl
    simp only [Option.elim_some, Exponent.chars, Binary64.exponent?, hletter, if_true, hsplit, hdigits,
      Bool.false_eq_true, if_false, Exponent.value, beq_iff_eq]

/-- Digits are taken up to what is no digit. -/
theorem span_of_stop {p : Char → Bool} {u r : List Char} (hu : ∀ a ∈ u, p a = true)
    (hr : ∀ c, r.head? = some c → p c = false) : (u ++ r).takeWhile p = u ∧ (u ++ r).dropWhile p = r := by
  rw [List.takeWhile_append_of_pos hu, List.dropWhile_append_of_pos hu]
  cases r with
  | nil => exact ⟨List.append_nil u, rfl⟩
  | cons c r =>
    have hc : ¬ p c = true := by simp [hr c rfl]
    rw [List.takeWhile_cons_of_neg hc, List.dropWhile_cons_of_neg hc]
    exact ⟨List.append_nil u, rfl⟩

/-- A decimal without separators is read as its digits say. -/
theorem unsigned?_decimal {ws : List Char} (hws : ∀ c ∈ ws, c.isDigit = true) (hne : ws ≠ [])
    {fraction? : Option (List Char)} (hfraction : ∀ ds ∈ fraction?, ∀ c ∈ ds, c.isDigit = true) (e? : Option Exponent) :
    unsigned? false (ws ++ ((fraction?.elim [] fun ds => '.' :: ds) ++ e?.elim [] Exponent.chars)) =
      some (.ofScaled false (digitsValue (ws ++ fraction?.getD []))
        (e?.elim 0 Exponent.value - (fraction?.getD []).length)) := by
  have hletter := Exponent.head_chars e?
  have hexponent := exponent?_chars e?
  generalize e?.elim [] Exponent.chars = es at hletter hexponent
  have hstop : ∀ c, es.head? = some c → c.isDigit = false := by
    intro c hc
    rcases hletter c hc with rfl | rfl <;> decide
  have hempty : ws.isEmpty = false := List.isEmpty_eq_false_iff.mpr hne
  unfold unsigned?
  cases fraction? with
  | none =>
    obtain ⟨hwhole, hrest⟩ := span_of_stop hws hstop
    have hpoint : ∀ tail, es ≠ '.' :: tail := by
      rintro tail rfl
      rcases hletter '.' rfl with h | h <;> cases h
    simp only [Option.elim_none, List.nil_append, hwhole, hrest, hempty, Bool.false_and, Bool.false_eq_true, if_false,
      hexponent]
    rfl
  | some ds =>
    obtain ⟨hwhole, hrest⟩ := span_of_stop (r := '.' :: (ds ++ es)) hws (by rintro c ⟨⟩; decide)
    obtain ⟨hpart, hafter⟩ := span_of_stop (hfraction ds rfl) hstop
    simp only [Option.elim_some, List.cons_append, hwhole, hrest, hpart, hafter, hempty, Bool.false_and,
      Bool.false_eq_true, if_false, hexponent]
    rfl

theorem mapM_hexValue? {ds : List Char} (h : ∀ c ∈ ds, isHexDigit c = true) :
    ds.mapM hexValue? = some (ds.filterMap hexValue?) := by
  induction ds with
  | nil => rfl
  | cons c ds ih =>
    obtain ⟨n, hn⟩ := Option.isSome_iff_exists.mp (h c List.mem_cons_self)
    rw [List.mapM_cons, hn, ih fun d hd => h d (List.mem_cons_of_mem _ hd), List.filterMap_cons_some hn]
    rfl

theorem ofNat_zero : Binary64.ofNat 0 = .zero := by
  rw [Binary64.ofNat, Nat.zero_mul]
  rfl

/-- Hexadecimal digits are read as an integer. -/
theorem ofHex?_digits {ds : List Char} (h : ∀ c ∈ ds, isHexDigit c = true) (hne : ds ≠ [])
    (hsmall : hexInteger ds ≤ 0x7fffffffffffffff) : ofHex? ds = some (.ofNat (hexInteger ds)) := by
  have hsplit : splitSign ds = (false, ds) := by
    unfold splitSign
    split
    · exact absurd (h '-' List.mem_cons_self) (by decide)
    · exact absurd (h '+' List.mem_cons_self) (by decide)
    · rfl
  have hinteger : hexInteger ds = (ds.filterMap hexValue?).foldl (fun n d => 16 * n + d) 0 := rfl
  unfold ofHex?
  rw [hsplit]
  simp only [mapM_hexValue? h]
  rw [hinteger] at hsmall ⊢
  cases hvalues : ds.filterMap hexValue? with
  | nil =>
    obtain ⟨c, cs, rfl⟩ := List.exists_cons_of_ne_nil hne
    obtain ⟨n, hn⟩ := Option.isSome_iff_exists.mp (h c List.mem_cons_self)
    rw [List.filterMap_cons_some hn] at hvalues
    cases hvalues
  | cons v vs =>
    rw [hvalues] at hsmall
    simp only [Bool.false_eq_true, if_false]
    rw [if_neg (by omega)]
    split
    · next hzero => rw [beq_iff_eq.mp hzero, ofNat_zero]
    · rw [ofNat]

theorem toLower_of_isDigit {c : Char} (h : c.isDigit = true) : c.toLower = c := by
  simp only [Char.isDigit, Bool.and_eq_true, decide_eq_true_eq] at h
  exact dif_neg fun hupper => absurd (UInt32.le_trans hupper.1 h.2) (by decide)

/-- What begins with a digit has no sign and is no name. -/
theorem ofDecimal?_of_isDigit {c : Char} (hc : c.isDigit = true) (cs : List Char) :
    ofDecimal? (String.ofList (c :: cs)) = unsigned? false (c :: cs) := by
  have hsplit : splitSign (c :: cs) = (false, c :: cs) := by
    unfold splitSign
    split
    · next h => exact absurd ((List.cons.inj h).1 ▸ hc) (by decide)
    · next h => exact absurd ((List.cons.inj h).1 ▸ hc) (by decide)
    · rfl
  have hname : ∀ name : String, name.toList.head?.any Char.isDigit = false →
      (String.ofList ((c :: cs).map Char.toLower) == name) = false := by
    intro name hfirst
    rw [beq_eq_false_iff_ne]
    rintro rfl
    rw [String.toList_ofList, List.map_cons, List.head?_cons, toLower_of_isDigit hc, Option.any_some, hc] at hfirst
    cases hfirst
  unfold ofDecimal?
  rw [String.toList_ofList, hsplit]
  simp only [hname "inf" (by decide), hname "infinity" (by decide), hname "nan" (by decide), Bool.or_false,
    Bool.false_eq_true, if_false]

/-- What has no marker after a digit is read as a decimal. -/
theorem ofToken?_decimal {token : String} {c : Char} {cs : List Char}
    (htoken : token.toList.filter (· != '_') = c :: cs) (h : ∀ d, cs.head? = some d → d ≠ 'x' ∧ d ≠ 'X') :
    ofToken? token = ofDecimal? (String.ofList (c :: cs)) := by
  unfold ofToken?
  rw [htoken]
  split
  · next heq =>
    cases heq
    exact absurd rfl (h 'x' rfl).1
  · next heq =>
    cases heq
    exact absurd rfl (h 'X' rfl).2
  · rfl

/-- No separators are in an exponent. -/
theorem Exponent.filter_chars (e? : Option Exponent) :
    (e?.elim [] Exponent.chars).filter (· != '_') = e?.elim [] Exponent.chars := by
  rw [List.filter_eq_self]
  intro c hc
  cases e? with
  | none => cases hc
  | some e =>
    rw [Option.elim_some, Exponent.chars, List.mem_cons, List.mem_append, Option.mem_toList] at hc
    rcases hc with rfl | hc | hc
    · rcases e.isLetter with h | h <;> rw [h] <;> rfl
    · rcases e.isSign c hc with rfl | rfl <;> rfl
    · exact bne_iff_ne.mpr (ne_of_isDigit (e.isDigit_digits c hc) (by decide))

/-- The token of a number stands for it. -/
theorem Numeral.read (n : Numeral) : Binary64.ofToken? n.text = some n.value := by
  cases n with
  | decimal whole fraction? exponent? =>
    have hplain : (Numeral.text (.decimal whole fraction? exponent?)).toList.filter (· != '_') =
        whole.plain ++ (((fraction?.map Digits.plain).elim [] fun ds => '.' :: ds) ++
          exponent?.elim [] Exponent.chars) := by
      rw [Numeral.text, String.toList_ofList, Numeral.chars, List.filter_append, List.filter_append, Exponent.filter_chars]
      cases fraction? <;> rfl
    have hfraction : ∀ ds ∈ fraction?.map Digits.plain, ∀ c ∈ ds, c.isDigit = true := by
      intro ds hds
      obtain ⟨d, -, rfl⟩ := Option.map_eq_some_iff.mp hds
      exact d.plain_digit
    have hwhole := whole.plain_eq_cons (by decide)
    have hvalue := unsigned?_decimal whole.plain_digit (hwhole ▸ List.cons_ne_nil _ _) hfraction exponent?
    have hrest : ∀ c ∈ whole.rest.filter (· != '_'), c.isDigit = true ∨ c = '_' :=
      fun c hc => whole.isDigit_rest c (List.mem_filter.mp hc).1
    rw [hwhole, List.cons_append] at hplain hvalue
    rw [ofToken?_decimal hplain (ne_marker_of_digits hrest (ne_marker_afterWhole _ _ _)),
      ofDecimal?_of_isDigit whole.isDigit_first, hvalue, ← hwhole]
    cases fraction? <;> rfl
  | hexadecimal marker isMarker digits isSmall =>
    have hplain : (Numeral.text (.hexadecimal marker isMarker digits isSmall)).toList.filter (· != '_') =
        '0' :: marker :: digits.plain := by
      rw [Numeral.text, String.toList_ofList, Numeral.chars]
      rcases isMarker with rfl | rfl <;> rfl
    have hne : digits.plain ≠ [] := by
      rw [digits.plain_eq_cons (by decide)]
      exact List.cons_ne_nil _ _
    unfold ofToken?
    rw [hplain]
    rcases isMarker with rfl | rfl
    · exact ofHex?_digits digits.plain_digit hne isSmall
    · exact ofHex?_digits digits.plain_digit hne isSmall

end SchemaSplice.Annotation
