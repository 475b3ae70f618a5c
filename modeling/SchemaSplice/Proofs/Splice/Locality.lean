import SchemaSplice.Proofs.Splice.Scanning
/-!
# How far the scanner looks

A token is decided by its own characters and a few after it. If it ends before a character `z` that could not be the start
of a longer token, what stands after `z` has no part in it; so a run that stops before a piece of text stops
there whatever follows the piece.
-/

namespace SchemaSplice.Source

/-! ### Parts of tokens -/

theorem spanLength_cons (p : Char → Bool) (c : Char) (cs : List Char) :
    spanLength p (c :: cs) = if p c then spanLength p cs + 1 else 0 := by
  unfold spanLength
  rw [List.takeWhile_cons]
  split <;> rfl

theorem spanLength_congr {p : Char → Bool} (u : List Char) {z : Char} (r r' : List Char)
    (h : spanLength p (u ++ z :: r) ≤ u.length) :
    spanLength p (u ++ z :: r') = spanLength p (u ++ z :: r) := by
  induction u with
  | nil =>
    rw [List.nil_append, spanLength_cons] at h
    rw [List.nil_append, List.nil_append, spanLength_cons, spanLength_cons]
    split
    · next hz =>
      rw [if_pos hz] at h
      simp at h
    · rfl
  | cons a u ih =>
    rw [List.cons_append, spanLength_cons] at h
    rw [List.cons_append, List.cons_append, spanLength_cons, spanLength_cons]
    split
    · next ha =>
      rw [if_pos ha, List.length_cons] at h
      rw [ih (by omega)]
    · rfl

theorem commentBody?_cons (a : Char) (cs : List Char) :
    commentBody? (a :: cs) =
      if a = '*' ∧ cs.head? = some '/' then some 0 else (commentBody? cs).map (· + 1) := by
  rw [commentBody?.eq_def]
  split
  · next heq => cases heq
  · next heq =>
    cases heq
    rfl
  · next hne heq =>
    cases heq
    rw [if_neg]
    rintro ⟨rfl, hhead⟩
    cases cs with
    | nil => cases hhead
    | cons b bs =>
      cases hhead
      exact hne bs rfl rfl

theorem head?_append_cons (u : List Char) (z : Char) (r r' : List Char) :
    (u ++ z :: r').head? = (u ++ z :: r).head? := by
  cases u <;> rfl

/-- A comment that ends within a text ends there whatever follows. -/
theorem commentBody?_congr (u : List Char) {z : Char} (r r' : List Char) {n : Nat}
    (h : commentBody? (u ++ z :: r) = some n) (hn : n + 1 ≤ u.length) :
    commentBody? (u ++ z :: r') = some n := by
  induction u generalizing n with
  | nil => simp at hn
  | cons a u ih =>
    rw [List.cons_append, commentBody?_cons] at h
    rw [List.cons_append, commentBody?_cons, head?_append_cons u z r r']
    split
    · next hend =>
      rw [if_pos hend] at h
      exact h
    · next hend =>
      rw [if_neg hend] at h
      obtain ⟨m, hm, rfl⟩ := Option.map_eq_some_iff.mp h
      rw [List.length_cons] at hn
      rw [ih hm (by omega)]
      rfl

theorem quotedBody_escape (quote : Char) (multiline : Bool) (c : Char) (cs : List Char) :
    quotedBody quote multiline ('\\' :: c :: cs) =
      if c = '\n' then (0, false)
      else ((quotedBody quote multiline cs).1 + 2, (quotedBody quote multiline cs).2) := by
  rw [quotedBody]
  split
  · next h =>
    rw [beq_iff_eq] at h
    rw [if_pos h]
  · next h =>
    rw [beq_iff_eq] at h
    rw [if_neg h]

theorem quotedBody_cons (quote : Char) (multiline : Bool) {c : Char} (hc : c ≠ '\\') (cs : List Char) :
    quotedBody quote multiline (c :: cs) =
      if c = quote then (0, true)
      else if c = '\n' ∧ multiline = false then (0, false)
      else ((quotedBody quote multiline cs).1 + 1, (quotedBody quote multiline cs).2) := by
  rw [quotedBody.eq_def]
  split
  · next heq => cases heq
  · next heq =>
    cases heq
    exact absurd rfl hc
  · next heq =>
    cases heq
    simp only [beq_iff_eq, Bool.or_eq_true, Bool.and_eq_true, Bool.not_eq_true', hc, false_or]

/-- A quoted token that ends before a text does is decided by it. -/
theorem quotedBody_congr (quote : Char) (multiline : Bool) (u : List Char) {z : Char} (hz : z ≠ '\\')
    (r r' : List Char) (h : (quotedBody quote multiline (u ++ z :: r)).1 ≤ u.length) :
    quotedBody quote multiline (u ++ z :: r') = quotedBody quote multiline (u ++ z :: r) := by
  -- Escapes take two characters, so the induction is on the length.
  induction hlen : u.length using Nat.strongRecOn generalizing u with
  | ind n ih =>
    cases u with
    | nil =>
      rw [List.nil_append, quotedBody_cons quote multiline hz] at h
      rw [List.nil_append, List.nil_append, quotedBody_cons quote multiline hz,
        quotedBody_cons quote multiline hz]
      split
      · rfl
      · next hq =>
        split
        · rfl
        · next hnl =>
          rw [if_neg hq, if_neg hnl] at h
          simp at h
    | cons a u =>
      rw [List.length_cons] at hlen h
      by_cases ha : a = '\\'
      · subst ha
        cases u with
        | nil =>
          rw [List.cons_append, List.nil_append, quotedBody_escape] at h
          rw [List.cons_append, List.nil_append, List.cons_append, List.nil_append, quotedBody_escape,
            quotedBody_escape]
          split
          · rfl
          · next hnl =>
            rw [if_neg hnl] at h
            simp at h
        | cons b u =>
          rw [List.length_cons] at hlen h
          rw [List.cons_append, List.cons_append, quotedBody_escape] at h
          rw [List.cons_append, List.cons_append, List.cons_append, List.cons_append, quotedBody_escape,
            quotedBody_escape]
          split
          · rfl
          · next hnl =>
            rw [if_neg hnl] at h
            rw [ih u.length (by omega) u (by omega) rfl]
      · rw [List.cons_append, quotedBody_cons quote multiline ha] at h
        rw [List.cons_append, List.cons_append, quotedBody_cons quote multiline ha,
          quotedBody_cons quote multiline ha]
        split
        · rfl
        · next hq =>
          split
          · rfl
          · next hnl =>
            rw [if_neg hq, if_neg hnl] at h
            rw [ih u.length (by omega) u (by omega) rfl]

/-! ### Numbers -/

/-- A text whose first character continues neither a word nor the sign of an exponent. -/
def NoExtend (r : List Char) : Prop :=
  ∀ c, r.head? = some c → isIdentPart c = false ∧ c ≠ '+' ∧ c ≠ '-'

/-- A character after which the scanner need not look, or whose continuations do not matter. -/
structure Calm (z : Char) (r r' : List Char) : Prop where
  ne_dot : z ≠ '.'
  ne_backslash : z ≠ '\\'
  extend : z ∈ ['e', 'E', 'x', 'X', '+', '-'] → NoExtend r ∧ NoExtend r'

theorem spanLength_of_noExtend {p : Char → Bool} (hp : ∀ c, p c = true → isIdentPart c = true)
    {r : List Char} (h : NoExtend r) : spanLength p r = 0 := by
  cases r with
  | nil => rfl
  | cons c cs =>
    rw [spanLength_cons, if_neg]
    intro hc
    have := (h c rfl).1
    rw [hp c hc] at this
    cases this

theorem isIdentPart_of_isDigit {c : Char} (h : c.isDigit = true) : isIdentPart c = true := by
  rw [isIdentPart, h, Bool.or_true]

theorem isIdentPart_of_isHexPart {c : Char} (h : isHexPart c = true) : isIdentPart c = true := by
  unfold isHexPart at h
  unfold isIdentPart isIdentStart
  simp only [Bool.or_eq_true, Bool.and_eq_true, decide_eq_true_eq] at h ⊢
  rcases h with ((h | ⟨hlow, hhigh⟩) | ⟨hlow, hhigh⟩) | h
  · exact Or.inr h
  · exact Or.inl (Or.inl (Or.inl (Or.inr ⟨hlow, Char.le_trans hhigh (by decide)⟩)))
  · exact Or.inl (Or.inl (Or.inl (Or.inl ⟨hlow, Char.le_trans hhigh (by decide)⟩)))
  · exact Or.inl (Or.inl (Or.inr h))

theorem fractionLength_of_ne {c : Char} (h : c ≠ '.') (cs : List Char) : fractionLength (c :: cs) = 0 := by
  rw [fractionLength.eq_def]
  split
  · next heq =>
    cases heq
    exact absurd rfl h
  · rfl

theorem fractionLength_point (d : Char) (cs : List Char) :
    fractionLength ('.' :: d :: cs) = if d.isDigit then 2 + spanLength isDigitPart cs else 0 := rfl

theorem fractionLength_congr (u : List Char) {z : Char} (hz : z ≠ '.') (r r' : List Char)
    (h : fractionLength (u ++ z :: r) ≤ u.length) :
    fractionLength (u ++ z :: r') = fractionLength (u ++ z :: r) := by
  cases u with
  | nil => rw [List.nil_append, List.nil_append, fractionLength_of_ne hz, fractionLength_of_ne hz]
  | cons a u =>
    by_cases ha : a = '.'
    · subst ha
      cases u with
      | nil =>
        simp only [List.cons_append, List.nil_append, fractionLength_point] at h ⊢
        split
        · next hd =>
          rw [if_pos hd] at h
          simp only [List.length_cons, List.length_nil] at h
          omega
        · rfl
      | cons d u =>
        simp only [List.cons_append, fractionLength_point, List.length_cons] at h ⊢
        split
        · next hd =>
          rw [if_pos hd] at h
          rw [spanLength_congr u r r' (by omega)]
        · rfl
    · rw [List.cons_append, List.cons_append, fractionLength_of_ne ha, fractionLength_of_ne ha]

theorem exponentLength_of_ne {e : Char} (h : e ≠ 'e' ∧ e ≠ 'E') (cs : List Char) :
    exponentLength (e :: cs) = 0 := by
  simp [exponentLength, h.1, h.2]

theorem exponentLength_of_eq {e : Char} (h : e = 'e' ∨ e = 'E') (cs : List Char) :
    exponentLength (e :: cs) =
      if spanLength Char.isDigit (cs.drop (signLength cs)) = 0 then 0
      else 1 + signLength cs + spanLength Char.isDigit (cs.drop (signLength cs)) := by
  have he : (e == 'e' || e == 'E') = true := by
    rw [Bool.or_eq_true, beq_iff_eq, beq_iff_eq]
    exact h
  rw [exponentLength, if_pos he]

theorem signLength_le (cs : List Char) : signLength cs ≤ 1 := by
  unfold signLength
  split
  · split <;> omega
  · omega

theorem signLength_of_noExtend {r : List Char} (h : NoExtend r) : signLength r = 0 := by
  cases r with
  | nil => rfl
  | cons c cs =>
    have hc := h c rfl
    simp [signLength, hc.2.1, hc.2.2]

/-- The exponent letter at the end of a text stays a word of its own. -/
theorem exponentLength_of_noExtend (e : Char) {r : List Char} (h : NoExtend r) :
    exponentLength (e :: r) = 0 := by
  by_cases he : e = 'e' ∨ e = 'E'
  · rw [exponentLength_of_eq he, signLength_of_noExtend h, List.drop_zero,
      spanLength_of_noExtend (fun _ => isIdentPart_of_isDigit) h, if_pos rfl]
  · exact exponentLength_of_ne (not_or.mp he) r

theorem exponentLength_congr (u : List Char) {z : Char} {r r' : List Char} (hz : Calm z r r')
    (h : exponentLength (u ++ z :: r) ≤ u.length) :
    exponentLength (u ++ z :: r') = exponentLength (u ++ z :: r) := by
  cases u with
  | nil =>
    rw [List.nil_append, List.nil_append]
    by_cases hext : z ∈ ['e', 'E', 'x', 'X', '+', '-']
    · obtain ⟨hr, hr'⟩ := hz.extend hext
      rw [exponentLength_of_noExtend z hr, exponentLength_of_noExtend z hr']
    · simp only [List.mem_cons, List.not_mem_nil, or_false, not_or] at hext
      rw [exponentLength_of_ne ⟨hext.1, hext.2.1⟩, exponentLength_of_ne ⟨hext.1, hext.2.1⟩]
  | cons e u =>
    rw [List.cons_append] at h ⊢
    rw [List.cons_append]
    by_cases he : e = 'e' ∨ e = 'E'
    · rw [exponentLength_of_eq he] at h
      rw [exponentLength_of_eq he, exponentLength_of_eq he]
      cases u with
      | nil =>
        simp only [List.nil_append, List.length_cons, List.length_nil] at h ⊢
        by_cases hsign : (z == '+' || z == '-') = true
        · have hmem : z ∈ ['e', 'E', 'x', 'X', '+', '-'] := by
            simp only [Bool.or_eq_true, beq_iff_eq] at hsign
            rcases hsign with rfl | rfl <;> simp
          obtain ⟨hr, hr'⟩ := hz.extend hmem
          have hone : ∀ l : List Char, signLength (z :: l) = 1 := by
            intro l
            simp only [signLength, hsign, if_true]
          simp only [hone, List.drop_succ_cons, List.drop_zero,
            spanLength_of_noExtend (fun _ => isIdentPart_of_isDigit) hr,
            spanLength_of_noExtend (fun _ => isIdentPart_of_isDigit) hr']
        · have hzero : ∀ l : List Char, signLength (z :: l) = 0 := by
            intro l
            simp only [signLength, hsign, Bool.false_eq_true, if_false]
          simp only [hzero, List.drop_zero, spanLength_cons] at h ⊢
          split at h
          · next hd =>
            rw [if_neg (Nat.succ_ne_zero _)] at h
            omega
          · next hd => simp only [hd, Bool.false_eq_true, if_false]
      | cons s u =>
        have hsame : signLength (s :: u ++ z :: r') = signLength (s :: u ++ z :: r) := rfl
        have hle := signLength_le (s :: u ++ z :: r)
        have hdrop : ∀ l : List Char, (s :: u ++ z :: l).drop (signLength (s :: u ++ z :: r)) =
            (s :: u).drop (signLength (s :: u ++ z :: r)) ++ z :: l := by
          intro l
          apply List.drop_append_of_le_length
          rw [List.length_cons]
          omega
        rw [hsame, hdrop, hdrop]
        rw [hdrop] at h
        generalize hk : signLength (s :: u ++ z :: r) = k at h hle ⊢
        have hfit : spanLength Char.isDigit ((s :: u).drop k ++ z :: r) ≤ ((s :: u).drop k).length := by
          rw [List.length_drop]
          simp only [List.length_cons] at h ⊢
          split at h <;> omega
        rw [spanLength_congr _ r r' hfit]
    · rw [exponentLength_of_ne (not_or.mp he), exponentLength_of_ne (not_or.mp he)]

/-- Length of the hexadecimal digits after `0x`. -/
def hexLength (d : Char) : List Char → Nat
  | x :: rest => if d == '0' && (x == 'x' || x == 'X') then spanLength isHexPart rest else 0
  | [] => 0

theorem numberLexeme_eq (d : Char) (cs : List Char) :
    numberLexeme d cs =
      if hexLength d cs ≠ 0 then (.number, hexLength d cs + 1)
      else if (cs.drop (spanLength isDigitPart cs)).head? = some 'n' then
        (.bigInt, spanLength isDigitPart cs + 1)
      else
        (.number, spanLength isDigitPart cs + fractionLength (cs.drop (spanLength isDigitPart cs)) +
          exponentLength ((cs.drop (spanLength isDigitPart cs)).drop
            (fractionLength (cs.drop (spanLength isDigitPart cs))))) := by
  unfold numberLexeme
  simp only [bne_iff_ne, beq_iff_eq]
  cases cs <;> rfl

theorem hexLength_congr (d : Char) (u : List Char) {z : Char} {r r' : List Char} (hz : Calm z r r')
    (h : hexLength d (u ++ z :: r) ≤ u.length - 1) :
    hexLength d (u ++ z :: r') = hexLength d (u ++ z :: r) := by
  cases u with
  | nil =>
    simp only [List.nil_append, hexLength]
    split
    · next hx =>
      have hmem : z ∈ ['e', 'E', 'x', 'X', '+', '-'] := by
        simp only [Bool.and_eq_true, Bool.or_eq_true, beq_iff_eq] at hx
        rcases hx.2 with rfl | rfl <;> simp
      obtain ⟨hr, hr'⟩ := hz.extend hmem
      rw [spanLength_of_noExtend (fun _ => isIdentPart_of_isHexPart) hr,
        spanLength_of_noExtend (fun _ => isIdentPart_of_isHexPart) hr']
    · rfl
  | cons x u =>
    simp only [List.cons_append, hexLength, List.length_cons] at h ⊢
    split
    · next hx =>
      rw [if_pos hx] at h
      exact spanLength_congr u r r' h
    · rfl

theorem numberLexeme_congr (d : Char) (u : List Char) {z : Char} {r r' : List Char} (hz : Calm z r r')
    (h : (numberLexeme d (u ++ z :: r)).2 ≤ u.length) :
    numberLexeme d (u ++ z :: r') = numberLexeme d (u ++ z :: r) := by
  rw [numberLexeme_eq] at h
  have hhexfit : hexLength d (u ++ z :: r) ≤ u.length - 1 := by
    split at h
    · simp only at h
      omega
    · next hzero =>
      rw [Decidable.not_not] at hzero
      omega
  have hhex := hexLength_congr d u hz hhexfit
  rw [numberLexeme_eq, numberLexeme_eq, hhex]
  split
  · rfl
  next hzero =>
  rw [if_neg hzero] at h
  have hwhole : spanLength isDigitPart (u ++ z :: r) ≤ u.length := by
    split at h <;> simp only at h <;> omega
  rw [spanLength_congr u r r' hwhole]
  generalize spanLength isDigitPart (u ++ z :: r) = w at h hwhole ⊢
  have hdrop : ∀ l : List Char, (u ++ z :: l).drop w = u.drop w ++ z :: l := by
    intro l
    exact List.drop_append_of_le_length hwhole
  rw [hdrop, hdrop, head?_append_cons (u.drop w) z r r']
  rw [hdrop] at h
  split
  · rfl
  next hn =>
  rw [if_neg hn] at h
  simp only at h
  have hlen : (u.drop w).length = u.length - w := List.length_drop
  have hfraction : fractionLength (u.drop w ++ z :: r) ≤ (u.drop w).length := by omega
  rw [fractionLength_congr _ hz.ne_dot r r' hfraction]
  generalize fractionLength (u.drop w ++ z :: r) = k at h hfraction ⊢
  have hdrop' : ∀ l : List Char, (u.drop w ++ z :: l).drop k = (u.drop w).drop k ++ z :: l := by
    intro l
    exact List.drop_append_of_le_length hfraction
  rw [hdrop', hdrop']
  rw [hdrop'] at h
  have hexponent : exponentLength ((u.drop w).drop k ++ z :: r) ≤ ((u.drop w).drop k).length := by
    rw [List.length_drop]
    omega
  rw [exponentLength_congr _ hz hexponent]

/-! ### Tokens -/

theorem lexeme_of_isIdentStart {c : Char} (hc : isIdentStart c = true) (cs : List Char) :
    lexeme c cs = (.ident, spanLength isIdentPart cs) :=
  if_pos hc

theorem lexeme_of_isDigit {c : Char} (hs : isIdentStart c = false) (hc : c.isDigit = true)
    (cs : List Char) : lexeme c cs = numberLexeme c cs :=
  (if_neg (by simp [hs])).trans (if_pos hc)

theorem lexeme_lineComment (cs : List Char) :
    lexeme '/' ('/' :: cs) = (.lineComment, spanLength (· != '\n') cs + 1) := rfl

theorem lexeme_blockComment {cs : List Char} {n : Nat} (h : commentBody? cs = some n) :
    lexeme '/' ('*' :: cs) = (.blockComment, n + 3) := by
  show slashLexeme ('*' :: cs) = _
  rw [slashLexeme, h]

theorem lexeme_openComment {cs : List Char} (h : commentBody? cs = none) :
    lexeme '/' ('*' :: cs) = (.unknown, cs.length + 1) := by
  show slashLexeme ('*' :: cs) = _
  rw [slashLexeme, h, List.length_cons]

theorem lexeme_slash {cs : List Char} (h : cs.head? ≠ some '/' ∧ cs.head? ≠ some '*') :
    lexeme '/' cs = (.punct, 0) := by
  show slashLexeme cs = _
  unfold slashLexeme
  split
  · exact absurd rfl h.1
  · exact absurd rfl h.2
  · rfl

def isQuote (c : Char) : Bool := c == '\x22' || c == '\x27'

theorem quotedLexeme_eq (kind : Kind) (quote : Char) (multiline : Bool) (cs : List Char) :
    quotedLexeme kind quote multiline cs =
      if (quotedBody quote multiline cs).2 then (kind, (quotedBody quote multiline cs).1 + 1)
      else (.unknown, (quotedBody quote multiline cs).1) := by
  unfold quotedLexeme
  rcases quotedBody quote multiline cs with ⟨n, closed⟩
  cases closed <;> rfl

theorem lexeme_quote {q : Char} (hq : isQuote q = true) (cs : List Char) :
    lexeme q cs =
      if (quotedBody q false cs).2 then (.str, (quotedBody q false cs).1 + 1)
      else (.unknown, (quotedBody q false cs).1) := by
  simp only [isQuote, Bool.or_eq_true, beq_iff_eq] at hq
  rcases hq with rfl | rfl
  · exact quotedLexeme_eq .str '\x22' false cs
  · exact quotedLexeme_eq .str '\x27' false cs

theorem lexeme_template (cs : List Char) :
    lexeme '\x60' cs =
      if (quotedBody '\x60' true cs).2 then (.template, (quotedBody '\x60' true cs).1 + 1)
      else (.unknown, (quotedBody '\x60' true cs).1) :=
  quotedLexeme_eq .template '\x60' true cs

theorem lexeme_dot {cs : List Char} (h : cs.take 2 ≠ ['.', '.']) : lexeme '.' cs = (.dot, 0) := by
  show dotLexeme cs = _
  unfold dotLexeme
  split
  · exact absurd rfl h
  · rfl

theorem lexeme_question {cs : List Char} (h : cs.head? ≠ some '.') : lexeme '?' cs = (.question, 0) :=
  if_neg h

theorem lexeme_eq {cs : List Char} (h : cs.head? ≠ some '>') : lexeme '=' cs = (.eq, 0) :=
  if_neg h

/-- Every other character is a token by itself. -/
theorem lexeme_single {c : Char} (hs : isIdentStart c = false) (hd : c.isDigit = false)
    (hspecial : c ∉ ['/', '\x22', '\x27', '\x60', '.', '?', '=']) (cs : List Char) :
    (lexeme c cs).2 = 0 ∧ ∀ cs', lexeme c cs' = lexeme c cs := by
  unfold lexeme
  simp only [hs, hd, Bool.false_eq_true, if_false]
  split <;> first
    | exact ⟨rfl, fun _ => rfl⟩
    | exact absurd (by decide) hspecial
    | skip
  split <;> exact ⟨rfl, fun _ => rfl⟩

theorem lexeme_slash_congr (u : List Char) {z : Char} {r r' : List Char}
    (h : (lexeme '/' (u ++ z :: r)).2 ≤ u.length) :
    lexeme '/' (u ++ z :: r') = lexeme '/' (u ++ z :: r) := by
  by_cases hline : (u ++ z :: r).head? = some '/'
  · cases u with
    | nil =>
      obtain rfl : z = '/' := by simpa using hline
      rw [List.nil_append, lexeme_lineComment] at h
      simp at h
    | cons a u =>
      obtain rfl : a = '/' := by simpa using hline
      rw [List.cons_append, lexeme_lineComment, List.length_cons] at h
      rw [List.cons_append, List.cons_append, lexeme_lineComment, lexeme_lineComment,
        spanLength_congr u r r' (by omega)]
  by_cases hblock : (u ++ z :: r).head? = some '*'
  · cases u with
    | nil =>
      obtain rfl : z = '*' := by simpa using hblock
      rw [List.nil_append] at h
      cases hbody : commentBody? r with
      | none =>
        rw [lexeme_openComment hbody] at h
        simp at h
      | some n =>
        rw [lexeme_blockComment hbody] at h
        simp at h
    | cons a u =>
      obtain rfl : a = '*' := by simpa using hblock
      rw [List.cons_append, List.length_cons] at h
      rw [List.cons_append, List.cons_append]
      cases hbody : commentBody? (u ++ z :: r) with
      | none =>
        rw [lexeme_openComment hbody] at h
        simp only [List.length_append, List.length_cons] at h
        omega
      | some n =>
        rw [lexeme_blockComment hbody] at h ⊢
        simp only at h
        rw [lexeme_blockComment (commentBody?_congr u r r' hbody (by omega))]
  · rw [lexeme_slash ⟨hline, hblock⟩]
    rw [head?_append_cons u z r' r] at hline hblock
    rw [lexeme_slash ⟨hline, hblock⟩]

theorem lexeme_quote_congr {q : Char} (hq : isQuote q = true) (u : List Char) {z : Char} {r r' : List Char}
    (hz : Calm z r r') (h : (lexeme q (u ++ z :: r)).2 ≤ u.length) :
    lexeme q (u ++ z :: r') = lexeme q (u ++ z :: r) := by
  rw [lexeme_quote hq] at h
  rw [lexeme_quote hq, lexeme_quote hq, quotedBody_congr q false u hz.ne_backslash r r']
  split at h <;> simp only at h <;> omega

theorem lexeme_template_congr (u : List Char) {z : Char} {r r' : List Char} (hz : Calm z r r')
    (h : (lexeme '\x60' (u ++ z :: r)).2 ≤ u.length) :
    lexeme '\x60' (u ++ z :: r') = lexeme '\x60' (u ++ z :: r) := by
  rw [lexeme_template] at h
  rw [lexeme_template, lexeme_template, quotedBody_congr '\x60' true u hz.ne_backslash r r']
  split at h <;> simp only at h <;> omega

theorem lexeme_dot_congr (u : List Char) {z : Char} {r r' : List Char} (hz : Calm z r r') :
    lexeme '.' (u ++ z :: r') = lexeme '.' (u ++ z :: r) := by
  match u with
  | [] =>
    rw [lexeme_dot (by simp [hz.ne_dot]), lexeme_dot (by simp [hz.ne_dot])]
  | [a] =>
    rw [lexeme_dot (by simp [hz.ne_dot]), lexeme_dot (by simp [hz.ne_dot])]
  | a :: b :: u =>
    by_cases hab : a = '.' ∧ b = '.'
    · obtain ⟨rfl, rfl⟩ := hab
      rfl
    · have hne : ∀ l, (a :: b :: u ++ z :: l).take 2 ≠ ['.', '.'] := by
        intro l
        simpa using hab
      rw [lexeme_dot (hne r'), lexeme_dot (hne r)]

theorem lexeme_question_congr (u : List Char) {z : Char} {r r' : List Char} (hz : Calm z r r') :
    lexeme '?' (u ++ z :: r') = lexeme '?' (u ++ z :: r) := by
  cases u with
  | nil => rw [lexeme_question (by simp [hz.ne_dot]), lexeme_question (by simp [hz.ne_dot])]
  | cons a u =>
    by_cases ha : a = '.'
    · subst ha
      rfl
    · rw [lexeme_question (by simp [ha]), lexeme_question (by simp [ha])]

theorem lexeme_eq_congr (u : List Char) {z : Char} {r r' : List Char}
    (h : (lexeme '=' (u ++ z :: r)).2 ≤ u.length) :
    lexeme '=' (u ++ z :: r') = lexeme '=' (u ++ z :: r) := by
  cases u with
  | nil =>
    by_cases hz : z = '>'
    · subst hz
      exact absurd h (Nat.not_succ_le_zero 0)
    · rw [lexeme_eq (by simp [hz]), lexeme_eq (by simp [hz])]
  | cons a u =>
    by_cases ha : a = '>'
    · subst ha
      rfl
    · rw [lexeme_eq (by simp [ha]), lexeme_eq (by simp [ha])]

/-- A token that ends before a calm character is decided by the characters before it. -/
theorem lexeme_congr (c : Char) (u : List Char) {z : Char} {r r' : List Char} (hz : Calm z r r')
    (h : (lexeme c (u ++ z :: r)).2 ≤ u.length) :
    lexeme c (u ++ z :: r') = lexeme c (u ++ z :: r) := by
  by_cases hs : isIdentStart c = true
  · rw [lexeme_of_isIdentStart hs] at h
    rw [lexeme_of_isIdentStart hs, lexeme_of_isIdentStart hs, spanLength_congr u r r' h]
  rw [Bool.not_eq_true] at hs
  by_cases hd : c.isDigit = true
  · rw [lexeme_of_isDigit hs hd] at h
    rw [lexeme_of_isDigit hs hd, lexeme_of_isDigit hs hd, numberLexeme_congr c u hz h]
  rw [Bool.not_eq_true] at hd
  by_cases hspecial : c ∉ ['/', '\x22', '\x27', '\x60', '.', '?', '=']
  · exact (lexeme_single hs hd hspecial _).2 _
  simp only [Decidable.not_not, List.mem_cons, List.not_mem_nil, or_false] at hspecial
  rcases hspecial with rfl | rfl | rfl | rfl | rfl | rfl | rfl
  · exact lexeme_slash_congr u h
  · exact lexeme_quote_congr (by decide) u hz h
  · exact lexeme_quote_congr (by decide) u hz h
  · exact lexeme_template_congr u hz h
  · exact lexeme_dot_congr u hz
  · exact lexeme_question_congr u hz
  · exact lexeme_eq_congr u h

end SchemaSplice.Source
