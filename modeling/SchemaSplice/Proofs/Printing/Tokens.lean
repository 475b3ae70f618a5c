import SchemaSplice.Proofs.Grammar.Spelling
import SchemaSplice.Proofs.Splice.Neat
/-!
# The tokens of a printed validator

The tokens of a validator can be read off its tree: the text of a string or of a key that is no identifier is one token,
a number is its digits after an optional sign, and everything else is a word or a single character. Scanning the
printed text finds exactly these tokens. No two pieces fuse, because each of them either ends with a token that nothing
can extend or stands before a character that continues no token.
-/

namespace SchemaSplice

open Source Validator Annotation

/-! ### Tokens of a tree -/

def numberTokens (x : Binary64) : List Lexeme :=
  if x.isNaN then [(.ident, "NaN")]
  else
    (if x.isNegative then [sign .minus] else []) ++
      [if x.isInfinite then (.ident, "Infinity") else (.number, String.ofList x.magnitude)]

def keyToken (key : String) : Lexeme := if isIdentifier key then (.ident, key) else (.str, Text.quoteJson key)

def commaSeparated (items : List (List Lexeme)) : List Lexeme := [sign .comma].intercalate items

def bracketed (o c : Kind) (inner : List Lexeme) : List Lexeme := sign o :: (inner ++ [sign c])

def callTokens (name : String) (args : List (List Lexeme)) : List Lexeme :=
  (.dot, ".") :: (.ident, name) :: bracketed .lparen .rparen (commaSeparated args)

mutual

def Validator.tokens : Validator → List Lexeme
  | .call name args => (.ident, "z") :: callTokens name (argumentsTokens args)
  | .method receiver name args => receiver.tokens ++ callTokens name (argumentsTokens args)
termination_by structural v => v

def Argument.tokens : Argument → List Lexeme
  | .validator v => v.tokens
  | .list items => bracketed .lbracket .rbracket (commaSeparated (argumentsTokens items))
  | .fields entries => bracketed .lbrace .rbrace (commaSeparated (entriesTokens entries))
  | .text s => [(.str, Text.quoteJson s)]
  | .number x => numberTokens x
  | .flag b => [(.ident, if b then "true" else "false")]
  | .bigInt digits => [(.bigInt, digits ++ "n")]
  | .name word => [(.ident, word)]
termination_by structural a => a

def argumentsTokens : List Argument → List (List Lexeme)
  | [] => []
  | a :: rest => a.tokens :: argumentsTokens rest
termination_by structural as => as

def entriesTokens : List (String × Validator) → List (List Lexeme)
  | [] => []
  | e :: rest => entryTokens e :: entriesTokens rest
termination_by structural es => es

def entryTokens : String × Validator → List Lexeme
  | (key, v) => keyToken key :: sign .colon :: v.tokens
termination_by structural e => e

end

theorem argumentsChars_eq_map (args : List Argument) : argumentsChars args = args.map Argument.chars := by
  induction args with
  | nil => rfl
  | cons a args ih => rw [argumentsChars, ih, List.map_cons]

theorem argumentsTokens_eq_map (args : List Argument) : argumentsTokens args = args.map Argument.tokens := by
  induction args with
  | nil => rfl
  | cons a args ih => rw [argumentsTokens, ih, List.map_cons]

theorem entriesChars_eq_map (entries : List (String × Validator)) : entriesChars entries = entries.map entryChars := by
  induction entries with
  | nil => rfl
  | cons e entries ih => rw [entriesChars, ih, List.map_cons]

theorem entriesTokens_eq_map (entries : List (String × Validator)) :
    entriesTokens entries = entries.map entryTokens := by
  induction entries with
  | nil => rfl
  | cons e entries ih => rw [entriesTokens, ih, List.map_cons]

/-! ### Tokens and what follows them -/

/-- A text that is empty or begins with a character that continues no token. -/
def Breaks (r : List Char) : Prop := ∀ c, r.head? = some c → isInner c = false

theorem breaks_cons {c : Char} (h : isInner c = false) (r : List Char) : Breaks (c :: r) := by
  rintro d ⟨⟩
  exact h

section

variable {r : List Char}

theorem Breaks.head_ne (h : Breaks r) {c : Char} (hc : isInner c = true) : r.head? ≠ some c := by
  intro hhead
  rw [h c hhead] at hc
  cases hc

theorem Breaks.outside (h : Breaks r) {p : Char → Bool} (hp : ∀ c, p c = true → isInner c = true) {c : Char}
    (hc : r.head? = some c) : p c = false := by
  by_contra hpc
  rw [Bool.not_eq_false] at hpc
  exact h.head_ne (hp c hpc) hc

theorem scans_text {text : String} {c : Char} {body : List Char} {kind : Kind} (htext : text.toList = c :: body)
    (hspace : isSpace c = false) (hlexeme : lexeme c (body ++ r) = (kind, body.length)) :
    Scans (text.toList ++ r) [(kind, text)] r := by
  have hrun := Scans.of_lexeme hspace hlexeme (.stop r)
  rw [← htext, String.ofList_toList] at hrun
  rwa [htext]

theorem scans_word {w : String} (hw : isIdentifier w = true) (hr : ∀ c, r.head? = some c → isIdentPart c = false) :
    Scans (w.toList ++ r) [(.ident, w)] r := by
  unfold isIdentifier at hw
  split at hw
  · cases hw
  · next c cs htext =>
    rw [Bool.and_eq_true, List.all_eq_true] at hw
    refine scans_text htext (isSpace_eq_false_of_isIdentPart (by rw [isIdentPart, hw.1, Bool.true_or])) ?_
    rw [lexeme_of_isIdentStart hw.1, spanLength_of_stop hw.2 hr]

theorem scans_quoted (s : String) (r : List Char) :
    Scans (Text.quoteJsonChars s.toList ++ r) [(.str, Text.quoteJson s)] r := by
  have htext : (Text.quoteJson s).toList = '\x22' :: (s.toList.flatMap Text.escapeJson ++ ['\x22']) :=
    String.toList_ofList
  have hrun : Scans ((Text.quoteJson s).toList ++ r) [(.str, Text.quoteJson s)] r := by
    refine scans_text htext rfl ?_
    rw [List.append_assoc, List.singleton_append, lexeme_quote rfl, quotedBody_json, if_pos rfl, List.length_append,
      List.length_singleton]
  rwa [Text.quoteJson, String.toList_ofList] at hrun

theorem scans_comment {text : String} {body : List Char} (htext : text.toList = '/' :: '*' :: (body ++ ['*', '/']))
    (h : '*' ∉ body) (r : List Char) : Scans (text.toList ++ r) [(.blockComment, text)] r :=
  scans_text htext rfl (lexeme_comment h r)

/-! ### Numbers -/

theorem fractionLength_of_breaks (hr : Breaks r) : fractionLength r = 0 := by
  cases r with
  | nil => rfl
  | cons c r => exact fractionLength_of_ne (fun h => hr.head_ne (c := '.') rfl (by rw [h]; rfl)) r

theorem exponentLength_of_breaks (hr : Breaks r) : exponentLength r = 0 := by
  cases r with
  | nil => rfl
  | cons c r =>
    exact exponentLength_of_ne ⟨fun h => hr.head_ne (c := 'e') rfl (by rw [h]; rfl),
      fun h => hr.head_ne (c := 'E') rfl (by rw [h]; rfl)⟩ r

theorem isDigitPart_of_isDigit {c : Char} (h : c.isDigit = true) : isDigitPart c = true :=
  isDigitPart_iff.mpr (Or.inl h)

/-- After its whole digits, a number goes on with a fraction and an exponent, or ends with the letter of big integers. -/
theorem numberLexeme_digits {c : Char} {ds : List Char} (hds : ∀ d ∈ ds, d.isDigit = true)
    (hr : ∀ d, r.head? = some d → isDigitPart d = false ∧ d ≠ 'x' ∧ d ≠ 'X') :
    numberLexeme c (ds ++ r) =
      if r.head? = some 'n' then (.bigInt, ds.length + 1)
      else (.number, ds.length + fractionLength r + exponentLength (r.drop (fractionLength r))) := by
  have hhex := hexLength_eq_zero (d := c)
    (ne_marker_of_digits (fun d hd => Or.inl (hds d hd)) fun d hd => (hr d hd).2)
  have hspan := spanLength_of_stop (fun d hd => isDigitPart_of_isDigit (hds d hd)) fun d hd => (hr d hd).1
  rw [numberLexeme_eq, hhex, if_neg (by decide), hspan, List.drop_left]

theorem scans_numeric {ds : List Char} {c : Char} {body : List Char} {kind : Kind} (hds : ds = c :: body)
    (hc : c.isDigit = true) (hlexeme : numberLexeme c (body ++ r) = (kind, body.length)) :
    Scans (ds ++ r) [(kind, String.ofList ds)] r := by
  have htext : (String.ofList ds).toList = c :: body := String.toList_ofList.trans hds
  rw [← lexeme_of_isDigit (isIdentStart_eq_false_of_isDigit hc) hc] at hlexeme
  have hrun := scans_text htext (isSpace_eq_false_of_isDigit hc) hlexeme
  rwa [String.toList_ofList] at hrun

/-- A decimal is scanned to its end. -/
theorem scans_decimal {ds : List Char} (h : IsDecimal ds) (hr : Breaks r) :
    Scans (ds ++ r) [(.number, String.ofList ds)] r := by
  cases h with
  | whole hne hds =>
    obtain ⟨c, cs, rfl⟩ := List.exists_cons_of_ne_nil hne
    obtain ⟨hc, hcs⟩ := List.forall_mem_cons.mp hds
    have hhead : ∀ d, r.head? = some d → isDigitPart d = false ∧ d ≠ 'x' ∧ d ≠ 'X' := by
      intro d hd
      refine ⟨hr.outside (fun _ => isInner_of_isDigitPart) hd, ?_, ?_⟩
      · rintro rfl
        exact hr.head_ne rfl hd
      · rintro rfl
        exact hr.head_ne rfl hd
    refine scans_numeric rfl hc ?_
    rw [numberLexeme_digits hcs hhead, if_neg (hr.head_ne rfl), fractionLength_of_breaks hr, List.drop_zero,
      exponentLength_of_breaks hr]
    rfl
  | @pointed ws fs hne hws hfne hfs =>
    obtain ⟨c, cs, rfl⟩ := List.exists_cons_of_ne_nil hne
    obtain ⟨f, fs, rfl⟩ := List.exists_cons_of_ne_nil hfne
    obtain ⟨hc, hcs⟩ := List.forall_mem_cons.mp hws
    obtain ⟨hf, hfs⟩ := List.forall_mem_cons.mp hfs
    have hfraction : fractionLength ('.' :: f :: (fs ++ r)) = fs.length + 2 := by
      have hspan := spanLength_of_stop (fun d hd => isDigitPart_of_isDigit (hfs d hd))
        fun d hd => hr.outside (fun _ => isInner_of_isDigitPart) hd
      rw [fractionLength_point, if_pos hf, hspan, Nat.add_comm]
    refine scans_numeric rfl hc ?_
    have hhead : ∀ d, ('.' :: f :: (fs ++ r)).head? = some d → isDigitPart d = false ∧ d ≠ 'x' ∧ d ≠ 'X' := by
      rintro d ⟨⟩
      decide
    rw [List.append_eq, List.append_assoc, List.cons_append, List.cons_append, numberLexeme_digits hcs hhead,
      if_neg (by simp), hfraction, List.drop_succ_cons, List.drop_succ_cons, List.drop_left, exponentLength_of_breaks hr,
      List.length_append]
    rfl

/-- A big integer ends with its letter. -/
theorem scans_bigInt {digits : String} (hne : digits ≠ "") (hdigits : ∀ c ∈ digits.toList, c.isDigit = true)
    (r : List Char) : Scans (digits.toList ++ ['n'] ++ r) [(.bigInt, digits ++ "n")] r := by
  have htext : digits ++ "n" = String.ofList (digits.toList ++ ['n']) := by
    rw [String.ofList_append, String.ofList_toList]
  obtain ⟨c, cs, hcs⟩ := List.exists_cons_of_ne_nil (mt String.toList_eq_nil_iff.mp hne)
  rw [hcs] at hdigits
  obtain ⟨hc, hdigits⟩ := List.forall_mem_cons.mp hdigits
  rw [htext, hcs]
  have hhead : ∀ d, ('n' :: r).head? = some d → isDigitPart d = false ∧ d ≠ 'x' ∧ d ≠ 'X' := by
    rintro d ⟨⟩
    decide
  refine scans_numeric rfl hc ?_
  rw [List.append_eq, List.append_assoc, List.singleton_append, numberLexeme_digits hdigits hhead, List.head?_cons,
    if_pos rfl, List.length_append, List.length_singleton]

theorem numberChars_eq (x : Binary64) :
    numberChars x =
      if x.isNaN then "NaN".toList else x.sign ++ if x.isInfinite then "Infinity".toList else x.magnitude := by
  unfold numberChars
  split
  · next hinf =>
    have hnan : ¬x.isNaN = true := by
      unfold Binary64.isInfinite at hinf
      unfold Binary64.isNaN
      simpa using Nat.le_of_eq (beq_iff_eq.mp hinf)
    rw [if_neg hnan, Binary64.sign]
    split <;> rfl
  · next hinf =>
    rw [Binary64.display, if_neg hinf]
    split
    · rfl
    · rw [String.toList_ofList, Binary64.magnitude]

theorem scans_number (x : Binary64) (hr : Breaks r) : Scans (numberChars x ++ r) (numberTokens x) r := by
  have hpart : ∀ c, r.head? = some c → isIdentPart c = false :=
    fun c hc => hr.outside (fun _ => isInner_of_isIdentPart) hc
  rw [numberChars_eq, numberTokens]
  split
  · exact scans_word (by decide) hpart
  · have hunsigned : Scans ((if x.isInfinite then "Infinity".toList else x.magnitude) ++ r)
        [if x.isInfinite then (.ident, "Infinity") else (.number, String.ofList x.magnitude)] r := by
      split
      · exact scans_word (by decide) hpart
      · exact scans_decimal x.isDecimal_magnitude hr
    rw [Binary64.sign]
    split
    · exact .of_char rfl rfl hunsigned
    · exact hunsigned

/-! ### Trees -/

theorem scans_key (key : String) (hr : ∀ c, r.head? = some c → isIdentPart c = false) :
    Scans (keyChars key ++ r) [keyToken key] r := by
  unfold keyChars keyToken
  split
  · next hkey => exact scans_word hkey hr
  · exact scans_quoted key r

theorem scans_joined {α : Type} {chars : α → List Char} {tokens : α → List Lexeme} {items : List α}
    (h : ∀ a ∈ items, ∀ r, Breaks r → Scans (chars a ++ r) (tokens a) r) (hr : Breaks r) :
    Scans (joinChars [',', ' '] (items.map chars) ++ r) (commaSeparated (items.map tokens)) r := by
  unfold commaSeparated
  induction items with
  | nil => exact .stop r
  | cons a items ih =>
    have hrest := ih fun b hb => h b (List.mem_cons_of_mem _ hb)
    have ha := h a List.mem_cons_self
    cases items with
    | nil =>
      rw [List.map_singleton, List.map_singleton, joinChars, List.intercalate_singleton]
      exact ha r hr
    | cons b items =>
      simp only [List.map_cons, joinChars, List.intercalate_cons_cons, List.append_assoc] at hrest ⊢
      exact (ha _ (breaks_cons rfl _)).trans (.of_char rfl rfl (.space rfl hrest))

theorem scans_arguments {args : List Argument} (h : ∀ a ∈ args, ∀ r, Breaks r → Scans (a.chars ++ r) a.tokens r)
    (hr : Breaks r) :
    Scans (joinChars [',', ' '] (argumentsChars args) ++ r) (commaSeparated (argumentsTokens args)) r := by
  rw [argumentsChars_eq_map, argumentsTokens_eq_map]
  exact scans_joined h hr

/-- A call behind a point, whatever its arguments are scanned as. -/
theorem scans_named {name : String} (hname : isIdentifier name = true) {x : List Char} {ts : List Lexeme}
    (h : ∀ r, Breaks r → Scans (x ++ r) ts r) (r : List Char) :
    Scans ('.' :: (name.toList ++ '(' :: (x ++ ')' :: r)))
      ((.dot, ".") :: (.ident, name) :: bracketed .lparen .rparen ts) r := by
  have hinner : Scans ('(' :: (x ++ ')' :: r)) (bracketed .lparen .rparen ts) r :=
    .of_char rfl rfl ((h _ (breaks_cons rfl _)).trans (.of_char rfl rfl (.stop r)))
  -- A name begins with no point, so the point before it is a token of its own.
  have hdot : ∀ cs, (name.toList ++ cs).take 2 ≠ ['.', '.'] := by
    intro cs hcs
    unfold isIdentifier at hname
    split at hname
    · cases hname
    · next c cs' htext =>
      rw [htext, List.cons_append, List.take_succ_cons, List.cons.injEq] at hcs
      rw [hcs.1] at hname
      cases hname
  refine .of_char rfl (lexeme_dot (hdot _)) ?_
  exact (scans_word hname (by rintro c ⟨⟩; rfl)).trans hinner

theorem scans_call {name : String} (hname : isIdentifier name = true) {args : List Argument}
    (h : ∀ a ∈ args, ∀ r, Breaks r → Scans (a.chars ++ r) a.tokens r) (r : List Char) :
    Scans ('.' :: (name.toList ++ '(' :: (joinChars [',', ' '] (argumentsChars args) ++ ')' :: r)))
      (callTokens name (argumentsTokens args)) r :=
  scans_named hname (fun _ hr => scans_arguments h hr) r

theorem scans_entry {e : String × Validator} (he : ∀ r, Scans (e.2.chars ++ r) e.2.tokens r) (r : List Char) :
    Scans (entryChars e ++ r) (entryTokens e) r := by
  obtain ⟨key, v⟩ := e
  have hvalue : Scans (':' :: ' ' :: (v.chars ++ r)) (sign .colon :: v.tokens) r :=
    .of_char rfl rfl (.space rfl (he r))
  unfold entryChars entryTokens
  rw [List.append_assoc, List.append_assoc]
  exact (scans_key key (by rintro c ⟨⟩; rfl)).trans hvalue

theorem scans_fields {entries : List (String × Validator)}
    (h : ∀ e ∈ entries, ∀ r, Scans (e.2.chars ++ r) e.2.tokens r) (r : List Char) :
    Scans ((Argument.fields entries).chars ++ r) (Argument.fields entries).tokens r := by
  cases entries with
  | nil => exact .of_char rfl rfl (.of_char rfl rfl (.stop r))
  | cons e es =>
    have hinner : Scans (joinChars [',', ' '] (entriesChars (e :: es)) ++ ' ' :: '\x7d' :: r)
        (commaSeparated (entriesTokens (e :: es))) (' ' :: '\x7d' :: r) := by
      rw [entriesChars_eq_map, entriesTokens_eq_map]
      exact scans_joined (fun e he r _ => scans_entry (h e he) r) (breaks_cons rfl _)
    unfold Argument.chars
    rw [List.append_assoc, List.append_assoc]
    exact .of_char rfl rfl (.space rfl (hinner.trans (.space rfl (.of_char rfl rfl (.stop r)))))

/-- Whatever follows a printed validator, scanning it finds the tokens of the tree. -/
theorem Validator.WellNamed.scans {v : Validator} (h : v.WellNamed) (r : List Char) :
    Scans (v.chars ++ r) v.tokens r := by
  -- A validator ends with a bracket, so anything may follow it; an argument may end with a word or a number.
  refine @Validator.WellNamed.rec (fun v _ => ∀ r, Scans (v.chars ++ r) v.tokens r)
    (fun a _ => ∀ r, Breaks r → Scans (a.chars ++ r) a.tokens r) ?call ?method
    ?validator ?list ?fields ?text ?number ?flag ?bigInt ?name v h r
  case call =>
    intro name args hname _ hargs r
    have hchars : (Validator.call name args).chars ++ r =
        "z".toList ++ '.' :: (name.toList ++ '(' :: (joinChars [',', ' '] (argumentsChars args) ++ ')' :: r)) := by
      unfold Validator.chars
      simp
    rw [hchars]
    exact (scans_word (by decide) (by rintro c ⟨⟩; rfl)).trans (scans_call hname hargs r)
  case method =>
    intro receiver name args _ hname _ hreceiver hargs r
    have hchars : (Validator.method receiver name args).chars ++ r = receiver.chars ++
        '.' :: (name.toList ++ '(' :: (joinChars [',', ' '] (argumentsChars args) ++ ')' :: r)) := by
      rw [Validator.chars]
      simp
    rw [hchars]
    exact (hreceiver _).trans (scans_call hname hargs r)
  case validator =>
    intro v _ hv r _
    exact hv r
  case list =>
    intro items _ hitems r _
    have hitems : Scans (joinChars [',', ' '] (argumentsChars items) ++ ']' :: r)
        (commaSeparated (argumentsTokens items)) (']' :: r) := scans_arguments hitems (breaks_cons rfl r)
    unfold Argument.chars
    rw [List.append_assoc]
    exact .of_char rfl rfl (hitems.trans (.of_char rfl rfl (.stop r)))
  case fields =>
    intro entries _ hentries r _
    exact scans_fields hentries r
  case text =>
    intro s r _
    exact scans_quoted s r
  case number =>
    intro x r hr
    exact scans_number x hr
  case flag =>
    intro b r hr
    have hword : isIdentifier (if b then "true" else "false") = true := by cases b <;> decide
    exact scans_word hword fun c hc => hr.outside (fun _ => isInner_of_isIdentPart) hc
  case bigInt =>
    intro digits hne hdigits r _
    exact scans_bigInt hne hdigits r
  case name =>
    intro word hword r hr
    exact scans_word hword fun c hc => hr.outside (fun _ => isInner_of_isIdentPart) hc

end

end SchemaSplice
