import SchemaSplice.Proofs.Splice.Seams
import SchemaSplice.Text.Quoted
/-!
# Texts that close what they open

A text is tame if it consists of characters that open nothing and of whole tokens that end where they end, such as quoted
strings and block comments. Before a character that continues no token, scanning a tame text ends with the text.
-/

namespace SchemaSplice.Source

/-! ### Characters inside tokens -/

/-- Characters that may follow the first one of a token which opens nothing. -/
def isInner (c : Char) : Bool := isIdentPart c || c == '.' || c == '+' || c == '-' || c == '>'

/-- Characters that open neither a quoted token nor a comment. -/
def isQuiet (c : Char) : Bool := c != '/' && c != '\x22' && c != '\x27' && c != '\x60'

def AllFirst (p : Char → Bool) (n : Nat) (cs : List Char) : Prop := ∀ a ∈ cs.take n, p a = true

theorem allFirst_zero (p : Char → Bool) (cs : List Char) : AllFirst p 0 cs := by
  intro a ha
  cases ha

theorem allFirst_cons {p : Char → Bool} {c : Char} (hc : p c = true) {n : Nat} {cs : List Char}
    (h : AllFirst p n cs) : AllFirst p (n + 1) (c :: cs) := by
  intro a ha
  rcases List.mem_cons.mp ha with rfl | ha
  · exact hc
  · exact h a ha

theorem allFirst_add {p : Char → Bool} {m n : Nat} {cs : List Char} (hm : AllFirst p m cs)
    (hn : AllFirst p n (cs.drop m)) : AllFirst p (m + n) cs := by
  intro a ha
  rw [List.take_add] at ha
  rcases List.mem_append.mp ha with ha | ha
  · exact hm a ha
  · exact hn a ha

theorem isInner_of_isIdentPart {c : Char} (h : isIdentPart c = true) : isInner c = true := by
  simp only [isInner, h, Bool.true_or]

theorem isInner_of_isDigitPart {c : Char} (h : isDigitPart c = true) : isInner c = true := by
  apply isInner_of_isIdentPart
  rcases (Bool.or_eq_true _ _).mp h with h | h
  · exact isIdentPart_of_isDigit h
  · rw [beq_iff_eq] at h
    subst h
    rfl

theorem allFirst_spanLength {p : Char → Bool} (hp : ∀ c, p c = true → isInner c = true)
    (cs : List Char) : AllFirst isInner (spanLength p cs) cs :=
  fun a ha => hp a (spanLength_take p cs a ha)

theorem allFirst_fractionLength (cs : List Char) : AllFirst isInner (fractionLength cs) cs := by
  fun_cases fractionLength cs with
  | case1 d cs hd =>
    rw [Nat.add_comm]
    exact allFirst_cons (by decide) (allFirst_cons (isInner_of_isIdentPart (isIdentPart_of_isDigit hd))
      (allFirst_spanLength (fun _ => isInner_of_isDigitPart) cs))
  | case2 => exact allFirst_zero _ _
  | case3 => exact allFirst_zero _ _

theorem allFirst_signLength (cs : List Char) : AllFirst isInner (signLength cs) cs := by
  fun_cases signLength cs with
  | case1 s cs hs =>
    apply allFirst_cons ?_ (allFirst_zero _ _)
    rcases (Bool.or_eq_true _ _).mp hs with hs | hs
    · rw [beq_iff_eq] at hs
      subst hs
      rfl
    · rw [beq_iff_eq] at hs
      subst hs
      rfl
  | case2 => exact allFirst_zero _ _
  | case3 => exact allFirst_zero _ _

theorem allFirst_exponentLength (cs : List Char) : AllFirst isInner (exponentLength cs) cs := by
  cases cs with
  | nil => exact allFirst_zero _ _
  | cons e cs =>
    by_cases he : e = 'e' ∨ e = 'E'
    · rw [exponentLength_of_eq he]
      split
      · exact allFirst_zero _ _
      · rw [Nat.add_assoc, Nat.add_comm]
        refine allFirst_cons ?_ (allFirst_add (allFirst_signLength cs) ?_)
        · rcases he with rfl | rfl <;> rfl
        · exact allFirst_spanLength (fun _ h => isInner_of_isIdentPart (isIdentPart_of_isDigit h)) _
    · rw [exponentLength_of_ne (not_or.mp he)]
      exact allFirst_zero _ _

theorem allFirst_hexLength {d : Char} {cs : List Char} (h : hexLength d cs ≠ 0) :
    AllFirst isInner (hexLength d cs + 1) cs := by
  fun_cases hexLength d cs with
  | case1 x cs hx =>
    refine allFirst_cons ?_ (allFirst_spanLength (fun _ h => isInner_of_isIdentPart (isIdentPart_of_isHexPart h)) cs)
    simp only [Bool.and_eq_true, Bool.or_eq_true, beq_iff_eq] at hx
    rcases hx.2 with rfl | rfl <;> rfl
  | case2 x cs hx =>
    rw [hexLength, if_neg hx] at h
    exact absurd rfl h
  | case3 => exact absurd rfl h

theorem allFirst_numberLexeme (d : Char) (cs : List Char) :
    AllFirst isInner (numberLexeme d cs).2 cs := by
  rw [numberLexeme_eq]
  have hwhole := allFirst_spanLength (fun _ => isInner_of_isDigitPart) cs
  split
  · next hhex => exact allFirst_hexLength hhex
  · split
    · next hn =>
      obtain ⟨l, hl⟩ := List.head?_eq_some_iff.mp hn
      apply allFirst_add hwhole
      rw [hl]
      exact allFirst_cons (by decide) (allFirst_zero _ _)
    · apply allFirst_add
      · exact allFirst_add hwhole (allFirst_fractionLength _)
      · rw [← List.drop_drop]
        exact allFirst_exponentLength _

/-- A token that opens nothing consists of inner characters. -/
theorem allFirst_lexeme {c : Char} (hc : isQuiet c = true) (cs : List Char) :
    AllFirst isInner (lexeme c cs).2 cs := by
  by_cases hs : isIdentStart c = true
  · rw [lexeme_of_isIdentStart hs]
    exact allFirst_spanLength (fun _ => isInner_of_isIdentPart) cs
  rw [Bool.not_eq_true] at hs
  by_cases hd : c.isDigit = true
  · rw [lexeme_of_isDigit hs hd]
    exact allFirst_numberLexeme c cs
  rw [Bool.not_eq_true] at hd
  by_cases hspecial : c ∉ ['/', '\x22', '\x27', '\x60', '.', '?', '=']
  · rw [(lexeme_single hs hd hspecial cs).1]
    exact allFirst_zero _ _
  simp only [Decidable.not_not, List.mem_cons, List.not_mem_nil, or_false] at hspecial
  rcases hspecial with rfl | rfl | rfl | rfl | rfl | rfl | rfl
  · cases hc
  · cases hc
  · cases hc
  · cases hc
  · by_cases hdots : cs.take 2 = ['.', '.']
    · obtain ⟨l, rfl⟩ : ∃ l, cs = '.' :: '.' :: l :=
        ⟨cs.drop 2, by rw [← List.take_append_drop 2 cs, hdots]; rfl⟩
      exact allFirst_cons (by decide) (allFirst_cons (by decide) (allFirst_zero _ l))
    · rw [lexeme_dot hdots]
      exact allFirst_zero _ _
  · by_cases hdot : cs.head? = some '.'
    · obtain ⟨l, rfl⟩ := List.head?_eq_some_iff.mp hdot
      exact allFirst_cons (by decide) (allFirst_zero _ l)
    · rw [lexeme_question hdot]
      exact allFirst_zero _ _
  · by_cases hgt : cs.head? = some '>'
    · obtain ⟨l, rfl⟩ := List.head?_eq_some_iff.mp hgt
      exact allFirst_cons (by decide) (allFirst_zero _ l)
    · rw [lexeme_eq hgt]
      exact allFirst_zero _ _

/-! ### Tame texts -/

/-- A text of characters that open nothing and of tokens that close themselves. -/
inductive Tame : List Char → Prop
  | nil : Tame []
  | quiet {c : Char} {x : List Char} (hc : isQuiet c = true) (hx : Tame x) : Tame (c :: x)
  | closed {c : Char} {body x : List Char} (hspace : isSpace c = false) (hinner : isInner c = false)
      (hlength : ∀ rest, (lexeme c (body ++ rest)).2 = body.length) (hx : Tame x) :
      Tame (c :: (body ++ x))

namespace Tame

theorem append {x y : List Char} (hx : Tame x) (hy : Tame y) : Tame (x ++ y) := by
  induction hx with
  | nil => exact hy
  | quiet hc _ ih => exact .quiet hc ih
  | closed hspace hinner hlength _ ih =>
    rw [List.cons_append, List.append_assoc]
    exact .closed hspace hinner hlength ih

theorem of_quiet {x : List Char} (h : ∀ c ∈ x, isQuiet c = true) : Tame x := by
  induction x with
  | nil => exact .nil
  | cons c x ih =>
    refine .quiet (h c List.mem_cons_self) (ih ?_)
    intro d hd
    exact h d (List.mem_cons_of_mem _ hd)

theorem of_all {x : List Char} (h : x.all isQuiet = true) : Tame x := .of_quiet (List.all_eq_true.mp h)

theorem drop_inner {x : List Char} (hx : Tame x) {b : Char} (hb : isInner b = false) (r : List Char)
    {n : Nat} (h : AllFirst isInner n (x ++ b :: r)) : n ≤ x.length ∧ Tame (x.drop n) := by
  induction hx generalizing n with
  | nil =>
    cases n with
    | zero => exact ⟨Nat.le_refl 0, .nil⟩
    | succ n =>
      have hfirst := h b List.mem_cons_self
      rw [hb] at hfirst
      cases hfirst
  | @quiet c x hc hx ih =>
    cases n with
    | zero => exact ⟨Nat.zero_le _, .quiet hc hx⟩
    | succ n =>
      obtain ⟨hle, htame⟩ := ih (fun a ha => h a (List.mem_cons_of_mem _ ha))
      exact ⟨Nat.succ_le_succ hle, htame⟩
  | @closed c body x hspace hinner hlength hx _ =>
    cases n with
    | zero => exact ⟨Nat.zero_le _, .closed hspace hinner hlength hx⟩
    | succ n =>
      have hfirst := h c List.mem_cons_self
      rw [hinner] at hfirst
      cases hfirst

/-- A tame text is scanned to its end when nothing after it continues a token. -/
theorem scans {x : List Char} (hx : Tame x) {b : Char} (hb : isInner b = false) (r : List Char) :
    ∃ ts, Scans (x ++ b :: r) ts (b :: r) := by
  -- A token may take several quiet characters at once, so the induction is on the length.
  induction hlen : x.length using Nat.strongRecOn generalizing x with
  | ind n ih =>
    cases hx with
    | nil => exact ⟨[], .stop _⟩
    | @quiet c x hc hx =>
      rw [List.length_cons] at hlen
      by_cases hspace : isSpace c = true
      · obtain ⟨ts, hrun⟩ := ih x.length (by omega) hx rfl
        exact ⟨ts, .space hspace hrun⟩
      · rw [Bool.not_eq_true] at hspace
        obtain ⟨hle, htame⟩ := hx.drop_inner hb r (allFirst_lexeme hc (x ++ b :: r))
        obtain ⟨ts, hrun⟩ := ih (x.drop (lexeme c (x ++ b :: r)).2).length
          (by rw [List.length_drop]; omega) htame rfl
        rw [← List.drop_append_of_le_length hle] at hrun
        exact ⟨_, .token hspace hrun⟩
    | @closed c body x hspace hinner hlength hx =>
      rw [List.length_cons, List.length_append] at hlen
      obtain ⟨ts, hrun⟩ := ih x.length (by omega) hx rfl
      rw [List.cons_append, List.append_assoc]
      exact ⟨_, .of_lexeme hspace (Prod.ext rfl (hlength _)) hrun⟩

/-- A token that closes itself, as a text. -/
theorem of_token {c : Char} {body : List Char} (hspace : isSpace c = false) (hinner : isInner c = false)
    (hlength : ∀ rest, (lexeme c (body ++ rest)).2 = body.length) : Tame (c :: body) := by
  rw [← List.append_nil body]
  exact .closed hspace hinner hlength .nil

end Tame

/-! ### Closed tokens -/

theorem commentBody?_of_not_mem {body : List Char} (h : '*' ∉ body) (rest : List Char) :
    commentBody? (body ++ '*' :: '/' :: rest) = some body.length := by
  induction body with
  | nil => rfl
  | cons a body ih =>
    rw [List.cons_append, commentBody?_cons, if_neg]
    · rw [ih (fun hb => h (List.mem_cons_of_mem _ hb))]
      rfl
    · rintro ⟨rfl, -⟩
      exact h List.mem_cons_self

/-- A block comment closes itself. -/
theorem lexeme_comment {body : List Char} (h : '*' ∉ body) (rest : List Char) :
    lexeme '/' ('*' :: (body ++ ['*', '/']) ++ rest) =
      (.blockComment, ('*' :: (body ++ ['*', '/'])).length) := by
  rw [List.cons_append, List.append_assoc, List.cons_append, List.cons_append, List.nil_append,
    lexeme_blockComment (commentBody?_of_not_mem h rest)]
  simp

theorem tame_comment {body : List Char} (h : '*' ∉ body) :
    Tame ('/' :: '*' :: (body ++ ['*', '/'])) :=
  .of_token rfl rfl fun rest => by rw [lexeme_comment h rest]

/-- A body without quotes, backslashes and line feeds ends at the quote after it. -/
theorem quotedBody_plain (quote : Char) {body : List Char}
    (h : ∀ a ∈ body, a ≠ quote ∧ a ≠ '\\' ∧ a ≠ '\n') (hquote : quote ≠ '\\') (rest : List Char) :
    quotedBody quote false (body ++ quote :: rest) = (body.length, true) := by
  induction body with
  | nil => rw [List.nil_append, quotedBody_cons quote false hquote, if_pos rfl, List.length_nil]
  | cons a body ih =>
    obtain ⟨hq, hb, hn⟩ := h a List.mem_cons_self
    rw [List.cons_append, quotedBody_cons quote false hb, if_neg hq, if_neg (fun hnl => hn hnl.1),
      ih (fun b hmem => h b (List.mem_cons_of_mem _ hmem)), List.length_cons]

theorem tame_quoted {body : List Char} (h : ∀ a ∈ body, a ≠ '\x27' ∧ a ≠ '\\' ∧ a ≠ '\n') :
    Tame ('\x27' :: (body ++ ['\x27'])) := by
  refine .of_token rfl rfl fun rest => ?_
  rw [List.append_assoc, List.singleton_append, lexeme_quote rfl, quotedBody_plain _ h (by decide), if_pos rfl,
    List.length_append, List.length_singleton]

/-! ### Strings in their JSON form -/

theorem hexDigit_plain : ∀ n < 16, Text.hexDigit n ≠ '\x22' ∧ Text.hexDigit n ≠ '\\' ∧ Text.hexDigit n ≠ '\n' := by
  decide

/-- What a character becomes inside a JSON string stays inside the quotes. -/
theorem quotedBody_escapeJson (c : Char) (rest : List Char) :
    quotedBody '\x22' false (Text.escapeJson c ++ rest) =
      ((quotedBody '\x22' false rest).1 + (Text.escapeJson c).length, (quotedBody '\x22' false rest).2) := by
  have hescape : ∀ a, a ≠ '\n' → quotedBody '\x22' false ('\\' :: a :: rest) =
      ((quotedBody '\x22' false rest).1 + 2, (quotedBody '\x22' false rest).2) := by
    intro a ha
    rw [quotedBody_escape, if_neg ha]
  have hplain : ∀ a l, a ≠ '\x22' ∧ a ≠ '\\' ∧ a ≠ '\n' → quotedBody '\x22' false (a :: l) =
      ((quotedBody '\x22' false l).1 + 1, (quotedBody '\x22' false l).2) := by
    rintro a l ⟨hq, hb, hn⟩
    rw [quotedBody_cons '\x22' false hb, if_neg hq, if_neg (fun h => hn h.1)]
  unfold Text.escapeJson
  split
  · exact hescape '\x22' (by decide)
  · exact hescape '\\' (by decide)
  · exact hescape 'n' (by decide)
  · exact hescape 'r' (by decide)
  · exact hescape 't' (by decide)
  next hq hb hn _ _ =>
  split
  · exact hescape 'b' (by decide)
  split
  · exact hescape 'f' (by decide)
  split
  · next hlow =>
    have hfirst := hexDigit_plain (c.toNat / 16) (by omega)
    have hsecond := hexDigit_plain (c.toNat % 16) (Nat.mod_lt _ (by decide))
    simp only [List.cons_append, List.nil_append]
    rw [quotedBody_escape, if_neg (by decide), hplain '0' _ (by decide), hplain '0' _ (by decide),
      hplain _ _ hfirst, hplain _ _ hsecond]
    rfl
  · exact hplain c rest ⟨fun h => hq h, fun h => hb h, fun h => hn h⟩

theorem quotedBody_json (cs rest : List Char) :
    quotedBody '\x22' false (cs.flatMap Text.escapeJson ++ '\x22' :: rest) =
      ((cs.flatMap Text.escapeJson).length, true) := by
  induction cs with
  | nil => rfl
  | cons c cs ih =>
    rw [List.flatMap_cons, List.append_assoc, quotedBody_escapeJson, ih, List.length_append, Nat.add_comm]

theorem tame_quoteJson (cs : List Char) : Tame (Text.quoteJsonChars cs) := by
  show Tame ('\x22' :: (cs.flatMap Text.escapeJson ++ ['\x22']))
  refine .of_token rfl rfl fun rest => ?_
  rw [List.append_assoc, List.singleton_append, lexeme_quote rfl, quotedBody_json, if_pos rfl, List.length_append,
    List.length_singleton]

end SchemaSplice.Source
