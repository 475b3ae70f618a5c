import SchemaSplice.Proofs.Splice.Matching
import SchemaSplice.Proofs.Splice.Printed
/-!
# Printed texts close their brackets

A text is neat if it is tame and each bracket in it is closed by the right one: scanning it finds balanced tokens. Strings hold any
characters, brackets included, but they are single tokens. So printed validators are neat when the names in them
are identifiers, and the text that is put into a chain has balanced tokens.
-/

namespace SchemaSplice.Source

/-! ### Brackets as characters -/

/-- The characters that open brackets, with those that close them. -/
def bracketPairs : List (Char × Char) := [('(', ')'), ('[', ']'), ('\x7b', '\x7d')]

def isBracket (c : Char) : Bool := bracketPairs.any fun p => c == p.1 || c == p.2

theorem kinds_of_bracketPairs {a b : Char} (h : (a, b) ∈ bracketPairs) :
    ∃ o c : Kind, o.closer? = some c ∧ ∀ cs, lexeme a cs = (o, 0) ∧ lexeme b cs = (c, 0) := by
  simp only [bracketPairs, List.mem_cons, Prod.mk.injEq, List.not_mem_nil, or_false] at h
  rcases h with ⟨rfl, rfl⟩ | ⟨rfl, rfl⟩ | ⟨rfl, rfl⟩
  · exact ⟨.lparen, .rparen, rfl, fun _ => ⟨rfl, rfl⟩⟩
  · exact ⟨.lbracket, .rbracket, rfl, fun _ => ⟨rfl, rfl⟩⟩
  · exact ⟨.lbrace, .rbrace, rfl, fun _ => ⟨rfl, rfl⟩⟩

theorem apart_of_bracketPairs : ∀ p ∈ bracketPairs, isSpace p.1 = false ∧ isSpace p.2 = false ∧ isInner p.1 = false ∧
    isInner p.2 = false ∧ isQuiet p.1 = true ∧ isQuiet p.2 = true := by
  decide

/-- Only a bracket begins a token that opens or closes one. -/
theorem kind_of_not_isBracket {c : Char} (h : isBracket c = false) (cs : List Char) :
    (lexeme c cs).1.opens = false ∧ (lexeme c cs).1.closes = false := by
  by_cases hs : isIdentStart c = true
  · rw [lexeme_of_isIdentStart hs]
    exact ⟨rfl, rfl⟩
  by_cases hd : c.isDigit = true
  · rw [Bool.not_eq_true] at hs
    rw [lexeme_of_isDigit hs hd, numberLexeme_eq]
    split
    · exact ⟨rfl, rfl⟩
    · split <;> exact ⟨rfl, rfl⟩
  · unfold lexeme slashLexeme quotedLexeme dotLexeme pairedLexeme
    rw [if_neg hs, if_neg hd]
    repeat' split
    all_goals first | exact ⟨rfl, rfl⟩ | cases h

theorem isBracket_of_isInner {c : Char} (h : isInner c = true) : isBracket c = false := by
  have hne : ∀ d, isInner d = false → c ≠ d := by
    rintro d hd rfl
    rw [h] at hd
    cases hd
  simp only [isBracket, bracketPairs, List.any_cons, List.any_nil, Bool.or_false, Bool.or_eq_false_iff,
    beq_eq_false_iff_ne]
  exact ⟨⟨hne _ rfl, hne _ rfl⟩, ⟨hne _ rfl, hne _ rfl⟩, hne _ rfl, hne _ rfl⟩

/-! ### Neat texts -/

/-- A text of characters that open nothing, of tokens that close themselves and of brackets that match. -/
inductive Neat : List Char → Prop
  | nil : Neat []
  | quiet {c : Char} {x : List Char} (hc : isQuiet c = true) (hb : isBracket c = false) (hx : Neat x) : Neat (c :: x)
  | closed {c : Char} {body x : List Char} (hspace : isSpace c = false) (hinner : isInner c = false)
      (hb : isBracket c = false) (hlength : ∀ rest, (lexeme c (body ++ rest)).2 = body.length) (hx : Neat x) :
      Neat (c :: (body ++ x))
  | between {a b : Char} {x y : List Char} (hab : (a, b) ∈ bracketPairs) (hx : Neat x) (hy : Neat y) :
      Neat (a :: (x ++ b :: y))

namespace Neat

variable {x y : List Char}

theorem append (hx : Neat x) (hy : Neat y) : Neat (x ++ y) := by
  induction hx with
  | nil => exact hy
  | quiet hc hb _ ih => exact .quiet hc hb ih
  | closed hspace hinner hb hlength _ ih =>
    rw [List.cons_append, List.append_assoc]
    exact .closed hspace hinner hb hlength ih
  | between hab hx _ _ ih =>
    rw [List.cons_append, List.append_assoc, List.cons_append]
    exact .between hab hx ih

theorem of_inner (h : ∀ c ∈ x, isInner c = true) : Neat x := by
  induction x with
  | nil => exact .nil
  | cons c x ih =>
    have hc := h c List.mem_cons_self
    exact .quiet (isQuiet_of_isInner hc) (isBracket_of_isInner hc) (ih fun d hd => h d (List.mem_cons_of_mem _ hd))

theorem of_isIdentifier {s : String} (h : isIdentifier s = true) : Neat s.toList :=
  .of_inner fun c hc => isInner_of_isIdentPart (isIdentPart_of_isIdentifier h c hc)

theorem of_token {c : Char} {body : List Char} (hspace : isSpace c = false) (hinner : isInner c = false)
    (hb : isBracket c = false) (hlength : ∀ rest, (lexeme c (body ++ rest)).2 = body.length) : Neat (c :: body) := by
  rw [← List.append_nil body]
  exact .closed hspace hinner hb hlength .nil

theorem enclosed {a b : Char} (hab : (a, b) ∈ bracketPairs) (hx : Neat x) : Neat (a :: (x ++ [b])) :=
  .between hab hx .nil

theorem tame (hx : Neat x) : Tame x := by
  induction hx with
  | nil => exact .nil
  | quiet hc _ _ ih => exact .quiet hc ih
  | closed hspace hinner _ hlength _ ih => exact .closed hspace hinner hlength ih
  | between hab _ _ ih ih' =>
    obtain ⟨-, -, -, -, ha, hb⟩ := apart_of_bracketPairs _ hab
    exact .quiet ha (ih.append (.quiet hb ih'))

theorem drop_inner (hx : Neat x) {r : List Char} {n : Nat} (h : AllFirst isInner n (x ++ r)) : Neat (x.drop n) := by
  induction hx generalizing n with
  | nil =>
    rw [List.drop_nil]
    exact .nil
  | @quiet c x hc hb' hx ih =>
    cases n with
    | zero => exact .quiet hc hb' hx
    | succ n => exact ih fun a ha => h a (List.mem_cons_of_mem _ ha)
  | @closed c body x hspace hinner hb' hlength hx _ =>
    cases n with
    | zero => exact .closed hspace hinner hb' hlength hx
    | succ n =>
      have hfirst := h c List.mem_cons_self
      rw [hinner] at hfirst
      cases hfirst
  | @between a c x y hab hx hy _ _ =>
    cases n with
    | zero => exact .between hab hx hy
    | succ n =>
      have hfirst := h a List.mem_cons_self
      rw [(apart_of_bracketPairs _ hab).2.2.1] at hfirst
      cases hfirst

/-- A neat text is scanned to its end, and its tokens are balanced. -/
theorem scans (hx : Neat x) {b : Char} (hb : isInner b = false) (r : List Char) :
    ∃ ts, Scans (x ++ b :: r) ts (b :: r) ∧ Balanced (ts.map (·.1)) := by
  -- A token may take several quiet characters at once, so the induction is on the length.
  induction hlen : x.length using Nat.strongRecOn generalizing x b r with
  | ind n ih =>
    cases hx with
    | nil => exact ⟨[], .stop _, .nil⟩
    | @quiet c x hc hplain hx =>
      rw [List.length_cons] at hlen
      by_cases hspace : isSpace c = true
      · obtain ⟨ts, hrun, hts⟩ := ih x.length (by omega) hx hb r rfl
        exact ⟨ts, .space hspace hrun, hts⟩
      · rw [Bool.not_eq_true] at hspace
        have hinner := allFirst_lexeme hc (x ++ b :: r)
        have hle := (hx.tame.drop_inner hb r hinner).1
        obtain ⟨ts, hrun, hts⟩ := ih (x.drop (lexeme c (x ++ b :: r)).2).length
          (by rw [List.length_drop]; omega) (hx.drop_inner hinner) hb r rfl
        rw [← List.drop_append_of_le_length hle] at hrun
        obtain ⟨hopens, hcloses⟩ := kind_of_not_isBracket hplain (x ++ b :: r)
        exact ⟨_, .token hspace hrun, .plain hopens hcloses hts⟩
    | @closed c body x hspace hinner hplain hlength hx =>
      rw [List.length_cons, List.length_append] at hlen
      obtain ⟨ts, hrun, hts⟩ := ih x.length (by omega) hx hb r rfl
      obtain ⟨hopens, hcloses⟩ := kind_of_not_isBracket hplain (body ++ (x ++ b :: r))
      rw [List.cons_append, List.append_assoc]
      exact ⟨_, .of_lexeme hspace (Prod.ext rfl (hlength _)) hrun, .plain hopens hcloses hts⟩
    | @between a c x y hab hx hy =>
      rw [List.length_cons, List.length_append, List.length_cons] at hlen
      obtain ⟨hspace, hspace', -, hinner', -, -⟩ := apart_of_bracketPairs _ hab
      obtain ⟨o, k, hok, hlexeme⟩ := kinds_of_bracketPairs hab
      obtain ⟨ts, hrun, hts⟩ := ih x.length (by omega) hx hinner' (y ++ b :: r) rfl
      obtain ⟨us, hrun', hus⟩ := ih y.length (by omega) hy hb r rfl
      have hclose : Scans (c :: (y ++ b :: r)) ((k, String.ofList [c]) :: us) (b :: r) :=
        .of_char hspace' (hlexeme _).2 hrun'
      refine ⟨(o, String.ofList [a]) :: (ts ++ (k, String.ofList [c]) :: us), ?_, ?_⟩
      · rw [List.cons_append, List.append_assoc, List.cons_append]
        exact .of_char hspace (hlexeme _).1 (hrun.trans hclose)
      · rw [List.map_cons, List.map_append, List.map_cons]
        exact .between hok hts hus

end Neat

theorem neat_comment {body : List Char} (h : '*' ∉ body) : Neat ('/' :: '*' :: (body ++ ['*', '/'])) :=
  .of_token rfl rfl rfl fun rest => by rw [lexeme_comment h rest]

theorem neat_quoteJson (cs : List Char) : Neat (Text.quoteJsonChars cs) := by
  show Neat ('\x22' :: (cs.flatMap Text.escapeJson ++ ['\x22']))
  refine .of_token rfl rfl rfl fun rest => ?_
  rw [List.append_assoc, List.singleton_append, lexeme_quote rfl, quotedBody_json, if_pos rfl, List.length_append,
    List.length_singleton]

end SchemaSplice.Source

namespace SchemaSplice

open Source Validator

/-! ### Validators -/

mutual

/-- A validator whose names are identifiers and whose big integers have digits. -/
inductive Validator.WellNamed : Validator → Prop
  | call {name : String} {args : List Argument} (hname : isIdentifier name = true) (hargs : ∀ a ∈ args, a.WellNamed) :
      (Validator.call name args).WellNamed
  | method {receiver : Validator} {name : String} {args : List Argument} (hreceiver : receiver.WellNamed)
      (hname : isIdentifier name = true) (hargs : ∀ a ∈ args, a.WellNamed) :
      (Validator.method receiver name args).WellNamed

inductive Argument.WellNamed : Argument → Prop
  | validator {v : Validator} (h : v.WellNamed) : (Argument.validator v).WellNamed
  | list {items : List Argument} (h : ∀ a ∈ items, a.WellNamed) : (Argument.list items).WellNamed
  | fields {entries : List (String × Validator)} (h : ∀ e ∈ entries, e.2.WellNamed) :
      (Argument.fields entries).WellNamed
  | text (s : String) : (Argument.text s).WellNamed
  | number (x : Binary64) : (Argument.number x).WellNamed
  | flag (b : Bool) : (Argument.flag b).WellNamed
  | bigInt {digits : String} (hne : digits ≠ "") (h : ∀ c ∈ digits.toList, c.isDigit = true) :
      (Argument.bigInt digits).WellNamed
  | name {word : String} (h : isIdentifier word = true) : (Argument.name word).WellNamed

end

theorem neat_joinChars {separator : List Char} (hsep : Neat separator) {items : List (List Char)}
    (h : ∀ x ∈ items, Neat x) : Neat (joinChars separator items) := by
  fun_induction joinChars separator items with
  | case1 => exact .nil
  | case2 a => exact h a List.mem_cons_self
  | case3 a b rest ih =>
    refine .append (.append (h a List.mem_cons_self) hsep) (ih ?_)
    intro x hx
    exact h x (List.mem_cons_of_mem _ hx)

/-- Spaces, commas and colons are plain. -/
theorem neat_of_all {x : List Char} (h : x.all (fun c => isQuiet c && !isBracket c) = true) : Neat x := by
  induction x with
  | nil => exact .nil
  | cons c x ih =>
    simp only [List.all_cons, Bool.and_eq_true, Bool.not_eq_true'] at h
    exact .quiet h.1.1 h.1.2 (ih (by simpa using h.2))

theorem neat_arguments {args : List Argument} (h : ∀ a ∈ args, Neat a.chars) {a b : Char}
    (hab : (a, b) ∈ bracketPairs) : Neat (a :: (joinChars [',', ' '] (argumentsChars args) ++ [b])) := by
  apply Neat.enclosed hab
  apply neat_joinChars (neat_of_all rfl)
  intro x hx
  obtain ⟨a, ha, rfl⟩ := mem_argumentsChars hx
  exact h a ha

theorem neat_keyChars (key : String) : Neat (keyChars key) := by
  unfold keyChars
  split
  · next hkey => exact .of_isIdentifier hkey
  · exact neat_quoteJson _

theorem neat_fields {entries : List (String × Validator)} (h : ∀ e ∈ entries, Neat e.2.chars) :
    Neat (Argument.fields entries).chars := by
  cases entries with
  | nil => exact .enclosed (by decide) .nil
  | cons e es =>
    have hentries : Neat (joinChars [',', ' '] (entriesChars (e :: es))) := by
      apply neat_joinChars (neat_of_all rfl)
      intro x hx
      obtain ⟨⟨key, v⟩, hmem, rfl⟩ := mem_entriesChars hx
      exact .append (.append (neat_keyChars key) (neat_of_all rfl)) (h _ hmem)
    have hspaced := Neat.enclosed (a := '\x7b') (b := '\x7d') (by decide) (((neat_of_all rfl : Neat [' ']).append hentries).append
      (neat_of_all rfl : Neat [' ']))
    rw [List.append_assoc, List.append_assoc] at hspaced
    unfold Argument.chars
    rw [List.append_assoc]
    exact hspaced

theorem Validator.WellNamed.neat {v : Validator} (h : v.WellNamed) : Neat v.chars := by
  refine @Validator.WellNamed.rec (fun v _ => Neat v.chars) (fun a _ => Neat a.chars) ?call ?method
    ?validator ?list ?fields ?text ?number ?flag ?bigInt ?name v h
  case call =>
    intro name args hname _ hargs
    unfold Validator.chars
    rw [List.append_assoc]
    exact .append (.append (neat_of_all rfl) (.of_isIdentifier hname)) (neat_arguments hargs (by decide))
  case method =>
    intro receiver name args _ hname _ hreceiver hargs
    unfold Validator.chars
    rw [List.append_assoc]
    exact .append (.append hreceiver (.quiet rfl rfl (.of_isIdentifier hname))) (neat_arguments hargs (by decide))
  case validator =>
    intro v _ hv
    exact hv
  case list =>
    intro items _ hitems
    exact neat_arguments hitems (by decide)
  case fields =>
    intro entries _ hentries
    exact neat_fields hentries
  case text =>
    intro s
    exact neat_quoteJson _
  case number =>
    intro x
    exact .of_inner (isInner_numberChars x)
  case flag =>
    intro b
    cases b
    · exact neat_of_all rfl
    · exact neat_of_all rfl
  case bigInt =>
    intro digits _ hdigits
    refine .append (.of_inner fun c hc => ?_) (neat_of_all rfl)
    exact isInner_of_isIdentPart (isIdentPart_of_isDigit (hdigits c hc))
  case name =>
    intro word hword
    exact .of_isIdentifier hword

/-! ### Marked texts -/

theorem neat_printMarked {v : Validator} (hv : Neat v.chars) : Neat v.printMarked.toList := by
  rw [printMarked_toList, beginMarker_toList, endMarker_toList]
  refine .append (.append (neat_comment (by decide)) ?_) (neat_comment (by decide))
  exact .quiet rfl rfl (hv.append (neat_of_all rfl))

theorem balanced_printMarked {v : Validator} (hv : Neat v.chars) :
    Balanced ((lexemes v.printMarked).map (·.1)) := by
  obtain ⟨ts, hrun, hts⟩ := (neat_printMarked hv).scans (b := ';') rfl []
  have hlexemes := (selfContained_printMarked hv.tame).scans_lexemes [';']
  obtain ⟨us, hus, hsame⟩ := Scans.between (x := []) hrun hlexemes
  obtain rfl : us = [] := by
    rcases Scans.last (k := []) hus with ⟨-, h⟩ | ⟨_, _, h, -⟩ | ⟨_, _, _, _, -, h, -⟩
    · exact h
    all_goals simp at h
  rw [hsame, List.append_nil]
  exact hts

end SchemaSplice
