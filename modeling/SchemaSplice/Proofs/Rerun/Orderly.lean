import SchemaSplice.Proofs.Meaning.Calls
import SchemaSplice.Proofs.Printing.SelfContained
import SchemaSplice.Proofs.Rerun.Glyphs
import SchemaSplice.Proofs.Splice.Names
/-!
# Orderly tokens

The tokens of a generated validator are such that nothing in them can be taken for a declaration or for the end of a procedure: after
a dot comes a word that is neither `query` nor `mutation`, no two words stand side by side, and there is no angle bracket.
-/

namespace SchemaSplice

open Source Validator Annotation SchemaSplice.Types Declaration Pass

/-! ### Tokens in order -/

structure Follows (a b : Lexeme) : Prop where
  dot : a.1 = .dot → b.1 = .ident ∧ b.2 ≠ "query" ∧ b.2 ≠ "mutation"
  ident : a.1 = .ident → b.1 ≠ .ident

def isUnruly (k : Kind) : Bool := k == .lt || k == .questionDot || k.isComment

/-- Balanced tokens of which each may come after the one before. -/
structure Orderly (ts : List Lexeme) : Prop where
  balanced : Balanced (ts.map (·.1))
  chain : ts.IsChain Follows
  last : ∀ a ∈ ts.getLast?, a.1 ≠ .dot
  ruly : ∀ a ∈ ts, isUnruly a.1 = false

namespace Orderly

variable {ts us : List Lexeme} {a b : Lexeme} {k : Kind}

theorem nil : Orderly [] := ⟨.nil, .nil, by simp, by simp⟩

theorem singleton (hopens : a.1.opens = false) (hcloses : a.1.closes = false) (hdot : a.1 ≠ .dot)
    (hruly : isUnruly a.1 = false) : Orderly [a] :=
  ⟨.plain hopens hcloses .nil, .singleton a, by simpa using hdot, by simpa using hruly⟩

theorem append (h : Orderly ts) (h' : Orderly us) (hhead : ∀ b ∈ us.head?, b.1 ≠ .ident) : Orderly (ts ++ us) where
  balanced := by
    rw [List.map_append]
    exact h.balanced.append h'.balanced
  chain := h.chain.append h'.chain fun a ha b hb => ⟨fun hdot => absurd hdot (h.last a ha), fun _ => hhead b hb⟩
  last := by
    intro a ha
    rw [List.getLast?_append] at ha
    cases hlast : us.getLast? with
    | none =>
      rw [hlast, Option.none_or] at ha
      exact h.last a ha
    | some b =>
      rw [hlast, Option.some_or] at ha
      exact h'.last a (hlast ▸ ha)
  ruly := by
    intro a ha
    rcases List.mem_append.mp ha with ha | ha
    · exact h.ruly a ha
    · exact h'.ruly a ha

/-- A token that is neither a word nor a dot may stand before others. -/
theorem cons (h : Orderly ts) (hopens : a.1.opens = false) (hcloses : a.1.closes = false) (hruly : isUnruly a.1 = false)
    (hdot : a.1 ≠ .dot) (hident : a.1 ≠ .ident) : Orderly (a :: ts) where
  balanced := .plain hopens hcloses h.balanced
  chain := h.chain.cons fun b _ => ⟨fun hk => absurd hk hdot, fun hk => absurd hk hident⟩
  last := by
    cases ts with
    | nil => simpa using hdot
    | cons b ts => simpa using h.last
  ruly := List.forall_mem_cons.mpr ⟨hruly, h.ruly⟩

theorem bracketed {o c : Kind} (h : Orderly ts) (hoc : o.closer? = some c) : Orderly (bracketed o c ts) where
  balanced := by
    have hbetween := Balanced.between hoc h.balanced .nil
    simpa [SchemaSplice.bracketed, sign] using hbetween
  chain := by
    have hkinds : o ≠ .dot ∧ o ≠ .ident ∧ c ≠ .ident := by cases o <;> cases hoc <;> decide
    refine List.IsChain.cons ?_ fun b _ => ⟨fun hk => absurd hk hkinds.1, fun hk => absurd hk hkinds.2.1⟩
    refine h.chain.append (.singleton _) fun a ha b hb => ⟨fun hk => absurd hk (h.last a ha), fun _ => ?_⟩
    obtain rfl : sign c = b := by simpa using hb
    exact hkinds.2.2
  last := by
    have hkind : c ≠ .dot := by cases o <;> cases hoc <;> decide
    intro a ha
    rw [SchemaSplice.bracketed, ← List.cons_append, List.getLast?_concat] at ha
    obtain rfl := Option.some.inj ha
    exact hkind
  ruly := by
    have hkinds : isUnruly o = false ∧ isUnruly c = false := by cases o <;> cases hoc <;> decide
    intro a ha
    rw [SchemaSplice.bracketed, List.mem_cons, List.mem_append, List.mem_singleton] at ha
    rcases ha with rfl | ha | rfl
    · exact hkinds.1
    · exact h.ruly a ha
    · exact hkinds.2

theorem commaSeparated {items : List (List Lexeme)} (h : ∀ ts ∈ items, Orderly ts) : Orderly (commaSeparated items) := by
  unfold SchemaSplice.commaSeparated
  induction items with
  | nil => exact nil
  | cons ts items ih =>
    have hts := h ts List.mem_cons_self
    have hrest := ih fun us hus => h us (List.mem_cons_of_mem _ hus)
    cases items with
    | nil =>
      rw [List.intercalate_singleton]
      exact hts
    | cons us items =>
      rw [List.intercalate_cons_cons, List.append_assoc]
      refine hts.append (hrest.cons rfl rfl rfl nofun nofun) fun b hb => ?_
      obtain rfl : sign .comma = b := by simpa using hb
      decide

/-- A call is orderly when its name is not that of the end of a procedure. -/
theorem call {name : String} (hname : name ≠ "query" ∧ name ≠ "mutation") {args : List (List Lexeme)}
    (h : ∀ ts ∈ args, Orderly ts) : Orderly (callTokens name args) where
  balanced := .plain rfl rfl (.plain rfl rfl ((commaSeparated h).bracketed rfl).balanced)
  chain := by
    have hinner := ((commaSeparated h).bracketed (o := .lparen) rfl).chain
    exact .cons_cons ⟨fun _ => ⟨rfl, hname⟩, nofun⟩ (.cons_cons ⟨nofun, fun _ => nofun⟩ hinner)
  last := ((commaSeparated h).bracketed (o := .lparen) rfl).last
  ruly := by
    refine List.forall_mem_cons.mpr ⟨rfl, List.forall_mem_cons.mpr ⟨rfl, ?_⟩⟩
    exact ((commaSeparated h).bracketed rfl).ruly

theorem word (w : String) : Orderly [(.ident, w)] := singleton rfl rfl nofun rfl

theorem number (x : Binary64) : Orderly (numberTokens x) := by
  unfold numberTokens
  split
  · exact word _
  · have hlast : Orderly [if x.isInfinite then (.ident, "Infinity") else (.number, String.ofList x.magnitude)] := by
      split
      · exact word _
      · exact singleton rfl rfl nofun rfl
    split
    · exact hlast.cons rfl rfl rfl nofun nofun
    · exact hlast

end Orderly

/-! ### Trees -/

def ScansOrderly (x : List Char) : Prop := ∃ ts, Orderly ts ∧ ∀ r, Breaks r → Scans (x ++ r) ts r

/-- A text is scanned as orderly tokens before whatever follows. -/
def ClosedOrderly (x : List Char) : Prop := ∃ ts, Orderly ts ∧ ∀ r, Scans (x ++ r) ts r

theorem ClosedOrderly.scansOrderly {x : List Char} (h : ClosedOrderly x) : ScansOrderly x := by
  obtain ⟨ts, hts, hscans⟩ := h
  exact ⟨ts, hts, fun r _ => hscans r⟩

theorem scansOrderly_joined {α : Type} {chars : α → List Char} {items : List α} (h : ∀ a ∈ items, ScansOrderly (chars a)) :
    ∃ ts, Orderly ts ∧ ∀ r, Breaks r → Scans (joinChars [',', ' '] (items.map chars) ++ r) ts r := by
  classical
  have hchoice : ∀ a, ∃ ts, a ∈ items → Orderly ts ∧ ∀ r, Breaks r → Scans (chars a ++ r) ts r := by
    intro a
    by_cases ha : a ∈ items
    · obtain ⟨ts, hts⟩ := h a ha
      exact ⟨ts, fun _ => hts⟩
    · exact ⟨[], fun ha' => absurd ha' ha⟩
  choose tokens htokens using hchoice
  refine ⟨commaSeparated (items.map tokens), .commaSeparated fun ts hts => ?_, fun r hr =>
    scans_joined (fun a ha r hr => (htokens a ha).2 r hr) hr⟩
  obtain ⟨a, ha, rfl⟩ := List.mem_map.mp hts
  exact (htokens a ha).1

def calledNames : List String :=
  bareNames ++ ["literal", "enum", "nativeEnum", "union", "tuple", "array", "set", "map", "record", "intersection", "object",
    "rest", "nullable", "optional", "nullish"]

theorem calledNames_orderly {name : String} (h : name ∈ calledNames) :
    isIdentifier name = true ∧ name ≠ "query" ∧ name ≠ "mutation" := by
  revert name
  decide

theorem scansOrderly_arguments {args : List Argument} (h : ∀ a ∈ args, ScansOrderly a.chars) :
    ScansOrderly (joinChars [',', ' '] (argumentsChars args)) := by
  obtain ⟨ts, hts, hscans⟩ := scansOrderly_joined h
  rw [← argumentsChars_eq_map] at hscans
  exact ⟨ts, hts, hscans⟩

/-- A text ends with a call behind a point. -/
theorem ClosedOrderly.named {x : List Char} (h : ClosedOrderly x) {name : String} (hname : name ∈ calledNames)
    {args : List Argument} (hargs : ∀ a ∈ args, ScansOrderly a.chars) :
    ClosedOrderly (x ++ '.' :: (name.toList ++ '(' :: (joinChars [',', ' '] (argumentsChars args) ++ [')']))) := by
  obtain ⟨hident, hne⟩ := calledNames_orderly hname
  obtain ⟨us, hus, hx⟩ := h
  obtain ⟨ts, hts, hscans⟩ := scansOrderly_arguments hargs
  have hcall : Orderly (callTokens name [ts]) := .call hne (by simpa using hts)
  rw [callTokens, commaSeparated, List.intercalate_singleton] at hcall
  refine ⟨_, hus.append hcall (by simp), fun r => ?_⟩
  simp only [List.append_assoc, List.cons_append, List.nil_append]
  exact (hx _).trans (scans_named hident hscans r)

theorem ClosedOrderly.method {v : Validator} (h : ClosedOrderly v.chars) {name : String} (hname : name ∈ calledNames)
    {args : List Argument} (hargs : ∀ a ∈ args, ScansOrderly a.chars) :
    ClosedOrderly (Validator.method v name args).chars := by
  have hnamed := h.named hname hargs
  rw [Validator.chars]
  simpa using hnamed

theorem closedOrderly_call {name : String} (hname : name ∈ calledNames) {args : List Argument}
    (hargs : ∀ a ∈ args, ScansOrderly a.chars) : ClosedOrderly (Validator.call name args).chars := by
  obtain ⟨hident, hne⟩ := calledNames_orderly hname
  obtain ⟨ts, hts, hscans⟩ := scansOrderly_arguments hargs
  have hcall : Orderly (callTokens name [ts]) := .call hne (by simpa using hts)
  rw [callTokens, commaSeparated, List.intercalate_singleton] at hcall
  refine ⟨_, (Orderly.word "z").append hcall (by simp), fun r => ?_⟩
  have hchars : (Validator.call name args).chars ++ r =
      "z".toList ++ '.' :: (name.toList ++ '(' :: (joinChars [',', ' '] (argumentsChars args) ++ ')' :: r)) := by
    rw [Validator.chars]
    simp
  rw [hchars]
  exact (scans_word (by decide) (by rintro c ⟨⟩; rfl)).trans (scans_named hident hscans r)

theorem scansOrderly_validators {vs : List Validator} (h : ∀ v ∈ vs, ClosedOrderly v.chars) :
    ∀ a ∈ vs.map Argument.validator, ScansOrderly a.chars := by
  intro a ha
  obtain ⟨v, hv, rfl⟩ := List.mem_map.mp ha
  exact (h v hv).scansOrderly

theorem scansOrderly_list {items : List Argument} (h : ∀ a ∈ items, ScansOrderly a.chars) :
    ScansOrderly (Argument.list items).chars := by
  obtain ⟨ts, hts, hscans⟩ := scansOrderly_arguments h
  refine ⟨bracketed .lbracket .rbracket ts, hts.bracketed rfl, fun r _ => ?_⟩
  rw [Argument.chars, List.append_assoc]
  exact .of_char rfl rfl ((hscans _ (breaks_cons rfl r)).trans (.of_char rfl rfl (.stop r)))

theorem closedOrderly_entry {e : String × Validator} (h : ClosedOrderly e.2.chars) : ClosedOrderly (entryChars e) := by
  obtain ⟨key, v⟩ := e
  obtain ⟨ts, hts, hscans⟩ := h
  have hkey : Orderly [keyToken key] := by
    unfold keyToken
    split
    · exact .word key
    · exact .singleton rfl rfl nofun rfl
  refine ⟨_, hkey.append (hts.cons (a := sign .colon) rfl rfl rfl nofun nofun) (by simp [sign]), fun r => ?_⟩
  have hvalue : Scans (':' :: ' ' :: (v.chars ++ r)) (sign .colon :: ts) r := .of_char rfl rfl (.space rfl (hscans r))
  rw [entryChars, List.append_assoc, List.append_assoc]
  exact (scans_key key (by rintro c ⟨⟩; rfl)).trans hvalue

theorem scansOrderly_fields {entries : List (String × Validator)} (h : ∀ e ∈ entries, ClosedOrderly e.2.chars) :
    ScansOrderly (Argument.fields entries).chars := by
  cases entries with
  | nil =>
    exact ⟨bracketed .lbrace .rbrace [], Orderly.nil.bracketed rfl, fun r _ => .of_char rfl rfl (.of_char rfl rfl (.stop r))⟩
  | cons e es =>
    obtain ⟨ts, hts, hscans⟩ := @scansOrderly_joined _ entryChars (e :: es)
      fun e he => (closedOrderly_entry (h e he)).scansOrderly
    rw [← entriesChars_eq_map] at hscans
    refine ⟨bracketed .lbrace .rbrace ts, hts.bracketed rfl, fun r _ => ?_⟩
    rw [Argument.chars, List.append_assoc, List.append_assoc]
    exact .of_char rfl rfl (.space rfl ((hscans _ (breaks_cons rfl _)).trans (.space rfl (.of_char rfl rfl (.stop r)))))

theorem scansOrderly_word {w : String} (h : isIdentifier w = true) : ScansOrderly w.toList :=
  ⟨_, .word w, fun _ hr => scans_word h fun _ hc => hr.outside (fun _ => isInner_of_isIdentPart) hc⟩

theorem scansOrderly_text (s : String) : ScansOrderly (Argument.text s).chars :=
  ⟨_, .singleton (a := (.str, Text.quoteJson s)) rfl rfl nofun rfl, fun r _ => scans_quoted s r⟩

theorem scansOrderly_ofLiteral {l : Literal} (h : Readable (.literal l)) : ScansOrderly (Argument.ofLiteral l).chars := by
  cases l with
  | text s => exact scansOrderly_text s
  | number x => exact ⟨_, .number x, fun r hr => scans_number x hr⟩
  | flag b =>
    have hword : isIdentifier (if b then "true" else "false") = true := by cases b <;> decide
    exact scansOrderly_word hword
  | bigInt digits =>
    by_cases hne : digits = ""
    · subst hne
      exact scansOrderly_word (w := "n") (by decide)
    · exact ⟨_, .singleton (a := (.bigInt, digits ++ "n")) rfl rfl nofun rfl, fun r _ => scans_bigInt hne h r⟩

/-! ### Generated validators -/

/-- What a generated validator says of enums and literals is scanned as words, strings and numbers. -/
structure WellSpelled (t : Table) : Prop where
  enum : ∀ id e m l, t.kind id = .enumLiteral e m l → isIdentifier e = true
  literal : ∀ id l, t.literal? id = some l → Readable (.literal l)

theorem closedOrderly_of_callTree {t : Table} (ht : WellSpelled t) {Keys : List String → Prop} {v : Validator}
    (h : CallTree t Keys v) : ClosedOrderly v.chars := by
  have hone : ∀ {a : Argument}, ScansOrderly a.chars → ∀ b ∈ [a], ScansOrderly b.chars := by simp
  induction h with
  | bare hname => exact closedOrderly_call (List.mem_append_left _ hname) (by simp)
  | literal hl => exact closedOrderly_call (by decide) (hone (scansOrderly_ofLiteral (ht.literal _ _ hl)))
  | strings =>
    refine closedOrderly_call (by decide) (hone (scansOrderly_list fun a ha => ?_))
    obtain ⟨s, -, rfl⟩ := List.mem_map.mp ha
    exact scansOrderly_text s
  | wholeEnum hk => exact closedOrderly_call (by decide) (hone (scansOrderly_word (ht.enum _ _ _ _ hk)))
  | union _ _ ih => exact closedOrderly_call (by decide) (hone (scansOrderly_list (scansOrderly_validators ih)))
  | tuple _ ih => exact closedOrderly_call (by decide) (hone (scansOrderly_list (scansOrderly_validators ih)))
  | openTuple _ _ ih ihrest =>
    have htuple := @closedOrderly_call "tuple" (by decide) _ (hone (scansOrderly_list (scansOrderly_validators ih)))
    exact htuple.method (by decide) (hone (ClosedOrderly.scansOrderly ihrest))
  | one hname _ ih =>
    refine closedOrderly_call ?_ (hone (ClosedOrderly.scansOrderly ih))
    rcases List.mem_pair.mp hname with rfl | rfl <;> decide
  | two hname _ _ ihv ihw =>
    refine closedOrderly_call (List.mem_append_right _ ?_) (by simp [ClosedOrderly.scansOrderly, Argument.chars, ihv, ihw])
    simp only [List.mem_cons] at hname ⊢
    tauto
  | object _ _ ih => exact closedOrderly_call (by decide) (hone (scansOrderly_fields ih))
  | modified hname _ ih =>
    refine ClosedOrderly.method ih (List.mem_append_right _ ?_) (by simp)
    simp only [List.mem_cons] at hname ⊢
    tauto

/-- The tokens of a generated validator between its marks are orderly. -/
theorem orderly_printMarked {v : Validator} (h : ClosedOrderly v.chars) : Orderly (wordsOf (glyphs v.printMarked.toList)) := by
  obtain ⟨ts, hts, hscans⟩ := h
  have hwords : spelled (glyphs v.printMarked.toList) = (.blockComment, beginMarker) :: (ts ++ [(.blockComment, endMarker)]) := by
    have hend := scans_comment endMarker_toList (by decide) []
    rw [List.append_nil] at hend
    have hafter : Scans (' ' :: endMarker.toList) [(.blockComment, endMarker)] [] := .space rfl hend
    have hvalidator : Scans (' ' :: (v.chars ++ ' ' :: endMarker.toList)) (ts ++ [(.blockComment, endMarker)]) [] :=
      .space rfl ((hscans _).trans hafter)
    have hrun := (scans_comment beginMarker_toList (by decide) _).trans hvalidator
    rw [spelled_glyphs 0]
    apply lexemes_of_scans
    rw [printMarked_toList, List.append_assoc, List.cons_append, List.append_assoc, List.singleton_append]
    exact hrun
  have hruly : ts.filter (!·.1.isComment) = ts := by
    rw [List.filter_eq_self]
    intro a ha
    have hruly := hts.ruly a ha
    rw [isUnruly, Bool.or_eq_false_iff] at hruly
    simp [hruly.2]
  rw [wordsOf, hwords, List.filter_cons_of_neg (by decide), List.filter_append, hruly, List.filter_cons_of_neg (by decide),
    List.filter_nil, List.append_nil]
  exact hts

/-- The words of a text are identifiers. -/
theorem isIdentifier_of_word? {f : File} (hf : f.IsRead) {i : Nat} {w : String} (h : f.word? i = some w) :
    isIdentifier w = true := by
  unfold File.word? at h
  split at h
  · next hkind =>
    obtain ⟨t, ht, hident⟩ := exists_token_of_hasKind hkind
    rw [Option.some.injEq, File.tokenText, ht] at h
    subst h
    have hmem := mem_scan_of_token hf ht
    have hparts := isIdentPart_of_mem_scanFrom hmem hident
    obtain ⟨c, body, l, htext, -, hk⟩ := exists_head_of_mem_scanFrom hmem
    simp only [isIdentifier]
    rw [htext] at hparts ⊢
    simp only [Bool.and_eq_true, List.all_eq_true]
    exact ⟨isIdentStart_of_lexeme (hk.symm.trans hident), fun a ha => hparts a (List.mem_cons_of_mem _ ha)⟩
  · cases h

theorem isIdentifier_of_mem_types {sources : List (String × String)} {d : Decl TypeForm}
    (h : d ∈ (Project.read sources).types) : isIdentifier d.name = true := by
  obtain ⟨⟨f, index⟩, hf, hd⟩ := List.mem_flatMap.mp h
  obtain ⟨⟨path, text⟩, -, rfl⟩ := List.mem_map.mp (List.fst_mem_of_mem_zipIdx hf)
  obtain ⟨i, -, hi⟩ := List.mem_filterMap.mp hd
  simp only at hi
  split at hi
  · cases hi
  · split at hi
    · next name form hword _ =>
      cases hi
      exact isIdentifier_of_word? (File.isRead_parse path text) hword
    · cases hi

def WellSpelledKind : TypeKind → Prop
  | .enumLiteral e _ l => isIdentifier e = true ∧ Readable (.literal l)
  | .literal l => Readable (.literal l)
  | _ => True

theorem WellSpelledKind.printable {k : TypeKind} (h : WellSpelledKind k) : Printable k := by
  cases k with
  | enumLiteral e m l => exact ⟨quietText_of_isIdentifier h.1, h.2⟩
  | literal l => exact h
  | _ => trivial

theorem maintained_wellSpelled {p : Project} (hnames : ∀ d ∈ p.types, isIdentifier d.name = true) :
    Maintained p fun s => AllKinds WellSpelledKind s.table := by
  apply allKinds_maintained
  · intro k hk
    cases k with
    | enumLiteral e m l => exact hk.elim
    | literal l => exact hk
    | _ => trivial
  · trivial
  · intro e m l hentry
    have hread := hentry.readable
    obtain ⟨d, hd, rfl, -⟩ := hentry
    exact ⟨hnames d hd, hread⟩

/-- The validators that a pass finds are scanned as orderly tokens. -/
theorem closedOrderly_of_found {sources : List (String × String)} {index : Nat} {settings : Settings} {xs : List Finding}
    (h : found (Project.read sources) index settings = .ok xs) : ∀ x ∈ xs, ClosedOrderly x.validator.chars := by
  intro x hx
  have hempty : AllKinds WellSpelledKind ({} : TypeState).table := fun _ _ hk => nomatch hk
  obtain ⟨-, s', -, htable, hv⟩ :=
    (foundIn_of_found (maintained_wellSpelled fun _ hd => isIdentifier_of_mem_types hd) hempty h).1 x hx
  refine @closedOrderly_of_callTree _ ⟨fun id e m l hk => ?_, fun id l hl => ?_⟩ (fun _ => True) _
    (callTree_synthesize (fun _ => trivial) hv)
  · have hkind := AllKinds.kind htable trivial id
    rw [show s'.types.table.kind id = .enumLiteral e m l from hk] at hkind
    exact hkind.1
  · exact PrintableTable.literal? (fun i k hk => (htable i k hk).printable) hl

end SchemaSplice
