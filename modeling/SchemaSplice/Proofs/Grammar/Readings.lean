import SchemaSplice.Proofs.Grammar.Bodies
/-!
# Every written type is read

One lemma for each form of types, given that its parts are read, and the recursion that puts them together.
-/

namespace SchemaSplice.Annotation

open Source SchemaSplice.Types

section

variable {env : Env} {sep : Separators} {q : Nat}

/-! ### Types without parts -/

theorem insertAs_reads {f : File} {p next : Nat} (lt : p < next) (le : next ≤ f.size) (a : Atom) (s : TypeState) :
    Reads (insertAs f p next lt le a.kind) s next (.atom a) :=
  ⟨_, _, rfl, rfl, .atom (.refl s) a⟩

theorem keyword?_word (p : Primitive) : keyword? p.word = some p.kind := by cases p <;> rfl

theorem keyword?_flag (value : Bool) : keyword? (if value then "true" else "false") = some (.literal (.flag value)) := by
  cases value <;> rfl

theorem primary_reads_word {word : String} {a : Atom} (hword : keyword? word = some a.kind) (s : TypeState)
    (h : env.file.Spells q [(.ident, word)]) : Reads (primary env q (laterAt env q)) s (q + 1) (.atom a) := by
  rw [primary_of_some env (laterAt env q) h.kind?]
  show Reads (named env q (File.lt_size_of_kind? h.kind?) (laterAt env q)) s (q + 1) (.atom a)
  unfold named
  simp only [h.tokenText, hword]
  exact insertAs_reads _ _ a s

theorem primary_reads_text (value : String) (s : TypeState) (h : env.file.Spells q [(.str, quoted value)]) :
    Reads (primary env q (laterAt env q)) s (q + 1) (.atom (.literal (.text value))) := by
  rw [primary_of_some env (laterAt env q) h.kind?]
  simp only [primaryOf, h.tokenText, unquote_quoted]
  exact insertAs_reads _ _ (.literal (.text value)) s

theorem primary_reads_bigInt (n : BigNumeral) (s : TypeState) (h : env.file.Spells q [(.bigInt, n.text)]) :
    Reads (primary env q (laterAt env q)) s (q + 1) (.atom (.literal (.bigInt (String.ofList n.plain)))) := by
  rw [primary_of_some env (laterAt env q) h.kind?]
  simp only [primaryOf, h.tokenText, BigNumeral.read]
  exact insertAs_reads _ _ (.literal (.bigInt (String.ofList n.plain))) s

theorem numberLiteral_apply (n : Numeral) {i : Nat} {ws : List Lexeme} (h : env.file.Spells i ((.number, n.text) :: ws))
    (next : Nat) (negative : Bool) (s : TypeState) :
    numberLiteral env.file i next negative s =
      .ok (.literal (.number (if negative then n.value.neg else n.value))) s := by
  have hread : Binary64.ofToken? n.text = some n.value := n.read
  unfold numberLiteral
  rw [h.tokenText, hread]
  rfl

theorem primary_reads_number (negative : Bool) (n : Numeral) (s : TypeState)
    (h : env.file.Spells q ((TypeExpr.number negative n).tokens sep)) :
    Reads (primary env q (laterAt env q)) s (q + ((TypeExpr.number negative n).tokens sep).length)
      (TypeExpr.number negative n).meaning := by
  cases negative with
  | false =>
    rw [primary_of_some env (laterAt env q) h.kind?]
    obtain ⟨r, t, hr, hnext, hbuilt⟩ := insertAs_reads (show q < q + 1 from Nat.lt_succ_self q)
      (File.lt_size_of_kind? h.kind?) (.literal (.number n.value)) s
    exact ⟨r, t, (bind_of_ok (numberLiteral_apply n h (q + 1) false s)).trans hr, hnext, hbuilt⟩
  | true =>
    rw [primary_of_some env (laterAt env q) h.kind?]
    have hnumber : env.file.hasKind (q + 1) .number = true := by
      rw [h.tail.hasKind]
      rfl
    obtain ⟨r, t, hr, hnext, hbuilt⟩ := insertAs_reads (show q < q + 2 by omega)
      (File.lt_size_of_hasKind hnumber) (.literal (.number n.value.neg)) s
    refine ⟨r, t, ?_, hnext, hbuilt⟩
    show (if hn : env.file.hasKind (q + 1) .number then _ else _ : Parse _) s = _
    rw [dif_pos hnumber]
    exact (bind_of_ok (numberLiteral_apply n h.tail (q + 2) true s)).trans hr

/-! ### Arrays and functions -/

theorem operandReads_array {e : TypeExpr} (h : OperandReads env sep e) : OperandReads env sep (.array e) := by
  intro q s hspells _
  have htokens : enclosed 2 (.array e) ((TypeExpr.array e).tokens sep) =
      enclosed 2 e (e.tokens sep) ++ [sign .lbracket, sign .rbracket] := rfl
  have hlength : q + (enclosed 2 (.array e) ((TypeExpr.array e).tokens sep)).length =
      q + (enclosed 2 e (e.tokens sep)).length + 2 := by
    rw [htokens, List.length_append, Nat.add_assoc]
    rfl
  rw [htokens] at hspells
  have hbrackets := hspells.right
  have hopen : env.file.hasKind (q + (enclosed 2 e (e.tokens sep)).length) .lbracket = true := by
    rw [hbrackets.hasKind]
    rfl
  have hclose : env.file.hasKind (q + (enclosed 2 e (e.tokens sep)).length + 1) .rbracket = true := by
    rw [hbrackets.tail.hasKind]
    rfl
  obtain ⟨id, s', lt, le, hbuilt, hread⟩ := h q s hspells.left (by rw [hbrackets.kind?]; exact .some (by decide))
  refine ⟨_, _, ?_, ?_, hbuilt.array, ?_⟩
  · omega
  · rw [hlength]
    exact File.lt_size_of_hasKind hclose
  · simp only [hlength]
    rw [hread, arraySuffix, if_pos hopen, dif_pos hclose]
    rfl

/-- A primary type is a type where nothing goes on. -/
theorem typeAt_reads_of_primary {stop : Nat} {w : Lexeme} {ws : List Lexeme} {s : TypeState} {x : Tree}
    (h : env.file.Spells q (w :: ws)) (hw : w.1 ≠ .ident ∧ w.1 ≠ .amp ∧ w.1 ≠ .pipe)
    (hread : Reads (primary env q (laterAt env q)) s stop x) (hend : EndsAt env.file stop) :
    Reads (typeAt env q) s stop x := by
  have hword : w ≠ (.ident, "readonly") := fun heq => hw.1 (congrArg Prod.fst heq)
  obtain ⟨id, t, lt, le, hbuilt, hpostfix⟩ := postfixType_of_primary (hasWord_of_spells h hword) hread
  rw [arraySuffix_of_false lt le id t (hend.hasKind_eq_false (by decide))] at hpostfix
  have hnot : ∀ {k : Kind}, w.1 ≠ k → env.file.hasKind q k = false := by
    intro k hk
    rw [h.hasKind]
    exact beq_eq_false_iff_ne.mpr hk
  exact typeAt_reads_of_union hend (unionType_single (hnot hw.2.2)
    (intersectionType_single (hnot hw.2.1) ⟨_, t, hpostfix, rfl, hbuilt⟩ (hend.hasKind_eq_false (by decide)))
    (hend.hasKind_eq_false (by decide)))

theorem typeReads_function (hf : env.file.IsRead) {e : TypeExpr} (h : TypeReads env sep e) :
    TypeReads env sep (.function e) := by
  intro q s hspells hend
  have hlength : q + ((TypeExpr.function e).tokens sep).length = q + 3 + (e.tokens sep).length := by
    simp only [TypeExpr.tokens, List.length_cons]
    omega
  rw [hlength] at hend ⊢
  obtain ⟨hc, hclose⟩ := hf.closer?_of_spells rfl Phrase.nil hspells
  have harrow : env.file.hasKind (q + 1 + 0 + 1) .fatArrow = true := by
    rw [show env.file.hasKind (q + 1 + 0 + 1) .fatArrow = _ from hspells.tail.tail.hasKind .fatArrow]
    rfl
  obtain ⟨r, t, hr, hnext, hbuilt⟩ := h (q + 3) s hspells.tail.tail.tail hend
  refine typeAt_reads_of_primary hspells (by decide) ?_ hend
  refine ⟨⟨⟨t.table.size⟩, r.next, by have := r.lt_next; omega, r.next_le⟩, _, ?_, hnext, hbuilt.function⟩
  rw [primary_before_arrow hclose hspells.kind? harrow]
  show functionOf _ (typeAt env (q + 3) s) = _
  rw [hr]
  rfl

/-! ### Tuples and object types -/

theorem primary_reads_tuple {es : List (ElementMark × TypeExpr)} (hes : ∀ d ∈ es, TypeReads env sep d.2) (s : TypeState)
    (h : env.file.Spells q ((TypeExpr.tuple es).tokens sep)) :
    Reads (primary env q (laterAt env q)) s (q + ((TypeExpr.tuple es).tokens sep).length) (TypeExpr.tuple es).meaning := by
  have hlength : q + ((TypeExpr.tuple es).tokens sep).length = q + 1 + (elementTokens sep es).length + 1 := by
    simp only [TypeExpr.tokens, List.length_append, List.length_cons, List.length_nil]
    omega
  have hempty : BuiltElements s s [] [] := ⟨.refl s, fun _ _ => trivial⟩
  obtain ⟨r, t, hr, hnext, hbuilt⟩ := tupleRest_reads (File.lt_size_of_kind? h.kind?) hes (Nat.lt_succ_self q) hempty
    h.tail
  rw [hlength, ← hnext, primary_of_some env (laterAt env q) h.kind?]
  exact ⟨_, _, bind_of_ok hr, rfl, hbuilt.tuple⟩

theorem primary_reads_object (hf : env.file.IsRead) {fields : List (TypedProperty TypeExpr)}
    (hfields : ∀ d ∈ fields, TypeReads env sep d.type) (s : TypeState)
    (h : env.file.Spells q ((TypeExpr.object fields).tokens sep)) :
    Reads (primary env q (laterAt env q)) s (q + ((TypeExpr.object fields).tokens sep).length)
      (TypeExpr.object fields).meaning := by
  have hlength : q + ((TypeExpr.object fields).tokens sep).length = q + 1 + (fieldTokens sep fields).length + 1 := by
    simp only [TypeExpr.tokens, List.length_append, List.length_cons, List.length_nil]
    omega
  have hempty : BuiltFields s s [] (List.reverse []) := ⟨.refl s, fun _ _ => trivial⟩
  obtain ⟨hc, hclose⟩ := hf.closer?_of_spells rfl (phrase_fieldTokens sep fields) h
  have hbrace : env.file.hasKind q .lbrace = true := h.hasKind _
  obtain ⟨ps, t, hr, hbuilt⟩ := members_reads (File.lt_size_of_kind? h.kind?) hfields (Nat.le_succ q) rfl h.tail hempty
  have hbody : objectBody env q (laterAt env q) s =
      .ok ⟨{ properties := ps }, q + 1 + (fieldTokens sep fields).length + 1, by omega, hc.2⟩ t := by
    rw [objectBody, dif_pos hbrace]
    simp only [hclose]
    exact bind_of_ok hr
  rw [hlength, primary_of_some env (laterAt env q) h.kind?, TypeExpr.meaning]
  exact ⟨_, _, bind_of_ok hbody, rfl, hbuilt.object⟩

end

/-! ### All types -/

/-- A type is read wherever it may stand. -/
structure IsReadAs (env : Env) (sep : Separators) (e : TypeExpr) : Prop where
  type : TypeReads env sep e
  member : MemberReads env sep e
  operand : OperandReads env sep e

section

variable {env : Env} {sep : Separators}

theorem IsReadAs.of_operand {e : TypeExpr} (hrank : 2 ≤ e.rank) (h : OperandReads env sep e) : IsReadAs env sep e :=
  have hmember := memberReads_of_operand (by omega) h
  ⟨typeReads_of_member (by omega) hmember, hmember, h⟩

theorem IsReadAs.of_primary {e : TypeExpr} (hrank : 2 ≤ e.rank) (hword : (e.tokens sep).head? ≠ some (.ident, "readonly"))
    (h : ∀ q s, env.file.Spells q (e.tokens sep) →
      Reads (primary env q (laterAt env q)) s (q + (e.tokens sep).length) e.meaning) : IsReadAs env sep e :=
  .of_operand hrank (operandReads_of_primary hrank hword h)

theorem IsReadAs.of_member (hf : env.file.IsRead) {e : TypeExpr} (hrank : e.rank = 1) (h : MemberReads env sep e) :
    IsReadAs env sep e :=
  have htype := typeReads_of_member (Nat.le_of_eq hrank.symm) h
  ⟨htype, h, operandReads_of_type hf (by omega) htype⟩

theorem IsReadAs.of_type (hf : env.file.IsRead) {e : TypeExpr} (hrank : e.rank = 0) (h : TypeReads env sep e) :
    IsReadAs env sep e :=
  have hoperand := operandReads_of_type hf (by omega) h
  ⟨h, memberReads_of_operand (by omega) hoperand, hoperand⟩

mutual

/-- The reader reads the tokens of a type as what it means, by recursion on the type. -/
theorem isReadAs (hf : env.file.IsRead) : ∀ e : TypeExpr, IsReadAs env sep e
  | .primitive p =>
    .of_primary (Nat.le_refl 2) (by cases p <;> simp [TypeExpr.tokens, Primitive.word]) fun _ s h =>
      primary_reads_word (keyword?_word p) s h
  | .flag value =>
    .of_primary (Nat.le_refl 2) (by cases value <;> simp [TypeExpr.tokens]) fun _ s h =>
      primary_reads_word (keyword?_flag value) s h
  | .text value =>
    .of_primary (Nat.le_refl 2) (by simp [TypeExpr.tokens]) fun _ s h => primary_reads_text value s h
  | .number negative n =>
    .of_primary (Nat.le_refl 2) (by cases negative <;> simp [TypeExpr.tokens, sign]) fun _ s h =>
      primary_reads_number negative n s h
  | .bigInt n =>
    .of_primary (Nat.le_refl 2) (by simp [TypeExpr.tokens]) fun _ s h => primary_reads_bigInt n s h
  | .array element => .of_operand (Nat.le_refl 2) (operandReads_array (isReadAs hf element).operand)
  | .tuple elements =>
    .of_primary (Nat.le_refl 2) (by simp [TypeExpr.tokens, sign]) fun _ s h =>
      primary_reads_tuple (elements_areRead hf elements) s h
  | .object fields =>
    .of_primary (Nat.le_refl 2) (by simp [TypeExpr.tokens, sign]) fun _ s h =>
      primary_reads_object hf (fields_areRead hf fields) s h
  | .function result => .of_type hf rfl (typeReads_function hf (isReadAs hf result).type)
  | .intersection first second rest => by
    have hfirst := isReadAs hf first
    have hsecond := isReadAs hf second
    have hrest := members_areRead hf rest
    refine .of_member hf rfl fun q s h hend => ?_
    rw [enclosed_of_le (Nat.le_refl 1)] at h hend ⊢
    exact intersectionType_reads hfirst.operand
      (List.forall_mem_cons.mpr ⟨hsecond.operand, fun d hd => (hrest d hd).operand⟩) s h rfl hend
  | .union first second rest => by
    have hfirst := isReadAs hf first
    have hsecond := isReadAs hf second
    have hrest := members_areRead hf rest
    refine .of_type hf rfl fun q s h hend => ?_
    exact typeAt_reads_of_union hend (unionType_reads hfirst.member
      (List.forall_mem_cons.mpr ⟨hsecond.member, fun d hd => (hrest d hd).member⟩) s h rfl hend)

theorem members_areRead (hf : env.file.IsRead) : ∀ es : List TypeExpr, ∀ e ∈ es, IsReadAs env sep e
  | [] => fun _ h => nomatch h
  | e :: rest => List.forall_mem_cons.mpr ⟨isReadAs hf e, members_areRead hf rest⟩

theorem elements_areRead (hf : env.file.IsRead) :
    ∀ es : List (ElementMark × TypeExpr), ∀ d ∈ es, TypeReads env sep d.2
  | [] => fun _ h => nomatch h
  | (_, e) :: rest => List.forall_mem_cons.mpr ⟨(isReadAs hf e).type, elements_areRead hf rest⟩

theorem fields_areRead (hf : env.file.IsRead) :
    ∀ fields : List (TypedProperty TypeExpr), ∀ d ∈ fields, TypeReads env sep d.type
  | [] => fun _ h => nomatch h
  | ⟨_, _, e⟩ :: rest => List.forall_mem_cons.mpr ⟨(isReadAs hf e).type, fields_areRead hf rest⟩

end

end

/-! ### Written types -/

/-- A type that is written with spaces between its tokens, and that nothing or a semicolon follows, is read up to there. The
tokens that are read are those of the type, and what is read unfolds to what the type means. -/
theorem typeAt_written (e : TypeExpr) (sep : Separators) (path : String) (spaces : Nat) (rest? : Option String)
    (scope : Scope) (params : List (String × TypeId)) (s : TypeState) :
    let file := File.parse path (e.written sep ++ ending spaces rest?)
    ∃ r s', typeAt ⟨file, scope, params⟩ 0 s = .ok r s' ∧ r.next = (e.tokens sep).length ∧
      (file.tokens.toList.take r.next).map Token.lexeme = e.tokens sep ∧ Unfolds s'.table r.value e.meaning := by
  intro file
  obtain ⟨hspells, hend⟩ := spells_of_written (phrase_tokens sep e) path spaces rest?
  have hends : EndsAt file (0 + (e.tokens sep).length) := by
    intro k hk
    rw [Nat.zero_add] at hk
    obtain ⟨rest, -, rfl⟩ := Option.map_eq_some_iff.mp (hend.symm.trans hk)
    decide
  have hfile : file.IsRead := rfl
  have hread : IsReadAs ⟨file, scope, params⟩ sep e := isReadAs hfile e
  obtain ⟨r, s', hr, hnext, hbuilt⟩ := hread.type 0 s hspells hends
  rw [Nat.zero_add] at hnext
  refine ⟨r, s', hr, hnext, ?_, hbuilt.unfolds_head (.refl s')⟩
  rw [List.map_take, hnext]
  exact (List.prefix_iff_eq_take.mp hspells).symm

/-- Parentheses stand around a union whose elements are in an array, and both flags are one `boolean`. -/
example (sep : Separators) :
    let e : TypeExpr := .array (.union (.flag true) (.primitive .string) [.flag false])
    e.written sep = "( true | string | false ) [ ]" ∧
      e.meaning = .array (.union [.atom (.primitive .boolean), .atom (.primitive .string)]) :=
  ⟨rfl, rfl⟩

end SchemaSplice.Annotation
