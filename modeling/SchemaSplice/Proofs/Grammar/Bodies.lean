import SchemaSplice.Proofs.Grammar.Precedence
/-!
# Tuples and object types

What stands between brackets is read element by element and between braces property by property. Each loop of the reader
has one lemma, by induction on what is left to read, whose invariant is that what was read so far is built.
-/

namespace SchemaSplice.Annotation

open Source SchemaSplice.Types

/-! ### Elements -/

section

variable {f : File} {q : Nat} {ws vs : List Lexeme} {w : Lexeme}

/-- A type has no label in front of it. -/
theorem elementLabel_of_beginsType (hws : BeginsType ws) (h : f.Spells q ws)
    (hcolon : f.hasKind (q + ws.length) .colon = false)
    (hquestion : (f.hasKind (q + ws.length) .question && f.hasKind (q + ws.length + 1) .colon) = false) :
    elementLabel f q = (0, false) := by
  obtain ⟨v, us, rfl, -, hnext⟩ := hws
  unfold elementLabel
  split
  · next hident =>
    rw [h.hasKind, beq_iff_eq] at hident
    cases us with
    | nil => rw [if_neg (by simpa using hcolon), if_neg (by simpa using hquestion)]
    | cons u us =>
      have hu := hnext hident u rfl
      have hne : ∀ {k}, k ∉ [Kind.lbracket, .amp, .pipe] → f.hasKind (q + 1) k = false := by
        intro k hk
        rw [h.tail.hasKind, beq_eq_false_iff_ne]
        exact fun heq => hk (heq ▸ hu)
      rw [hne (by decide), hne (by decide), if_neg (by simp), if_neg (by simp)]
  · rfl

/-- How a marked element lies: `start` is the first token of its type and `last` the token after it. -/
structure MarkedAt (f : File) (q start last stop : Nat) (ws : List Lexeme) (mark : ElementMark) : Prop where
  isOpen : f.hasKind q .rbracket = false
  isSpread : f.hasKind q .ellipsis = (mark == .spread)
  start_eq : f.skip q .ellipsis = start
  spells : f.Spells start ws
  last_eq : start + ws.length = last
  label_eq : elementLabel f start = (0, false)
  ends : EndsAt f last
  isOptional : f.hasKind last .question = (mark == .optional)
  stop_eq : f.skip last .question = stop

/-- The tokens of a marked element are told apart from the type. -/
theorem markedAt_of_spells (hws : BeginsType ws) (mark : ElementMark) (h : f.Spells q (mark.enclose ws ++ w :: vs))
    (hw : w.1 ∈ [Kind.comma, .rbracket]) :
    ∃ start last, MarkedAt f q start last (q + (mark.enclose ws).length) ws mark := by
  have hafter := h.right
  have hkind : ∀ k ∉ [Kind.comma, .rbracket], f.hasKind (q + (mark.enclose ws).length) k = false := by
    intro k hk
    rw [hafter.hasKind, beq_eq_false_iff_ne]
    exact fun heq => hk (heq ▸ hw)
  have hcolon := hkind .colon (by decide)
  have hquestion := hkind .question (by decide)
  have hends : EndsAt f (q + (mark.enclose ws).length) := by
    refine .of_spells hafter ?_
    simp only [List.mem_cons, List.not_mem_nil, or_false] at hw ⊢
    tauto
  cases mark with
  | required =>
    have hspells : f.Spells q ws := h.left
    have hstart := hws.hasKind_eq_false hspells (k := .ellipsis) (by decide)
    refine ⟨q, _, hws.hasKind_eq_false hspells (by decide), hstart, skip_of_false hstart, hspells, rfl, ?_, hends,
      hquestion, skip_of_false hquestion⟩
    exact elementLabel_of_beginsType hws hspells hcolon (Bool.and_eq_false_imp.mpr fun htrue => absurd htrue (by
      rw [show f.hasKind (q + ws.length) .question = false from hquestion]
      exact Bool.false_ne_true))
  | optional =>
    have hstop : q + (ElementMark.optional.enclose ws).length = q + ws.length + 1 := by
      simp [ElementMark.enclose, Nat.add_assoc]
    rw [hstop] at hcolon ⊢
    have hmark : f.Spells (q + ws.length) [sign .question] := h.left.right
    have hspells : f.Spells q ws := h.left.left
    have hstart := hws.hasKind_eq_false hspells (k := .ellipsis) (by decide)
    refine ⟨q, _, hws.hasKind_eq_false hspells (by decide), hstart, skip_of_false hstart, hspells, rfl,
      ?_, .of_spells hmark (by decide), hmark.hasKind _, skip_of_true (hmark.hasKind _)⟩
    exact elementLabel_of_beginsType hws hspells (hmark.hasKind _) (by rw [hcolon, Bool.and_false])
  | spread =>
    have hstop : q + (ElementMark.spread.enclose ws).length = q + 1 + ws.length := by
      simp only [ElementMark.enclose, List.length_cons]
      omega
    rw [hstop] at hcolon hquestion hends ⊢
    have hstart : f.hasKind q .ellipsis = true := h.hasKind _
    have hspells : f.Spells (q + 1) ws := h.tail.left
    refine ⟨q + 1, _, h.hasKind _, hstart, skip_of_true hstart, hspells, rfl, ?_, hends, hquestion,
      skip_of_false hquestion⟩
    exact elementLabel_of_beginsType hws hspells hcolon (by rw [hquestion, Bool.false_and])

end

section

variable {env : Env} {sep : Separators}

/-- One element is read and added; then reading goes on after a comma or ends with the bracket. -/
theorem tupleRest_element {p q start last stop : Nat} (hp : p < env.file.size) (hq : p < q) {e : TypeExpr}
    {mark : ElementMark} (hmarked : MarkedAt env.file q start last stop (e.tokens sep) mark) (he : TypeReads env sep e)
    {s s' : TypeState} {elements : List Element} {xs : List (ElementFlag × Tree)} (h : BuiltElements s s' elements xs) :
    ∃ t element, ∃ lt : p < stop + 1, BuiltElements s t (elements ++ [element]) (xs ++ [Tree.ofElement mark e.meaning]) ∧
      (env.file.hasKind stop .comma = true →
        tupleRest env hp (laterAt env p) q hq elements s' =
          tupleRest env hp (laterAt env p) (stop + 1) lt (elements ++ [element]) t) ∧
      ∀ hb : env.file.hasKind stop .rbracket = true, env.file.hasKind stop .comma = false →
        tupleRest env hp (laterAt env p) q hq elements s' =
          .ok ⟨elements ++ [element], stop + 1, lt, File.lt_size_of_hasKind hb⟩ t := by
  obtain ⟨hopen, hspread, rfl, hspells, hlast, hlabel, hends, hoptional, rfl⟩ := hmarked
  obtain ⟨r, t, hr, hnext, hbuilt⟩ :=
    he (env.file.skip q .ellipsis + (elementLabel env.file (env.file.skip q .ellipsis)).1) s'
      (by rw [hlabel]; exact hspells) (by rw [hlabel, Nat.add_zero, hlast]; exact hends)
  obtain rfl : r.next = last := by rw [hnext, hlabel, Nat.add_zero, hlast]
  have hadded := h.concat hbuilt mark
  have hmarks : ((elementLabel env.file (env.file.skip q .ellipsis)).2 || env.file.hasKind r.next .question) =
      (mark == .optional) := by rw [hoptional, hlabel, Bool.false_or]
  rw [← hspread, ← hmarks] at hadded
  have hlt : p < env.file.skip r.next .question + 1 := by
    have := env.file.le_skip q .ellipsis
    have := r.lt_next
    have := env.file.le_skip r.next .question
    omega
  refine ⟨t, _, hlt, hadded, ?_, ?_⟩
  · intro hcomma
    rw [tupleRest, dif_neg (by simp [hopen])]
    refine (bind_of_ok hr).trans ?_
    refine (bind_of_ok (rfl : (get : Parse TypeState) t = .ok t t)).trans ?_
    rw [dif_pos hcomma]
  · intro hclose hcomma
    rw [tupleRest, dif_neg (by simp [hopen])]
    refine (bind_of_ok hr).trans ?_
    refine (bind_of_ok (rfl : (get : Parse TypeState) t = .ok t t)).trans ?_
    rw [dif_neg (by simp [hcomma]), dif_pos hclose]
    rfl

/-- Elements are read one by one. -/
theorem tupleRest_reads {p : Nat} (hp : p < env.file.size) {es : List (ElementMark × TypeExpr)}
    (hes : ∀ d ∈ es, TypeReads env sep d.2) {q : Nat} (hq : p < q) {s s' : TypeState} {elements : List Element}
    {xs : List (ElementFlag × Tree)} (h : BuiltElements s s' elements xs)
    (hspells : env.file.Spells q (elementTokens sep es ++ [sign .rbracket])) :
    ∃ r t, tupleRest env hp (laterAt env p) q hq elements s' = .ok r t ∧
      r.next = q + (elementTokens sep es).length + 1 ∧ BuiltElements s t r.value (xs ++ elementMeanings es) := by
  induction es generalizing q s' elements xs with
  | nil =>
    have hclose : env.file.hasKind q .rbracket = true := hspells.hasKind _
    rw [tupleRest, dif_pos hclose]
    refine ⟨_, _, rfl, rfl, ?_⟩
    rw [elementMeanings, List.append_nil]
    exact h
  | cons d rest ih =>
    obtain ⟨mark, e⟩ := d
    have hbegins := beginsType_tokens sep e
    have he : TypeReads env sep e := hes (mark, e) List.mem_cons_self
    cases rest with
    | nil =>
      rw [elementTokens, List.isEmpty_nil, if_pos rfl, List.append_nil] at hspells ⊢
      obtain ⟨start, last, hmarked⟩ := markedAt_of_spells hbegins mark hspells (by decide)
      obtain ⟨t, element, lt, hbuilt, -, hends⟩ := tupleRest_element hp hq hmarked he h
      have hclose := hspells.right
      exact ⟨_, t, hends (hclose.hasKind _) (hclose.hasKind _), rfl, hbuilt⟩
    | cons d' rest =>
      rw [elementTokens, List.isEmpty_cons, if_neg Bool.false_ne_true] at hspells ⊢
      rw [List.append_assoc, List.cons_append] at hspells
      obtain ⟨start, last, hmarked⟩ := markedAt_of_spells hbegins mark hspells (by decide)
      obtain ⟨t, element, lt, hbuilt, hgoes, -⟩ := tupleRest_element hp hq hmarked he h
      have hcomma := hspells.right
      rw [hgoes (hcomma.hasKind _)]
      obtain ⟨r, t', hr, hnext, hbuilt'⟩ := ih (fun d hd => hes d (List.mem_cons_of_mem _ hd)) lt hbuilt hcomma.tail
      refine ⟨r, t', hr, ?_, ?_⟩
      · rw [hnext, List.length_append, List.length_cons]
        omega
      · rw [List.append_assoc] at hbuilt'
        exact hbuilt'

/-! ### Properties -/

/-- The tokens of a property up to its type. -/
def keyTokens (key : Identifier) (isOptional : Bool) : List Lexeme :=
  (.ident, key.val) :: if isOptional then [sign .question] else []

theorem propertyKey_of_ident {f : File} {q : Nat} {name : String} {ws : List Lexeme}
    (h : f.Spells q ((.ident, name) :: ws)) :
    propertyKey f q = pure ⟨.name name, q + 1, Nat.lt_succ_self q, File.lt_size_of_kind? h.kind?⟩ := by
  have hkind : f.kind? q = some .ident := h.kind?
  unfold propertyKey
  split
  · rw [h.tokenText]
  · next h' => exact absurd (hkind.symm.trans h') (by simp)
  · next h' => exact absurd (hkind.symm.trans h') (by simp)
  · next h' => exact absurd (hkind.symm.trans h') (by simp)
  · next h' _ _ _ => exact absurd hkind h'

theorem propertyMember_reads {p : Nat} (hp : p < env.file.size) {q : Nat} (hq : p ≤ q) {e : TypeExpr}
    (he : TypeReads env sep e) {key : Identifier} {isOptional : Bool} {ws : List Lexeme}
    (hspells : env.file.Spells q (keyTokens key isOptional ++ (sign .colon :: e.tokens sep ++ ws)))
    (hend : EndsAt env.file (q + (keyTokens key isOptional ++ (sign .colon :: e.tokens sep)).length)) (s : TypeState) :
    ∃ r t id, propertyMember env hp (laterAt env p) q hq s = .ok r t ∧
      r.next = q + (keyTokens key isOptional ++ (sign .colon :: e.tokens sep)).length ∧
      r.value = .property ⟨.name key, id, isOptional⟩ ∧ Built s t [id] [.ofField isOptional e.meaning] := by
  have hmarked : env.file.hasKind (q + 1) .question = isOptional ∧
      env.file.skip (q + 1) .question = q + (keyTokens key isOptional).length := by
    have hafter : env.file.Spells (q + 1) ((if isOptional then [sign .question] else []) ++ _) := hspells.tail
    cases isOptional with
    | true => exact ⟨hafter.hasKind _, skip_of_true (hafter.hasKind _)⟩
    | false => exact ⟨hafter.hasKind _, skip_of_false (hafter.hasKind _)⟩
  obtain ⟨hmark, hstart⟩ := hmarked
  have htype := hspells.right
  have hstop : q + (keyTokens key isOptional ++ (sign .colon :: e.tokens sep)).length =
      env.file.skip (q + 1) .question + 1 + (e.tokens sep).length := by
    rw [hstart, List.length_append, List.length_cons]
    omega
  rw [← hstart] at htype
  rw [hstop] at hend ⊢
  obtain ⟨r, t, hr, hnext, hbuilt⟩ := he (env.file.skip (q + 1) .question + 1) s htype.tail.left hend
  have hsignature : (env.file.hasKind (env.file.skip (q + 1) .question) .lparen ||
      env.file.hasKind (env.file.skip (q + 1) .question) .lt) = false := by
    rw [htype.hasKind, htype.hasKind]
    rfl
  have hcolon : env.file.hasKind (env.file.skip (q + 1) .question) .colon = true := htype.hasKind _
  have hlt : q < r.next := by
    have := env.file.le_skip (q + 1) .question
    have := r.lt_next
    omega
  rw [propertyMember, propertyKey_of_ident hspells, pure_bind]
  simp only [hsignature, hcolon, Bool.false_eq_true, if_false, if_true]
  cases isOptional with
  | false =>
    refine ⟨⟨.property ⟨.name key, r.value, false⟩, r.next, hlt, r.next_le⟩, t, r.value, ?_, hnext, rfl, hbuilt⟩
    refine (bind_of_ok hr).trans ?_
    rw [hmark]
    rfl
  | true =>
    obtain ⟨id, u, hu, hbuilt'⟩ := hbuilt.ofField (ε := ParseError)
    refine ⟨⟨.property ⟨.name key, id, true⟩, r.next, hlt, r.next_le⟩, u, id, ?_, hnext, rfl, hbuilt'⟩
    refine (bind_of_ok hr).trans ?_
    rw [hmark, if_pos rfl, ← bind_assoc]
    exact bind_of_ok hu

/-- A word that a colon or a question mark follows is the key of a property, `readonly` too. -/
theorem isReadonlyModifier_of_key {f : File} {q : Nat} {key : Identifier} {isOptional : Bool} {ws : List Lexeme}
    (h : f.Spells q (keyTokens key isOptional ++ sign .colon :: ws)) : isReadonlyModifier f q = false := by
  have hafter : f.Spells (q + 1) ((if isOptional then [sign .question] else []) ++ sign .colon :: ws) := h.tail
  have hmark : (f.hasKind (q + 1) .colon || f.hasKind (q + 1) .question) = true := by
    cases isOptional with
    | true => rw [hafter.hasKind .question, Bool.or_eq_true]; exact Or.inr rfl
    | false => rw [hafter.hasKind .colon, Bool.or_eq_true]; exact Or.inl rfl
  rw [isReadonlyModifier, hmark, Bool.true_or, Bool.not_true, Bool.and_false]

/-- A property is a member. -/
theorem member_of_key {p : Nat} (hp : p < env.file.size) {later : Later env.file p} {q : Nat} (hq : p ≤ q)
    {key : Identifier} {isOptional : Bool} {ws : List Lexeme}
    (h : env.file.Spells q (keyTokens key isOptional ++ ws)) :
    member env hp later q hq = propertyMember env hp later q hq := by
  have hkind : ∀ k, k ≠ .ident → env.file.hasKind q k = false := by
    intro k hk
    rw [show env.file.hasKind q k = _ from h.hasKind k]
    exact beq_eq_false_iff_ne.mpr hk.symm
  rw [member]
  simp only [hkind .lparen (by decide), hkind .lt (by decide), hkind .lbracket (by decide), Bool.false_and,
    Bool.false_eq_true, if_false]

theorem Separators.after_eq (sep : Separators) {α : Type} (rest : List α) :
    (sep.after rest = [] ∧ rest = []) ∨ sep.after rest = [sign sep.separator] := by
  cases rest with
  | nil =>
    cases htrailing : sep.trailing with
    | true => exact Or.inr (by rw [Separators.after, htrailing, if_pos rfl])
    | false => exact Or.inl ⟨by rw [Separators.after, htrailing, if_neg Bool.false_ne_true], rfl⟩
  | cons => exact Or.inr rfl

theorem Separators.mem_ends (sep : Separators) :
    (sign sep.separator).1 ∈ [Kind.rparen, .rbracket, .rbrace, .comma, .semi, .question] := by
  rcases sep.isSeparator with h | h <;> rw [h] <;> decide

/-- Separators are stepped over. -/
theorem members_after {p : Nat} (hp : p < env.file.size) {later : Later env.file p} {close q : Nat} (hq : p ≤ q)
    {body : Body} {α : Type} (rest : List α) {ws : List Lexeme} (h : env.file.Spells q (sep.after rest ++ ws))
    (hclose : q + (sep.after rest).length ≤ close) (s : TypeState) :
    members env hp later close q hq body s =
      members env hp later close (q + (sep.after rest).length) (Nat.le_add_right_of_le hq) body s := by
  rcases sep.after_eq rest with ⟨hnone, -⟩ | hone
  · simp only [hnone, List.length_nil, Nat.add_zero]
  · rw [hone] at h hclose
    have hseparator : (env.file.hasKind q .semi || env.file.hasKind q .comma) = true := by
      rw [show env.file.hasKind q .semi = _ from h.hasKind _, show env.file.hasKind q .comma = _ from h.hasKind _]
      rcases sep.isSeparator with h | h <;> rw [h] <;> rfl
    simp only [hone, List.length_singleton] at hclose ⊢
    rw [members, dif_neg (Nat.not_le_of_lt hclose), if_pos hseparator]

/-- A property is read and added. -/
theorem members_property {p : Nat} (hp : p < env.file.size) {later : Later env.file p} {close q : Nat} (hq : p ≤ q)
    (hlt : q < close) {body : Body} {key : Identifier} {isOptional : Bool} {ws : List Lexeme}
    (h : env.file.Spells q (keyTokens key isOptional ++ sign .colon :: ws)) {r : Parsed env.file q Member}
    {s t : TypeState} (hr : propertyMember env hp later q hq s = .ok r t) :
    members env hp later close q hq body s =
      members env hp later close r.next (Nat.le_trans hq (Nat.le_of_lt r.lt_next)) (body.add r.value) t := by
  have hseparator : (env.file.hasKind q .semi || env.file.hasKind q .comma) = false := by
    rw [show env.file.hasKind q .semi = _ from h.hasKind _, show env.file.hasKind q .comma = _ from h.hasKind _]
    rfl
  have hgeneral : ∀ start (hs : p ≤ start), start = q →
      (do
        let m ← member env hp later start hs
        members env hp later close m.next (Nat.le_trans hs (Nat.le_of_lt m.lt_next)) (body.add m.value)) s =
      members env hp later close r.next (Nat.le_trans hq (Nat.le_of_lt r.lt_next)) (body.add r.value) t := by
    rintro start hs rfl
    rw [member_of_key hp hs h]
    exact bind_of_ok hr
  rw [members, dif_neg (Nat.not_le_of_lt hlt), if_neg (by simp [hseparator])]
  exact hgeneral _ _ (by rw [isReadonlyModifier_of_key h, if_neg Bool.false_ne_true])

/-- Properties stand alone in the body they are added to. -/
theorem add_property (ps : List Property) (p : Property) :
    (⟨{ properties := ps }, none⟩ : Body).add (.property p) =
      ⟨{ properties := (({ properties := ps } : ObjectType).addProperty p).properties }, none⟩ := by
  unfold Body.add ObjectType.addProperty
  dsimp only
  split <;> rfl

/-- The properties are read one by one. -/
theorem members_reads {p : Nat} (hp : p < env.file.size) {fields : List (TypedProperty TypeExpr)}
    (hfields : ∀ d ∈ fields, TypeReads env sep d.type) {q close : Nat} (hq : p ≤ q)
    (hclose : q + (fieldTokens sep fields).length = close)
    (hspells : env.file.Spells q (fieldTokens sep fields ++ [sign .rbrace])) {ps : List Property}
    {kept : List (TypedProperty Tree)} {s s' : TypeState} (h : BuiltFields s s' ps kept.reverse) :
    ∃ ps' t, members env hp (laterAt env p) close q hq ⟨{ properties := ps }, none⟩ s' =
        .ok ⟨{ properties := ps' }, none⟩ t ∧
      BuiltFields s t ps' (List.eraseDupsBy.loop (fun f g => f.key == g.key) (fieldMeanings fields) kept) := by
  induction fields generalizing q ps kept s' with
  | nil =>
    have hstop : close ≤ q := Nat.le_of_eq hclose.symm
    rw [members, dif_pos hstop]
    exact ⟨ps, s', rfl, h⟩
  | cons d rest ih =>
    obtain ⟨key, isOptional, e⟩ := d
    have htokens : fieldTokens sep (⟨key, isOptional, e⟩ :: rest) =
        keyTokens key isOptional ++ (sign .colon :: e.tokens sep) ++ (sep.after rest ++ fieldTokens sep rest) := by
      rw [fieldTokens, keyTokens]
      simp only [List.cons_append, List.append_assoc]
    rw [htokens, List.append_assoc] at hspells
    rw [htokens, List.length_append, ← Nat.add_assoc] at hclose
    have hafter := hspells.right
    have hend : EndsAt env.file (q + (keyTokens key isOptional ++ (sign .colon :: e.tokens sep)).length) := by
      rcases sep.after_eq rest with ⟨hnone, rfl⟩ | hone
      · rw [hnone] at hafter
        exact .of_spells hafter (by decide)
      · rw [hone] at hafter
        exact .of_spells hafter sep.mem_ends
    have hprefix := hspells
    rw [List.append_assoc] at hprefix
    obtain ⟨r, t, id, hr, hnext, hvalue, hbuilt⟩ :=
      propertyMember_reads hp hq (hfields _ List.mem_cons_self) hprefix hend s'
    have hlt : r.next ≤ close := by
      rw [hnext, ← hclose]
      exact Nat.le_add_right _ _
    rw [← hnext, List.length_append, ← Nat.add_assoc] at hclose
    rw [← hnext, List.append_assoc] at hafter
    rw [members_property hp hq (Nat.lt_of_lt_of_le r.lt_next hlt) hprefix hr, hvalue, add_property,
      members_after hp _ rest hafter (hclose ▸ Nat.le_add_right _ _)]
    obtain ⟨ps', u, hu, hbuilt'⟩ := ih (fun d hd => hfields d (List.mem_cons_of_mem _ hd))
      (Nat.le_add_right_of_le (Nat.le_trans hq (Nat.le_of_lt r.lt_next))) hclose hafter.right
      (BuiltFields.add (o := { properties := ps }) h hbuilt key isOptional)
    refine ⟨ps', u, hu, ?_⟩
    rw [fieldMeanings, List.eraseDupsBy.loop]
    dsimp only
    cases htaken : kept.any fun f => key == f.key with
    | true =>
      rw [htaken, if_pos rfl] at hbuilt'
      exact hbuilt'
    | false =>
      rw [htaken, if_neg Bool.false_ne_true] at hbuilt'
      exact hbuilt'

end

end SchemaSplice.Annotation
