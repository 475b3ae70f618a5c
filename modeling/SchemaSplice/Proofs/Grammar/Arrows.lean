import SchemaSplice.Proofs.Grammar.Precedence
import SchemaSplice.Proofs.Splice.Splicing
/-!
# Return types before an arrow

An opening parenthesis whose closing one stands before `=>` begins a function type for the reader. So what a handler
`(): (T) => body` returns is not read from `T`: the reader takes the arrow of the handler for that of a function type and
its body for the result. The same handler without these parentheses has its type read from `T`.
-/

namespace SchemaSplice.Annotation

open Source SchemaSplice.Types

/-! ### Where a type ends -/

theorem exists_of_bind_ok {ε α β : Type} {m : EStateM ε TypeState α} {k : α → EStateM ε TypeState β} {s t : TypeState}
    {b : β} (h : (m >>= k) s = .ok b t) : ∃ a u, m s = .ok a u ∧ k a u = .ok b t := by
  cases hm : m s with
  | ok a u =>
    rw [bind_of_ok hm] at h
    exact ⟨a, u, rfl, h⟩
  | error e u =>
    rw [show (m >>= k) s = EStateM.bind m k s from rfl, EStateM.bind, hm] at h
    cases h

def EndsBefore {f : File} {p : Nat} {α : Type} (P : Nat → Prop) (m : Parse (Parsed f p α)) : Prop :=
  ∀ s r t, m s = .ok r t → P r.next

/-- The token at `q`, if there is one, does not go on with a type that ends before it. -/
structure Ended (f : File) (q : Nat) : Prop where
  lbracket : f.hasKind q .lbracket = false
  amp : f.hasKind q .amp = false
  pipe : f.hasKind q .pipe = false
  word : f.hasWord q "extends" = false

section

variable {f : File} {P : Nat → Prop}

theorem arraySuffix_endsBefore (p q : Nat) (lt : p < q) (le : q ≤ f.size) (id : TypeId) :
    EndsBefore (fun n => f.hasKind n .lbracket = false) (arraySuffix f p q lt le id) := by
  fun_induction arraySuffix f p q lt le id with
  | case1 q lt le id hopen hclose ih =>
    intro s r t h
    obtain ⟨array, u, -, h⟩ := exists_of_bind_ok h
    exact ih array u r t h
  | case2 q lt le id hopen hclose =>
    intro s r t h
    cases h
  | case3 q lt le id hopen =>
    intro s r t h
    cases h
    exact Bool.eq_false_of_not_eq_true hopen

theorem separatedRest_endsBefore {operator : Kind} {p : Nat} {item : (q : Nat) → p ≤ q → Parse (Parsed f q TypeId)}
    (hitem : ∀ q hq, EndsBefore P (item q hq)) (q : Nat) (lt : p < q) (le : q ≤ f.size) (items : List TypeId) (hq : P q) :
    EndsBefore (fun n => P n ∧ f.hasKind n operator = false) (separatedRest f operator item q lt le items) := by
  fun_induction separatedRest f operator item q lt le items with
  | case1 q lt le items hoperator ih =>
    intro s r t h
    obtain ⟨first, u, hfirst, h⟩ := exists_of_bind_ok h
    exact ih first (hitem _ _ s first u hfirst) u r t h
  | case2 q lt le items hoperator =>
    intro s r t h
    cases h
    exact ⟨hq, Bool.eq_false_of_not_eq_true hoperator⟩

theorem separated_endsBefore {operator : Kind} {p : Nat} {item : (q : Nat) → p ≤ q → Parse (Parsed f q TypeId)}
    (hitem : ∀ q hq, EndsBefore P (item q hq)) :
    EndsBefore (fun n => P n ∧ f.hasKind n operator = false) (separated f operator p item) := by
  intro s r t h
  obtain ⟨first, u, hfirst, h⟩ := exists_of_bind_ok h
  exact separatedRest_endsBefore hitem _ _ _ _ (hitem _ _ s first u hfirst) u r t h

/-- Items are put together without reading on. -/
theorem sole_endsBefore {p : Nat} {m : Parse (Parsed f p (List TypeId))} (hm : EndsBefore P m)
    (build : List TypeId → TableM TypeId) :
    EndsBefore P (do
      let members ← m
      match members.value with
      | [only] => return ⟨only, members.next, members.lt_next, members.next_le⟩
      | many => return ⟨← onTable (build many), members.next, members.lt_next, members.next_le⟩ :
      Parse (Parsed f p TypeId)) := by
  intro s r t h
  obtain ⟨⟨ms, next, lt, le⟩, u, hmembers, h⟩ := exists_of_bind_ok h
  have hend : P next := hm s _ u hmembers
  match ms, h with
  | [only], h =>
    cases h
    exact hend
  | [], h | _ :: _ :: _, h =>
    obtain ⟨id, v, -, h⟩ := exists_of_bind_ok h
    cases h
    exact hend

end

variable {env : Env} {q : Nat} {s t : TypeState}

theorem postfixType_endsBefore (q : Nat) (later : Later env.file q) :
    EndsBefore (fun n => env.file.hasKind n .lbracket = false) (postfixType env q later) := by
  intro s r t h
  obtain ⟨base, u, -, h⟩ := exists_of_bind_ok h
  exact arraySuffix_endsBefore _ _ _ _ _ u r t h

theorem intersectionType_endsBefore (q : Nat) (later : Later env.file q) :
    EndsBefore (fun n => env.file.hasKind n .lbracket = false ∧ env.file.hasKind n .amp = false)
      (intersectionType env q later) :=
  sole_endsBefore (separated_endsBefore fun p hp => postfixType_endsBefore p (later.mono hp)) Table.intersection

theorem unionType_endsBefore (q : Nat) (later : Later env.file q) :
    EndsBefore (fun n => (env.file.hasKind n .lbracket = false ∧ env.file.hasKind n .amp = false) ∧
      env.file.hasKind n .pipe = false) (unionType env q later) :=
  sole_endsBefore (separated_endsBefore fun p hp => intersectionType_endsBefore p (later.mono hp)) Table.union

/-- A type is read as far as it goes. -/
theorem typeAt_endsBefore (env : Env) (q : Nat) : EndsBefore (Ended env.file) (typeAt env q) := by
  intro s r t h
  rw [typeAt, typeWith] at h
  obtain ⟨type, u, htype, h⟩ := exists_of_bind_ok h
  obtain ⟨⟨hbracket, hamp⟩, hpipe⟩ := unionType_endsBefore q _ s type u htype
  split at h
  · cases h
  · next hword =>
    cases h
    exact ⟨hbracket, hamp, hpipe, Bool.eq_false_of_not_eq_true hword⟩

/-! ### Reading a primary type alone -/

/-- Where no more items follow, an item that is read is all that is read. -/
theorem sole_eq {f : File} {operator : Kind} {item : (p : Nat) → q ≤ p → Parse (Parsed f p TypeId)}
    (build : List TypeId → TableM TypeId) (hstart : f.hasKind q operator = false)
    (hend : ∀ r t, item q (Nat.le_refl q) s = .ok r t → f.hasKind r.next operator = false) :
    (do
      let members ← separated f operator q item
      match members.value with
      | [only] => return ⟨only, members.next, members.lt_next, members.next_le⟩
      | many => return ⟨← onTable (build many), members.next, members.lt_next, members.next_le⟩ :
      Parse (Parsed f q TypeId)) s = item q (Nat.le_refl q) s := by
  rw [separated_of_false hstart]
  cases hitem : item q (Nat.le_refl q) s with
  | error e t => exact bind_of_error (bind_of_error hitem)
  | ok r t =>
    have hread : (do
        let r ← item q (Nat.le_refl q)
        separatedRest f operator item r.next r.lt_next r.next_le [r.value]) s =
        .ok ⟨[r.value], r.next, r.lt_next, r.next_le⟩ t := by
      rw [bind_of_ok hitem, separatedRest, dif_neg (by simp [hend r t hitem])]
      rfl
    exact bind_of_ok hread

theorem postfixType_eq_primary {later : Later env.file q} (hword : env.file.hasWord q "readonly" = false)
    (hend : ∀ r t, primary env q later s = .ok r t → env.file.hasKind r.next .lbracket = false) :
    postfixType env q later s = primary env q later s := by
  have hgeneral : ∀ p (hp : q ≤ p), p = q →
      (do
        let base ← primary env p (later.mono hp)
        arraySuffix env.file q base.next (Nat.lt_of_le_of_lt hp base.lt_next) base.next_le base.value) s =
      primary env q later s := by
    rintro p hp rfl
    cases hread : primary env p later s with
    | error e t => exact bind_of_error hread
    | ok r t => exact (bind_of_ok hread).trans (arraySuffix_of_false _ _ _ _ (hend r t hread))
  exact hgeneral (skipReadonly env.file q) (le_skipReadonly env.file q) (skipReadonly_of_false hword)

/-- Where nothing goes on with it, a primary type is a type. -/
theorem typeAt_eq_primary {k : Kind} (hk : env.file.kind? q = some k) (hkinds : k ≠ .ident ∧ k ≠ .amp ∧ k ≠ .pipe)
    (hend : ∀ r t, primary env q (laterAt env q) s = .ok r t → Ended env.file r.next) :
    typeAt env q s = primary env q (laterAt env q) s := by
  have hnot : ∀ {k' : Kind}, k ≠ k' → env.file.hasKind q k' = false := by
    intro k' hne
    rw [File.hasKind, hk]
    simpa using hne
  have hword : env.file.hasWord q "readonly" = false := by
    rw [File.hasWord, File.word?, hnot hkinds.1]
    rfl
  have hoperand : postfixType env q (laterAt env q) s = primary env q (laterAt env q) s :=
    postfixType_eq_primary hword fun r t h => (hend r t h).lbracket
  have hintersection : intersectionType env q (laterAt env q) s = primary env q (laterAt env q) s := by
    rw [← hoperand]
    exact sole_eq Table.intersection (hnot hkinds.2.1) fun r t h => (hend r t (hoperand ▸ h)).amp
  have hunion : unionType env q (laterAt env q) s = primary env q (laterAt env q) s := by
    rw [← hintersection]
    exact sole_eq Table.union (hnot hkinds.2.2) fun r t h => (hend r t (hintersection ▸ h)).pipe
  rw [typeAt, typeWith]
  cases hread : primary env q (laterAt env q) s with
  | error e t => exact bind_of_error (hunion.trans hread)
  | ok r t =>
    refine (bind_of_ok (hunion.trans hread)).trans ?_
    rw [if_neg (by simp [(hend r t hread).word])]
    rfl

/-- What stands in parentheses before an arrow is not read: the type is that of a function whose result follows. -/
theorem typeAt_before_arrow {c : { c : Nat // q < c ∧ c < env.file.size }} (hclose : env.file.closer? q = some c)
    (hopen : env.file.kind? q = some .lparen) (harrow : env.file.hasKind (c.1 + 1) .fatArrow = true) (s : TypeState) :
    typeAt env q s = functionOf (Nat.lt_add_right 2 c.2.1) (typeAt env (c.1 + 2) s) := by
  have hprimary := primary_before_arrow hclose hopen harrow s
  rw [typeAt_eq_primary hopen (by decide), hprimary]
  intro r t h
  rw [hprimary] at h
  cases hread : typeAt env (c.1 + 2) s with
  | error e u =>
    rw [hread] at h
    cases h
  | ok r' u =>
    rw [hread] at h
    cases h
    exact typeAt_endsBefore env (c.1 + 2) s r' u hread

end SchemaSplice.Annotation

namespace SchemaSplice.Chain

open Source SchemaSplice.Types Annotation Declaration

/-! ### Handlers -/

/-- What is found out about the result of a procedure: its text and its validator. -/
def located (p : Project) (s : Inquiry) (current root : Nat) (segments : List Segment) (limit : Nat) :
    Option (String × Except SynthesisError Validator) :=
  match procedureAt p s current root segments with
  | (some procedure, s) =>
    some (s.table.display procedure.returnType, validatorOfResult s.table limit procedure.returnType)
  | (none, _) => none

def writtenAt (p : Project) (s : Inquiry) (current q : Nat) : Option (TypeId × Table) :=
  match typeAt ⟨p.file current, topScope p current, []⟩ q s.types with
  | .ok r t => some (r.value, t.table)
  | .error _ _ => none

instance (f : File) (q : Nat) (ws : List Lexeme) : Decidable (f.Spells q ws) :=
  inferInstanceAs (Decidable (ws <+: (f.tokens.toList.map Token.lexeme).drop q))

def arrowOf (r : TypeId × Table) : String × Except SynthesisError Validator :=
  let shown := "() => " ++ (Table.function r.1 r.2).2.displayLevels 6 r.1
  (shown, .error (.shape (.function shown)))

/-- The handler of a chain begins at token `i` with given tokens. -/
def HandlerSpells (f : File) (segments : List Segment) (i : Nat) (ws : List Lexeme) : Prop :=
  ∃ kind terminal handler, terminal? segments = .ok (kind, terminal) ∧ handler? f kind terminal = .ok handler ∧
    terminal.lparen + 1 = i ∧ f.Spells i ws

variable {p : Project} {s : Inquiry} {current root i : Nat} {segments : List Segment} {ws : List Lexeme}

theorem handlerForm_of_spells {f : File} (hf : f.IsRead) (h : f.Spells i (sign .lparen :: sign .rparen :: sign .colon :: ws))
    (stop : Nat) : f.handlerForm i stop = .function (some (i + 3)) := by
  have hnot : ∀ word, f.hasWord i word = false := fun word => hasWord_of_spells h (by simp [sign])
  obtain ⟨hc, hclose⟩ := hf.closer?_of_spells rfl Phrase.nil h
  have hopen : f.hasKind i .lparen = true := by
    rw [h.hasKind]
    rfl
  have harrow : f.hasKind (i + 1 + 0 + 1) .fatArrow = false := h.tail.tail.hasKind _
  have hcolon : f.hasKind (i + 1 + 0 + 1) .colon = true := h.tail.tail.hasKind _
  have hparenthesized : f.parenthesizedForm i = .function (some (i + 3)) := by
    unfold File.parenthesizedForm
    simp only [hclose, List.length_nil, harrow, hcolon, Bool.false_eq_true, if_false, if_true]
  simp only [File.handlerForm, hnot, Bool.false_and, Bool.false_eq_true, if_false, hopen, if_true, hparenthesized]

/-- A handler without parameters has its result read after the colon. -/
theorem located_eq (hf : (p.file current).IsRead)
    (h : HandlerSpells (p.file current) segments i (sign .lparen :: sign .rparen :: sign .colon :: ws)) (limit : Nat) :
    located p s current root segments limit =
      (writtenAt p s current (i + 3)).map fun r => (r.2.display r.1, validatorOfResult r.2 limit r.1) := by
  obtain ⟨kind, terminal, handler, hterminal, hhandler, rfl, hspells⟩ := h
  have hform : handler.form = .function (some (terminal.lparen + 1 + 3)) := by
    unfold handler? at hhandler
    simp only at hhandler
    split at hhandler
    · cases hhandler
    · split at hhandler
      · cases hhandler
      · cases hhandler
        exact handlerForm_of_spells hf hspells _
  unfold located procedureAt writtenAt
  simp only [hterminal, hhandler, returnType, hform, annotationAt]
  cases typeAt ⟨p.file current, topScope p current, []⟩ (terminal.lparen + 1 + 3) s.types with
  | ok r t => rfl
  | error e t => rfl

theorem kind_function (id : TypeId) (t : Table) :
    (Table.function id t).2.kind (Table.function id t).1 = .object { calls := [id] } := by
  have hslot : (Table.function id t).2.slots[(Table.function id t).1.slot]? = some (.kind (.object { calls := [id] })) :=
    Array.getElem?_push_size
  exact Table.kind_of_slot hslot

/-- A function type is displayed as one. -/
theorem display_function (id : TypeId) (t : Table) :
    (Table.function id t).2.display (Table.function id t).1 =
      "() => " ++ (Table.function id t).2.displayLevels 6 id := by
  rw [Table.display, Table.displayLevels, kind_function]
  rfl

/-- A function type has no validator. -/
theorem validatorOfResult_function (id : TypeId) (t : Table) (limit : Nat) :
    validatorOfResult (Table.function id t).2 limit (Table.function id t).1 =
      .error (.shape (.function ("() => " ++ (Table.function id t).2.displayLevels 6 id))) := by
  have hobject : (Table.function id t).2.object? (Table.function id t).1 = some { calls := [id] } := by
    rw [Table.object?, kind_function]
    rfl
  have hawaited : (Table.function id t).2.awaited (Table.function id t).1 = (Table.function id t).1 := by
    rw [Table.awaited, hobject]
  have hfunction : (Table.function id t).2.isFunction (Table.function id t).1 = true := by
    rw [Table.isFunction, Table.calls, hobject]
    rfl
  rw [validatorOfResult, hawaited, synthesize, dif_neg (Nat.not_lt_zero limit), Synthesis.layer, hfunction, display_function]
  rfl

theorem writtenAt_before_arrow {q : Nat} {c : { c : Nat // q < c ∧ c < (p.file current).size }}
    (hclose : (p.file current).closer? q = some c) (hopen : (p.file current).kind? q = some .lparen)
    (harrow : (p.file current).hasKind (c.1 + 1) .fatArrow = true) :
    writtenAt p s current q = (writtenAt p s current (c.1 + 2)).map fun r => Table.function r.1 r.2 := by
  have hread := @typeAt_before_arrow ⟨p.file current, topScope p current, []⟩ q c hclose hopen harrow s.types
  unfold writtenAt
  rw [hread]
  cases typeAt ⟨p.file current, topScope p current, []⟩ (c.1 + 2) s.types with
  | ok r t => rfl
  | error e t => rfl

/-- A type in parentheses before the arrow of a handler is not read: the handler returns a function whose result is read from
its body, and that has no validator. -/
theorem located_parenthesized (hf : (p.file current).IsRead) {T B : List Lexeme}
    (h : HandlerSpells (p.file current) segments i
      (sign .lparen :: sign .rparen :: sign .colon :: sign .lparen :: (T ++ sign .rparen :: sign .fatArrow :: B)))
    (hclose : ((p.file current).closer? (i + 3)).map (·.1) = some (i + 4 + T.length)) (limit : Nat) :
    located p s current root segments limit =
      (writtenAt p s current (i + T.length + 6)).map arrowOf := by
  rw [located_eq hf h]
  obtain ⟨_, _, _, -, -, -, hspells⟩ := h
  obtain ⟨c, hc, hstop⟩ := Option.map_eq_some_iff.mp hclose
  have harrow : (p.file current).hasKind (c.1 + 1) .fatArrow = true := by
    have harrow := hspells.tail.tail.tail.tail.right.tail.hasKind .fatArrow
    rw [hstop]
    exact harrow
  rw [writtenAt_before_arrow hc hspells.tail.tail.tail.kind? harrow, Option.map_map,
    show c.1 + 2 = i + T.length + 6 by omega]
  congr 1
  funext r
  exact Prod.ext (display_function r.1 r.2) (validatorOfResult_function r.1 r.2 limit)

/-- Of two handlers `(): (T) => B` and `(): T => B` the first one is found exactly if its body can be read as a type, and never
gets a validator, whatever `T` is; the second one is found exactly if `T` can be read. They agree exactly if neither is found,
or if `T` stands for a function type that is displayed like that of the first one. -/
theorem parentheses_hide_result {sources sources' : List (String × String)} {index index' i i' : Nat}
    {segments segments' : List Segment} {T B : List Lexeme}
    (h : HandlerSpells ((Project.read sources).file index) segments i
      (sign .lparen :: sign .rparen :: sign .colon :: sign .lparen :: (T ++ sign .rparen :: sign .fatArrow :: B)))
    (hclose : (((Project.read sources).file index).closer? (i + 3)).map (·.1) = some (i + 4 + T.length))
    (h' : HandlerSpells ((Project.read sources').file index') segments' i'
      (sign .lparen :: sign .rparen :: sign .colon :: (T ++ sign .fatArrow :: B)))
    (s s' : Inquiry) (root root' limit : Nat) :
    let enclosed := located (Project.read sources) s index root segments limit
    let plain := located (Project.read sources') s' index' root' segments' limit
    enclosed = (writtenAt (Project.read sources) s index (i + T.length + 6)).map arrowOf ∧
    plain = (writtenAt (Project.read sources') s' index' (i' + 3)).map (fun r =>
      (r.2.display r.1, validatorOfResult r.2 limit r.1)) ∧
    (enclosed = plain ↔ (enclosed = none ∧ plain = none) ∨
      ∃ shown, enclosed = some (shown, .error (.shape (.function shown))) ∧
        plain = some (shown, .error (.shape (.function shown)))) := by
  intro enclosed plain
  have henclosed : enclosed = (writtenAt (Project.read sources) s index (i + T.length + 6)).map arrowOf :=
    located_parenthesized (isRead_file sources index) h hclose limit
  have hplain : plain = (writtenAt (Project.read sources') s' index' (i' + 3)).map fun r =>
      (r.2.display r.1, validatorOfResult r.2 limit r.1) :=
    located_eq (isRead_file sources' index') h' limit
  refine ⟨henclosed, hplain, fun heq => ?_, ?_⟩
  · rw [← heq, henclosed]
    cases writtenAt (Project.read sources) s index (i + T.length + 6) with
    | none => exact .inl ⟨rfl, rfl⟩
    | some r => exact .inr ⟨_, rfl, rfl⟩
  · rintro (⟨h, h'⟩ | ⟨shown, h, h'⟩)
    · rw [h, h']
    · rw [h, h']

/-- A file with one procedure, whose handler has the given result type and body. -/
def handlerFile (result body : String) : List (String × String) :=
  [("a.ts", "procedure.query((): " ++ result ++ " => " ++ body ++ ")")]

def stringOrNull : List Lexeme := [(.ident, "string"), sign .pipe, (.ident, "null")]

theorem stringOrNull_hidden :
    let p := Project.read (handlerFile "(string | null)" "null")
    let p' := Project.read (handlerFile "string | null" "null")
    let segments := segmentsFrom (p.file 0) 1
    let segments' := segmentsFrom (p'.file 0) 1
    HandlerSpells (p.file 0) segments 4 (sign .lparen :: sign .rparen :: sign .colon :: sign .lparen ::
      (stringOrNull ++ sign .rparen :: sign .fatArrow :: [(.ident, "null")])) ∧
    ((p.file 0).closer? 7).map (·.1) = some 11 ∧
    HandlerSpells (p'.file 0) segments' 4 (sign .lparen :: sign .rparen :: sign .colon ::
      (stringOrNull ++ sign .fatArrow :: [(.ident, "null")])) ∧
    located p {} 0 0 segments 50 = (writtenAt p {} 0 13).map arrowOf ∧
    located p' {} 0 0 segments' 50 =
      (writtenAt p' {} 0 7).map (fun r => (r.2.display r.1, validatorOfResult r.2 50 r.1)) := by
  intro p p' segments segments'
  have h : HandlerSpells (p.file 0) segments 4 (sign .lparen :: sign .rparen :: sign .colon :: sign .lparen ::
      (stringOrNull ++ sign .rparen :: sign .fatArrow :: [(.ident, "null")])) :=
    ⟨.query, ⟨"query", 1, 3, 14⟩, ⟨⟨16, 43⟩, .function (some 7)⟩, by decide +kernel, by decide +kernel, rfl,
      by decide +kernel⟩
  have hclose : ((p.file 0).closer? 7).map (·.1) = some 11 := by decide +kernel
  have h' : HandlerSpells (p'.file 0) segments' 4 (sign .lparen :: sign .rparen :: sign .colon ::
      (stringOrNull ++ sign .fatArrow :: [(.ident, "null")])) :=
    ⟨.query, ⟨"query", 1, 3, 12⟩, ⟨⟨16, 41⟩, .function (some 7)⟩, by decide +kernel, by decide +kernel, rfl,
      by decide +kernel⟩
  obtain ⟨henclosed, hplain, -⟩ := parentheses_hide_result h hclose h' {} {} 0 0 50
  exact ⟨h, hclose, h', henclosed, hplain⟩

/-- What is found out about the procedure of such a file, with its validator as it is printed. -/
def handlerResult (result body : String) : Option (String × Option String) :=
  let p := Project.read (handlerFile result body)
  (located p {} 0 0 (segmentsFrom (p.file 0) 1) 50).map fun r => (r.1, r.2.toOption.map (·.print))

/-- With parentheses around it a union is displayed differently and has no validator, or the procedure is not found at all. -/
theorem parentheses_not_redundant :
    handlerResult "string | null" "null" = some ("string | null", some "z.string().nullable()") ∧
    handlerResult "(string | null)" "null" = some ("() => null", none) ∧
    handlerResult "string | null" "x" = some ("string | null", some "z.string().nullable()") ∧
    handlerResult "(string | null)" "x" = none := by
  decide +kernel

end SchemaSplice.Chain
