import SchemaSplice.Proofs.Grammar.Building
import SchemaSplice.Proofs.Grammar.Spelled
import SchemaSplice.Proofs.Reading.Reader
/-!
# Precedence

The reader reads the tokens of a type as the type. A type is read at three places: as an operand of `[]`, `&` and spread
arrays, as a member of a union, and where any type may stand. A form that holds its parts tightly enough is read at a
place as it is, every other one in parentheses, so one place is proved for each form and the others follow.
-/

namespace SchemaSplice.Annotation

open Source SchemaSplice.Types

/-! ### Readings that succeed -/

/-- A reading that stops before token `next`, with a type that is built as a tree says. -/
def Reads {f : File} {p : Nat} (m : Parse (Parsed f p TypeId)) (s : TypeState) (next : Nat) (x : Tree) : Prop :=
  ∃ r s', m s = .ok r s' ∧ r.next = next ∧ Built s s' [r.value] [x]

theorem bind_of_ok {ε α β : Type} {m : EStateM ε TypeState α} {k : α → EStateM ε TypeState β} {s s' : TypeState} {a : α}
    (h : m s = .ok a s') : (m >>= k) s = k a s' := by
  show EStateM.bind m k s = _
  rw [EStateM.bind, h]

theorem bind_of_error {α β : Type} {m : Parse α} {k : α → Parse β} {s t : TypeState} {e : ParseError}
    (h : m s = .error e t) : (m >>= k) s = .error e t := by
  rw [show (m >>= k) s = EStateM.bind m k s from rfl, EStateM.bind, h]

def Avoids (ks : List Kind) (k? : Option Kind) : Prop := ∀ k ∈ ks, k? ≠ some k

theorem Avoids.hasKind_eq_false {f : File} {q : Nat} {ks : List Kind} (h : Avoids ks (f.kind? q)) {k : Kind}
    (hk : k ∈ ks) : f.hasKind q k = false :=
  beq_eq_false_iff_ne.mpr (h k hk)

theorem Avoids.mono {ks ks' : List Kind} {k? : Option Kind} (h : Avoids ks k?) (hks : ks' ⊆ ks) : Avoids ks' k? :=
  fun k hk => h k (hks hk)

theorem Avoids.some {ks : List Kind} {k : Kind} (h : k ∉ ks) : Avoids ks (some k) := by
  rintro k' hk' heq
  cases heq
  exact h hk'

/-- The token at `q`, if there is one, continues no type. -/
def EndsAt (f : File) (q : Nat) : Prop :=
  ∀ k, f.kind? q = some k → k ∈ [Kind.rparen, .rbracket, .rbrace, .comma, .semi, .question]

section

variable {f : File} {q : Nat}

theorem EndsAt.hasKind_eq_false (h : EndsAt f q) {k : Kind}
    (hk : k ∉ [Kind.rparen, .rbracket, .rbrace, .comma, .semi, .question]) : f.hasKind q k = false := by
  rw [File.hasKind, beq_eq_false_iff_ne]
  intro heq
  exact hk (h k heq)

theorem EndsAt.avoids (h : EndsAt f q) {ks : List Kind}
    (hks : ∀ k ∈ ks, k ∉ [Kind.rparen, .rbracket, .rbrace, .comma, .semi, .question]) : Avoids ks (f.kind? q) :=
  fun k hk heq => hks k hk (h k heq)

theorem EndsAt.hasWord_eq_false (h : EndsAt f q) (word : String) : f.hasWord q word = false := by
  have hident := h.hasKind_eq_false (k := .ident) (by decide)
  by_contra hword
  rw [Bool.not_eq_false] at hword
  rw [File.hasKind_of_hasWord hword] at hident
  cases hident

theorem EndsAt.of_spells {w : Lexeme} {ws : List Lexeme} (h : f.Spells q (w :: ws))
    (hw : w.1 ∈ [Kind.rparen, .rbracket, .rbrace, .comma, .semi, .question]) : EndsAt f q := by
  intro k hk
  rw [h.kind?, Option.some.injEq] at hk
  exact hk ▸ hw

theorem skip_of_false {k : Kind} (h : f.hasKind q k = false) : f.skip q k = q := by
  rw [File.skip, if_neg (by simp [h])]

theorem skip_of_true {k : Kind} (h : f.hasKind q k = true) : f.skip q k = q + 1 := by
  rw [File.skip, if_pos h]

end

/-! ### First tokens -/

def startKinds : List Kind := [.ident, .str, .number, .minus, .bigInt, .lparen, .lbrace, .lbracket]

/-- Tokens that may be those of a type: they begin as types do, and a word at the front is the whole type or is followed by
an operator. -/
def BeginsType (ws : List Lexeme) : Prop :=
  ∃ w vs, ws = w :: vs ∧ w.1 ∈ startKinds ∧ (w.1 = .ident → ∀ v, vs.head? = some v → v.1 ∈ [Kind.lbracket, .amp, .pipe])

section

variable (sep : Separators)

theorem BeginsType.enclosed {ws : List Lexeme} (h : BeginsType ws) (least : Nat) (e : TypeExpr) :
    BeginsType (enclosed least e ws) := by
  unfold Annotation.enclosed
  split
  · exact ⟨_, _, rfl, by decide, fun hident => nomatch hident⟩
  · exact h

/-- A type that is followed by an operator. -/
theorem BeginsType.append {ws vs : List Lexeme} {w : Lexeme} (h : BeginsType ws)
    (hw : w.1 ∈ [Kind.lbracket, .amp, .pipe]) : BeginsType (ws ++ w :: vs) := by
  obtain ⟨v, us, rfl, hstart, hnext⟩ := h
  refine ⟨v, us ++ w :: vs, rfl, hstart, fun hident u hu => ?_⟩
  cases us with
  | nil =>
    cases hu
    exact hw
  | cons u' us => exact hnext hident u hu

theorem beginsType_tokens : ∀ e : TypeExpr, BeginsType (e.tokens sep)
  | .primitive p => ⟨_, _, rfl, by simp [startKinds], fun _ _ hv => nomatch hv⟩
  | .flag value => ⟨_, _, rfl, by simp [startKinds], fun _ _ hv => nomatch hv⟩
  | .text value => ⟨_, _, rfl, by simp [startKinds], fun _ _ hv => nomatch hv⟩
  | .number false n => ⟨_, _, rfl, by simp [startKinds], fun _ _ hv => nomatch hv⟩
  | .number true n => ⟨_, _, rfl, by decide, fun hident => nomatch hident⟩
  | .bigInt n => ⟨_, _, rfl, by simp [startKinds], fun _ _ hv => nomatch hv⟩
  | .array element => ((beginsType_tokens element).enclosed 2 element).append (by decide)
  | .tuple elements => ⟨_, _, rfl, by decide, fun hident => nomatch hident⟩
  | .object fields => ⟨_, _, rfl, by decide, fun hident => nomatch hident⟩
  | .function result => ⟨_, _, rfl, by decide, fun hident => nomatch hident⟩
  | .intersection first second rest => ((beginsType_tokens first).enclosed 2 first).append (by decide)
  | .union first second rest => ((beginsType_tokens first).enclosed 1 first).append (by decide)

end

/-- A type begins with no other token. -/
theorem BeginsType.hasKind_eq_false {f : File} {q : Nat} {ws : List Lexeme} (hws : BeginsType ws)
    (h : f.Spells q ws) {k : Kind} (hk : k ∉ startKinds) : f.hasKind q k = false := by
  obtain ⟨w, us, rfl, hstart, -⟩ := hws
  rw [h.hasKind, beq_eq_false_iff_ne]
  rintro rfl
  exact hk hstart

/-! ### Lists of members -/

section

variable {env : Env} {sep : Separators} {operator : Kind} {least : Nat}

/-- A member is read before a token of which something is known. -/
def ItemReads (env : Env) (sep : Separators) (least : Nat) (next : Option Kind → Prop) {p : Nat}
    (item : (q : Nat) → p ≤ q → Parse (Parsed env.file q TypeId)) (e : TypeExpr) : Prop :=
  ∀ q h s, env.file.Spells q (enclosed least e (e.tokens sep)) →
    next (env.file.kind? (q + (enclosed least e (e.tokens sep)).length)) →
      Reads (item q h) s (q + (enclosed least e (e.tokens sep)).length) e.meaning

/-- The members after the first one are read one by one. -/
theorem separatedRest_reads {next : Option Kind → Prop} (hoperator : next (some operator)) {p : Nat}
    {item : (q : Nat) → p ≤ q → Parse (Parsed env.file q TypeId)} {es : List TypeExpr}
    (hitems : ∀ e ∈ es, ItemReads env sep least next item e) {q : Nat} (lt : p < q) (le : q ≤ env.file.size)
    {s s' : TypeState} {ids : List TypeId} {xs : List Tree} (hids : Built s s' ids xs)
    (h : env.file.Spells q (memberTokens sep operator least es))
    (hend : env.file.kind? (q + (memberTokens sep operator least es).length) ≠ some operator)
    (hnext : next (env.file.kind? (q + (memberTokens sep operator least es).length))) :
    ∃ r t, separatedRest env.file operator item q lt le ids s' = .ok r t ∧
      r.next = q + (memberTokens sep operator least es).length ∧ Built s t r.value (xs ++ memberMeanings es) := by
  induction es generalizing q s' ids xs with
  | nil =>
    have hstop : ¬ env.file.hasKind q operator = true := by
      rw [File.hasKind, beq_iff_eq]
      exact hend
    rw [separatedRest, dif_neg hstop]
    refine ⟨_, _, rfl, rfl, ?_⟩
    rw [memberMeanings, List.append_nil]
    exact hids
  | cons e rest ih =>
    have hrest : env.file.Spells (q + 1 + (enclosed least e (e.tokens sep)).length)
        (memberTokens sep operator least rest) := h.tail.right
    have hlength : q + (memberTokens sep operator least (e :: rest)).length =
        q + 1 + (enclosed least e (e.tokens sep)).length + (memberTokens sep operator least rest).length := by
      simp only [memberTokens, List.length_append, List.length_cons]
      omega
    rw [hlength] at hend hnext ⊢
    have hafter : next (env.file.kind? (q + 1 + (enclosed least e (e.tokens sep)).length)) := by
      cases rest with
      | nil => exact hnext
      | cons e' rest =>
        rw [hrest.kind?]
        exact hoperator
    have hkind : env.file.hasKind q operator = true := by
      rw [h.hasKind]
      exact beq_self_eq_true operator
    obtain ⟨r, t, hr, hrnext, hbuilt⟩ := hitems e List.mem_cons_self (q + 1) (by omega) s' h.tail.left hafter
    rw [separatedRest, dif_pos hkind, bind_of_ok hr]
    have hconcat := hids.append hbuilt
    rw [← hrnext] at hrest hend hnext
    obtain ⟨r', t', hr', hrnext', hbuilt'⟩ := ih (fun e' he' => hitems e' (List.mem_cons_of_mem _ he'))
      (Nat.lt_of_lt_of_le lt (Nat.le_of_lt (Nat.lt_of_succ_lt r.lt_next))) r.next_le hconcat hrest hend hnext
    refine ⟨r', t', hr', hrnext'.trans (by rw [hrnext]), ?_⟩
    rw [List.append_assoc] at hbuilt'
    exact hbuilt'

theorem separated_of_false {f : File} {p : Nat} {item : (q : Nat) → p ≤ q → Parse (Parsed f q TypeId)}
    (h : f.hasKind p operator = false) :
    separated f operator p item = (do
      let r ← item p (Nat.le_refl p)
      separatedRest f operator item r.next r.lt_next r.next_le [r.value]) := by
  have hgeneral : ∀ q (hq : p ≤ q), q = p →
      (do
        let r ← item q hq
        separatedRest f operator item r.next (Nat.lt_of_le_of_lt hq r.lt_next) r.next_le [r.value]) =
      (do
        let r ← item p (Nat.le_refl p)
        separatedRest f operator item r.next r.lt_next r.next_le [r.value]) := by
    rintro q hq rfl
    rfl
  exact hgeneral (f.skip p operator) (f.le_skip p operator) (skip_of_false h)

/-- One item is read when no operator stands before or after it. -/
theorem separated_single {p stop : Nat} (item : (q : Nat) → p ≤ q → Parse (Parsed env.file q TypeId)) {s : TypeState}
    {x : Tree} (hstart : env.file.hasKind p operator = false) (h : Reads (item p (Nat.le_refl p)) s stop x)
    (hend : env.file.hasKind stop operator = false) :
    ∃ id lt le t, separated env.file operator p item s = .ok ⟨[id], stop, lt, le⟩ t ∧ Built s t [id] [x] := by
  obtain ⟨r, t, hr, rfl, hbuilt⟩ := h
  refine ⟨r.value, r.lt_next, r.next_le, t, ?_, hbuilt⟩
  rw [separated_of_false hstart, bind_of_ok hr, separatedRest, dif_neg (by simp [hend])]
  rfl

/-- Members are read in order. -/
theorem separated_reads (next : Option Kind → Prop) (hoperator : next (some operator)) (hstart : operator ∉ startKinds)
    {p : Nat} {item : (q : Nat) → p ≤ q → Parse (Parsed env.file q TypeId)} {e : TypeExpr} {es : List TypeExpr}
    (hfirst : ItemReads env sep least next item e) (hitems : ∀ e' ∈ es, ItemReads env sep least next item e')
    (s : TypeState) (h : env.file.Spells p (enclosed least e (e.tokens sep) ++ memberTokens sep operator least es))
    {stop : Nat} (hstop : stop = p + (enclosed least e (e.tokens sep) ++ memberTokens sep operator least es).length)
    (hend : env.file.kind? stop ≠ some operator) (hnext : next (env.file.kind? stop)) :
    ∃ r t, separated env.file operator p item s = .ok r t ∧ r.next = stop ∧
      Built s t r.value (e.meaning :: memberMeanings es) := by
  have hrest := h.right
  have hlength : stop = p + (enclosed least e (e.tokens sep)).length + (memberTokens sep operator least es).length := by
    rw [hstop, List.length_append, Nat.add_assoc]
  have hafter : next (env.file.kind? (p + (enclosed least e (e.tokens sep)).length)) := by
    cases es with
    | nil =>
      rw [hlength] at hnext
      exact hnext
    | cons e' es =>
      rw [hrest.kind?]
      exact hoperator
  obtain ⟨r, t, hr, hrnext, hbuilt⟩ := hfirst p (Nat.le_refl p) s h.left hafter
  rw [separated_of_false (((beginsType_tokens sep e).enclosed least e).hasKind_eq_false h.left hstart), bind_of_ok hr]
  rw [← hrnext] at hrest hlength
  rw [hlength] at hend hnext ⊢
  exact separatedRest_reads hoperator hitems r.lt_next r.next_le hbuilt hrest hend hnext

end

/-! ### Intersections and unions -/

/-- Reads types at any later token. -/
def laterAt (env : Env) (p : Nat) : Later env.file p := fun q _ => typeAt env q

def OperandReads (env : Env) (sep : Separators) (e : TypeExpr) : Prop :=
  ∀ q s, env.file.Spells q (enclosed 2 e (e.tokens sep)) →
    Avoids [.fatArrow] (env.file.kind? (q + (enclosed 2 e (e.tokens sep)).length)) →
      ∃ id s' lt le, Built s s' [id] [e.meaning] ∧
        postfixType env q (laterAt env q) s =
          arraySuffix env.file q (q + (enclosed 2 e (e.tokens sep)).length) lt le id s'

def MemberReads (env : Env) (sep : Separators) (e : TypeExpr) : Prop :=
  ∀ q s, env.file.Spells q (enclosed 1 e (e.tokens sep)) →
    Avoids [.fatArrow, .lbracket, .amp] (env.file.kind? (q + (enclosed 1 e (e.tokens sep)).length)) →
      Reads (intersectionType env q (laterAt env q)) s (q + (enclosed 1 e (e.tokens sep)).length) e.meaning

def TypeReads (env : Env) (sep : Separators) (e : TypeExpr) : Prop :=
  ∀ q s, env.file.Spells q (e.tokens sep) → EndsAt env.file (q + (e.tokens sep).length) →
    Reads (typeAt env q) s (q + (e.tokens sep).length) e.meaning

section

variable {env : Env} {sep : Separators}

theorem arraySuffix_of_false {f : File} {p q : Nat} (lt : p < q) (le : q ≤ f.size) (id : TypeId) (s : TypeState)
    (h : f.hasKind q .lbracket = false) : arraySuffix f p q lt le id s = .ok ⟨id, q, lt, le⟩ s := by
  rw [arraySuffix, if_neg (by simp [h])]
  rfl

theorem OperandReads.item {e : TypeExpr} (h : OperandReads env sep e) (p : Nat) :
    ItemReads env sep 2 (Avoids [.fatArrow, .lbracket])
      (fun q (hq : p ≤ q) => postfixType env q ((laterAt env p).mono hq)) e := by
  intro q hq s hspells hnext
  obtain ⟨id, s', lt, le, hbuilt, hread⟩ := h q s hspells (hnext.mono (by simp))
  rw [arraySuffix_of_false lt le id s' (hnext.hasKind_eq_false (by simp))] at hread
  exact ⟨_, s', hread, rfl, hbuilt⟩

theorem MemberReads.item {e : TypeExpr} (h : MemberReads env sep e) (p : Nat) :
    ItemReads env sep 1 (Avoids [.fatArrow, .lbracket, .amp])
      (fun q (hq : p ≤ q) => intersectionType env q ((laterAt env p).mono hq)) e :=
  fun q _ s hspells hnext => h q s hspells hnext

/-- One operand is an intersection. -/
theorem intersectionType_single {q stop : Nat} {s : TypeState} {x : Tree} (hstart : env.file.hasKind q .amp = false)
    (h : Reads (postfixType env q (laterAt env q)) s stop x) (hend : env.file.hasKind stop .amp = false) :
    Reads (intersectionType env q (laterAt env q)) s stop x := by
  obtain ⟨id, lt, le, t, hread, hbuilt⟩ :=
    separated_single (fun p hp => postfixType env p ((laterAt env q).mono hp)) hstart h hend
  exact ⟨⟨id, stop, lt, le⟩, t, bind_of_ok hread, rfl, hbuilt⟩

/-- One member is a union. -/
theorem unionType_single {q stop : Nat} {s : TypeState} {x : Tree} (hstart : env.file.hasKind q .pipe = false)
    (h : Reads (intersectionType env q (laterAt env q)) s stop x) (hend : env.file.hasKind stop .pipe = false) :
    Reads (unionType env q (laterAt env q)) s stop x := by
  obtain ⟨id, lt, le, t, hread, hbuilt⟩ :=
    separated_single (fun p hp => intersectionType env p ((laterAt env q).mono hp)) hstart h hend
  exact ⟨⟨id, stop, lt, le⟩, t, bind_of_ok hread, rfl, hbuilt⟩

/-- Two or more operands are put together. -/
theorem intersectionType_reads {e e' : TypeExpr} {es : List TypeExpr} (he : OperandReads env sep e)
    (hes : ∀ d ∈ e' :: es, OperandReads env sep d) {q stop : Nat} (s : TypeState)
    (h : env.file.Spells q (enclosed 2 e (e.tokens sep) ++ memberTokens sep .amp 2 (e' :: es)))
    (hstop : stop = q + (enclosed 2 e (e.tokens sep) ++ memberTokens sep .amp 2 (e' :: es)).length)
    (hend : Avoids [.fatArrow, .lbracket, .amp] (env.file.kind? stop)) :
    Reads (intersectionType env q (laterAt env q)) s stop
      (.intersectionOf (e.meaning :: memberMeanings (e' :: es))) := by
  obtain ⟨⟨ids, next, lt, le⟩, t, hr, rfl, hbuilt⟩ := separated_reads (Avoids [.fatArrow, .lbracket])
    (.some (by decide)) (by decide) (he.item q) (fun d hd => (hes d hd).item q) s h hstop (hend .amp (by simp))
    (hend.mono (by simp))
  obtain ⟨a, b, rest, rfl⟩ := hbuilt.exists_two
  obtain ⟨id, u, hid, hbuilt'⟩ := hbuilt.intersection (ε := ParseError) (Nat.le_add_left 2 _)
  exact ⟨⟨id, next, lt, le⟩, u, (bind_of_ok hr).trans (bind_of_ok hid), rfl, hbuilt'⟩

/-- Two or more members are put together. -/
theorem unionType_reads {e e' : TypeExpr} {es : List TypeExpr} (he : MemberReads env sep e)
    (hes : ∀ d ∈ e' :: es, MemberReads env sep d) {q stop : Nat} (s : TypeState)
    (h : env.file.Spells q (enclosed 1 e (e.tokens sep) ++ memberTokens sep .pipe 1 (e' :: es)))
    (hstop : stop = q + (enclosed 1 e (e.tokens sep) ++ memberTokens sep .pipe 1 (e' :: es)).length)
    (hend : EndsAt env.file stop) :
    Reads (unionType env q (laterAt env q)) s stop (.unionOf (e.meaning :: memberMeanings (e' :: es))) := by
  obtain ⟨⟨ids, next, lt, le⟩, t, hr, rfl, hbuilt⟩ := separated_reads (Avoids [.fatArrow, .lbracket, .amp])
    (.some (by decide)) (by decide) (he.item q) (fun d hd => (hes d hd).item q) s h hstop
    (fun heq => absurd (hend .pipe heq) (by decide)) (hend.avoids (by decide))
  obtain ⟨a, b, rest, rfl⟩ := hbuilt.exists_two
  obtain ⟨id, u, hid, hbuilt'⟩ := hbuilt.union (ε := ParseError)
  exact ⟨⟨id, next, lt, le⟩, u, (bind_of_ok hr).trans (bind_of_ok hid), rfl, hbuilt'⟩

/-- A union that ends where no type goes on is a type. -/
theorem typeAt_reads_of_union {q stop : Nat} {s : TypeState} {x : Tree} (hend : EndsAt env.file stop)
    (h : Reads (unionType env q (laterAt env q)) s stop x) : Reads (typeAt env q) s stop x := by
  obtain ⟨r, t, hr, rfl, hbuilt⟩ := h
  refine ⟨r, t, ?_, rfl, hbuilt⟩
  rw [typeAt, typeWith]
  refine (bind_of_ok hr).trans ?_
  rw [if_neg (by simp [hend.hasWord_eq_false])]
  rfl

/-! ### Primary types -/

theorem hasWord_of_spells {f : File} {q : Nat} {w : Lexeme} {ws : List Lexeme} (h : f.Spells q (w :: ws)) {word : String}
    (hw : w ≠ (.ident, word)) : f.hasWord q word = false := by
  rw [File.hasWord, beq_eq_false_iff_ne, File.word?, h.hasKind, h.tokenText]
  intro heq
  split at heq
  · next hkind =>
    rw [beq_iff_eq] at hkind
    cases heq
    exact hw (Prod.ext hkind rfl)
  · cases heq

theorem skipReadonly_of_false {f : File} {q : Nat} (h : f.hasWord q "readonly" = false) : skipReadonly f q = q := by
  rw [skipReadonly, dif_neg (by simp [h])]

/-- A primary type is an operand. -/
theorem postfixType_of_primary {q next : Nat} {s : TypeState} {x : Tree}
    (hword : env.file.hasWord q "readonly" = false) (h : Reads (primary env q (laterAt env q)) s next x) :
    ∃ id s' lt le, Built s s' [id] [x] ∧
      postfixType env q (laterAt env q) s = arraySuffix env.file q next lt le id s' := by
  obtain ⟨r, s', hr, rfl, hbuilt⟩ := h
  refine ⟨r.value, s', r.lt_next, r.next_le, hbuilt, ?_⟩
  have hgeneral : ∀ p (hp : q ≤ p), p = q →
      (do
        let base ← primary env p ((laterAt env q).mono hp)
        arraySuffix env.file q base.next (Nat.lt_of_le_of_lt hp base.lt_next) base.next_le base.value) s =
      arraySuffix env.file q r.next r.lt_next r.next_le r.value s' := by
    rintro p hp rfl
    exact bind_of_ok hr
  exact hgeneral (skipReadonly env.file q) (le_skipReadonly env.file q) (skipReadonly_of_false hword)

theorem operandReads_of_primary {e : TypeExpr} (hrank : 2 ≤ e.rank)
    (hword : (e.tokens sep).head? ≠ some (.ident, "readonly"))
    (h : ∀ q s, env.file.Spells q (e.tokens sep) →
      Reads (primary env q (laterAt env q)) s (q + (e.tokens sep).length) e.meaning) :
    OperandReads env sep e := by
  intro q s hspells _
  rw [enclosed, if_neg (Nat.not_lt_of_le hrank)] at hspells ⊢
  refine postfixType_of_primary ?_ (h q s hspells)
  obtain ⟨w, ws, hws, -⟩ := beginsType_tokens sep e
  rw [hws] at hspells hword
  exact hasWord_of_spells hspells fun heq => hword (congrArg some heq)

/-- A type that was read, as the result of a function type. -/
def functionOf {f : File} {p q : Nat} (h : p < q) : EStateM.Result ParseError TypeState (Parsed f q TypeId) →
    EStateM.Result ParseError TypeState (Parsed f p TypeId)
  | .ok r t =>
    .ok ⟨(Table.function r.value t.table).1, r.next, Nat.lt_trans h r.lt_next, r.next_le⟩
      { t with table := (Table.function r.value t.table).2 }
  | .error e t => .error e t

/-- Before an arrow nothing in the parentheses is read. -/
theorem primary_before_arrow {q : Nat} {c : { c : Nat // q < c ∧ c < env.file.size }}
    (hclose : env.file.closer? q = some c) (hopen : env.file.kind? q = some .lparen)
    (harrow : env.file.hasKind (c.1 + 1) .fatArrow = true) (s : TypeState) :
    primary env q (laterAt env q) s = functionOf (Nat.lt_add_right 2 c.2.1) (typeAt env (c.1 + 2) s) := by
  rw [primary_of_some env (laterAt env q) hopen]
  show parenthesized env q (File.lt_size_of_kind? hopen) (laterAt env q) s = _
  unfold parenthesized
  simp only [hclose, harrow, if_true]
  cases hread : typeAt env (c.1 + 2) s with
  | error e t => exact bind_of_error hread
  | ok r t => exact bind_of_ok hread

/-- A type in parentheses that no arrow follows. -/
theorem primary_reads_parenthesized (hf : env.file.IsRead) {e : TypeExpr} (h : TypeReads env sep e) {q : Nat}
    (s : TypeState) (hspells : env.file.Spells q (sign .lparen :: e.tokens sep ++ [sign .rparen]))
    (harrow : env.file.hasKind (q + 1 + (e.tokens sep).length + 1) .fatArrow = false) :
    Reads (primary env q (laterAt env q)) s (q + 1 + (e.tokens sep).length + 1) e.meaning := by
  obtain ⟨hc, hclose⟩ := hf.closer?_of_spells rfl (phrase_tokens sep e) hspells
  have hclosing : env.file.Spells (q + 1 + (e.tokens sep).length) [sign .rparen] := hspells.tail.right
  obtain ⟨r, t, hr, hnext, hbuilt⟩ := h (q + 1) s hspells.tail.left (.of_spells hclosing (by simp [sign]))
  have hrparen : env.file.hasKind r.next .rparen = true := by
    rw [hnext, hclosing.hasKind]
    rfl
  refine ⟨⟨r.value, r.next + 1, by have := r.lt_next; omega, File.lt_size_of_hasKind hrparen⟩, t, ?_, by simp only [hnext],
    hbuilt⟩
  rw [primary_of_some env (laterAt env q) hspells.kind?]
  show parenthesized env q (File.lt_size_of_kind? hspells.kind?) (laterAt env q) s = _
  unfold parenthesized
  simp only [hclose, harrow, Bool.false_eq_true, if_false]
  refine (bind_of_ok hr).trans ?_
  rw [dif_pos hrparen]
  rfl

/-! ### From one place to the others -/

theorem operandReads_of_type (hf : env.file.IsRead) {e : TypeExpr} (hrank : e.rank < 2) (h : TypeReads env sep e) :
    OperandReads env sep e := by
  intro q s hspells harrow
  have hlength : q + (enclosed 2 e (e.tokens sep)).length = q + 1 + (e.tokens sep).length + 1 := by
    rw [enclosed, if_pos hrank, List.length_append, List.length_cons, List.length_singleton]
    omega
  rw [hlength] at harrow ⊢
  rw [enclosed, if_pos hrank] at hspells
  exact postfixType_of_primary (hasWord_of_spells hspells (by simp [sign]))
    (primary_reads_parenthesized hf h s hspells (harrow.hasKind_eq_false (by simp)))

theorem enclosed_of_le {least : Nat} {e : TypeExpr} (h : least ≤ e.rank) (ws : List Lexeme) : enclosed least e ws = ws :=
  if_neg (Nat.not_lt_of_le h)

theorem memberReads_of_operand {e : TypeExpr} (hrank : e.rank ≠ 1) (h : OperandReads env sep e) :
    MemberReads env sep e := by
  have hsame : enclosed 1 e (e.tokens sep) = enclosed 2 e (e.tokens sep) := by
    unfold enclosed
    exact if_congr (by omega) rfl rfl
  intro q s hspells hend
  rw [hsame] at hspells hend ⊢
  exact intersectionType_single (((beginsType_tokens sep e).enclosed 2 e).hasKind_eq_false hspells (by decide))
    (h.item q q (Nat.le_refl q) s hspells (hend.mono (by simp))) (hend.hasKind_eq_false (by simp))

theorem typeReads_of_member {e : TypeExpr} (hrank : 1 ≤ e.rank) (h : MemberReads env sep e) : TypeReads env sep e := by
  intro q s hspells hend
  have hmember := h q s
  rw [enclosed_of_le hrank] at hmember
  exact typeAt_reads_of_union hend
    (unionType_single ((beginsType_tokens sep e).hasKind_eq_false hspells (by decide))
      (hmember hspells (hend.avoids (by decide))) (hend.hasKind_eq_false (by decide)))

end

end SchemaSplice.Annotation
