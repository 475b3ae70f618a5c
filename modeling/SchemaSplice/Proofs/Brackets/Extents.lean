import SchemaSplice.Proofs.Brackets.Tilings
import SchemaSplice.Proofs.Grammar.Arrows
/-!
# How far a type reaches

The tokens of a type that was read are a tiled range of its file. There is one lemma for each function of the reader, and
`typeAt_tiles` ties them together by induction on what is left of the file. The reader steps over function parameters
and object types through the table of partners, while it finds the end of a tuple and of a type in parentheses by reading
on; that it ends up at the partner there too is what a tiled range between two brackets gives.
-/

namespace SchemaSplice.Annotation

open Source SchemaSplice.Types

/-! ### Steps -/

section

variable {f : File} {p : Nat} {α β : Type} {P : Nat → Prop}

theorem EndsBefore.pure {r : Parsed f p α} (h : P r.next) : EndsBefore P (pure r : Parse (Parsed f p α)) := by
  intro s r' t hr
  cases hr
  exact h

theorem EndsBefore.fail {q : Nat} {cause : TypeError} : EndsBefore P (fail q cause : Parse (Parsed f p α)) := by
  intro s r t hr
  cases hr

theorem EndsBefore.bind {m : Parse α} {k : α → Parse (Parsed f p β)}
    (h : ∀ s a t, m s = .ok a t → EndsBefore P (k a)) : EndsBefore P (m >>= k) := by
  intro s r t hr
  obtain ⟨a, u, hm, hk⟩ := exists_of_bind_ok hr
  exact h s a u hm u r t hk

theorem EndsBefore.ite {c : Prop} [Decidable c] {m m' : Parse (Parsed f p α)} (h : c → EndsBefore P m)
    (h' : ¬c → EndsBefore P m') : EndsBefore P (if c then m else m') := by
  split
  next hc => exact h hc
  next hc => exact h' hc

theorem EndsBefore.dite {c : Prop} [Decidable c] {m : c → Parse (Parsed f p α)} {m' : ¬c → Parse (Parsed f p α)}
    (h : ∀ hc, EndsBefore P (m hc)) (h' : ∀ hc, EndsBefore P (m' hc)) : EndsBefore P (if hc : c then m hc else m' hc) := by
  split
  next hc => exact h hc
  next hc => exact h' hc

theorem EndsBefore.insertAs {next : Nat} {lt : p < next} {le : next ≤ f.size} {k : TypeKind} (h : P next) :
    EndsBefore P (insertAs f p next lt le k) :=
  .bind fun _ _ _ _ => .pure h

/-- A reader of later types that reads tiled ranges. -/
def Later.Tiles (later : Later f p) : Prop := ∀ q h, EndsBefore (f.Tiled q) (later q h)

/-! ### Lists of types -/

variable {operator : Kind} {item : (q : Nat) → p ≤ q → Parse (Parsed f q TypeId)}

theorem separatedRest_tiles (hopens : operator.opens = false) (hcloses : operator.closes = false)
    (hitem : ∀ q hq, EndsBefore (f.Tiled q) (item q hq)) (q : Nat) (lt : p < q) (le : q ≤ f.size) (items : List TypeId)
    (hq : f.Tiled p q) : EndsBefore (f.Tiled p) (separatedRest f operator item q lt le items) := by
  fun_induction separatedRest f operator item q lt le items with
  | case1 q lt le items hoperator ih =>
    refine .bind fun s r t hr => ih r ?_
    exact (hq.trans (.of_hasKind hoperator hopens hcloses)).trans (hitem _ _ s r t hr)
  | case2 q lt le items hoperator => exact .pure hq

theorem separated_tiles (hopens : operator.opens = false) (hcloses : operator.closes = false)
    (hitem : ∀ q hq, EndsBefore (f.Tiled q) (item q hq)) : EndsBefore (f.Tiled p) (separated f operator p item) := by
  refine .bind fun s r t hr => separatedRest_tiles hopens hcloses hitem _ _ _ _ ?_
  exact (File.Tiled.of_skip hopens hcloses).trans (hitem _ _ s r t hr)

end

variable {env : Env} {p : Nat}

theorem typeArguments_tiles (hp : p < env.file.size) {later : Later env.file p} (hlater : later.Tiles) (q : Nat)
    (hpq : p < q) (args : List TypeId) (hq : env.file.Tiled p q) :
    EndsBefore (env.file.Tiled p) (typeArguments env hp later q hpq args) := by
  fun_induction typeArguments env hp later q hpq args with
  | case1 q hpq args ih =>
    refine .bind fun s type t htype => ?_
    have htiled := hq.trans (hlater _ _ s type t htype)
    refine .dite (fun hcomma => ih type hcomma (htiled.trans (.of_hasKind hcomma rfl rfl))) fun _ => ?_
    exact .dite (fun hgt => .pure (htiled.trans (.of_hasKind hgt rfl rfl))) fun _ => .fail

/-! ### Brackets -/

/-- An object type ends after the brace that closes it. -/
theorem objectBody_endsBefore (later : Later env.file p) :
    EndsBefore (fun n => ∃ c, env.file.Matched p c ∧ n = c + 1) (objectBody env p later) := by
  unfold objectBody
  refine .dite (fun hopen => ?_) fun _ => .fail
  split
  · exact .fail
  · next close hc hclose =>
    exact .bind fun _ _ _ _ => .bind fun _ _ _ _ => .pure ⟨close, File.matched_of_closer? hclose, rfl⟩

/-- What stands in parentheses ends before the parenthesis that closes it, unless an arrow follows that one. -/
theorem parenthesized_endsBefore (hf : env.file.IsRead) (hopen : env.file.kind? p = some .lparen) (hp : p < env.file.size)
    {later : Later env.file p} (hlater : later.Tiles) :
    EndsBefore (fun n => ∃ c, env.file.Matched p c ∧
      if env.file.hasKind (c + 1) .fatArrow then env.file.Tiled (c + 2) n ∧ c + 2 < n else n = c + 1)
      (parenthesized env p hp later) := by
  unfold parenthesized
  simp only
  split
  · exact .fail
  next c hc hclose =>
  have hmatched := File.matched_of_closer? hclose
  refine .ite (fun harrow => ?_) fun harrow => ?_
  · refine .bind fun s result t hresult => .bind fun _ _ _ _ => .pure ⟨c, hmatched, ?_⟩
    rw [if_pos harrow]
    exact ⟨hlater _ _ s result t hresult, result.lt_next⟩
  · refine .bind fun s inner t hinner => .dite (fun hclosing => .pure ⟨c, hmatched, ?_⟩) fun _ => .fail
    have hown := (hlater _ _ s inner t hinner).matched hf hopen (eq_of_beq hclosing) rfl
    rw [if_neg harrow]
    exact congrArg (· + 1) (hown.unique hmatched)

theorem elementLabel_tiled (f : File) (q : Nat) : f.Tiled q (q + (elementLabel f q).1) := by
  unfold elementLabel
  split
  next hword =>
    have hfirst : f.Tiled q (q + 1) := .of_hasKind hword rfl rfl
    split
    next hcolon => exact hfirst.trans (.of_hasKind hcolon rfl rfl)
    next =>
      split
      next hoptional =>
        rw [Bool.and_eq_true] at hoptional
        exact (hfirst.trans (.of_hasKind hoptional.1 rfl rfl)).trans (.of_hasKind hoptional.2 rfl rfl)
      next => exact .nil q
  next => exact .nil q

/-- A tuple ends after the bracket that closes it. -/
theorem tupleRest_endsBefore (hf : env.file.IsRead) (hopen : env.file.kind? p = some .lbracket) (hp : p < env.file.size)
    {later : Later env.file p} (hlater : later.Tiles) (q : Nat) (hpq : p < q) (elements : List Element)
    (hq : env.file.Tiled (p + 1) q) :
    EndsBefore (fun n => ∃ c, env.file.Matched p c ∧ n = c + 1) (tupleRest env hp later q hpq elements) := by
  fun_induction tupleRest env hp later q hpq elements with
  | case1 q hpq elements hclosing =>
    exact .pure ⟨q, hq.matched hf hopen (eq_of_beq hclosing) rfl, rfl⟩
  | case2 q hpq elements hclosing spread start hs label ih =>
    refine .bind fun s type t htype => .bind fun _ state _ _ => ?_
    have hstart : env.file.Tiled (p + 1) start := hq.trans (.of_skip rfl rfl)
    have htiled : env.file.Tiled (p + 1) (env.file.skip type.next .question) :=
      ((hstart.trans (elementLabel_tiled env.file start)).trans (hlater _ _ s type t htype)).trans (.of_skip rfl rfl)
    refine .dite (fun hcomma => ih type state hcomma (htiled.trans (.of_hasKind hcomma rfl rfl))) fun _ => ?_
    refine .dite (fun hclosing => .pure ⟨_, ?_, rfl⟩) fun _ => .fail
    exact htiled.matched hf hopen (eq_of_beq hclosing) rfl

/-! ### Types -/

theorem reference_tiles (hword : env.file.hasKind p .ident = true) (hp : p < env.file.size) {later : Later env.file p}
    (hlater : later.Tiles) : EndsBefore (env.file.Tiled p) (reference env p hp later) := by
  have hname : env.file.Tiled p (p + 1) := .of_hasKind hword rfl rfl
  unfold reference
  refine .ite (fun hdot => ?_) fun _ => .ite (fun hlt => ?_) fun _ => ?_
  · refine .dite (fun hmember => ?_) fun _ => .fail
    refine .ite (fun _ => .fail) fun _ => .bind fun _ _ _ _ => .pure ?_
    exact (hname.trans (.of_hasKind hdot rfl rfl)).trans (.of_hasKind hmember rfl rfl)
  · refine .bind fun s args t hargs => .bind fun _ _ _ _ => .pure ?_
    exact typeArguments_tiles hp hlater _ _ _ (hname.trans (.of_hasKind hlt rfl rfl)) s args t hargs
  · split
    · exact .pure hname
    · exact .bind fun _ _ _ _ => .pure hname

theorem named_tiles (hword : env.file.hasKind p .ident = true) (hp : p < env.file.size) {later : Later env.file p}
    (hlater : later.Tiles) : EndsBefore (env.file.Tiled p) (named env p hp later) := by
  unfold named
  simp only
  split
  · exact .insertAs (.of_hasKind hword rfl rfl)
  · exact .ite (fun _ => .fail) fun _ => reference_tiles hword hp hlater

theorem primaryOf_tiles (hf : env.file.IsRead) (hp : p < env.file.size) {later : Later env.file p} (hlater : later.Tiles)
    {k : Kind} (hk : env.file.kind? p = some k) : EndsBefore (env.file.Tiled p) (primaryOf env p hp later k) := by
  have hnumber : ∀ {i next : Nat} {negative : Bool} {lt : p < next} {le : next ≤ env.file.size}, env.file.Tiled p next →
      EndsBefore (env.file.Tiled p) (numberLiteral env.file i next negative >>= fun k => insertAs env.file p next lt le k) :=
    fun h => .bind fun _ _ _ _ => .insertAs h
  cases k with
  | lparen =>
    intro s r t h
    obtain ⟨c, hc, hend⟩ := parenthesized_endsBefore hf hk hp hlater s r t h
    split at hend
    next harrow => exact .pair hc ((File.Tiled.of_hasKind harrow rfl rfl).trans hend.1)
    next =>
      rw [hend]
      exact .pair hc (.nil _)
  | lbrace =>
    refine .bind fun s body t hbody => .insertAs ?_
    obtain ⟨c, hc, hend⟩ := objectBody_endsBefore later s body t hbody
    rw [hend]
    exact .pair hc (.nil _)
  | lbracket =>
    refine .bind fun s elements t helements => .insertAs ?_
    obtain ⟨c, hc, hend⟩ := tupleRest_endsBefore hf hk hp hlater (p + 1) _ [] (.nil _) s elements t helements
    rw [hend]
    exact .pair hc (.nil _)
  | str => exact .insertAs (.single hk rfl rfl)
  | template => exact .ite (fun _ => .fail) fun _ => .insertAs (.single hk rfl rfl)
  | number => exact hnumber (.single hk rfl rfl)
  | minus => exact .dite (fun hn => hnumber ((File.Tiled.single hk rfl rfl).trans (.of_hasKind hn rfl rfl))) fun _ => .fail
  | bigInt => exact .insertAs (.single hk rfl rfl)
  | ident => exact named_tiles (by rw [File.hasKind, hk, beq_self_eq_true]) hp hlater
  | _ => exact .fail

theorem primary_tiles (hf : env.file.IsRead) {later : Later env.file p} (hlater : later.Tiles) :
    EndsBefore (env.file.Tiled p) (primary env p later) := by
  cases hk : env.file.kind? p with
  | none =>
    rw [primary_of_none env later hk]
    exact .fail
  | some k =>
    rw [primary_of_some env later hk]
    exact primaryOf_tiles hf _ hlater hk

theorem arraySuffix_tiles {f : File} (hf : f.IsRead) (p q : Nat) (lt : p < q) (le : q ≤ f.size) (id : TypeId)
    (hq : f.Tiled p q) : EndsBefore (f.Tiled p) (arraySuffix f p q lt le id) := by
  fun_induction arraySuffix f p q lt le id with
  | case1 q lt le id hopen hclosing ih =>
    have hpair := (File.Tiled.nil (q + 1)).matched hf (eq_of_beq hopen) (eq_of_beq hclosing) rfl
    exact .bind fun _ array _ _ => ih array (hq.trans (.pair hpair (.nil _)))
  | case2 q lt le id hopen hclosing => exact .fail
  | case3 q lt le id hopen => exact .pure hq

theorem skipReadonly_tiled (f : File) (p : Nat) : f.Tiled p (skipReadonly f p) := by
  fun_induction skipReadonly f p with
  | case1 p h ih => exact (File.Tiled.of_hasWord h).trans ih
  | case2 p h => exact .nil p

theorem Later.Tiles.mono {f : File} {q : Nat} {later : Later f p} (h : later.Tiles) (hpq : p ≤ q) : (later.mono hpq).Tiles :=
  fun r _ => h r _

theorem postfixType_tiles (hf : env.file.IsRead) (p : Nat) {later : Later env.file p} (hlater : later.Tiles) :
    EndsBefore (env.file.Tiled p) (postfixType env p later) := by
  refine .bind fun s base t hbase => arraySuffix_tiles hf _ _ _ _ _ ?_
  exact (skipReadonly_tiled env.file p).trans (primary_tiles hf (hlater.mono _) s base t hbase)

theorem typeWith_tiles (hf : env.file.IsRead) {later : Later env.file p} (hlater : later.Tiles) :
    EndsBefore (env.file.Tiled p) (typeWith env p later) := by
  have hoperand : ∀ q (hq : p ≤ q), EndsBefore (env.file.Tiled q) (intersectionType env q (later.mono hq)) := fun q hq =>
    sole_endsBefore (separated_tiles rfl rfl fun r hr => postfixType_tiles hf r ((hlater.mono hq).mono hr)) Table.intersection
  have hunion : EndsBefore (env.file.Tiled p) (unionType env p later) :=
    sole_endsBefore (separated_tiles rfl rfl hoperand) Table.union
  exact .bind fun s type t htype => .ite (fun _ => .fail) fun _ => .pure (hunion s type t htype)

/-- The tokens of a type are a tiled range: by induction on what is left of the file. -/
theorem typeAt_tiles (hf : env.file.IsRead) (p : Nat) : EndsBefore (env.file.Tiled p) (typeAt env p) := by
  induction hn : env.file.size - p using Nat.strongRecOn generalizing p with
  | ind n ih =>
    rw [typeAt]
    exact typeWith_tiles hf fun q hq => ih (env.file.size - q) (by omega) q rfl

theorem laterAt_tiles (hf : env.file.IsRead) (p : Nat) : (laterAt env p).Tiles := fun q _ => typeAt_tiles hf q

end SchemaSplice.Annotation
