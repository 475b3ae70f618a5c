import SchemaSplice.Proofs.Brackets.Extents
/-!
# Types keep to their brackets

What is read as a type, as the base of an interface or as an object type contains the partners of all its brackets and does
not reach beyond the brackets around its start. The members of an object type are read on until its closing brace is
reached or passed. They are passages, so the brace is passed only if it is the fourth token of what is read as a computed
key; then the rest of the member is read behind the brace, though the object type still ends at it.
-/

namespace SchemaSplice.Annotation

open Source SchemaSplice.Types

variable {env : Env} {p q : Nat}

/-! ### Members -/

theorem signatureResult_passes (hp : p < env.file.size) {later : Later env.file p} (hlater : later.Tiles) {c : Nat}
    (hpq : p ≤ q) (hc : q < c ∧ c < env.file.size) (h : env.file.Passage q (c + 1)) :
    EndsBefore (env.file.Passage q) (signatureResult env hp later q c hpq hc) := by
  unfold signatureResult
  refine .ite (fun hcolon => .bind fun s r t hr => .pure ?_) fun _ => .insertAs h
  have htiled := (File.Tiled.of_hasKind hcolon rfl rfl).trans (hlater _ _ s r t hr)
  exact h.trans (.of_tiled htiled)

theorem signature_passes (hp : p < env.file.size) {later : Later env.file p} (hlater : later.Tiles) (hpq : p ≤ q) :
    EndsBefore (env.file.Passage q) (signature env hp later q hpq) := by
  cases hs : env.file.anglesFrom? q with
  | none =>
    rw [signature_of_none env hp later hpq hs]
    exact .fail
  | some o =>
    rw [signature_of_some env hp later hpq hs]
    refine .ite (fun _ => ?_) fun _ => .fail
    split
    · exact .fail
    · next c hc hclose =>
      have hpair : env.file.Passage o (c + 1) := .pair (File.matched_of_closer? hclose) (.nil _)
      exact signatureResult_passes hp hlater hpq _ ((File.Passage.of_anglesFrom? hs).trans hpair)

theorem propertyKey_passes (f : File) (q : Nat) : EndsBefore (f.Passage q) (propertyKey f q) := by
  unfold propertyKey
  split
  next hk => exact .pure (.single hk rfl (by decide))
  next hk => exact .pure (.single hk rfl (by decide))
  next hk => exact .pure (.single hk rfl (by decide))
  next hk =>
    refine .ite (fun hsymbol => ?_) fun _ => .fail
    rw [Bool.and_eq_true] at hsymbol
    refine .dite (fun hclosing => .pure ?_) fun _ => .fail
    exact .computed ⟨by rw [File.hasKind, hk, beq_self_eq_true], hsymbol.1, hsymbol.2, hclosing⟩ (.nil _)
  next => exact .fail

theorem indexSignature_passes (hf : env.file.IsRead) (hp : p < env.file.size) {later : Later env.file p}
    (hlater : later.Tiles) (hpq : p ≤ q) (hopen : env.file.hasKind q .lbracket = true)
    (hname : env.file.hasKind (q + 1) .ident = true) (hcolon : env.file.hasKind (q + 2) .colon = true) :
    EndsBefore (env.file.Passage q) (indexSignature env hp later q hpq) := by
  refine .bind fun s key t hkey => .ite (fun hclosing => ?_) fun _ => .fail
  refine .ite (fun hvalue => .bind fun u value v hread => .pure ?_) fun _ => .fail
  have hinside : env.file.Tiled (q + 1) key.next :=
    ((File.Tiled.of_hasKind hname rfl rfl).trans (.of_hasKind hcolon rfl rfl)).trans (hlater _ _ s key t hkey)
  have hpair := hinside.matched hf (eq_of_beq hopen) (eq_of_beq hclosing) rfl
  exact .of_tiled (.pair hpair ((File.Tiled.of_hasKind hvalue rfl rfl).trans (hlater _ _ u value v hread)))

theorem propertyMember_passes (hp : p < env.file.size) {later : Later env.file p} (hlater : later.Tiles) (hpq : p ≤ q) :
    EndsBefore (env.file.Passage q) (propertyMember env hp later q hpq) := by
  unfold propertyMember
  refine .bind fun s key t hkey => ?_
  have hstart : env.file.Passage q (env.file.skip key.next .question) :=
    (propertyKey_passes env.file q s key t hkey).trans (.of_tiled (.of_skip rfl rfl))
  -- The end of a property adds `undefined` to the type of an optional one and reads no token.
  have hfinish : ∀ (type : TypeId) (next : Nat) (lt : q < next) (le : next ≤ env.file.size) (optional : Bool),
      env.file.Passage q next → EndsBefore (env.file.Passage q)
        (if optional = true then do
            let undefined ← onTable (Table.insert .undefined)
            let type ← onTable (Table.union [type, undefined])
            return ⟨.property ⟨key.value, type, true⟩, next, lt, le⟩
          else return ⟨.property ⟨key.value, type, false⟩, next, lt, le⟩ : Parse (Parsed env.file q Member)) :=
    fun _ _ _ _ _ h => .ite (fun _ => .bind fun _ _ _ _ => .bind fun _ _ _ _ => .pure h) fun _ => .pure h
  refine .ite (fun _ => .bind fun u result v hresult => .bind fun _ type _ _ => ?_) fun _ => ?_
  · exact hfinish type _ _ _ _ (hstart.trans (signature_passes hp hlater _ u result v hresult))
  · refine .ite (fun hcolon => .bind fun u type v htype => ?_) fun _ => .fail
    have htiled := (File.Tiled.of_hasKind hcolon rfl rfl).trans (hlater _ _ u type v htype)
    exact hfinish _ _ _ _ _ (hstart.trans (.of_tiled htiled))

theorem member_passes (hf : env.file.IsRead) (hp : p < env.file.size) {later : Later env.file p} (hlater : later.Tiles)
    (hpq : p ≤ q) : EndsBefore (env.file.Passage q) (member env hp later q hpq) := by
  unfold member
  refine .ite (fun _ => ?_) fun _ => .ite (fun _ => .fail) fun _ => .ite (fun hindex => ?_) fun _ => ?_
  · exact .bind fun s result t hresult => .pure (signature_passes hp hlater hpq s result t hresult)
  · rw [Bool.and_eq_true, Bool.and_eq_true] at hindex
    exact indexSignature_passes hf hp hlater hpq hindex.1.1 hindex.1.2 hindex.2
  · exact propertyMember_passes hp hlater hpq

def memberStart (f : File) (q : Nat) : Nat := if isReadonlyModifier f q then q + 1 else q

theorem memberStart_tiled (f : File) (q : Nat) : f.Tiled q (memberStart f q) := by
  unfold memberStart
  split
  next hreadonly =>
    rw [isReadonlyModifier, Bool.and_eq_true] at hreadonly
    exact .of_hasWord hreadonly.1
  next => exact .nil q

def membersUpTo (env : Env) {p : Nat} (hp : p < env.file.size) (later : Later env.file p) (close q : Nat)
    (hq : p ≤ q) (body : Body) : Parse (Body × Nat) :=
  if _h : close ≤ q then return (body, q)
  else if env.file.hasKind q .semi || env.file.hasKind q .comma then
    membersUpTo env hp later close (q + 1) (Nat.le_succ_of_le hq) body
  else do
    have hs := (memberStart_tiled env.file q).le
    let m ← member env hp later (memberStart env.file q) (Nat.le_trans hq hs)
    have hm := Nat.lt_of_le_of_lt hs m.lt_next
    membersUpTo env hp later close m.next (Nat.le_trans hq (Nat.le_of_lt hm)) (body.add m.value)
termination_by close - q

/-- The members are those read up to where reading them stops. -/
theorem members_eq (hp : p < env.file.size) (later : Later env.file p) (close q : Nat) (hpq : p ≤ q) (body : Body) :
    members env hp later close q hpq body = Prod.fst <$> membersUpTo env hp later close q hpq body := by
  fun_induction members env hp later close q hpq body with
  | case1 q hpq body h =>
    rw [membersUpTo, dif_pos h]
    rfl
  | case2 q hpq body h hseparator ih => rw [membersUpTo, dif_neg h, if_pos hseparator, ih]
  | case3 q hpq body h hseparator start hs =>
    rename_i ih
    rw [membersUpTo, dif_neg h, if_neg hseparator, map_bind]
    exact bind_congr fun m => ih m

theorem membersUpTo_passes (hf : env.file.IsRead) (hp : p < env.file.size) {later : Later env.file p} (hlater : later.Tiles)
    (close q : Nat) (hpq : p ≤ q) (body : Body) {s t : TypeState} {result : Body × Nat}
    (h : membersUpTo env hp later close q hpq body s = .ok result t) :
    env.file.Passage q result.2 ∧ close ≤ result.2 := by
  fun_induction membersUpTo env hp later close q hpq body generalizing s with
  | case1 q hpq body hend =>
    cases h
    exact ⟨.nil q, hend⟩
  | case2 q hpq body hend hseparator ih =>
    obtain ⟨hpassage, hle⟩ := ih h
    have hstep : env.file.Tiled q (q + 1) := by
      rcases Bool.or_eq_true_iff.mp hseparator with hsemi | hcomma
      · exact .of_hasKind hsemi rfl rfl
      · exact .of_hasKind hcomma rfl rfl
    exact ⟨(File.Passage.of_tiled hstep).trans hpassage, hle⟩
  | case3 q hpq body hend hseparator hs ih =>
    obtain ⟨m, u, hm, h⟩ := exists_of_bind_ok h
    obtain ⟨hpassage, hle⟩ := ih m h
    have hstart := File.Passage.of_tiled (memberStart_tiled env.file q)
    exact ⟨(hstart.trans (member_passes hf hp hlater _ s m u hm)).trans hpassage, hle⟩

/-! ### Types, bases and objects -/

/-- How the object type at token `p` was read: its members up to token `stop`, the closing brace being the one at `close`. -/
structure ObjectRead (env : Env) (p : Nat) (s t : TypeState) (object : ObjectType) (close stop : Nat) : Prop where
  opening : env.file.hasKind p .lbrace = true
  matched : env.file.Matched p close
  members : ∃ body u, membersUpTo env (File.lt_size_of_hasKind opening) (laterAt env p) close (p + 1) (Nat.le_succ p) {} s =
      .ok (body, stop) u ∧
    body.toObject (close + 1) u = .ok object t

theorem exists_objectRead {s t : TypeState} {r : Parsed env.file p ObjectType} (h : objectAt env p s = .ok r t) :
    ∃ close stop, ObjectRead env p s t r.value close stop ∧ r.next = close + 1 := by
  have hopen : env.file.hasKind p .lbrace = true := by
    by_contra hopen
    rw [objectAt, objectBody, dif_neg hopen] at h
    cases h
  rw [objectAt, objectBody, dif_pos hopen] at h
  cases hclose : env.file.closer? p with
  | none =>
    simp only [hclose] at h
    cases h
  | some c =>
    simp only [hclose] at h
    obtain ⟨body, u, hbody, h⟩ := exists_of_bind_ok h
    obtain ⟨object, v, hobject, h⟩ := exists_of_bind_ok h
    cases h
    rw [members_eq] at hbody
    obtain ⟨⟨body', stop⟩, u', hmembers, hbody⟩ := exists_of_bind_ok hbody
    cases hbody
    exact ⟨c.1, stop, ⟨hopen, File.matched_of_closer? hclose, _, _, hmembers, hobject⟩, rfl⟩

theorem heritageRest_tiles (hf : env.file.IsRead) (q : Nat) (bases : List TypeId) {s t : TypeState}
    {result : List TypeId × Nat} (h : heritageRest env q bases s = .ok result t) :
    env.file.Tiled q result.2 ∧ q < result.2 ∧ result.2 ≤ env.file.size := by
  fun_induction heritageRest env q bases generalizing s with
  | case1 q bases ih =>
    obtain ⟨base, u, hbase, h⟩ := exists_of_bind_ok h
    have htiled := postfixType_tiles hf q (laterAt_tiles hf q) s base u hbase
    have hlt := base.lt_next
    split at h
    next hcomma =>
      obtain ⟨hrest, hlt', hle⟩ := ih base hcomma h
      exact ⟨(htiled.trans (.of_hasKind hcomma rfl rfl)).trans hrest, by omega, hle⟩
    next =>
      cases h
      exact ⟨htiled, hlt, base.next_le⟩

/-- The tokens from `p` up to `q` are closed under partners, and lie inside all brackets around the first one. -/
structure BracketClosed (f : File) (p q : Nat) : Prop where
  lt : p < q
  le : q ≤ f.size
  partners : ∀ i j, p ≤ i → i < q → f.partner? i = some j → p ≤ j ∧ j < q
  enclosed : ∀ o c, f.Matched o c → o < p → p ≤ c → q ≤ c

theorem bracketClosed_of_tiled {f : File} (hf : f.IsRead) (h : f.Tiled p q) (lt : p < q) (le : q ≤ f.size) :
    BracketClosed f p q where
  lt := lt
  le := le
  partners _ _ hpi hiq hij := h.partner_inside hf hpi hiq hij
  enclosed _ _ hc hop hpc := h.le_closer hf hc hop hpc

structure ReadsClosed (env : Env) : Prop where
  types : ∀ p s r t, typeAt env p s = .ok r t → BracketClosed env.file p r.next
  bases : ∀ p s r t, postfixType env p (laterAt env p) s = .ok r t → BracketClosed env.file p r.next
  heritage : ∀ p s bases next t, heritageAt env p s = .ok (bases, next) t →
    if env.file.hasWord p "extends" then BracketClosed env.file p next else bases = [] ∧ next = p
  /-- A type in parentheses ends after the partner of the opening one; before an arrow, this begins a function type. -/
  parentheses : ∀ p s r t, env.file.kind? p = some .lparen → primary env p (laterAt env p) s = .ok r t →
    ∃ c, env.file.Matched p c ∧
      if env.file.hasKind (c + 1) .fatArrow then BracketClosed env.file (c + 2) r.next else r.next = c + 1
  tuples : ∀ p s r t, env.file.kind? p = some .lbracket → primary env p (laterAt env p) s = .ok r t →
    ∃ c, env.file.Matched p c ∧ r.next = c + 1
  /-- An object type ends after its brace, and its members end at the brace unless this one stands inside a computed key. -/
  objects : ∀ p s r t, objectAt env p s = .ok r t → BracketClosed env.file p r.next ∧
    ∃ close stop, ObjectRead env p s t r.value close stop ∧ r.next = close + 1 ∧
      (stop = close ↔ ¬env.file.Straddled close) ∧ (env.file.Straddled close → close + 2 ≤ stop)

/-- Whatever is read in a file is closed under partners and lies inside all brackets around its start. The members of an
object type end at the brace that closes it if and only if that brace stands inside no computed key. -/
theorem reads_closed (path text : String) (scope : Scope) (params : List (String × TypeId)) :
    ReadsClosed ⟨File.parse path text, scope, params⟩ := by
  have hf : (File.parse path text).IsRead := File.isRead_parse path text
  constructor
  case types =>
    intro p s r t h
    exact bracketClosed_of_tiled hf (typeAt_tiles hf p s r t h) r.lt_next r.next_le
  case bases =>
    intro p s r t h
    exact bracketClosed_of_tiled hf (postfixType_tiles hf p (laterAt_tiles hf p) s r t h) r.lt_next r.next_le
  case heritage =>
    intro p s bases next t h
    unfold heritageAt at h
    split at h
    next hword =>
      obtain ⟨htiled, hlt, hle⟩ := heritageRest_tiles hf (p + 1) [] h
      rw [if_pos hword]
      exact bracketClosed_of_tiled hf ((File.Tiled.of_hasWord hword).trans htiled) (Nat.lt_of_succ_lt hlt) hle
    next hword =>
      cases h
      rw [if_neg hword]
      exact ⟨rfl, rfl⟩
  case parentheses =>
    intro p s r t hk h
    rw [primary_of_some _ _ hk] at h
    obtain ⟨c, hc, hend⟩ := parenthesized_endsBefore hf hk (File.lt_size_of_kind? hk) (laterAt_tiles hf p) s r t h
    refine ⟨c, hc, ?_⟩
    split at hend
    next harrow =>
      rw [if_pos harrow]
      exact bracketClosed_of_tiled hf hend.1 hend.2 r.next_le
    next harrow =>
      rw [if_neg harrow]
      exact hend
  case tuples =>
    intro p s r t hk h
    rw [primary_of_some _ _ hk] at h
    have hp := File.lt_size_of_kind? hk
    obtain ⟨elements, u, helements, h⟩ := exists_of_bind_ok h
    obtain ⟨c, hc, hend⟩ := tupleRest_endsBefore hf hk hp (laterAt_tiles hf p) (p + 1) _ [] (.nil _) s elements u helements
    obtain ⟨tuple, v, -, h⟩ := exists_of_bind_ok h
    cases h
    exact ⟨c, hc, hend⟩
  case objects =>
    intro p s r t h
    obtain ⟨close, stop, hread, hnext⟩ := exists_objectRead h
    obtain ⟨body, u, hmembers, -⟩ := hread.members
    obtain ⟨hpassage, hle⟩ := membersUpTo_passes hf _ (laterAt_tiles hf p) close (p + 1) _ {} hmembers
    have hlt := hread.matched.lt
    refine ⟨?_, close, stop, hread, hnext, hpassage.eq_brace_iff hf hread.matched hread.opening hle⟩
    rw [hnext]
    exact bracketClosed_of_tiled hf (.pair hread.matched (.nil _)) (Nat.lt_succ_of_lt hlt.1) hlt.2

/-- A file in which no name is declared. -/
def undeclared (text : String) : Env where
  file := File.parse "a.ts" text
  scope := {
    named := fun name _ => throw (.unknownName name)
    member := fun _ name => throw (.unknownName name) }

/-- Where the type at a token ends, and what it is displayed as. -/
def shownAt (env : Env) (p : Nat) : Option (Nat × String) :=
  match typeAt env p {} with
  | .ok r t => some (r.next, t.table.display r.value)
  | .error _ _ => none

/-- Where reading the members between two braces stops. -/
def stopAt (env : Env) (p close : Nat) (hp : p < env.file.size) : Option Nat :=
  match membersUpTo env hp (laterAt env p) close (p + 1) (Nat.le_succ p) {} {} with
  | .ok r _ => some r.2
  | .error _ _ => none

/-- Stray brackets stand before a union, and in the parameters of its method. -/
def amongStrays : Env := undeclared "[( \x7b a: [(null)[], string]; f<T>(x: \x7b[\x7d): (y: [) => [true?] \x7d | 1]"

theorem amongStrays_closed :
    shownAt amongStrays 2 = some (40, "\x7b a: [(null)[], string]; f: () => () => [true?]; \x7d | 1") ∧
      amongStrays.file.Matched 0 40 ∧ BracketClosed amongStrays.file 2 40 := by
  have hshown : shownAt amongStrays 2 = some (40, "\x7b a: [(null)[], string]; f: () => () => [true?]; \x7d | 1") := by
    decide +kernel
  refine ⟨hshown, by decide +kernel, ?_⟩
  cases h : typeAt amongStrays 2 {} with
  | error e t => simp [shownAt, h] at hshown
  | ok r t =>
    have hnext : r.next = 40 := by
      rw [shownAt, h, Option.some.injEq, Prod.mk.injEq] at hshown
      exact hshown.1
    rw [← hnext]
    exact (reads_closed "a.ts" _ amongStrays.scope []).types 2 {} r t h

/-- A brace inside a computed key lets the members run past it and past the bracket around the object type: what the type
is depends on a token behind that bracket. -/
theorem members_past_brace :
    let env := undeclared "[\x7b [Symbol.\x7d ]: bigint"
    let other := undeclared "[\x7b [Symbol.\x7d ]: string"
    env.file.Matched 0 6 ∧ env.file.Matched 1 5 ∧ env.file.tokens.toList.take 8 = other.file.tokens.toList.take 8 ∧
      stopAt env 1 5 (by decide +kernel) = some 9 ∧
      shownAt env 1 = some (6, "\x7b [Symbol.\x7d]: bigint; \x7d") ∧
      shownAt other 1 = some (6, "\x7b [Symbol.\x7d]: string; \x7d") := by
  intro env other
  decide +kernel

end SchemaSplice.Annotation
