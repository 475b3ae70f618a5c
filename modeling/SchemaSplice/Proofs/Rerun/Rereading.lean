import SchemaSplice.Proofs.Reading.Reader
import SchemaSplice.Proofs.Rerun.Widening
/-!
# Reading a widened file

Types are read in a file with a run of tokens inserted as they were read without it: a reading that starts at the token that
another one started at, in the same state, finds the same and leaves the same state behind. There is one lemma for each function of
the reader. The run itself is never read: words of a set stand before it, and no members are known of any of them.
-/

namespace SchemaSplice.Annotation

open Source SchemaSplice.Types
open File (Widened Seen Enters isSteady)

/-! ### Readings that go alike -/

/-- No members of an enum with one of the names are known. -/
def TypeState.Lacks (words : List String) (s : TypeState) : Prop := ∀ w ∈ words, s.enums.lookup w = none

/-- Two readings end alike: in the same state, with answers that correspond or both without. -/
inductive EndsAlike (words : List String) {ε ε' α β : Type} (R : α → β → Prop) :
    EStateM.Result ε TypeState α → EStateM.Result ε' TypeState β → Prop
  | ok {a : α} {b : β} {t : TypeState} (ht : t.Lacks words) (hab : R a b) : EndsAlike words R (.ok a t) (.ok b t)
  | error {e : ε} {e' : ε'} {t : TypeState} (ht : t.Lacks words) : EndsAlike words R (.error e t) (.error e' t)

/-- From any state the second reading ends as the first one does. -/
def Rereads (words : List String) {ε ε' α β : Type} (R : α → β → Prop) (m : EStateM ε TypeState α)
    (m' : EStateM ε' TypeState β) : Prop :=
  ∀ s : TypeState, s.Lacks words → EndsAlike words R (m s) (m' s)

def Fails (words : List String) {ε α : Type} (m : EStateM ε TypeState α) : Prop :=
  ∀ s : TypeState, s.Lacks words → ∃ e, m s = .error e s

section

variable {words : List String} {ε ε' α β γ δ : Type}

namespace Rereads

theorem weaken {R S : α → β → Prop} {m : EStateM ε TypeState α} {m' : EStateM ε' TypeState β} (h : Rereads words R m m')
    (hRS : ∀ a b, R a b → S a b) : Rereads words S m m' := by
  intro s hs
  have hms := h s hs
  generalize m s = r, m' s = r' at hms ⊢
  cases hms with
  | ok ht hab => exact .ok ht (hRS _ _ hab)
  | error ht => exact .error ht

theorem pure {R : α → β → Prop} {a : α} {b : β} (hab : R a b) :
    @Rereads words ε ε' α β R (pure a) (pure b) := fun _ hs => .ok hs hab

theorem of_fails {R : α → β → Prop} {m : EStateM ε TypeState α} {m' : EStateM ε' TypeState β} (h : Fails words m)
    (h' : Fails words m') : Rereads words R m m' := by
  intro s hs
  obtain ⟨e, he⟩ := h s hs
  obtain ⟨e', he'⟩ := h' s hs
  rw [he, he']
  exact .error hs

theorem bind {R : α → β → Prop} {S : γ → δ → Prop} {m : EStateM ε TypeState α} {m' : EStateM ε' TypeState β}
    {k : α → EStateM ε TypeState γ} {k' : β → EStateM ε' TypeState δ} (hm : Rereads words R m m')
    (hk : ∀ a b, R a b → Rereads words S (k a) (k' b)) : Rereads words S (m >>= k) (m' >>= k') := by
  intro s hs
  have hms := hm s hs
  show EndsAlike words S (EStateM.bind m k s) (EStateM.bind m' k' s)
  unfold EStateM.bind
  generalize m s = r, m' s = r' at hms
  cases hms with
  | ok ht hab => exact hk _ _ hab _ ht
  | error ht => exact .error ht

theorem bind_get {S : γ → δ → Prop} {k : TypeState → EStateM ε TypeState γ} {k' : TypeState → EStateM ε' TypeState δ}
    (hk : ∀ s : TypeState, Rereads words S (k s) (k' s)) : Rereads words S (get >>= k) (get >>= k') :=
  fun s hs => hk s s hs

theorem ite {R : α → β → Prop} {c c' : Prop} [Decidable c] [Decidable c'] (hc : c' ↔ c) {m k : EStateM ε TypeState α}
    {m' k' : EStateM ε' TypeState β} (hm : c → Rereads words R m m') (hk : ¬c → Rereads words R k k') :
    Rereads words R (if c then m else k) (if c' then m' else k') := by
  by_cases h : c
  · rw [if_pos h, if_pos (hc.mpr h)]
    exact hm h
  · rw [if_neg h, if_neg (mt hc.mp h)]
    exact hk h

theorem dite {R : α → β → Prop} {c c' : Prop} [Decidable c] [Decidable c'] (hc : c' ↔ c) {m : c → EStateM ε TypeState α}
    {k : ¬c → EStateM ε TypeState α} {m' : c' → EStateM ε' TypeState β} {k' : ¬c' → EStateM ε' TypeState β}
    (hm : ∀ h, Rereads words R (m h) (m' (hc.mpr h))) (hk : ∀ h, Rereads words R (k h) (k' (mt hc.mp h))) :
    Rereads words R (if h : c then m h else k h) (if h : c' then m' h else k' h) := by
  by_cases h : c
  · rw [dif_pos h, dif_pos (hc.mpr h)]
    exact hm h
  · rw [dif_neg h, dif_neg (mt hc.mp h)]
    exact hk h

theorem throw {R : α → β → Prop} (e : ε) (e' : ε') :
    Rereads words R (MonadExcept.throw e : EStateM ε TypeState α) (MonadExcept.throw e' : EStateM ε' TypeState β) :=
  of_fails (fun _ _ => ⟨_, rfl⟩) fun _ _ => ⟨_, rfl⟩

theorem adaptExcept {ε₁ ε₁' : Type} {R : α → β → Prop} {m : EStateM ε TypeState α} {m' : EStateM ε' TypeState β}
    (g : ε → ε₁) (g' : ε' → ε₁') (h : Rereads words R m m') :
    Rereads words R (m.adaptExcept g) (m'.adaptExcept g') := by
  intro s hs
  have hms := h s hs
  unfold EStateM.adaptExcept
  generalize m s = r, m' s = r' at hms ⊢
  cases hms with
  | ok ht hab => exact .ok ht hab
  | error ht => exact .error ht

theorem modify {g : TypeState → TypeState} (hg : ∀ s : TypeState, s.Lacks words → (g s).Lacks words) :
    Rereads words Eq (MonadStateOf.modifyGet fun s => (PUnit.unit, g s) : EStateM ε TypeState PUnit)
      (MonadStateOf.modifyGet fun s => (PUnit.unit, g s) : EStateM ε' TypeState PUnit) :=
  fun s hs => .ok (hg s hs) rfl

theorem onTable (change : TableM α) :
    @Rereads words ε ε' _ _ Eq (onTable change) (onTable change) :=
  fun _ hs => .ok hs rfl

end Rereads

theorem fails_fail (p : Nat) (cause : TypeError) : Fails words (fail p cause : Parse α) := fun _ _ => ⟨_, rfl⟩

theorem Fails.bind {m : EStateM ε TypeState α} (h : Fails words m) (k : α → EStateM ε TypeState β) :
    Fails words (m >>= k) := by
  intro s hs
  obtain ⟨e, he⟩ := h s hs
  refine ⟨e, ?_⟩
  show EStateM.bind m k s = .error e s
  unfold EStateM.bind
  rw [he]

theorem Fails.lookup {m : Reading α} (h : Fails words m) (p : Nat) : Fails words (lookup p m) := by
  intro s hs
  obtain ⟨e, he⟩ := h s hs
  refine ⟨⟨e, p⟩, ?_⟩
  unfold Annotation.lookup
  rw [he]

theorem Rereads.fail {R : α → β → Prop} (p p' : Nat) (cause cause' : TypeError) :
    Rereads words R (fail p cause) (fail p' cause') := .of_fails (fails_fail p cause) (fails_fail p' cause')

theorem Rereads.lookup {R : α → β → Prop} {m : Reading α} {m' : Reading β} (p p' : Nat) (h : Rereads words R m m') :
    Rereads words R (lookup p m) (lookup p' m') := by
  intro s hs
  have hms := h s hs
  unfold Annotation.lookup
  generalize m s = r, m' s = r' at hms
  cases hms with
  | ok ht hab => exact .ok ht hab
  | error ht => exact .error ht

end

/-! ### What is read at a place -/

section

variable {f f' : File} {place : Nat → Nat} {words : List String} {p p' q q' : Nat}
  {scope scope' : Scope} {params : List (String × TypeId)}

structure Moved (place : Nat → Nat) {α : Type} (r : Parsed f p α) (r' : Parsed f' p' α) : Prop where
  value : r'.value = r.value
  next : r'.next = place r.next

/-- Lookups that find the same; members of the words are not found. -/
structure ScopeRereads (words : List String) (scope scope' : Scope) : Prop where
  named : ∀ name args, Rereads words Eq (scope.named name args) (scope'.named name args)
  member : ∀ qualifier name, Rereads words Eq (scope.member qualifier name) (scope'.member qualifier name)
  missing : ∀ w ∈ words, ∀ name, Fails words (scope.member w name)
  missing' : ∀ w ∈ words, ∀ name, Fails words (scope'.member w name)

def LaterRereads (place : Nat → Nat) (words : List String) (later : Later f p) (later' : Later f' p') :
    Prop :=
  ∀ q hq q' hq', q' = place q → Enters f f' place words q →
    Rereads words (Moved place) (later q hq) (later' q' hq')

theorem LaterRereads.mono {later : Later f p} {later' : Later f' p'} (h : LaterRereads place words later later')
    (hq : p ≤ q) (hq' : p' ≤ q') : LaterRereads place words (later.mono hq) (later'.mono hq') :=
  fun r _ r' _ => h r _ r' _

/-! ### Failures and insertions -/

theorem Rereads.unexpected {α β : Type} {R : α → β → Prop} (i i' : Nat) (expected expected' : String) :
    Rereads words R (unexpected f i expected) (unexpected f' i' expected') := Rereads.fail _ _ _ _

theorem Rereads.insertAs {next next' : Nat} (lt : p < next) (le : next ≤ f.size) (lt' : p' < next') (le' : next' ≤ f'.size)
    (k : TypeKind) (hnext : next' = place next) :
    Rereads words (Moved place) (insertAs f p next lt le k) (insertAs f' p' next' lt' le' k) := by
  unfold Annotation.insertAs
  apply Rereads.bind (Rereads.onTable (Table.insert k))
  rintro a _ rfl
  exact .pure ⟨rfl, hnext⟩

/-! ### Separated lists -/

def isSeparator (k : Kind) : Bool := k == .pipe || k == .amp

theorem steady_of_isSeparator {k : Kind} (h : isSeparator k = true) : isSteady k = true := by
  cases k <;> first | rfl | cases h

theorem leads_of_isSeparator {k : Kind} (h : isSeparator k = true) : (k != .ident && k != .gt) = true := by
  cases k <;> first | rfl | cases h

theorem skip_place (h : Widened f f' place) {k : Kind} (hk : isSteady k = true)
    (hq : Seen f f' place words q) : f'.skip (place q) k = place (f.skip q k) := by
  unfold File.skip
  rw [h.hasKind_eq]
  split
  · next hsep => exact (hq.succ hsep hk).symm
  · rfl

theorem separatedRest_rereads (h : Widened f f' place) {separator : Kind} (hsep : isSeparator separator = true)
    {item : (q : Nat) → p ≤ q → Parse (Parsed f q TypeId)} {item' : (q : Nat) → p' ≤ q → Parse (Parsed f' q TypeId)}
    (hitem : ∀ q hq q' hq', q' = place q → Enters f f' place words q →
      Rereads words (Moved place) (item q hq) (item' q' hq'))
    (q : Nat) (lt : p < q) (le : q ≤ f.size) (items : List TypeId) (lt' : p' < place q)
    (le' : place q ≤ f'.size) (hseen : Seen f f' place words q) :
    Rereads words (Moved place) (separatedRest f separator item q lt le items)
      (separatedRest f' separator item' (place q) lt' le' items) := by
  fun_induction separatedRest f separator item q lt le items with
  | case1 q lt le items hk ih =>
    have hnext := hseen.succ hk (steady_of_isSeparator hsep)
    rw [separatedRest, dif_pos ((h.hasKind_iff q separator).mpr hk)]
    apply Rereads.bind (hitem (q + 1) _ _ _ hnext.symm (hseen.enters_succ hk (leads_of_isSeparator hsep)))
    rintro r ⟨value, next, hlt, hle⟩ ⟨rfl, rfl⟩
    exact ih r _ _ (hseen.mono (Nat.le_of_lt (Nat.lt_of_succ_lt r.lt_next)))
  | case2 q lt le items hk =>
    rw [separatedRest, dif_neg (mt (h.hasKind_iff q separator).mp hk)]
    exact .pure ⟨rfl, rfl⟩

theorem separated_rereads (h : Widened f f' place) {separator : Kind} (hsep : isSeparator separator = true)
    {item : (q : Nat) → p ≤ q → Parse (Parsed f q TypeId)}
    {item' : (q : Nat) → place p ≤ q → Parse (Parsed f' q TypeId)}
    (hitem : ∀ q hq q' hq', q' = place q → Enters f f' place words q →
      Rereads words (Moved place) (item q hq) (item' q' hq')) (hp : Enters f f' place words p) :
    Rereads words (Moved place) (separated f separator p item) (separated f' separator (place p) item') := by
  have hsteady := steady_of_isSeparator hsep
  have hstart : Enters f f' place words (f.skip p separator) := by
    unfold File.skip
    split
    · next hk => exact hp.seen.enters_succ hk (leads_of_isSeparator hsep)
    · exact hp
  unfold separated
  apply Rereads.bind (hitem _ _ _ _ (skip_place h hsteady hp.seen) hstart)
  rintro r ⟨value, next, hlt, hle⟩ ⟨rfl, rfl⟩
  exact separatedRest_rereads h hsep hitem _ _ _ _ _ _ (hstart.seen.mono (Nat.le_of_lt r.lt_next))

/-! ### Object types -/

theorem signatureResult_rereads (h : Widened f f' place) (hp : p < f.size)
    (hp' : place p < f'.size) {later : Later f p} {later' : Later f' (place p)}
    (hlater : LaterRereads place words later later') (q c : Nat) (hq : p ≤ q) (hc : q < c ∧ c < f.size)
    (hq' : place p ≤ place q)
    (hc' : place q < place c ∧ place c < f'.size)
    (hnext : place (c + 1) = place c + 1) (hseen : Seen f f' place words c) :
    Rereads words (Moved place) (signatureResult ⟨f, scope, params⟩ hp later q c hq hc)
      (signatureResult ⟨f', scope', params⟩ hp' later' (place q) (place c) hq' hc') := by
  unfold signatureResult
  simp only
  apply Rereads.ite (by rw [← hnext, h.hasKind_eq])
  · intro hcolon
    have hseen' := hseen.mono (Nat.le_succ c)
    have hnext' := hseen'.succ hcolon rfl
    apply Rereads.bind (hlater (c + 2) _ _ _ (by rw [hnext', hnext]) (hseen'.enters_succ hcolon rfl))
    rintro r ⟨value, next, hlt, hle⟩ ⟨rfl, rfl⟩
    exact .pure ⟨rfl, rfl⟩
  · intro _
    exact .insertAs _ _ _ _ _ hnext.symm

theorem signature_rereads (h : Widened f f' place) (hp : p < f.size)
    (hp' : place p < f'.size) {later : Later f p} {later' : Later f' (place p)}
    (hlater : LaterRereads place words later later') (hq : p ≤ q) (hq' : place p ≤ q')
    (hplace : q' = place q) (hseen : Seen f f' place words q) :
    Rereads words (Moved place) (signature ⟨f, scope, params⟩ hp later q hq)
      (signature ⟨f', scope', params⟩ hp' later' q' hq') := by
  subst hplace
  have hangles := h.anglesFrom?_eq hseen
  cases hs : f.anglesFrom? q with
  | none =>
    rw [hs] at hangles
    rw [signature_of_none ⟨f, scope, params⟩ hp later hq hs,
      signature_of_none ⟨f', scope', params⟩ hp' later' hq' hangles]
    exact .unexpected _ _ _ _
  | some o =>
    rw [hs] at hangles
    rw [signature_of_some ⟨f, scope, params⟩ hp later hq hs,
      signature_of_some ⟨f', scope', params⟩ hp' later' hq' hangles]
    apply Rereads.ite (h.hasKind_iff o .lparen)
    · intro _
      have hseen' := hseen.mono (File.le_of_anglesFrom? hs)
      cases hcloser : f.closer? o with
      | none =>
        simp only [h.closer?_eq_none hcloser]
        exact .unexpected _ _ _ _
      | some c =>
        obtain ⟨⟨c', hc'⟩, hcloser', rfl⟩ := h.closer?_eq_some hcloser
        simp only [hcloser']
        exact signatureResult_rereads h hp hp' hlater q c.1 hq _ hq' _ (hseen'.place_succ_of_closer h hcloser)
          (hseen'.mono (Nat.le_of_lt c.2.1))
    · intro _
      exact .unexpected _ _ _ _

theorem propertyKey_of_none (hk : f.kind? q = none) : propertyKey f q = unexpected f q "a property" := by
  unfold propertyKey
  split
  · next h' => cases hk.symm.trans h'
  · next h' => cases hk.symm.trans h'
  · next h' => cases hk.symm.trans h'
  · next h' => cases hk.symm.trans h'
  · rfl

theorem propertyKey_of_kind {k : Kind} (hk : f.kind? q = some k) :
    propertyKey f q =
      match k with
      | .ident | .number => return ⟨.name (f.tokenText q), q + 1, Nat.lt_succ_self q, File.lt_size_of_kind? hk⟩
      | .str => return ⟨.name (Text.unquote (f.tokenText q)), q + 1, Nat.lt_succ_self q, File.lt_size_of_kind? hk⟩
      | .lbracket =>
        if f.hasWord (q + 1) "Symbol" && f.hasKind (q + 2) .dot then
          if hb : f.hasKind (q + 4) .rbracket then
            return ⟨.symbol (f.tokenText (q + 3)), q + 5, Nat.lt_add_of_pos_right (Nat.succ_pos 4), File.lt_size_of_hasKind hb⟩
          else unsupported q "computed property key"
        else unsupported q "computed property key"
      | _ => unexpected f q "a property" := by
  unfold propertyKey
  split
  · next h' => obtain rfl := Option.some.inj (hk.symm.trans h'); rfl
  · next h' => obtain rfl := Option.some.inj (hk.symm.trans h'); rfl
  · next h' => obtain rfl := Option.some.inj (hk.symm.trans h'); rfl
  · next h' => obtain rfl := Option.some.inj (hk.symm.trans h'); rfl
  · next h₁ h₂ h₃ h₄ =>
    cases k <;> first | rfl | exact absurd hk h₁ | exact absurd hk h₂ | exact absurd hk h₃ | exact absurd hk h₄

/-- The run stands in no key of a symbol: what follows the dot is at its place, or no bracket ends the key. -/
theorem symbolKey_place (hseen : Seen f f' place words q)
    (hk : f.hasKind q .lbracket = true) (hword : f.hasWord (q + 1) "Symbol" = true)
    (hdot : f.hasKind (q + 2) .dot = true) :
    (place (q + 3) = place q + 3 ∧ place (q + 4) = place q + 4) ∨
    (f.hasKind (q + 4) .rbracket = false ∧ f'.hasKind (place q + 4) .rbracket = false) := by
  have hbracket := hseen.succ hk rfl
  have hsymbol := (hseen.mono (Nat.le_succ q)).succ_of_word hword
  rcases (hseen.mono (Nat.le_add_right q 2)).place_succ with hsucc | hgap | hgap
  · have hnext : place (q + 3 + 1) = place (q + 3) + 1 := by
      rcases (hseen.mono (Nat.le_add_right q 3)).place_succ with hnext | hgap | hgap
      · exact hnext
      · rcases hgap.before (q + 2) rfl with hbefore | hbefore
        · exact absurd rfl (File.ne_of_kind (beq_iff_eq.mp hdot) hbefore (by decide))
        · exact absurd rfl (File.ne_of_kind (beq_iff_eq.mp hdot) hbefore (by decide))
      · obtain ⟨j, hj, hbefore⟩ := hgap.before
        obtain rfl : j = q + 2 := Nat.succ.inj hj
        rcases hbefore with hbefore | hbefore
        · exact absurd rfl (File.ne_of_kind (beq_iff_eq.mp hdot) (Chain.hasKind_of_word? hbefore) (by decide))
        · exact absurd rfl (File.ne_of_kind (beq_iff_eq.mp hdot) hbefore (by decide))
    refine Or.inl ⟨by rw [hsucc, hsymbol, hbracket], by rw [hnext, hsucc, hsymbol, hbracket]⟩
  · right
    obtain ⟨-, -, hafter⟩ := hgap.after_word rfl (beq_iff_eq.mp hword)
    have hlparen := hgap.lparen
    rw [hsymbol, hbracket] at hlparen
    refine ⟨?_, File.hasKind_eq_false (beq_iff_eq.mp hlparen) (by decide)⟩
    rcases hafter with hafter | hafter
    · exact File.hasKind_eq_false (beq_iff_eq.mp hafter) (by decide)
    · exact File.hasKind_eq_false (beq_iff_eq.mp hafter) (by decide)
  · exact absurd rfl (File.ne_of_kind (beq_iff_eq.mp hdot) hgap.lparen (by decide))

theorem propertyKey_rereads (h : Widened f f' place) (hseen : Seen f f' place words q) :
    Rereads words (Moved place) (propertyKey f q) (propertyKey f' (place q)) := by
  cases hk : f.kind? q with
  | none =>
    rw [propertyKey_of_none hk, propertyKey_of_none ((h.kind?_eq q).trans hk)]
    exact .unexpected _ _ _ _
  | some k =>
    have hkind : f.hasKind q k = true := beq_iff_eq.mpr hk
    rw [propertyKey_of_kind hk, propertyKey_of_kind ((h.kind?_eq q).trans hk)]
    have hname : isSteady k = true → ∀ key : PropertyKey, ∀ lt le lt' le',
        Rereads words (Moved place) (pure (⟨key, q + 1, lt, le⟩ : Parsed f q PropertyKey) : Parse _)
          (pure (⟨key, place q + 1, lt', le'⟩ : Parsed f' (place q) PropertyKey) : Parse _) :=
      fun hsteady key lt le lt' le' => .pure ⟨rfl, (hseen.succ hkind hsteady).symm⟩
    cases k with
    | ident =>
      simp only [h.tokenText_eq]
      exact hname rfl _ _ _ _ _
    | number =>
      simp only [h.tokenText_eq]
      exact hname rfl _ _ _ _ _
    | str =>
      simp only [h.tokenText_eq]
      exact hname rfl _ _ _ _ _
    | lbracket =>
      simp only
      have hbracket := hseen.succ hkind rfl
      apply Rereads.ite
      · rw [Bool.and_eq_true, Bool.and_eq_true, ← hbracket, h.hasWord_eq]
        refine and_congr_right fun hword => ?_
        rw [show place q + 2 = place (q + 2) by
          rw [(hseen.mono (Nat.le_succ q)).succ_of_word hword, hbracket], h.hasKind_eq]
      · intro hsymbol
        rw [Bool.and_eq_true] at hsymbol
        rcases symbolKey_place hseen hkind hsymbol.1 hsymbol.2 with ⟨hname, hlast⟩ | ⟨hno, hno'⟩
        · apply Rereads.dite (by rw [← hlast, h.hasKind_eq])
          · intro hb
            have hend : place (q + 4 + 1) = place q + 5 := by
              rw [(hseen.mono (Nat.le_add_right q 4)).succ hb rfl, hlast]
            refine .pure ⟨?_, hend.symm⟩
            simp only [← hname, h.tokenText_eq]
          · intro _
            exact .fail _ _ _ _
        · rw [dif_neg (by rw [hno]; exact Bool.false_ne_true), dif_neg (by rw [hno']; exact Bool.false_ne_true)]
          exact .fail _ _ _ _
      · intro _
        exact .fail _ _ _ _
    | _ => exact .unexpected _ _ _ _

theorem indexSignature_rereads (h : Widened f f' place) (hp : p < f.size)
    (hp' : place p < f'.size) {later : Later f p} {later' : Later f' (place p)}
    (hlater : LaterRereads place words later later') (hq : p ≤ q) (hq' : place p ≤ q')
    (hplace : q' + 3 = place (q + 3)) (henters : Enters f f' place words (q + 3)) :
    Rereads words (Moved place) (indexSignature ⟨f, scope, params⟩ hp later q hq)
      (indexSignature ⟨f', scope', params⟩ hp' later' q' hq') := by
  unfold indexSignature
  apply Rereads.bind (hlater (q + 3) _ _ _ hplace henters)
  rintro key ⟨value, next, hlt, hle⟩ ⟨rfl, rfl⟩
  have hseen := henters.seen.mono (Nat.le_of_lt key.lt_next)
  apply Rereads.ite (h.hasKind_iff key.next .rbracket)
  · intro hbracket
    have hnext := hseen.succ hbracket rfl
    apply Rereads.ite (by rw [← hnext, h.hasKind_eq])
    · intro hcolon
      have hseen' := hseen.mono (Nat.le_succ key.next)
      apply Rereads.bind (hlater (key.next + 2) _ _ _ (by rw [hseen'.succ hcolon rfl, hnext]) (hseen'.enters_succ hcolon rfl))
      rintro type ⟨value, next, hlt, hle⟩ ⟨rfl, rfl⟩
      exact .pure ⟨rfl, rfl⟩
    · intro _
      exact .unexpected _ _ _ _
  · intro _
    exact .unexpected _ _ _ _

theorem propertyMember_rereads (h : Widened f f' place) (hp : p < f.size)
    (hp' : place p < f'.size) {later : Later f p} {later' : Later f' (place p)}
    (hlater : LaterRereads place words later later') (hq : p ≤ q) (hq' : place p ≤ q')
    (hplace : q' = place q) (hseen : Seen f f' place words q) :
    Rereads words (Moved place) (propertyMember ⟨f, scope, params⟩ hp later q hq)
      (propertyMember ⟨f', scope', params⟩ hp' later' q' hq') := by
  subst hplace
  unfold propertyMember
  apply Rereads.bind (propertyKey_rereads h hseen)
  rintro key ⟨value, next, hlt, hle⟩ ⟨rfl, rfl⟩
  simp only
  have hkey := hseen.mono (Nat.le_of_lt key.lt_next)
  have hskip := skip_place h (k := .question) rfl hkey
  have hstart := hkey.mono (f.le_skip key.next .question)
  -- The end of a property adds `undefined` to the type of an optional one.
  have hfinish : ∀ (type : TypeId) (next : Nat) (lt : q < next) (le : next ≤ f.size)
      (lt' : place q < place next) (le' : place next ≤ f'.size),
      Rereads words (Moved place)
        (if f.hasKind key.next .question = true then do
            let undefined ← onTable (Table.insert .undefined)
            let type ← onTable (Table.union [type, undefined])
            return ⟨.property ⟨key.value, type, true⟩, next, lt, le⟩
          else return ⟨.property ⟨key.value, type, false⟩, next, lt, le⟩ : Parse (Parsed f q Member))
        (if f'.hasKind (place key.next) .question = true then do
            let undefined ← onTable (Table.insert .undefined)
            let type ← onTable (Table.union [type, undefined])
            return ⟨.property ⟨key.value, type, true⟩, place next, lt', le'⟩
          else return ⟨.property ⟨key.value, type, false⟩, place next, lt', le'⟩ :
          Parse (Parsed f' (place q) Member)) := by
    intro type next lt le lt' le'
    apply Rereads.ite (h.hasKind_iff key.next .question)
    · intro _
      apply Rereads.bind (Rereads.onTable (Table.insert .undefined))
      rintro undefined _ rfl
      apply Rereads.bind (Rereads.onTable (Table.union [type, undefined]))
      rintro union _ rfl
      exact .pure ⟨rfl, rfl⟩
    · intro _
      exact .pure ⟨rfl, rfl⟩
  apply Rereads.ite (by rw [hskip, h.hasKind_eq, h.hasKind_eq])
  · intro _
    apply Rereads.bind (signature_rereads h hp hp' hlater _ _ hskip hstart)
    rintro result ⟨value, next, hlt, hle⟩ ⟨rfl, rfl⟩
    apply Rereads.bind (Rereads.onTable (Table.function result.value))
    rintro type _ rfl
    exact hfinish _ _ _ _ _ _
  · intro _
    apply Rereads.ite (by rw [hskip, h.hasKind_eq])
    · intro hcolon
      apply Rereads.bind (hlater _ _ _ _ (by rw [hskip, hstart.succ hcolon rfl]) (hstart.enters_succ hcolon rfl))
      rintro type ⟨value, next, hlt, hle⟩ ⟨rfl, rfl⟩
      exact hfinish _ _ _ _ _ _
    · intro _
      exact .unexpected _ _ _ _

theorem member_rereads (h : Widened f f' place) (hp : p < f.size)
    (hp' : place p < f'.size) {later : Later f p} {later' : Later f' (place p)}
    (hlater : LaterRereads place words later later') (hq : p ≤ q) (hq' : place p ≤ q')
    (hplace : q' = place q) (hseen : Seen f f' place words q) :
    Rereads words (Moved place) (member ⟨f, scope, params⟩ hp later q hq)
      (member ⟨f', scope', params⟩ hp' later' q' hq') := by
  subst hplace
  unfold member
  simp only
  apply Rereads.ite (h.hasKind_iff q .lparen)
  · intro _
    apply Rereads.bind (signature_rereads h hp hp' hlater hq hq' rfl hseen)
    rintro result ⟨value, next, hlt, hle⟩ ⟨rfl, rfl⟩
    exact .pure ⟨rfl, rfl⟩
  · intro _
    apply Rereads.ite (h.hasKind_iff q .lt)
    · intro _
      exact .fail _ _ _ _
    · intro _
      have hsteps : f.hasKind q .lbracket = true →
          place (q + 1) = place q + 1 ∧
            (f.hasKind (q + 1) .ident = true → place (q + 2) = place q + 2) := by
        intro hbracket
        have hnext := hseen.succ hbracket rfl
        exact ⟨hnext, fun hident => by rw [(hseen.mono (Nat.le_succ q)).succ hident rfl, hnext]⟩
      apply Rereads.ite
      · simp only [Bool.and_eq_true, h.hasKind_iff]
        constructor
        · rintro ⟨⟨hbracket, hident⟩, hcolon⟩
          obtain ⟨hnext, hnext'⟩ := hsteps hbracket
          rw [← hnext, h.hasKind_eq] at hident
          rw [← hnext' hident, h.hasKind_eq] at hcolon
          exact ⟨⟨hbracket, hident⟩, hcolon⟩
        · rintro ⟨⟨hbracket, hident⟩, hcolon⟩
          obtain ⟨hnext, hnext'⟩ := hsteps hbracket
          rw [← hnext, ← hnext' hident, h.hasKind_eq, h.hasKind_eq]
          exact ⟨⟨hbracket, hident⟩, hcolon⟩
      · intro hindex
        rw [Bool.and_eq_true, Bool.and_eq_true] at hindex
        obtain ⟨hnext, hnext'⟩ := hsteps hindex.1.1
        have hseen' := hseen.mono (Nat.le_add_right q 2)
        exact indexSignature_rereads h hp hp' hlater hq hq' (by rw [hseen'.succ hindex.2 rfl, hnext' hindex.1.2])
          (hseen'.enters_succ hindex.2 rfl)
      · intro _
        exact propertyMember_rereads h hp hp' hlater hq hq' rfl hseen

theorem isReadonlyModifier_place (h : Widened f f' place) (hseen : Seen f f' place words q) :
    isReadonlyModifier f' (place q) = isReadonlyModifier f q := by
  unfold isReadonlyModifier
  rw [h.hasWord_eq]
  cases hword : f.hasWord q "readonly" with
  | false => rfl
  | true => rw [← hseen.succ_of_word hword, h.hasKind_eq, h.hasKind_eq, h.hasKind_eq]

/-- The start of a member, after the word `readonly` if that is a modifier. -/
theorem memberStart_place (h : Widened f f' place) (hseen : Seen f f' place words q) :
    (if isReadonlyModifier f' (place q) then place q + 1 else place q) =
      place (if isReadonlyModifier f q then q + 1 else q) := by
  rw [isReadonlyModifier_place h hseen]
  split
  · next hreadonly =>
    unfold isReadonlyModifier at hreadonly
    rw [Bool.and_eq_true] at hreadonly
    exact (hseen.succ_of_word hreadonly.1).symm
  · rfl

theorem members_rereads (h : Widened f f' place) (hp : p < f.size)
    (hp' : place p < f'.size) {later : Later f p} {later' : Later f' (place p)}
    (hlater : LaterRereads place words later later') {close close' : Nat} (hclose : close' = place close)
    (hq : p ≤ q) (hq' : place p ≤ q') (hplace : q' = place q)
    (hseen : Seen f f' place words q) (body : Body) :
    Rereads words Eq (members ⟨f, scope, params⟩ hp later close q hq body)
      (members ⟨f', scope', params⟩ hp' later' close' q' hq' body) := by
  subst hclose
  fun_induction members ⟨f, scope, params⟩ hp later close q hq body generalizing q' with
  | case1 q hq body hclose =>
    subst hplace
    rw [members, dif_pos (h.place_le_place hclose)]
    exact .pure rfl
  | case2 q hq body hclose hsep ih =>
    subst hplace
    have hclose' : ¬place close ≤ place q :=
      Nat.not_le_of_lt (h.place_lt_place (Nat.lt_of_not_le hclose))
    have hnext : place (q + 1) = place q + 1 := by
      rcases Bool.or_eq_true _ _ ▸ hsep with hsep | hsep
      · exact hseen.succ hsep rfl
      · exact hseen.succ hsep rfl
    have hstep : members ⟨f', scope', params⟩ hp' later' (place close) (place q) hq' body =
        members ⟨f', scope', params⟩ hp' later' (place close) (place q + 1) (by omega) body := by
      rw [members, dif_neg hclose', if_pos (by rw [h.hasKind_eq, h.hasKind_eq]; exact hsep)]
    rw [hstep]
    exact ih _ hnext.symm (hseen.mono (Nat.le_succ q))
  | case3 q hq body hclose hsep start hs =>
    rename_i ih
    subst hplace
    have hclose' : ¬place close ≤ place q :=
      Nat.not_le_of_lt (h.place_lt_place (Nat.lt_of_not_le hclose))
    rw [members, dif_neg hclose', if_neg (by rw [h.hasKind_eq, h.hasKind_eq]; exact hsep)]
    have hstart := memberStart_place h hseen
    apply Rereads.bind (member_rereads h hp hp' hlater _ _ hstart (hseen.mono hs))
    rintro m ⟨value, next, hlt, hle⟩ ⟨rfl, rfl⟩
    exact ih m _ rfl (hseen.mono (Nat.le_trans hs (Nat.le_of_lt m.lt_next)))

theorem toObject_rereads (body : Body) (next next' : Nat) :
    Rereads words Eq (body.toObject next) (body.toObject next') := by
  obtain ⟨object, index⟩ := body
  cases index with
  | none => exact .pure rfl
  | some kv =>
    apply Rereads.ite Iff.rfl
    · intro _
      exact .pure rfl
    · intro _
      exact .fail _ _ _ _

theorem objectBody_rereads (h : Widened f f' place) {later : Later f p} {later' : Later f' p'}
    (hplace : p' = place p) (hlater : LaterRereads place words later later')
    (hseen : Seen f f' place words p) :
    Rereads words (Moved place) (objectBody ⟨f, scope, params⟩ p later) (objectBody ⟨f', scope', params⟩ p' later') := by
  subst hplace
  unfold objectBody
  apply Rereads.dite (h.hasKind_iff p .lbrace)
  · intro hk
    cases hcloser : f.closer? p with
    | none =>
      simp only [h.closer?_eq_none hcloser]
      exact .unexpected _ _ _ _
    | some c =>
      obtain ⟨⟨c', hc'⟩, hcloser', rfl⟩ := h.closer?_eq_some hcloser
      simp only [hcloser']
      apply Rereads.bind (members_rereads h (File.lt_size_of_hasKind hk) (File.lt_size_of_hasKind ((h.hasKind_iff p _).mpr hk))
        hlater rfl _ _ (hseen.succ hk rfl).symm (hseen.mono (Nat.le_succ p)) {})
      rintro body _ rfl
      apply Rereads.bind (toObject_rereads body _ _)
      rintro object _ rfl
      exact .pure ⟨rfl, (hseen.place_succ_of_closer h hcloser).symm⟩
  · intro _
    exact .unexpected _ _ _ _

/-! ### Tuples and type arguments -/

theorem elementLabel_place (h : Widened f f' place) (hseen : Seen f f' place words q) :
    elementLabel f' (place q) = elementLabel f q ∧
      place (q + (elementLabel f q).1) = place q + (elementLabel f q).1 ∧
      (Enters f f' place words q → Enters f f' place words (q + (elementLabel f q).1)) := by
  unfold elementLabel
  rw [h.hasKind_eq]
  split
  · next hident =>
    have hnext := hseen.succ hident rfl
    have hseen' := hseen.mono (Nat.le_succ q)
    rw [← hnext, h.hasKind_eq, h.hasKind_eq]
    split
    · next hcolon =>
      have hnext₂ : place (q + 2) = place q + 2 := by
        rw [show q + 2 = q + 1 + 1 from rfl, hseen'.succ hcolon rfl, hnext]
      exact ⟨rfl, hnext₂, fun _ => hseen'.enters_succ hcolon rfl⟩
    · cases hquestion : f.hasKind (q + 1) .question with
      | false => exact ⟨rfl, rfl, id⟩
      | true =>
        have hnext₂ : place (q + 2) = place q + 2 := by
          rw [show q + 2 = q + 1 + 1 from rfl, hseen'.succ hquestion rfl, hnext]
        have hseen'' := hseen.mono (Nat.le_add_right q 2)
        rw [← hnext₂, h.hasKind_eq, Bool.true_and]
        split
        · next hcolon =>
          have hnext₃ : place (q + 3) = place q + 3 := by
            rw [show q + 3 = q + 2 + 1 from rfl, hseen''.succ hcolon rfl, hnext₂]
          exact ⟨rfl, hnext₃, fun _ => hseen''.enters_succ hcolon rfl⟩
        · exact ⟨rfl, rfl, id⟩
  · exact ⟨rfl, rfl, id⟩

theorem tupleRest_rereads (h : Widened f f' place) (hp : p < f.size)
    (hp' : place p < f'.size) {later : Later f p} {later' : Later f' (place p)}
    (hlater : LaterRereads place words later later') (hq : p < q) (hq' : place p < q')
    (hplace : q' = place q) (henters : Enters f f' place words q) (elements : List Element) :
    Rereads words (Moved place) (tupleRest ⟨f, scope, params⟩ hp later q hq elements)
      (tupleRest ⟨f', scope', params⟩ hp' later' q' hq' elements) := by
  fun_induction tupleRest ⟨f, scope, params⟩ hp later q hq elements generalizing q' with
  | case1 q hq elements hk =>
    subst hplace
    rw [tupleRest, dif_pos ((h.hasKind_iff q _).mpr hk)]
    exact .pure ⟨rfl, (henters.seen.succ hk rfl).symm⟩
  | case2 q hq elements hk spread start hs label =>
    rename_i ih
    subst hplace
    have hseen := henters.seen
    have hstart := skip_place h (k := .ellipsis) rfl hseen
    have hstart' : Enters f f' place words start := by
      show Enters f f' place words (f.skip q .ellipsis)
      unfold File.skip
      split
      · next hellipsis => exact hseen.enters_succ hellipsis rfl
      · exact henters
    obtain ⟨hlabel, hlabelPlace, hlabelEnters⟩ := elementLabel_place h hstart'.seen
    rw [tupleRest, dif_neg (mt (h.hasKind_iff q _).mp hk)]
    simp only
    rw [h.hasKind_eq]
    apply Rereads.bind (hlater _ _ _ _ (by rw [hstart, hlabel, hlabelPlace]) (hlabelEnters hstart'))
    rintro type ⟨value, next, hlt, hle⟩ ⟨rfl, rfl⟩
    have htype := hstart'.seen.mono (Nat.le_trans (Nat.le_add_right start label.1) (Nat.le_of_lt type.lt_next))
    have hnext := skip_place h (k := .question) rfl htype
    have hnext' := htype.mono (f.le_skip type.next .question)
    apply Rereads.bind_get
    intro s
    have helement : tupleElement s.table (f.hasKind q .ellipsis)
        ((elementLabel f' (f'.skip (place q) .ellipsis)).2 ||
          f'.hasKind (place type.next) .question) type.value =
        tupleElement s.table spread (label.2 || f.hasKind type.next .question) type.value := by
      rw [hstart, hlabel, h.hasKind_eq]
    simp only
    rw [helement]
    apply Rereads.dite (by rw [hnext, h.hasKind_eq])
    · intro hcomma
      exact ih type s hcomma _ (by rw [hnext, hnext'.succ hcomma rfl]) (hnext'.enters_succ hcomma rfl)
    · intro _
      apply Rereads.dite (by rw [hnext, h.hasKind_eq])
      · intro hbracket
        exact .pure ⟨rfl, (congrArg (· + 1) hnext).trans (hnext'.succ hbracket rfl).symm⟩
      · intro _
        exact .unexpected _ _ _ _

theorem typeArguments_rereads (h : Widened f f' place) (hp : p < f.size)
    (hp' : place p < f'.size) {later : Later f p} {later' : Later f' (place p)}
    (hlater : LaterRereads place words later later') (hq : p < q) (hq' : place p < q')
    (hplace : q' = place q) (henters : Enters f f' place words q) (args : List TypeId) :
    Rereads words (Moved place) (typeArguments ⟨f, scope, params⟩ hp later q hq args)
      (typeArguments ⟨f', scope', params⟩ hp' later' q' hq' args) := by
  fun_induction typeArguments ⟨f, scope, params⟩ hp later q hq args generalizing q' with
  | case1 q hq args ih =>
    rw [typeArguments]
    apply Rereads.bind (hlater q _ q' _ hplace henters)
    rintro type ⟨value, next, hlt, hle⟩ ⟨rfl, rfl⟩
    have htype := henters.seen.mono (Nat.le_of_lt type.lt_next)
    apply Rereads.dite (h.hasKind_iff type.next .comma)
    · intro hcomma
      exact ih type hcomma _ (htype.succ hcomma rfl).symm (htype.enters_succ hcomma rfl)
    · intro _
      apply Rereads.dite (h.hasKind_iff type.next .gt)
      · intro hgt
        exact .pure ⟨rfl, (htype.succ hgt rfl).symm⟩
      · intro _
        exact .unexpected _ _ _ _

/-! ### Named types -/

theorem reference_rereads (h : Widened f f' place) (hscope : ScopeRereads words scope scope')
    (hp : p < f.size) (hp' : place p < f'.size) {later : Later f p} {later' : Later f' (place p)}
    (hlater : LaterRereads place words later later') (hseen : Seen f f' place words p)
    (hident : f.hasKind p .ident = true) :
    Rereads words (Moved place) (reference ⟨f, scope, params⟩ p hp later)
      (reference ⟨f', scope', params⟩ (place p) hp' later') := by
  have hnext := hseen.succ hident rfl
  have hseen' := hseen.mono (Nat.le_succ p)
  unfold reference
  simp only [h.tokenText_eq]
  apply Rereads.ite (by rw [← hnext, h.hasKind_eq])
  · intro hdot
    rcases hseen'.place_succ with hnext' | hgap | hgap
    · replace hnext' : place (p + 2) = place p + 2 := hnext'.trans (congrArg (· + 1) hnext)
      have hname : f'.tokenText (place p + 2) = f.tokenText (p + 2) := by rw [← hnext', h.tokenText_eq]
      rw [hname]
      apply Rereads.dite (by rw [← hnext', h.hasKind_eq])
      · intro hmember
        have hnext'' : place (p + 3) = place p + 3 := by
          rw [show p + 3 = p + 2 + 1 from rfl, (hseen.mono (Nat.le_add_right p 2)).succ hmember rfl, hnext']
        apply Rereads.ite (by rw [← hnext'', h.hasKind_eq, h.hasKind_eq])
        · intro _
          exact .fail _ _ _ _
        · intro _
          apply Rereads.bind (Rereads.lookup _ _ (hscope.member _ _))
          rintro type _ rfl
          exact .pure ⟨rfl, hnext''.symm⟩
      · intro _
        exact .unexpected _ _ _ _
    · -- No members of the word are known, so it does not matter which one is asked for.
      have hword : f.word? p = some (f.tokenText p) := if_pos hident
      have hw := (hgap.word p _ rfl hword).1
      apply Rereads.of_fails
      · split
        · split
          · exact fails_fail _ _
          · exact ((hscope.missing _ hw _).lookup _).bind _
        · exact fails_fail _ _
      · split
        · split
          · exact fails_fail _ _
          · exact ((hscope.missing' _ hw _).lookup _).bind _
        · exact fails_fail _ _
    · exact absurd rfl (File.ne_of_kind (beq_iff_eq.mp hdot) hgap.lparen (by decide))
  · intro _
    apply Rereads.ite (by rw [← hnext, h.hasKind_eq])
    · intro hlt
      have hnext' : place (p + 2) = place p + 2 := by
        rw [show p + 2 = p + 1 + 1 from rfl, hseen'.succ hlt rfl, hnext]
      apply Rereads.bind (typeArguments_rereads h hp hp' hlater _ _ hnext'.symm (hseen'.enters_succ hlt rfl) [])
      rintro args ⟨value, next, hlt, hle⟩ ⟨rfl, rfl⟩
      apply Rereads.bind (Rereads.lookup _ _ (hscope.named _ _))
      rintro type _ rfl
      exact .pure ⟨rfl, rfl⟩
    · intro _
      cases params.lookup (f.tokenText p) with
      | some type => exact .pure ⟨rfl, hnext.symm⟩
      | none =>
        apply Rereads.bind (Rereads.lookup _ _ (hscope.named _ _))
        rintro type _ rfl
        exact .pure ⟨rfl, hnext.symm⟩

theorem named_rereads (h : Widened f f' place) (hscope : ScopeRereads words scope scope')
    (hp : p < f.size) (hp' : place p < f'.size) {later : Later f p} {later' : Later f' (place p)}
    (hlater : LaterRereads place words later later') (hseen : Seen f f' place words p)
    (hident : f.hasKind p .ident = true) :
    Rereads words (Moved place) (named ⟨f, scope, params⟩ p hp later)
      (named ⟨f', scope', params⟩ (place p) hp' later') := by
  unfold named
  simp only [h.tokenText_eq]
  cases keyword? (f.tokenText p) with
  | some k => exact .insertAs _ _ _ _ k (hseen.succ hident rfl).symm
  | none =>
    apply Rereads.ite Iff.rfl
    · intro _
      exact .fail _ _ _ _
    · intro _
      exact reference_rereads h hscope hp hp' hlater hseen hident

/-! ### Primary and postfix types -/

theorem parenthesized_rereads (h : Widened f f' place) (hp : p < f.size) (hp' : place p < f'.size)
    {later : Later f p} {later' : Later f' (place p)} (hlater : LaterRereads place words later later')
    (henters : Enters f f' place words p) (hk : f.hasKind p .lparen = true) :
    Rereads words (Moved place) (parenthesized ⟨f, scope, params⟩ p hp later)
      (parenthesized ⟨f', scope', params⟩ (place p) hp' later') := by
  unfold parenthesized
  simp only
  cases hcloser : f.closer? p with
  | none =>
    simp only [h.closer?_eq_none hcloser]
    exact .unexpected _ _ _ _
  | some c =>
    obtain ⟨⟨c', hc'⟩, hcloser', rfl⟩ := h.closer?_eq_some hcloser
    simp only [hcloser']
    have hnext := henters.seen.place_succ_of_closer h hcloser
    have hseen := henters.seen.mono (Nat.le_succ_of_le (Nat.le_of_lt c.2.1))
    apply Rereads.ite (by rw [← hnext, h.hasKind_eq])
    · intro harrow
      apply Rereads.bind (hlater (c.1 + 2) _ _ _ (by rw [show c.1 + 2 = c.1 + 1 + 1 from rfl, hseen.succ harrow rfl, hnext])
        (hseen.enters_succ harrow rfl))
      rintro result ⟨value, next, hlt, hle⟩ ⟨rfl, rfl⟩
      apply Rereads.bind (Rereads.onTable (Table.function result.value))
      rintro type _ rfl
      exact .pure ⟨rfl, rfl⟩
    · intro _
      apply Rereads.bind (hlater (p + 1) _ _ _ (henters.succ hk).symm (henters.seen.enters_succ hk rfl))
      rintro inner ⟨value, next, hlt, hle⟩ ⟨rfl, rfl⟩
      apply Rereads.dite (h.hasKind_iff inner.next .rparen)
      · intro hclose
        exact .pure ⟨rfl, ((henters.seen.mono (Nat.le_of_lt (Nat.lt_of_succ_lt inner.lt_next))).succ hclose rfl).symm⟩
      · intro _
        exact .unexpected _ _ _ _

theorem insertNumber_rereads (h : Widened f f' place) {next next' : Nat} (lt : p < next) (le : next ≤ f.size)
    (lt' : p' < next') (le' : next' ≤ f'.size) (hnext : next' = place next) {i i' : Nat}
    (hi : i' = place i) (negative : Bool) :
    Rereads words (Moved place) (numberLiteral f i next negative >>= fun k => insertAs f p next lt le k)
      (numberLiteral f' i' next' negative >>= fun k => insertAs f' p' next' lt' le' k) := by
  unfold numberLiteral
  rw [hi, h.tokenText_eq]
  cases Binary64.ofToken? (f.tokenText i) with
  | some x => exact .insertAs _ _ _ _ (.literal (.number (if negative then x.neg else x))) hnext
  | none => exact .fail _ _ _ _

theorem primaryOf_rereads (h : Widened f f' place) (hscope : ScopeRereads words scope scope') (hp : p < f.size)
    (hp' : place p < f'.size) {later : Later f p} {later' : Later f' (place p)}
    (hlater : LaterRereads place words later later') (henters : Enters f f' place words p) {k : Kind}
    (hk : f.hasKind p k = true) :
    Rereads words (Moved place) (primaryOf ⟨f, scope, params⟩ p hp later k)
      (primaryOf ⟨f', scope', params⟩ (place p) hp' later' k) := by
  have hseen := henters.seen
  unfold primaryOf
  cases k with
  | lparen => exact parenthesized_rereads h hp hp' hlater henters hk
  | lbrace =>
    apply Rereads.bind (objectBody_rereads h rfl hlater hseen)
    rintro body ⟨value, next, hlt, hle⟩ ⟨rfl, rfl⟩
    exact .insertAs _ _ _ _ (.object body.value) rfl
  | lbracket =>
    apply Rereads.bind (tupleRest_rereads h hp hp' hlater _ _ (hseen.succ hk rfl).symm (hseen.enters_succ hk rfl) [])
    rintro elements ⟨value, next, hlt, hle⟩ ⟨rfl, rfl⟩
    exact .insertAs _ _ _ _ (.tuple elements.value) rfl
  | str =>
    simp only [h.tokenText_eq]
    exact .insertAs _ _ _ _ _ (hseen.succ hk rfl).symm
  | template =>
    simp only [h.tokenText_eq]
    apply Rereads.ite Iff.rfl
    · intro _
      exact .fail _ _ _ _
    · intro _
      exact .insertAs _ _ _ _ _ (hseen.succ hk rfl).symm
  | number => exact insertNumber_rereads h _ _ _ _ (hseen.succ hk rfl).symm rfl false
  | minus =>
    have hnext := hseen.succ hk rfl
    apply Rereads.dite (by rw [← hnext, h.hasKind_eq])
    · intro hnumber
      exact insertNumber_rereads h _ _ _ _ (by
        rw [show p + 2 = p + 1 + 1 from rfl, (hseen.mono (Nat.le_succ p)).succ hnumber rfl, hnext]) hnext.symm true
    · intro _
      exact .unexpected _ _ _ _
  | bigInt =>
    simp only [h.tokenText_eq]
    exact .insertAs _ _ _ _ _ (hseen.succ hk rfl).symm
  | lt => exact .fail _ _ _ _
  | ident => exact named_rereads h hscope hp hp' hlater hseen hk
  | _ => exact .unexpected _ _ _ _

theorem primary_rereads (h : Widened f f' place) (hscope : ScopeRereads words scope scope')
    {later : Later f p} {later' : Later f' p'} (hplace : p' = place p)
    (hlater : LaterRereads place words later later') (henters : Enters f f' place words p) :
    Rereads words (Moved place) (primary ⟨f, scope, params⟩ p later) (primary ⟨f', scope', params⟩ p' later') := by
  subst hplace
  have hkind := h.kind?_eq p
  cases hk : f.kind? p with
  | none =>
    rw [primary_of_none ⟨f, scope, params⟩ later hk, primary_of_none ⟨f', scope', params⟩ later' (hkind.trans hk)]
    exact .unexpected _ _ _ _
  | some k =>
    rw [primary_of_some ⟨f, scope, params⟩ later hk, primary_of_some ⟨f', scope', params⟩ later' (hkind.trans hk)]
    exact primaryOf_rereads h hscope _ _ hlater henters (beq_iff_eq.mpr hk)

theorem arraySuffix_rereads (h : Widened f f' place) (lt : p < q) (le : q ≤ f.size) (lt' : p' < q')
    (le' : q' ≤ f'.size) (hplace : q' = place q) (hseen : Seen f f' place words q) (type : TypeId) :
    Rereads words (Moved place) (arraySuffix f p q lt le type) (arraySuffix f' p' q' lt' le' type) := by
  fun_induction arraySuffix f p q lt le type generalizing q' with
  | case1 q lt le type hopen hclose ih =>
    subst hplace
    have hnext := hseen.succ hopen rfl
    rw [arraySuffix, if_pos ((h.hasKind_iff q _).mpr hopen), dif_pos (by rw [← hnext, h.hasKind_eq]; exact hclose)]
    apply Rereads.bind (Rereads.onTable (Table.insert (.array (some type))))
    rintro array _ rfl
    exact ih array _ _ (by rw [show q + 2 = q + 1 + 1 from rfl, (hseen.mono (Nat.le_succ q)).succ hclose rfl, hnext])
      (hseen.mono (Nat.le_add_right q 2))
  | case2 q lt le type hopen hclose =>
    subst hplace
    have hnext := hseen.succ hopen rfl
    rw [arraySuffix, if_pos ((h.hasKind_iff q _).mpr hopen), dif_neg (by rw [← hnext, h.hasKind_eq]; exact hclose)]
    exact .fail _ _ _ _
  | case3 q lt le type hopen =>
    subst hplace
    rw [arraySuffix, if_neg (mt (h.hasKind_iff q _).mp hopen)]
    exact .pure ⟨rfl, rfl⟩

theorem skipReadonly_place (h : Widened f f' place) (hp : Enters f f' place words p) :
    skipReadonly f' (place p) = place (skipReadonly f p) ∧
      Enters f f' place words (skipReadonly f p) := by
  fun_induction skipReadonly f p with
  | case1 p hword ih =>
    rw [skipReadonly, dif_pos ((h.hasWord_iff p _).mpr hword), ← hp.seen.succ_of_word hword]
    exact ih (hp.seen.enters_succ_of_word hword rfl)
  | case2 p hword =>
    rw [skipReadonly, dif_neg (mt (h.hasWord_iff p _).mp hword)]
    exact ⟨rfl, hp⟩

theorem postfixType_rereads (h : Widened f f' place) (hscope : ScopeRereads words scope scope')
    {later : Later f p} {later' : Later f' p'} (hplace : p' = place p)
    (hlater : LaterRereads place words later later') (henters : Enters f f' place words p) :
    Rereads words (Moved place) (postfixType ⟨f, scope, params⟩ p later)
      (postfixType ⟨f', scope', params⟩ p' later') := by
  subst hplace
  obtain ⟨hskip, hstart⟩ := skipReadonly_place h henters
  unfold postfixType
  apply Rereads.bind (primary_rereads h hscope hskip (hlater.mono _ _) hstart)
  rintro base ⟨value, next, hlt, hle⟩ ⟨rfl, rfl⟩
  exact arraySuffix_rereads h _ _ _ _ rfl (hstart.seen.mono (Nat.le_of_lt base.lt_next)) base.value

/-! ### Types -/

theorem sole_rereads {r : Parsed f p (List TypeId)} {r' : Parsed f' p' (List TypeId)} (hr : Moved place r r')
    (build : List TypeId → TableM TypeId) :
    Rereads words (Moved place)
      (match r.value with
        | [only] => return ⟨only, r.next, r.lt_next, r.next_le⟩
        | many => return ⟨← onTable (build many), r.next, r.lt_next, r.next_le⟩ :
        Parse (Parsed f p TypeId))
      (match r'.value with
        | [only] => return ⟨only, r'.next, r'.lt_next, r'.next_le⟩
        | many => return ⟨← onTable (build many), r'.next, r'.lt_next, r'.next_le⟩ :
        Parse (Parsed f' p' TypeId)) := by
  have hmany : ∀ ms, Rereads words (Moved place)
      (do return ⟨← onTable (build ms), r.next, r.lt_next, r.next_le⟩ : Parse (Parsed f p TypeId))
      (do return ⟨← onTable (build ms), r'.next, r'.lt_next, r'.next_le⟩ : Parse (Parsed f' p' TypeId)) := by
    intro ms
    apply Rereads.bind (Rereads.onTable (build ms))
    rintro type _ rfl
    exact .pure ⟨rfl, hr.next⟩
  rw [hr.value]
  match r.value with
  | [only] => exact .pure ⟨rfl, hr.next⟩
  | [] => exact hmany []
  | a :: b :: rest => exact hmany (a :: b :: rest)

theorem intersectionType_rereads (h : Widened f f' place) (hscope : ScopeRereads words scope scope')
    {later : Later f p} {later' : Later f' p'} (hplace : p' = place p)
    (hlater : LaterRereads place words later later') (henters : Enters f f' place words p) :
    Rereads words (Moved place) (intersectionType ⟨f, scope, params⟩ p later)
      (intersectionType ⟨f', scope', params⟩ p' later') := by
  subst hplace
  unfold intersectionType
  apply Rereads.bind (separated_rereads h rfl
    (fun q hq q' hq' hplace hq'' => postfixType_rereads h hscope hplace (hlater.mono hq hq') hq'') henters)
  intro members members' hmembers
  exact sole_rereads hmembers Table.intersection

theorem unionType_rereads (h : Widened f f' place) (hscope : ScopeRereads words scope scope')
    {later : Later f p} {later' : Later f' p'} (hplace : p' = place p)
    (hlater : LaterRereads place words later later') (henters : Enters f f' place words p) :
    Rereads words (Moved place) (unionType ⟨f, scope, params⟩ p later)
      (unionType ⟨f', scope', params⟩ p' later') := by
  subst hplace
  unfold unionType
  apply Rereads.bind (separated_rereads h rfl
    (fun q hq q' hq' hplace hq'' => intersectionType_rereads h hscope hplace (hlater.mono hq hq') hq'') henters)
  intro members members' hmembers
  exact sole_rereads hmembers Table.union

theorem typeWith_rereads (h : Widened f f' place) (hscope : ScopeRereads words scope scope')
    {later : Later f p} {later' : Later f' p'} (hplace : p' = place p)
    (hlater : LaterRereads place words later later') (henters : Enters f f' place words p) :
    Rereads words (Moved place) (typeWith ⟨f, scope, params⟩ p later) (typeWith ⟨f', scope', params⟩ p' later') := by
  unfold typeWith
  apply Rereads.bind (unionType_rereads h hscope hplace hlater henters)
  rintro type ⟨value, next, hlt, hle⟩ ⟨rfl, rfl⟩
  apply Rereads.ite (h.hasWord_iff type.next "extends")
  · intro _
    exact .fail _ _ _ _
  · intro _
    exact .pure ⟨rfl, rfl⟩

/-- A type is read again where it has moved to. -/
theorem typeAt_rereads (h : Widened f f' place) (hscope : ScopeRereads words scope scope')
    (hplace : p' = place p) (henters : Enters f f' place words p) :
    Rereads words (Moved place) (typeAt ⟨f, scope, params⟩ p) (typeAt ⟨f', scope', params⟩ p') := by
  induction hn : f.size - p using Nat.strongRecOn generalizing p p' with
  | ind n ih =>
    rw [typeAt, typeAt]
    refine typeWith_rereads h hscope hplace ?_ henters
    intro q hq q' hq' hplace' henters'
    exact ih (f.size - q) (by omega) hplace' henters' rfl

theorem objectAt_rereads (h : Widened f f' place) (hscope : ScopeRereads words scope scope')
    (hplace : p' = place p) (hseen : Seen f f' place words p) :
    Rereads words (Moved place) (objectAt ⟨f, scope, params⟩ p) (objectAt ⟨f', scope', params⟩ p') :=
  objectBody_rereads h hplace (fun _ _ _ _ hplace' henters' => typeAt_rereads h hscope hplace' henters') hseen

def ListMoved (place : Nat → Nat) (r r' : List TypeId × Nat) : Prop :=
  r'.1 = r.1 ∧ r'.2 = place r.2

theorem heritageRest_rereads (h : Widened f f' place) (hscope : ScopeRereads words scope scope')
    (hplace : q' = place q) (henters : Enters f f' place words q) (bases : List TypeId) :
    Rereads words (fun r r' => ListMoved place r r' ∧ q ≤ r.2) (heritageRest ⟨f, scope, params⟩ q bases)
      (heritageRest ⟨f', scope', params⟩ q' bases) := by
  fun_induction heritageRest ⟨f, scope, params⟩ q bases generalizing q' with
  | case1 q bases ih =>
    rw [heritageRest]
    apply Rereads.bind (postfixType_rereads h hscope hplace
      (fun _ _ _ _ hplace' henters' => typeAt_rereads h hscope hplace' henters') henters)
    rintro base ⟨value, next, hlt, hle⟩ ⟨rfl, rfl⟩
    have hbase := henters.seen.mono (Nat.le_of_lt base.lt_next)
    apply Rereads.dite (h.hasKind_iff base.next .comma)
    · intro hcomma
      refine (ih base hcomma (hbase.succ hcomma rfl).symm (hbase.enters_succ hcomma rfl)).weaken ?_
      intro r r' hr
      exact ⟨hr.1, Nat.le_trans (Nat.le_of_lt (Nat.lt_succ_of_lt base.lt_next)) hr.2⟩
    · intro _
      exact .pure ⟨⟨rfl, rfl⟩, Nat.le_of_lt base.lt_next⟩

theorem heritageAt_rereads (h : Widened f f' place) (hscope : ScopeRereads words scope scope')
    (hseen : Seen f f' place words p) :
    Rereads words (fun r r' => ListMoved place r r' ∧ p ≤ r.2) (heritageAt ⟨f, scope, params⟩ p)
      (heritageAt ⟨f', scope', params⟩ (place p)) := by
  unfold heritageAt
  apply Rereads.ite (h.hasWord_iff p "extends")
  · intro hword
    refine (heritageRest_rereads h hscope (hseen.succ_of_word hword).symm (hseen.enters_succ_of_word hword rfl) []).weaken ?_
    intro r r' hr
    exact ⟨hr.1, Nat.le_of_lt hr.2⟩
  · intro _
    exact .pure ⟨⟨rfl, rfl⟩, Nat.le_refl p⟩

end

end SchemaSplice.Annotation
