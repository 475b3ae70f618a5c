import SchemaSplice.Proofs.Brackets.Partners
import SchemaSplice.Proofs.Splice.Nesting
/-!
# Ranges of tokens that matched brackets do not leave

A range is tiled if it consists of tokens that are no brackets and of matched pairs with all that stands between them. Every
partner of a token of a tiled range stands in it, no tiled range inside a pair reaches its closing bracket, and two brackets
of one kind with a tiled range between them are partners, even if stray brackets stand anywhere else. A range that also
steps over stray closing brackets still stays inside the braces around it, with the one exception of a computed key that
the closing brace cuts in two.
-/

namespace SchemaSplice.Source

/-! ### Open brackets -/

section

variable {a i o c : Nat} {stack front : List OpenBracket} {b : OpenBracket} {k : Kind} {ks : List Kind}

theorem not_mem_pairsFrom (hstack : OpenBefore i stack) (hoi : o < i) (h : ∀ b ∈ stack, b.index ≠ o) :
    (o, c) ∉ pairsFrom i stack ks := by
  intro hmem
  obtain ⟨-, -, hle | ⟨b, hb, heq⟩⟩ := bounds_of_mem_pairsFrom hstack hmem
  · exact Nat.lt_irrefl _ (Nat.lt_of_lt_of_le hoi hle)
  · exact h b hb heq

/-- Which brackets are matched later on does not depend on those that are open. -/
theorem mem_pairsFrom_drop (hstack : OpenBefore a stack) (ha : a ≤ ks.length) (hao : a ≤ o) :
    (o, c) ∈ pairsFrom a stack (ks.drop a) ↔ (o, c) ∈ pairs ks := by
  have hlength : (ks.take a).length = a := List.length_take_of_le ha
  obtain ⟨stack', hstack', hpairs⟩ := pairsFrom_append (.nil 0) (ks.take a)
  rw [Nat.zero_add, hlength] at hstack' hpairs
  have hfront : (o, c) ∉ pairsFrom 0 [] (ks.take a) := by
    intro hmem
    have hlt := lt_of_mem_pairs hmem
    omega
  have hindependent : ∀ {st : List OpenBracket}, OpenBefore a st →
      ((o, c) ∈ pairsFrom a ([] ++ st) (ks.drop a) ↔ (o, c) ∈ pairsFrom a [] (ks.drop a)) := fun hst =>
    mem_pairsFrom_below hst.before hao
  rw [pairs, ← List.take_append_drop a ks, hpairs, List.mem_append, or_iff_right hfront, List.take_append_drop,
    ← List.nil_append stack, ← List.nil_append stack', hindependent hstack, hindependent hstack']

/-- If the innermost open bracket is matched at all, a closing bracket that comes next matches it. -/
theorem closer?_of_mem_pairsFrom_close (hstack : OpenBefore i (b :: stack)) (hcloses : k.closes = true)
    (h : (b.index, c) ∈ pairsFrom i (b :: stack) (k :: ks)) : b.kind.closer? = some k ∧ c = i := by
  have hb : b.index < i + 1 := Nat.lt_succ_of_lt (hstack.before b List.mem_cons_self)
  have hbelow : OpenBefore (i + 1) stack := (hstack.sublist (List.sublist_cons_self b stack)).skip
  have hout : ∀ {st : List OpenBracket}, st.Sublist stack → (b.index, c) ∉ pairsFrom (i + 1) st ks := by
    intro st hst
    refine not_mem_pairsFrom (hbelow.sublist hst) hb fun b' hb' => ?_
    exact Nat.ne_of_lt (List.rel_of_pairwise_cons hstack.descending (hst.mem hb'))
  by_cases hmatch : b.kind.closer? = some k
  · rw [pairsFrom_close hmatch] at h
    rcases List.mem_cons.mp h with heq | h
    · exact ⟨hmatch, (Prod.mk.inj heq).2⟩
    · exact absurd h (hout (List.Sublist.refl _))
  · -- The token would discard the open bracket.
    exfalso
    rw [pairsFrom, if_neg (by simp [Kind.opens_eq_false_of_closes hcloses]), if_pos hcloses,
      List.dropWhile_cons_of_pos (by simpa using hmatch)] at h
    have hrest := List.dropWhile_sublist (l := stack) fun b => b.kind.closer? != some k
    cases hstop : stack.dropWhile fun b => b.kind.closer? != some k with
    | nil =>
      rw [hstop] at h
      exact hout (List.nil_sublist _) h
    | cons b' rest =>
      rw [hstop] at h hrest
      rcases List.mem_cons.mp h with heq | h
      · have hlt := List.rel_of_pairwise_cons hstack.descending (hrest.mem List.mem_cons_self)
        exact Nat.ne_of_gt hlt (Prod.mk.inj heq).1
      · exact hout ((List.sublist_cons_self b' rest).trans hrest) h

/-- After the partner of an open bracket all that was open before it is open again. -/
theorem pairsFrom_until (hstack : OpenBefore i (front ++ b :: stack))
    (h : (b.index, c) ∈ pairsFrom i (front ++ b :: stack) ks) :
    ∃ ps, (∀ p ∈ ps, p.2 ≤ c) ∧
      pairsFrom i (front ++ b :: stack) ks = ps ++ pairsFrom (c + 1) stack (ks.drop (c + 1 - i)) := by
  induction ks generalizing i front with
  | nil => cases h
  | cons k ks ih =>
    have hlater : ∀ {front' : List OpenBracket}, OpenBefore (i + 1) (front' ++ b :: stack) →
        (b.index, c) ∈ pairsFrom (i + 1) (front' ++ b :: stack) ks →
          i ≤ c ∧ ∃ ps, (∀ p ∈ ps, p.2 ≤ c) ∧ pairsFrom (i + 1) (front' ++ b :: stack) ks =
            ps ++ pairsFrom (c + 1) stack ((k :: ks).drop (c + 1 - i)) := by
      intro front' hkept hmem
      have hle := (bounds_of_mem_pairsFrom hkept hmem).2.1
      rw [show c + 1 - i = c + 1 - (i + 1) + 1 by omega, List.drop_succ_cons]
      exact ⟨Nat.le_of_succ_le hle, ih hkept hmem⟩
    by_cases hopens : k.opens = true
    · rw [pairsFrom_open hopens] at h ⊢
      have hpush : OpenBefore (i + 1) ((⟨i, k⟩ :: front) ++ b :: stack) := hstack.push k
      exact (hlater hpush h).2
    by_cases hcloses : k.closes = true
    · have hdropped := List.dropWhile_sublist (l := front) fun b => b.kind.closer? != some k
      cases hfront : front.dropWhile fun b => b.kind.closer? != some k with
      | nil =>
        have hinner : pairsFrom i (front ++ b :: stack) (k :: ks) = pairsFrom i (b :: stack) (k :: ks) := by
          simp only [pairsFrom, if_neg hopens, if_pos hcloses, List.dropWhile_append, hfront, List.isEmpty_nil, if_true]
        rw [hinner] at h ⊢
        have hinnermost := hstack.sublist (List.sublist_append_right front _)
        obtain ⟨hmatch, rfl⟩ := closer?_of_mem_pairsFrom_close hinnermost hcloses h
        exact ⟨[(b.index, c)], by simp, by rw [pairsFrom_close hmatch]; simp⟩
      | cons b' front' =>
        -- The token closes a bracket that was opened later.
        rw [hfront] at hdropped
        have hclosed : pairsFrom i (front ++ b :: stack) (k :: ks) =
            (b'.index, i) :: pairsFrom (i + 1) (front' ++ b :: stack) ks := by
          simp [pairsFrom, if_neg hopens, if_pos hcloses, List.dropWhile_append, hfront]
        rw [hclosed] at h ⊢
        have hne : (b.index, c) ≠ (b'.index, i) := by
          intro heq
          obtain ⟨-, -, hacross⟩ := List.pairwise_append.mp hstack.descending
          have hlt := hacross b' (hdropped.mem List.mem_cons_self) b List.mem_cons_self
          exact Nat.ne_of_lt hlt (Prod.mk.inj heq).1
        have hkept : OpenBefore (i + 1) (front' ++ b :: stack) :=
          (hstack.sublist (((List.sublist_cons_self b' front').trans hdropped).append_right _)).skip
        obtain ⟨hle, ps, hbounds, hps⟩ := hlater hkept ((List.mem_cons.mp h).resolve_left hne)
        exact ⟨(b'.index, i) :: ps, List.forall_mem_cons.mpr ⟨hle, hbounds⟩, by rw [hps, List.cons_append]⟩
    · rw [pairsFrom, if_neg hopens, if_neg hcloses] at h ⊢
      exact (hlater hstack.skip h).2

end

namespace File

variable {f : File} {a b c o p q i j : Nat} {k k' : Kind}

/-! ### Matched pairs -/

/-- The bracket at `o` is closed by the one at `c`. -/
def Matched (f : File) (o c : Nat) : Prop := (f.closer? o).map (·.1) = some c

instance (f : File) (o c : Nat) : Decidable (f.Matched o c) :=
  inferInstanceAs (Decidable ((f.closer? o).map (·.1) = some c))

theorem matched_of_closer? {c : { j : Nat // o < j ∧ j < f.size }} (h : f.closer? o = some c) : f.Matched o c.1 := by
  rw [Matched, h]
  rfl

theorem Matched.closer? (h : f.Matched o c) : ∃ hc, f.closer? o = some ⟨c, hc⟩ := by
  obtain ⟨⟨c', hc⟩, hclose, rfl⟩ := Option.map_eq_some_iff.mp h
  exact ⟨hc, hclose⟩

theorem Matched.lt (h : f.Matched o c) : o < c ∧ c < f.size := h.closer?.1

theorem Matched.unique (h : f.Matched o b) (h' : f.Matched o c) : b = c := Option.some.inj (h.symm.trans h')

theorem IsRead.matched_iff (hf : f.IsRead) : f.Matched o c ↔ (o, c) ∈ pairs (f.tokens.toList.map Token.kind) := by
  constructor
  · intro h
    obtain ⟨hc, hclose⟩ := h.closer?
    exact hf.mem_pairs_of_closer? hclose
  · intro h
    obtain ⟨hc, hclose⟩ := hf.closer?_of_mem_pairs h
    exact matched_of_closer? hclose

/-- A partner is the other side of a matched pair. -/
theorem IsRead.partner?_iff (hf : f.IsRead) : f.partner? i = some j ↔ f.Matched i j ∨ f.Matched j i := by
  have hpartners : f.partners = Source.partners (f.tokens.toList.map Token.kind) := by
    rw [hf.partners_eq, Source.partners, List.length_map, Array.length_toList]
  rw [hf.matched_iff, hf.matched_iff, ← isPartner_iff, IsPartner, ← hpartners, partner?, Option.join_eq_some_iff]

theorem IsRead.kinds_of_matched (hf : f.IsRead) (h : f.Matched o c) :
    ∃ k k', f.kind? o = some k ∧ f.kind? c = some k' ∧ k.closer? = some k' := by
  obtain ⟨k, k', hk, hk', hclose⟩ := closer?_of_mem_pairsFrom rfl (by simp) (hf.matched_iff.mp h)
  rw [kinds_getElem?] at hk hk'
  exact ⟨k, k', hk, hk', hclose⟩

theorem IsRead.opens_of_matched (hf : f.IsRead) (h : f.Matched o c) (hk : f.kind? o = some k) : k.opens = true := by
  obtain ⟨k₁, k', hk₁, -, hclose⟩ := hf.kinds_of_matched h
  obtain rfl := Option.some.inj (hk.symm.trans hk₁)
  rw [Kind.opens, hclose, Option.isSome_some]

theorem IsRead.closes_of_matched (hf : f.IsRead) (h : f.Matched o c) (hk : f.kind? c = some k) : k.closes = true := by
  obtain ⟨_, k₁, -, hk₁, hclose⟩ := hf.kinds_of_matched h
  obtain rfl := Option.some.inj (hk.symm.trans hk₁)
  exact Kind.closes_of_closer? hclose

theorem IsRead.ne_opening (hf : f.IsRead) (h : f.Matched o c) (hk : f.kind? i = some k) (hopens : k.opens = false) : i ≠ o := by
  rintro rfl
  rw [hf.opens_of_matched h hk] at hopens
  cases hopens

theorem IsRead.ne_closing (hf : f.IsRead) (h : f.Matched o c) (hk : f.kind? i = some k) (hcloses : k.closes = false) :
    i ≠ c := by
  rintro rfl
  rw [hf.closes_of_matched h hk] at hcloses
  cases hcloses

theorem IsRead.rbrace_of_matched (hf : f.IsRead) (h : f.Matched o c) (hopen : f.hasKind o .lbrace = true) :
    f.hasKind c .rbrace = true := by
  obtain ⟨k, k', hk, hk', hclose⟩ := hf.kinds_of_matched h
  rw [hasKind, hk, beq_iff_eq, Option.some.injEq] at hopen
  subst hopen
  cases hclose
  rw [hasKind, hk', beq_self_eq_true]

/-- A pair that opens between two matched brackets is closed there. -/
theorem IsRead.matched_inside (hf : f.IsRead) (h : f.Matched o c) (h' : f.Matched a b) (hoa : o < a) (hac : a ≤ c) :
    b < c := by
  obtain ⟨hc, hclose⟩ := h.closer?
  obtain ⟨hb, hclose'⟩ := h'.closer?
  have hne : c ≠ a := by
    obtain ⟨_, k', -, hk', hpair⟩ := hf.kinds_of_matched h
    exact hf.ne_opening h' hk' (Kind.opens_eq_false_of_closes (Kind.closes_of_closer? hpair))
  have hcross := hf.laminar hclose hclose'
  simp only at hcross
  omega

theorem drop_kinds (hk : f.kind? i = some k) : (f.tokens.toList.map Token.kind).drop i =
    k :: (f.tokens.toList.map Token.kind).drop (i + 1) := by
  rw [← kinds_getElem?] at hk
  rw [List.drop_eq_getElem_cons (List.getElem?_eq_some_iff.mp hk).1, (List.getElem?_eq_some_iff.mp hk).2]

theorem le_length_kinds (hk : f.kind? i = some k) : i ≤ (f.tokens.toList.map Token.kind).length := by
  rw [← kinds_getElem?] at hk
  exact Nat.le_of_lt (List.getElem?_eq_some_iff.mp hk).1

/-! ### Tilings -/

/-- The tokens from `a` up to `b` are single ones and matched pairs with all that they hold. -/
inductive Tiled (f : File) : Nat → Nat → Prop
  | nil (a : Nat) : Tiled f a a
  | token {a b : Nat} {k : Kind} (hk : f.kind? a = some k) (hopens : k.opens = false) (hcloses : k.closes = false)
      (h : Tiled f (a + 1) b) : Tiled f a b
  | pair {a b c : Nat} (hc : f.Matched a c) (h : Tiled f (c + 1) b) : Tiled f a b

namespace Tiled

theorem trans (h : f.Tiled a b) (h' : f.Tiled b c) : f.Tiled a c := by
  induction h with
  | nil => exact h'
  | token hk hopens hcloses _ ih => exact .token hk hopens hcloses (ih h')
  | pair hc _ ih => exact .pair hc (ih h')

theorem single (hk : f.kind? a = some k) (hopens : k.opens = false) (hcloses : k.closes = false) : f.Tiled a (a + 1) :=
  .token hk hopens hcloses (.nil _)

theorem of_hasKind (hk : f.hasKind a k = true) (hopens : k.opens = false) (hcloses : k.closes = false) :
    f.Tiled a (a + 1) :=
  single (eq_of_beq hk) hopens hcloses

theorem of_hasWord {word : String} (h : f.hasWord a word = true) : f.Tiled a (a + 1) :=
  of_hasKind (hasKind_of_hasWord h) rfl rfl

/-- A token that may stand in front. -/
theorem of_skip (hopens : k.opens = false) (hcloses : k.closes = false) : f.Tiled a (f.skip a k) := by
  unfold skip
  split
  next hk => exact of_hasKind hk hopens hcloses
  next => exact .nil a

theorem le (h : f.Tiled a b) : a ≤ b := by
  induction h with
  | nil => exact Nat.le_refl _
  | token _ _ _ _ ih => omega
  | pair hc _ ih =>
    have hlt := hc.lt
    omega

/-- A tiled range inside a pair does not reach beyond its closing bracket. -/
theorem le_closer (hf : f.IsRead) (h : f.Tiled a b) (hc : f.Matched o c) (hoa : o < a) (hac : a ≤ c) : b ≤ c := by
  induction h with
  | nil => exact hac
  | @token a b k hk hopens hcloses _ ih =>
    have hne := hf.ne_closing hc hk hcloses
    exact ih (by omega) (by omega)
  | @pair a b d hd _ ih =>
    have hlt := hf.matched_inside hc hd hoa hac
    have hd' := hd.lt
    exact ih (by omega) hlt

theorem matched_inside (hf : f.IsRead) (h : f.Tiled a b) (hij : f.Matched i j) :
    (a ≤ i ∧ i < b) ↔ (a ≤ j ∧ j < b) := by
  have hlt := hij.lt
  induction h with
  | nil a => omega
  | @token a b k hk hopens hcloses h ih =>
    have hi := hf.ne_opening hij hk hopens
    have hj := hf.ne_closing hij hk hcloses
    have hle := h.le
    omega
  | @pair a b d hd h ih =>
    obtain ⟨_, hclose⟩ := hd.closer?
    obtain ⟨_, hclose'⟩ := hij.closer?
    have hcross := hf.laminar hclose hclose'
    have hkinds : i ≠ d ∧ j ≠ a := by
      constructor
      · rintro rfl
        exact absurd (hf.matched_inside hd hij hd.lt.1 (Nat.le_refl _)) (Nat.lt_asymm hlt.1)
      · rintro rfl
        exact absurd (hf.matched_inside hij hd hlt.1 (Nat.le_refl _)) (Nat.lt_asymm hd.lt.1)
    have hd' := hd.lt
    have hle := h.le
    simp only at hcross
    omega

/-- Partners of tokens in a tiled range stand in it. -/
theorem partner_inside (hf : f.IsRead) (h : f.Tiled a b) (hai : a ≤ i) (hib : i < b) (hij : f.partner? i = some j) :
    a ≤ j ∧ j < b := by
  rcases hf.partner?_iff.mp hij with hij | hji
  · exact (h.matched_inside hf hij).mp ⟨hai, hib⟩
  · exact (h.matched_inside hf hji).mpr ⟨hai, hib⟩

/-- A tiled range leaves open what was open before it. -/
theorem exists_pairs (hf : f.IsRead) (h : f.Tiled a b) {stack : List OpenBracket} (hstack : OpenBefore a stack) :
    ∃ ps, pairsFrom a stack ((f.tokens.toList.map Token.kind).drop a) =
      ps ++ pairsFrom b stack ((f.tokens.toList.map Token.kind).drop b) := by
  induction h with
  | nil => exact ⟨[], rfl⟩
  | @token a b k hk hopens hcloses _ ih =>
    obtain ⟨ps, hps⟩ := ih hstack.skip
    refine ⟨ps, ?_⟩
    rw [drop_kinds hk, pairsFrom, if_neg (by simp [hopens]), if_neg (by simp [hcloses]), hps]
  | @pair a b c hc _ ih =>
    obtain ⟨k, -, hk, -⟩ := hf.kinds_of_matched hc
    have hlt := hc.lt
    have hmem := (mem_pairsFrom_drop hstack (le_length_kinds hk) (Nat.le_refl a)).mpr (hf.matched_iff.mp hc)
    rw [drop_kinds hk, pairsFrom_open (hf.opens_of_matched hc hk)] at hmem ⊢
    have hpush : OpenBefore (a + 1) ([] ++ ⟨a, k⟩ :: stack) := hstack.push k
    obtain ⟨ps, -, hps⟩ := pairsFrom_until hpush hmem
    have hbefore : OpenBefore (c + 1) stack :=
      ⟨hstack.descending, fun b hb => Nat.lt_trans (hstack.before b hb) (Nat.lt_succ_of_lt hlt.1)⟩
    obtain ⟨ps', hps'⟩ := ih hbefore
    refine ⟨ps ++ ps', ?_⟩
    rw [List.nil_append] at hps
    rw [hps, List.drop_drop, show a + 1 + (c + 1 - (a + 1)) = c + 1 by omega, hps', List.append_assoc]

/-- Brackets of one kind with a tiled range between them are partners. -/
theorem matched (hf : f.IsRead) (h : f.Tiled (p + 1) q) (hp : f.kind? p = some k) (hq : f.kind? q = some k')
    (hclose : k.closer? = some k') : f.Matched p q := by
  have hopens : k.opens = true := by rw [Kind.opens, hclose, Option.isSome_some]
  obtain ⟨ps, hps⟩ := h.exists_pairs hf (OpenBefore.push (.nil p) k)
  rw [drop_kinds hq, pairsFrom_close hclose] at hps
  rw [hf.matched_iff, ← mem_pairsFrom_drop (.nil p) (le_length_kinds hp) (Nat.le_refl p), drop_kinds hp,
    pairsFrom_open hopens, hps]
  exact List.mem_append_right ps List.mem_cons_self

end Tiled

/-! ### Ranges inside braces -/

theorem ne_of_hasKind (hi : f.hasKind i k = true) (hj : f.hasKind j k' = true) (hne : k ≠ k') : i ≠ j :=
  ne_of_kind (eq_of_beq hi) hj hne

/-- The tokens from `i` on are those of a computed key, whatever its fourth token is. -/
structure ComputedKey (f : File) (i : Nat) : Prop where
  opening : f.hasKind i .lbracket = true
  word : f.hasWord (i + 1) "Symbol" = true
  dot : f.hasKind (i + 2) .dot = true
  closing : f.hasKind (i + 4) .rbracket = true

/-- The closing brace at `close` stands inside a computed key. -/
def Straddled (f : File) (close : Nat) : Prop := ∃ i, close = i + 3 ∧ f.ComputedKey i

/-- From token `a` to token `b` over tokens that open no bracket and close no brace, matched pairs and computed keys. -/
inductive Passage (f : File) : Nat → Nat → Prop
  | nil (a : Nat) : Passage f a a
  | token {a b : Nat} {k : Kind} (hk : f.kind? a = some k) (hopens : k.opens = false) (hbrace : k ≠ .rbrace)
      (h : Passage f (a + 1) b) : Passage f a b
  | pair {a b c : Nat} (hc : f.Matched a c) (h : Passage f (c + 1) b) : Passage f a b
  | computed {a b : Nat} (hkey : f.ComputedKey a) (h : Passage f (a + 5) b) : Passage f a b

namespace Passage

theorem trans (h : f.Passage a b) (h' : f.Passage b c) : f.Passage a c := by
  induction h with
  | nil => exact h'
  | token hk hopens hbrace _ ih => exact .token hk hopens hbrace (ih h')
  | pair hc _ ih => exact .pair hc (ih h')
  | computed hkey _ ih => exact .computed hkey (ih h')

theorem single (hk : f.kind? a = some k) (hopens : k.opens = false) (hbrace : k ≠ .rbrace) : f.Passage a (a + 1) :=
  .token hk hopens hbrace (.nil _)

theorem of_tiled (h : f.Tiled a b) : f.Passage a b := by
  induction h with
  | nil => exact .nil _
  | token hk hopens hcloses _ ih =>
    refine .token hk hopens ?_ ih
    rintro rfl
    cases hcloses
  | pair hc _ ih => exact .pair hc ih

theorem le (h : f.Passage a b) : a ≤ b := by
  induction h with
  | nil => exact Nat.le_refl _
  | token _ _ _ _ ih => omega
  | pair hc _ ih =>
    have hlt := hc.lt
    omega
  | computed _ _ ih => omega

/-- A closing brace is left behind only inside a computed key. -/
theorem le_brace (hf : f.IsRead) (h : f.Passage a b) (hc : f.Matched o c) (hbrace : f.hasKind c .rbrace = true) (hoa : o < a)
    (hac : a ≤ c) : b ≤ c ∨ f.Straddled c ∧ c + 2 ≤ b := by
  induction h with
  | nil => exact Or.inl hac
  | @token a b k hk _ hk' _ ih =>
    have hne := ne_of_kind hk hbrace hk'
    exact ih (by omega) (by omega)
  | @pair a b d hd _ ih =>
    have hlt := hf.matched_inside hc hd hoa hac
    have hd' := hd.lt
    exact ih (by omega) hlt
  | @computed a b hkey h ih =>
    have h0 := ne_of_hasKind hkey.opening hbrace (by decide)
    have h1 := ne_of_hasKind (hasKind_of_hasWord hkey.word) hbrace (by decide)
    have h2 := ne_of_hasKind hkey.dot hbrace (by decide)
    have h4 := ne_of_hasKind hkey.closing hbrace (by decide)
    by_cases h3 : a + 3 = c
    · have hle := h.le
      exact Or.inr ⟨⟨a, h3.symm, hkey⟩, by omega⟩
    · exact ih (by omega) (by omega)

/-- A computed key that the closing brace cuts in two is passed as a whole. -/
theorem past_brace (hf : f.IsRead) (h : f.Passage a b) (hc : f.Matched o c) (hoa : o < a) (hkey : f.ComputedKey i)
    (hi : c = i + 3) (hai : a ≤ i) : b ≤ i ∨ c + 2 ≤ b := by
  have hword := hasKind_of_hasWord hkey.word
  -- A pair that opens before the brace is closed before it, and no token of the key closes a bracket there.
  have hpair : ∀ {m d : Nat}, f.Matched m d → o < m → m ≤ i → d < i := by
    intro m d hd hom hmi
    have hdc := hf.matched_inside hc hd hom (by omega)
    have h0 := hf.ne_closing hd (eq_of_beq hkey.opening) rfl
    have h1 := hf.ne_closing hd (eq_of_beq hword) rfl
    have h2 := hf.ne_closing hd (eq_of_beq hkey.dot) rfl
    omega
  induction h with
  | nil => exact Or.inl hai
  | @token a b k hk hopens _ _ ih =>
    have hne : a ≠ i := ne_of_kind hk hkey.opening (by rintro rfl; cases hopens)
    exact ih (by omega) (by omega)
  | @pair a b d hd _ ih =>
    have hdi := hpair hd hoa hai
    have hd' := hd.lt
    exact ih (by omega) hdi
  | @computed a b hkey' h ih =>
    have hle := h.le
    have h1 := ne_of_hasKind (hasKind_of_hasWord hkey'.word) hkey.opening (by decide)
    have h2 := ne_of_hasKind hkey'.dot hkey.opening (by decide)
    have h3 := ne_of_hasKind hkey'.closing hword (by decide)
    have h4 := ne_of_hasKind hkey'.closing hkey.opening (by decide)
    by_cases heq : a = i
    · exact Or.inr (by omega)
    · exact ih (by omega) (by omega)

/-- What goes on at least to the closing brace ends there, unless a computed key is cut in two by it. -/
theorem eq_brace_iff (hf : f.IsRead) (h : f.Passage (o + 1) b) (hc : f.Matched o c) (hopen : f.hasKind o .lbrace = true)
    (hcb : c ≤ b) : (b = c ↔ ¬f.Straddled c) ∧ (f.Straddled c → c + 2 ≤ b) := by
  have hoc := hc.lt
  have hbeyond : f.Straddled c → c + 2 ≤ b := by
    rintro ⟨i, hi, hkey⟩
    have h0 := ne_of_hasKind hopen hkey.opening (by decide)
    have h1 := ne_of_hasKind hopen (hasKind_of_hasWord hkey.word) (by decide)
    have h2 := ne_of_hasKind hopen hkey.dot (by decide)
    have hpast := h.past_brace hf hc (Nat.lt_succ_self o) hkey hi (by omega)
    omega
  refine ⟨⟨fun heq hstraddled => ?_, fun hnot => ?_⟩, hbeyond⟩
  · have hle := hbeyond hstraddled
    omega
  · have hbrace := hf.rbrace_of_matched hc hopen
    have hle := (h.le_brace hf hc hbrace (Nat.lt_succ_self o) hoc.1).resolve_right fun hstraddled => hnot hstraddled.1
    exact Nat.le_antisymm hle hcb

/-- Lists of type arguments are passed, though they may hold stray closing brackets. -/
theorem of_anglesEnd? {depth : Nat} (h : f.anglesEnd? depth p = some q) : f.Passage p q := by
  fun_induction anglesEnd? f depth p with
  | case1 => cases h
  | case2 depth j k hk hlt ih =>
    obtain rfl := eq_of_beq hlt
    exact .token hk rfl (by decide) (ih h)
  | case3 depth j k hk _ hgt _ =>
    obtain rfl := eq_of_beq hgt
    cases h
    exact .single hk rfl (by decide)
  | case4 depth j k hk _ hgt _ ih =>
    obtain rfl := eq_of_beq hgt
    exact .token hk rfl (by decide) (ih h)
  | case5 => cases h
  | case6 depth j k hk _ _ _ _ d hd hclose ih => exact .pair (matched_of_closer? hclose) (ih h)
  | case7 => cases h
  | case8 depth j k hk _ _ hend hopens ih =>
    refine .token hk (Bool.eq_false_of_not_eq_true hopens) ?_ (ih h)
    rintro rfl
    exact hend rfl

theorem of_anglesFrom? (h : f.anglesFrom? p = some q) : f.Passage p q := by
  unfold anglesFrom? at h
  split at h
  · exact of_anglesEnd? h
  · cases h
    exact .nil _

end Passage

end File

end SchemaSplice.Source
