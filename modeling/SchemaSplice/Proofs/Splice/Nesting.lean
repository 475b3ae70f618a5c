import SchemaSplice.Proofs.Splice.Splicing
/-!
# Nesting of brackets and chains

Matched brackets do not cross. Chains and lists of type arguments step over matched brackets, so a chain that starts outside a
pair of parentheses has no token of its calls between them. A chain that starts inside leaves them only by a list of type
arguments that runs past their end, and without that no two chains share a call.
-/

namespace SchemaSplice.Source

namespace File

variable {f : File}

theorem IsRead.closes_of_closer? (hf : f.IsRead) {o : Nat} {c : { j : Nat // o < j ∧ j < f.size }}
    (h : f.closer? o = some c) : ∃ k, f.kind? c.1 = some k ∧ k.closes = true := by
  obtain ⟨k, k', -, hk', hclose⟩ := closer?_of_mem_pairsFrom rfl (by simp) (hf.mem_pairs_of_closer? h)
  rw [kinds_getElem?] at hk'
  exact ⟨k', hk', Kind.closes_of_closer? hclose⟩

/-- Matched brackets do not cross. -/
theorem IsRead.laminar (hf : f.IsRead) {o o' : Nat} {c : { j : Nat // o < j ∧ j < f.size }}
    {c' : { j : Nat // o' < j ∧ j < f.size }} (h : f.closer? o = some c) (h' : f.closer? o' = some c') :
    (o = o' ∧ c.1 = c'.1) ∨ c.1 < o' ∨ c'.1 < o ∨ (o' < o ∧ c.1 < c'.1) ∨ (o < o' ∧ c'.1 < c.1) := by
  rcases laminar_pairs (hf.mem_pairs_of_closer? h) (hf.mem_pairs_of_closer? h') with heq | hlater | hlater
  · rw [Prod.mk.injEq] at heq
    exact Or.inl heq
  all_goals
    unfold ClosesAfter at hlater
    omega

/-! ### Stepping over brackets -/

/-- Token `i` does not stand between the brackets at `o` and `c`, nor is it the closing one. -/
def Beyond (o c i : Nat) : Prop := i ≤ o ∨ c < i

variable {o : Nat} {c : { j : Nat // o < j ∧ j < f.size }}

/-- A matched bracket that is stepped over leads out of no pair. -/
theorem IsRead.beyond_closer (hf : f.IsRead) (hc : f.closer? o = some c) {j : Nat}
    {d : { k : Nat // j < k ∧ k < f.size }} (hd : f.closer? j = some d) (h : Beyond o c.1 j) :
    Beyond o c.1 (d.1 + 1) := by
  have hcross := hf.laminar hc hd
  have := c.2.1
  have := d.2.1
  unfold Beyond at h ⊢
  omega

theorem ne_of_kind {i j : Nat} {k k' : Kind} (hi : f.kind? i = some k) (hj : f.hasKind j k' = true) (hne : k ≠ k') :
    i ≠ j := by
  rintro rfl
  unfold hasKind at hj
  rw [hi, beq_iff_eq, Option.some.injEq] at hj
  exact hne hj

/-- A step over a token that opens no bracket. -/
theorem beyond_succ (hopen : f.hasKind o .lparen = true) {j : Nat} {k : Kind} (hk : f.kind? j = some k)
    (hopens : k ≠ .lparen) (h : Beyond o c.1 j) : Beyond o c.1 (j + 1) := by
  have hne := ne_of_kind hk hopen hopens
  unfold Beyond at h ⊢
  omega

theorem IsRead.beyond_anglesEnd? (hf : f.IsRead) (hopen : f.hasKind o .lparen = true) (hc : f.closer? o = some c)
    {depth j q : Nat} (h : f.anglesEnd? depth j = some q) (hj : Beyond o c.1 j) : Beyond o c.1 q := by
  have hstep : ∀ {j : Nat} {k : Kind}, f.kind? j = some k → k ≠ .lparen → Beyond o c.1 j → Beyond o c.1 (j + 1) :=
    beyond_succ hopen
  fun_induction anglesEnd? f depth j with
  | case1 => cases h
  | case2 depth j k hk hlt ih => exact ih h (hstep hk (by rintro rfl; cases hlt) hj)
  | case3 depth j k hk _ hgt _ =>
    cases h
    exact hstep hk (by rintro rfl; cases hgt) hj
  | case4 depth j k hk _ hgt _ ih => exact ih h (hstep hk (by rintro rfl; cases hgt) hj)
  | case5 => cases h
  | case6 depth j k hk _ _ _ _ d hlt hd ih => exact ih h (hf.beyond_closer hc hd hj)
  | case7 => cases h
  | case8 depth j k hk _ _ _ hopens ih => exact ih h (hstep hk (by rintro rfl; exact hopens rfl) hj)

theorem IsRead.beyond_anglesFrom? (hf : f.IsRead) (hopen : f.hasKind o .lparen = true) (hc : f.closer? o = some c)
    {j q : Nat} (h : f.anglesFrom? j = some q) (hj : Beyond o c.1 j) : Beyond o c.1 q := by
  unfold anglesFrom? at h
  split at h
  · exact hf.beyond_anglesEnd? hopen hc h hj
  · cases h
    exact hj

/-! ### Lists of type arguments -/

theorem anglesEnd?_of_kind {j : Nat} {k : Kind} (hk : f.kind? j = some k) (depth : Nat) :
    f.anglesEnd? depth j =
      if k == .lt then f.anglesEnd? (depth + 1) (j + 1)
      else if k == .gt then if depth ≤ 1 then some (j + 1) else f.anglesEnd? (depth - 1) (j + 1)
      else if k == .semi || k == .rbrace then none
      else if k.opens then
        match f.closer? j with
        | some d => f.anglesEnd? depth (d.1 + 1)
        | none => none
      else f.anglesEnd? depth (j + 1) := by
  rw [anglesEnd?]
  split
  · next hnone =>
    rw [hk] at hnone
    cases hnone
  · next k' hk' =>
    rw [hk] at hk'
    cases hk'
    cases f.closer? j with
    | none => rfl
    | some d => rfl

/-- Lists of type arguments go on over words and dots. -/
theorem anglesEnd?_of_plain {j : Nat} {k : Kind} (hj : f.hasKind j k = true)
    (hplain : k = .ident ∨ k = .dot ∨ k = .questionDot) (depth : Nat) :
    f.anglesEnd? depth j = f.anglesEnd? depth (j + 1) := by
  unfold hasKind at hj
  rw [beq_iff_eq] at hj
  rw [anglesEnd?_of_kind hj]
  rcases hplain with rfl | rfl | rfl
  all_goals rfl

theorem anglesEnd?_of_closer {j : Nat} (hj : f.hasKind j .lparen = true) {d : { k : Nat // j < k ∧ k < f.size }}
    (hd : f.closer? j = some d) (depth : Nat) : f.anglesEnd? depth j = f.anglesEnd? depth (d.1 + 1) := by
  unfold hasKind at hj
  rw [beq_iff_eq] at hj
  rw [anglesEnd?_of_kind hj, hd]
  rfl

/-- Where an inner list ends, the lists around it go on. -/
theorem anglesEnd?_add {depth outer j q : Nat} (hdepth : 0 < depth) (houter : 0 < outer)
    (h : f.anglesEnd? depth j = some q) : f.anglesEnd? (depth + outer) j = f.anglesEnd? outer q := by
  fun_induction anglesEnd? f depth j with
  | case1 => cases h
  | case2 depth j k hk hlt ih =>
    rw [anglesEnd?_of_kind hk, if_pos hlt, ← ih (Nat.succ_pos _) h]
    congr 1
    omega
  | case3 depth j k hk hlt hgt hle =>
    cases h
    rw [anglesEnd?_of_kind hk, if_neg hlt, if_pos hgt, if_neg (by omega)]
    congr 1
    omega
  | case4 depth j k hk hlt hgt hle ih =>
    rw [anglesEnd?_of_kind hk, if_neg hlt, if_pos hgt, if_neg (by omega), ← ih (by omega) h]
    congr 1
    omega
  | case5 => cases h
  | case6 depth j k hk hlt hgt hstop hopens d hd hcloser ih =>
    rw [anglesEnd?_of_kind hk, if_neg hlt, if_neg hgt, if_neg hstop, if_pos hopens, hcloser]
    exact ih hdepth h
  | case7 => cases h
  | case8 depth j k hk hlt hgt hstop hopens ih =>
    rw [anglesEnd?_of_kind hk, if_neg hlt, if_neg hgt, if_neg hstop, if_neg hopens]
    exact ih hdepth h

theorem anglesEnd?_of_lt {j : Nat} (hj : f.hasKind j .lt = true) (depth : Nat) :
    f.anglesEnd? depth j = f.anglesEnd? (depth + 1) (j + 1) := by
  unfold hasKind at hj
  rw [beq_iff_eq] at hj
  rw [anglesEnd?_of_kind hj]
  rfl

/-- A list of type arguments goes on over an optional list in it. -/
theorem anglesEnd?_of_anglesFrom? {outer j q : Nat} (houter : 0 < outer) (h : f.anglesFrom? j = some q) :
    f.anglesEnd? outer j = f.anglesEnd? outer q := by
  unfold anglesFrom? at h
  split at h
  · next hlt =>
    rw [anglesEnd?_of_lt hlt] at h
    rw [anglesEnd?_of_lt hlt, Nat.add_comm outer 1]
    exact anglesEnd?_add Nat.one_pos houter h
  · cases h
    rfl

/-- A word inside a list of type arguments stands in the list itself or between brackets that are stepped over. -/
theorem IsRead.word_in_angles (hf : f.IsRead) {depth j q r : Nat} (hr : f.hasKind r .ident = true) (hdepth : 0 < depth)
    (h : f.anglesEnd? depth j = some q) (hle : j ≤ r) (hlt : r < q) :
    (∃ inner, 0 < inner ∧ f.anglesEnd? inner (r + 1) = some q) ∨
      ∃ a, ∃ d : { k : Nat // a < k ∧ k < f.size }, f.closer? a = some d ∧ j ≤ a ∧ a < r ∧ r < d.1 ∧ d.1 < q := by
  have hword : ∀ {j : Nat} {k : Kind}, f.kind? j = some k → k ≠ .ident → j ≠ r := fun hk hne => ne_of_kind hk hr hne
  fun_induction anglesEnd? f depth j with
  | case1 => cases h
  | case2 depth j k hk hlt' ih =>
    have hne := hword hk (by rintro rfl; cases hlt')
    rcases ih (Nat.succ_pos _) h (by omega) with hinner | ⟨a, d, hd, hja, hrest⟩
    · exact Or.inl hinner
    · exact Or.inr ⟨a, d, hd, by omega, hrest⟩
  | case3 depth j k hk hlt' hgt hle' =>
    have hne := hword hk (by rintro rfl; cases hgt)
    cases h
    omega
  | case4 depth j k hk hlt' hgt hle' ih =>
    have hne := hword hk (by rintro rfl; cases hgt)
    rcases ih (by omega) h (by omega) with hinner | ⟨a, d, hd, hja, hrest⟩
    · exact Or.inl hinner
    · exact Or.inr ⟨a, d, hd, by omega, hrest⟩
  | case5 => cases h
  | case6 depth j k hk hlt' hgt hstop hopens d hd hcloser ih =>
    have hne := hword hk (by rintro rfl; cases hopens)
    have hend := lt_of_anglesEnd? h
    by_cases hinside : r < d
    · exact Or.inr ⟨j, ⟨d, hd⟩, hcloser, Nat.le_refl j, by omega, hinside, by show d < q; omega⟩
    · obtain ⟨k', hk', hcloses⟩ := hf.closes_of_closer? hcloser
      have hne' : d ≠ r := hword hk' (by rintro rfl; cases hcloses)
      rcases ih hdepth h (by omega) with hinner | ⟨a, d', hd', hja, hrest⟩
      · exact Or.inl hinner
      · exact Or.inr ⟨a, d', hd', by omega, hrest⟩
  | case7 => cases h
  | case8 depth j k hk hlt' hgt hstop hopens ih =>
    rcases Nat.lt_or_eq_of_le hle with hlt'' | rfl
    · rcases ih hdepth h hlt'' with hinner | ⟨a, d, hd, hja, hrest⟩
      · exact Or.inl hinner
      · exact Or.inr ⟨a, d, hd, by omega, hrest⟩
    · exact Or.inl ⟨depth, hdepth, h⟩

end File

end SchemaSplice.Source

namespace SchemaSplice.Chain

open Source

variable {f : File}

/-- Token `i` stands between the parentheses of a call. -/
def Segment.Holds (s : Segment) (i : Nat) : Prop := s.lparen < i ∧ i < s.rparen

instance (s : Segment) (i : Nat) : Decidable (s.Holds i) := inferInstanceAs (Decidable (_ ∧ _))

def Segment.Matched (f : File) (s : Segment) : Prop :=
  ∃ c : { j : Nat // s.lparen < j ∧ j < f.size }, f.closer? s.lparen = some c ∧ c.1 = s.rparen

theorem closer?_of_parens? {i : Nat} {q : { q : Nat × Nat // i ≤ q.1 ∧ q.1 < q.2 ∧ q.2 < f.size }}
    (h : f.parens? i = some q) :
    f.anglesFrom? i = some q.1.1 ∧ f.hasKind q.1.1 .lparen = true ∧ f.closer? q.1.1 = some ⟨q.1.2, q.2.2⟩ := by
  unfold File.parens? at h
  split at h
  · cases h
  · next o hangles =>
    split at h
    · next hopen =>
      split at h
      · cases h
      · next c hc hcloser =>
        cases h
        exact ⟨hangles, hopen, hcloser⟩
    · cases h

theorem matched_of_mem_segmentsFrom {i : Nat} : ∀ s ∈ segmentsFrom f i, s.Matched f ∧ i ≤ s.dot ∧ s.dot < s.lparen := by
  fun_induction segmentsFrom f i with
  | case1 i hdot name lparen rparen hlt hparens hname ih =>
    intro s hs
    rcases List.mem_cons.mp hs with rfl | hs
    · exact ⟨⟨_, (closer?_of_parens? hparens).2.2, rfl⟩, Nat.le_refl _, by show i < lparen; omega⟩
    · obtain ⟨hmatched, hle, hlt'⟩ := ih s hs
      exact ⟨hmatched, by omega, hlt'⟩
  | case2 => simp
  | case3 => simp

/-- A chain that goes on outside a pair of parentheses has no call between them. -/
theorem beyond_of_mem_segmentsFrom (hf : f.IsRead) {o : Nat} {c : { j : Nat // o < j ∧ j < f.size }}
    (hopen : f.hasKind o .lparen = true) (hc : f.closer? o = some c) {i : Nat} (hi : File.Beyond o c.1 i) :
    ∀ s ∈ segmentsFrom f i, File.Beyond o c.1 s.dot ∧ File.Beyond o c.1 s.lparen ∧ File.Beyond o c.1 (s.rparen + 1) := by
  fun_induction segmentsFrom f i with
  | case1 i hdot name lparen rparen hlt hparens hname ih =>
    obtain ⟨hangles, -, hd⟩ := closer?_of_parens? hparens
    have hname' : File.Beyond o c.1 (i + 1) := by
      rw [Bool.or_eq_true] at hdot
      rcases hdot with hdot | hdot
      all_goals
        obtain ⟨t, ht, hk⟩ := exists_token_of_hasKind hdot
        refine File.beyond_succ hopen (k := t.kind) ?_ (by rw [hk]; decide) hi
        unfold File.kind?
        rw [ht]
        rfl
    have hangles' : File.Beyond o c.1 (i + 2) := by
      unfold File.word? at hname
      split at hname
      · next hident =>
        refine File.beyond_succ hopen (k := .ident) ?_ (by decide) hname'
        unfold File.hasKind at hident
        rwa [beq_iff_eq] at hident
      · cases hname
    have hlparen := hf.beyond_anglesFrom? hopen hc hangles hangles'
    have hnext := hf.beyond_closer hc hd hlparen
    intro s hs
    rcases List.mem_cons.mp hs with rfl | hs
    · exact ⟨hi, hlparen, hnext⟩
    · exact ih hnext s hs
  | case2 => simp
  | case3 => simp

/-! ### Chains that meet -/

/-- The type arguments of a call run past the end of brackets that were opened before the call. -/
def Segment.Overruns (f : File) (s : Segment) : Prop :=
  ∃ a, ∃ d : { j : Nat // a < j ∧ j < f.size }, f.closer? a = some d ∧ a < s.dot ∧ s.dot < d.1 ∧ d.1 < s.lparen

theorem hasKind_of_word? {i : Nat} {w : String} (h : f.word? i = some w) : f.hasKind i .ident = true := by
  unfold File.word? at h
  split at h
  · assumption
  · cases h

/-- A list of type arguments goes on over a chain in it. -/
theorem anglesEnd?_of_mem_segmentsFrom {outer i : Nat} (houter : 0 < outer) :
    ∀ s ∈ segmentsFrom f i, f.anglesEnd? outer i = f.anglesEnd? outer s.lparen := by
  fun_induction segmentsFrom f i with
  | case1 i hdot name lparen rparen hlt hparens hname ih =>
    obtain ⟨hangles, hopen, hcloser⟩ := closer?_of_parens? hparens
    have hstart : f.anglesEnd? outer i = f.anglesEnd? outer lparen := by
      rw [Bool.or_eq_true] at hdot
      have hnext : f.anglesEnd? outer i = f.anglesEnd? outer (i + 1) := by
        rcases hdot with hdot | hdot
        · exact File.anglesEnd?_of_plain hdot (Or.inr (Or.inl rfl)) outer
        · exact File.anglesEnd?_of_plain hdot (Or.inr (Or.inr rfl)) outer
      rw [hnext, File.anglesEnd?_of_plain (hasKind_of_word? hname) (Or.inl rfl)]
      exact File.anglesEnd?_of_anglesFrom? houter hangles
    intro s hs
    rcases List.mem_cons.mp hs with rfl | hs
    · exact hstart
    · rw [← ih s hs, hstart]
      exact File.anglesEnd?_of_closer hopen hcloser outer
  | case2 => simp
  | case3 => simp

/-- A chain that starts between brackets and goes on after them has a call whose type arguments run past them. -/
theorem overruns_of_mem_segmentsFrom (hf : f.IsRead) {a : Nat} {d : { j : Nat // a < j ∧ j < f.size }}
    (hd : f.closer? a = some d) {i : Nat} (hafter : a < i) (hbefore : i ≤ d.1) {s : Segment} (hs : s ∈ segmentsFrom f i)
    (hlt : d.1 < s.lparen) : ∃ s' ∈ segmentsFrom f i, s'.Overruns f := by
  fun_induction segmentsFrom f i with
  | case1 i hdot name lparen rparen hlt' hparens hname ih =>
    obtain ⟨-, -, hcloser⟩ := closer?_of_parens? hparens
    have hcross := hf.laminar hd hcloser
    simp only at hlt' hcross
    by_cases hover : d.1 < lparen
    · refine ⟨_, List.mem_cons_self, a, d, hd, hafter, ?_, hover⟩
      obtain ⟨k, hk, hcloses⟩ := hf.closes_of_closer? hd
      have hne : d.1 ≠ i := by
        rw [Bool.or_eq_true] at hdot
        rcases hdot with hdot | hdot
        all_goals exact File.ne_of_kind hk hdot (by rintro rfl; cases hcloses)
      show i < d.1
      omega
    · -- The call stands between the brackets as a whole.
      rcases List.mem_cons.mp hs with rfl | hs
      · exact absurd hlt hover
      · obtain ⟨s', hs', hover'⟩ := ih (by omega) (by omega) hs
        exact ⟨s', List.mem_cons_of_mem _ hs', hover'⟩
  | case2 => cases hs
  | case3 => cases hs

/-- A word between the calls of a chain, with a dot after it, stands in a list of type arguments or between brackets that
are stepped over. -/
theorem word_in_chain (hf : f.IsRead) {r : Nat} (hr : f.hasKind r .ident = true)
    (hdot : f.hasKind (r + 1) .dot = true ∨ f.hasKind (r + 1) .questionDot = true) {i : Nat} (hle : i ≤ r) {s : Segment}
    (hs : s ∈ segmentsFrom f i) (hlt : r < s.lparen) :
    (∃ inner q, 0 < inner ∧ f.anglesEnd? inner (r + 1) = some q ∧ q ≤ s.lparen) ∨
      ∃ a, ∃ d : { k : Nat // a < k ∧ k < f.size }, f.closer? a = some d ∧ a < r ∧ r < d.1 ∧ d.1 < s.lparen := by
  fun_induction segmentsFrom f i with
  | case1 i hdot' name lparen rparen hlt' hparens hname ih =>
    obtain ⟨hangles, hopen, hcloser⟩ := closer?_of_parens? hparens
    simp only at hlt' hangles hcloser
    have hne : ∀ {j : Nat} {k : Kind}, f.hasKind j k = true → k ≠ .ident → r ≠ j := fun hj hk =>
      File.ne_of_kind (beq_iff_eq.mp hr) hj hk.symm
    have hfirst : lparen ≤ s.lparen := by
      rcases List.mem_cons.mp hs with rfl | hs
      · exact Nat.le_refl _
      · obtain ⟨-, hdot', hlparen⟩ := matched_of_mem_segmentsFrom s hs
        omega
    rcases Nat.lt_trichotomy r lparen with hbefore | rfl | hafter
    · -- The word stands among the type arguments of the first call.
      have hi : r ≠ i := by
        rw [Bool.or_eq_true] at hdot'
        rcases hdot' with hdot' | hdot'
        · exact hne hdot' (by decide)
        · exact hne hdot' (by decide)
      unfold File.anglesFrom? at hangles
      split at hangles
      · next hangle =>
        have hi' : r ≠ i + 1 := by
          rintro rfl
          rcases hdot with hdot | hdot
          all_goals exact File.ne_of_kind (beq_iff_eq.mp hangle) hdot (by decide) rfl
        have hi'' := hne hangle (by decide)
        rw [File.anglesEnd?_of_lt hangle] at hangles
        rcases hf.word_in_angles hr Nat.one_pos hangles (by omega) hbefore with
          ⟨inner, hinner, hend⟩ | ⟨a, d, hd, -, har, hrd, hdl⟩
        · exact Or.inl ⟨inner, lparen, hinner, hend, hfirst⟩
        · exact Or.inr ⟨a, d, hd, har, hrd, by omega⟩
      · cases hangles
        have hi' : r = i + 1 := by omega
        subst hi'
        rcases hdot with hdot | hdot
        all_goals exact absurd rfl (File.ne_of_kind (beq_iff_eq.mp hopen) hdot (by decide))
    · exact absurd rfl (hne hopen (by decide))
    · rcases List.mem_cons.mp hs with rfl | hs
      · exact absurd hlt (Nat.lt_asymm hafter)
      obtain ⟨-, hdot', hlparen⟩ := matched_of_mem_segmentsFrom s hs
      obtain ⟨k, hk, hcloses⟩ := hf.closes_of_closer? hcloser
      have hclose : rparen ≠ r := File.ne_of_kind hk hr (by rintro rfl; cases hcloses)
      by_cases hinside : r < rparen
      · exact Or.inr ⟨lparen, _, hcloser, hafter, hinside, by show rparen < s.lparen; omega⟩
      · exact ih (by omega) hs
  | case2 => cases hs
  | case3 => cases hs

/-- Two chains share a call only if type arguments in the later one run past the end of brackets. -/
theorem overruns_of_shared (hf : f.IsRead) {root root' : Nat} (hroot : f.hasKind root' .ident = true)
    (hlt : root < root') {s s' : Segment} (hs : s ∈ segmentsFrom f (root + 1)) (hs' : s' ∈ segmentsFrom f (root' + 1))
    (hsame : s.lparen = s'.lparen) : ∃ o ∈ segmentsFrom f (root' + 1), o.Overruns f := by
  obtain ⟨-, hdot', hlparen'⟩ := matched_of_mem_segmentsFrom s' hs'
  have hdot : f.hasKind (root' + 1) .dot = true ∨ f.hasKind (root' + 1) .questionDot = true := by
    unfold segmentsFrom at hs'
    split at hs'
    · next hdot => exact (Bool.or_eq_true _ _).mp hdot
    · cases hs'
  rcases word_in_chain hf hroot hdot (i := root + 1) (by omega) hs (by omega) with
    ⟨inner, q, hinner, hend, hle⟩ | ⟨a, d, hd, har, hrd, hds⟩
  · -- The list that holds the later chain ends after each of its calls.
    rw [anglesEnd?_of_mem_segmentsFrom hinner s' hs'] at hend
    have := File.lt_of_anglesEnd? hend
    omega
  · exact overruns_of_mem_segmentsFrom hf hd (by omega) (by omega) hs' (by omega)

end SchemaSplice.Chain
