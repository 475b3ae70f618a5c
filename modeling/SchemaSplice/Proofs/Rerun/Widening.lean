import SchemaSplice.Proofs.Splice.Imports
import SchemaSplice.Proofs.Splice.Walks
/-!
# Tokens between tokens

A file gets runs of tokens inserted that leave the brackets around them matched as they are. Scanning steps over a run wherever it
comes across one, so extents stay what they were, at the places that their tokens have moved to. A run that may be come across
stands after a dot that a chain goes on with, and is a call with a dot after it, or stands between parentheses that had nothing
between them.
-/

namespace SchemaSplice.Source.File

variable {f f' : File} {place : Nat → Nat} {words : List String} {i j o c : Nat} {k : Kind}

/-- The tokens of one file stand in the other one in their order, with runs of tokens between them, and their brackets are matched
as before. -/
structure Widened (f f' : File) (place : Nat → Nat) : Prop where
  closes : ∀ {o : Nat} {c : { j : Nat // o < j ∧ j < f.size }}, f.closer? o = some c →
    ∃ k, f.kind? c.1 = some k ∧ k.closes = true
  mono : StrictMono place
  kind?_eq : ∀ i, f'.kind? (place i) = f.kind? i
  tokenText_eq : ∀ i, f'.tokenText (place i) = f.tokenText i
  map_closer? : ∀ o, (f'.closer? (place o)).map (·.1) = (f.closer? o).map fun c => place c.1

/-- A file is itself with nothing inserted. -/
theorem IsRead.widened (hf : f.IsRead) : Widened f f id :=
  ⟨hf.closes_of_closer?, strictMono_id, fun _ => rfl, fun _ => rfl, fun _ => rfl⟩

namespace Widened

/-! ### Places -/

theorem place_le_place (h : Widened f f' place) (hij : i ≤ j) : place i ≤ place j := h.mono.monotone hij

theorem place_lt_place (h : Widened f f' place) (hij : i < j) : place i < place j := h.mono hij

theorem place_beq (h : Widened f f' place) (i j : Nat) : (place i == place j) = (i == j) := by
  rw [Bool.eq_iff_iff, beq_iff_eq, beq_iff_eq]
  exact h.mono.injective.eq_iff

/-! ### Tokens -/

theorem hasKind_eq (h : Widened f f' place) (i : Nat) (k : Kind) : f'.hasKind (place i) k = f.hasKind i k := by
  rw [hasKind, hasKind, h.kind?_eq]

theorem hasKind_iff (h : Widened f f' place) (i : Nat) (k : Kind) :
    f'.hasKind (place i) k = true ↔ f.hasKind i k = true := by
  rw [h.hasKind_eq]

theorem word?_eq (h : Widened f f' place) (i : Nat) : f'.word? (place i) = f.word? i := by
  rw [word?, word?, h.hasKind_eq, h.tokenText_eq]

theorem hasWord_eq (h : Widened f f' place) (i : Nat) (w : String) : f'.hasWord (place i) w = f.hasWord i w := by
  rw [hasWord, hasWord, h.word?_eq]

theorem hasWord_iff (h : Widened f f' place) (i : Nat) (w : String) :
    f'.hasWord (place i) w = true ↔ f.hasWord i w = true := by
  rw [h.hasWord_eq]

theorem size_le (h : Widened f f' place) : f'.size ≤ place f.size := by
  apply Nat.le_of_not_lt
  intro hlt
  have hkind := h.kind?_eq f.size
  obtain ⟨t, ht⟩ : ∃ t, f'.tokens[place f.size]? = some t := ⟨_, Array.getElem?_eq_getElem hlt⟩
  have hend : f.tokens[f.size]? = none := Array.getElem?_eq_none (Nat.le_refl _)
  rw [kind?, kind?, ht, hend] at hkind
  cases hkind

theorem closer?_eq_none (h : Widened f f' place) (ho : f.closer? o = none) : f'.closer? (place o) = none := by
  have hsame := h.map_closer? o
  rwa [ho, Option.map_none, Option.map_eq_none_iff] at hsame

theorem closer?_eq_some (h : Widened f f' place) {c : { j : Nat // o < j ∧ j < f.size }} (hc : f.closer? o = some c) :
    ∃ c', f'.closer? (place o) = some c' ∧ c'.1 = place c.1 := by
  have hsame := h.map_closer? o
  rw [hc] at hsame
  exact Option.map_eq_some_iff.mp hsame

theorem closer?_eq_none_of_eq (h : Widened f f' place) {o' : Nat} (ho' : o' = place o) (ho : f.closer? o = none) :
    f'.closer? o' = none := by
  subst ho'
  exact h.closer?_eq_none ho

theorem closer?_eq_some_of_eq (h : Widened f f' place) {o' : Nat} (ho' : o' = place o)
    {c : { j : Nat // o < j ∧ j < f.size }} (hc : f.closer? o = some c) :
    ∃ c', f'.closer? o' = some c' ∧ c'.1 = place c.1 := by
  subst ho'
  exact h.closer?_eq_some hc

end Widened

/-! ### The token before a run -/

/-- A run stands after the dot at token `i`, which follows a word or a call: it is a call of `output`, with a dot after it. A word
before the dot is one of `words`, and a call follows it. -/
structure AfterDot (f f' : File) (place : Nat → Nat) (words : List String) (i : Nat) : Prop where
  dot : f.hasKind i .dot = true
  before : ∀ j, j + 1 = i → f.hasKind j .ident = true ∨ f.hasKind j .rparen = true
  name : f'.word? (place i + 1) = some "output"
  lparen : f'.hasKind (place i + 2) .lparen = true
  dot' : ∃ c, (f'.closer? (place i + 2)).map (·.1) = some c ∧ f'.hasKind (c + 1) .dot = true ∧ c + 2 = place (i + 1)
  word : ∀ j w, j + 1 = i → f.word? j = some w → w ∈ words ∧ Chain.segmentsFrom f i ≠ []

theorem AfterDot.after_word (h : AfterDot f f' place words i) {w : String} (hj : j + 1 = i) (hw : f.word? j = some w) :
    w ∈ words ∧ f.hasKind (i + 1) .ident = true ∧ (f.hasKind (i + 2) .lparen = true ∨ f.hasKind (i + 2) .lt = true) := by
  obtain ⟨hmem, hcalls⟩ := h.word j w hj hw
  obtain ⟨s, ss, hss⟩ := List.exists_cons_of_ne_nil hcalls
  obtain ⟨hcall, rfl, -⟩ := Chain.callAt_of_segmentsFrom hss
  refine ⟨hmem, Chain.hasKind_of_word? hcall.word, ?_⟩
  have hangles := hcall.angles
  unfold anglesFrom? at hangles
  split at hangles
  · next hlt => exact Or.inr hlt
  · rw [Option.some.inj hangles]
    exact Or.inl hcall.lparen

/-- A run stands between the parenthesis at token `i` and the one that closes it, after the name of a call or its type
arguments. -/
structure InParens (f : File) (place : Nat → Nat) (i : Nat) : Prop where
  gap : place (i + 1) ≠ place i + 1
  lparen : f.hasKind i .lparen = true
  closer : (f.closer? i).map (·.1) = some (i + 1)
  before : ∃ j, j + 1 = i ∧ (f.word? j = some "output" ∨ f.hasKind j .gt = true)

/-- What follows token `i` can be scanned in both files: the runs that come later on are such that are stepped over. -/
def Seen (f f' : File) (place : Nat → Nat) (words : List String) (i : Nat) : Prop :=
  ∀ j, i ≤ j → place (j + 1) = place j + 1 ∨ AfterDot f f' place words j ∨ InParens f place j

theorem Seen.mono (h : Seen f f' place words i) (hij : i ≤ j) : Seen f f' place words j :=
  fun k hk => h k (Nat.le_trans hij hk)

/-- The next token stands next in both files, unless a run is between. -/
theorem Seen.place_succ (h : Seen f f' place words i) :
    place (i + 1) = place i + 1 ∨ AfterDot f f' place words i ∨ InParens f place i :=
  h i (Nat.le_refl i)

theorem Seen.place_succ_of_kind (h : Seen f f' place words i) (hk : f.kind? i = some k) (hdot : k ≠ .dot)
    (hlparen : k ≠ .lparen) : place (i + 1) = place i + 1 := by
  rcases h.place_succ with hsucc | hgap | hgap
  · exact hsucc
  · exact absurd rfl (ne_of_kind hk hgap.dot hdot)
  · exact absurd rfl (ne_of_kind hk hgap.lparen hlparen)

def isSteady (k : Kind) : Bool := k != .dot && k != .lparen

theorem Seen.succ (h : Seen f f' place words i) (hi : f.hasKind i k = true) (hk : isSteady k = true) :
    place (i + 1) = place i + 1 := by
  rw [isSteady, Bool.and_eq_true, bne_iff_ne, bne_iff_ne] at hk
  exact h.place_succ_of_kind (beq_iff_eq.mp hi) hk.1 hk.2

theorem Seen.succ_of_word {w : String} (h : Seen f f' place words i) (hi : f.hasWord i w = true) :
    place (i + 1) = place i + 1 :=
  h.succ (hasKind_of_hasWord hi) rfl

theorem Seen.place_succ_of_none (h : Seen f f' place words i) (hk : f.kind? i = none) :
    place (i + 1) = place i + 1 := by
  have hno : ∀ k, f.hasKind i k = true → False := by
    intro k hk'
    rw [hasKind, hk] at hk'
    cases hk'
  rcases h.place_succ with hsucc | hgap | hgap
  · exact hsucc
  · exact absurd hgap.dot (hno _)
  · exact absurd hgap.lparen (hno _)

/-- A closing bracket has the same token after it in both files. -/
theorem Seen.place_succ_of_closer (h : Seen f f' place words i) (hw : Widened f f' place)
    {c : { j : Nat // i < j ∧ j < f.size }} (hc : f.closer? i = some c) :
    place (c.1 + 1) = place c.1 + 1 := by
  obtain ⟨k, hk, hcloses⟩ := hw.closes hc
  exact (h.mono (Nat.le_of_lt c.2.1)).place_succ_of_kind hk (by rintro rfl; cases hcloses) (by rintro rfl; cases hcloses)

/-- A type may be read from token `i` on in both files: what follows can be scanned, and the token is no parenthesis with the run
after it. -/
structure Enters (f f' : File) (place : Nat → Nat) (words : List String) (i : Nat) : Prop where
  seen : Seen f f' place words i
  not_inParens : ¬InParens f place i

theorem Enters.succ (h : Enters f f' place words i) (hi : f.hasKind i .lparen = true) :
    place (i + 1) = place i + 1 := by
  rcases h.seen.place_succ with hsucc | hgap | hgap
  · exact hsucc
  · exact absurd rfl (ne_of_kind (beq_iff_eq.mp hi) hgap.dot (by decide))
  · exact absurd hgap h.not_inParens

/-- A type may be read after anything but a word or a list of type arguments. -/
theorem Seen.enters_succ (h : Seen f f' place words i) (hi : f.hasKind i k = true)
    (hk : (k != .ident && k != .gt) = true) : Enters f f' place words (i + 1) := by
  refine ⟨h.mono (Nat.le_succ i), fun hgap => ?_⟩
  rw [Bool.and_eq_true, bne_iff_ne, bne_iff_ne] at hk
  obtain ⟨j, hj, hbefore⟩ := hgap.before
  obtain rfl : j = i := Nat.succ.inj hj
  rcases hbefore with hword | hgt
  · rw [word?] at hword
    split at hword
    · next hident => exact ne_of_kind (beq_iff_eq.mp hi) hident hk.1 rfl
    · cases hword
  · exact ne_of_kind (beq_iff_eq.mp hi) hgt hk.2 rfl

/-- A type may be read after a word that is no `output`. -/
theorem Seen.enters_succ_of_word {w : String} (h : Seen f f' place words i) (hi : f.hasWord i w = true)
    (hw : (w != "output") = true) : Enters f f' place words (i + 1) := by
  refine ⟨h.mono (Nat.le_succ i), fun hgap => ?_⟩
  rw [bne_iff_ne] at hw
  obtain ⟨j, hj, hbefore⟩ := hgap.before
  obtain rfl : j = i := Nat.succ.inj hj
  rcases hbefore with hword | hgt
  · rw [hasWord, hword, beq_iff_eq] at hi
    exact hw (Option.some.inj hi).symm
  · exact ne_of_kind (beq_iff_eq.mp (hasKind_of_hasWord hi)) hgt (by decide) rfl

/-! ### Scanning -/

/-- A scan of a file steps over words, dots and matched parentheses, up to token `stop`. -/
structure StepsOver {α : Type} (f : File) (scan : Nat → α) (stop : Nat) : Prop where
  word : ∀ i, i < stop → f.hasKind i .ident = true → scan i = scan (i + 1)
  dot : ∀ i, i < stop → f.hasKind i .dot = true → scan i = scan (i + 1)
  parens : ∀ i c, i < stop → f.hasKind i .lparen = true → (f.closer? i).map (·.1) = some c → scan i = scan (c + 1)

/-- Where the run comes next, the scan goes on after it. -/
theorem StepsOver.place_succ {α : Type} {scan : Nat → α} {stop : Nat} (hscan : StepsOver f' scan stop)
    (h : Seen f f' place words i) (hi : place (i + 1) ≤ stop) (hne : f.hasKind i .lparen = false) :
    scan (place i + 1) = scan (place (i + 1)) := by
  rcases h.place_succ with hsucc | hgap | hgap
  · rw [hsucc]
  · obtain ⟨c, hc, hdot, hnext⟩ := hgap.dot'
    obtain ⟨d, -, hd⟩ := Option.map_eq_some_iff.mp hc
    have hlt := d.2.1
    rw [hscan.word _ (by omega) (Chain.hasKind_of_word? hgap.name), hscan.parens _ _ (by omega) hgap.lparen hc,
      hscan.dot _ (by omega) hdot, hnext]
  · rw [hgap.lparen] at hne
    cases hne

theorem expressionEnd_of_kind (hk : f.kind? i = some k) :
    f.expressionEnd i =
      if k == .comma || k == .semi || k.closes then i
      else if k.opens then
        match f.closer? i with
        | some ⟨j, _⟩ => f.expressionEnd (j + 1)
        | none => f.expressionEnd (i + 1)
      else f.expressionEnd (i + 1) := by
  rw [expressionEnd]
  split
  · next hnone =>
    rw [hk] at hnone
    cases hnone
  · next k' hk' =>
    obtain rfl : k = k' := Option.some.inj (hk.symm.trans hk')
    rfl

theorem expressionEnd_of_none (hk : f.kind? i = none) : f.expressionEnd i = i := by
  rw [expressionEnd]
  split
  · rfl
  · next hk' =>
    rw [hk] at hk'
    cases hk'

theorem stepsOver_expressionEnd (f : File) (stop : Nat) : StepsOver f f.expressionEnd stop := by
  refine ⟨fun i _ hi => ?_, fun i _ hi => ?_, fun i c _ hi hc => ?_⟩
  · rw [expressionEnd_of_kind (beq_iff_eq.mp hi)]
    rfl
  · rw [expressionEnd_of_kind (beq_iff_eq.mp hi)]
    rfl
  · obtain ⟨d, hd, rfl⟩ := Option.map_eq_some_iff.mp hc
    rw [expressionEnd_of_kind (beq_iff_eq.mp hi), hd]
    rfl

theorem hasKind_unique {k' : Kind} (hk : f.hasKind i k = true) (hk' : f.hasKind i k' = true) : k = k' := by
  rw [hasKind, beq_iff_eq] at hk hk'
  rw [hk] at hk'
  exact Option.some.inj hk'

theorem hasKind_eq_false (hk : f.kind? i = some k) {k' : Kind} (hne : k ≠ k') : f.hasKind i k' = false := by
  rw [hasKind, hk]
  simpa using hne

theorem stepsOver_anglesEnd? (f : File) (depth stop : Nat) : StepsOver f (f.anglesEnd? depth) stop := by
  refine ⟨fun i _ hi => anglesEnd?_of_plain hi (Or.inl rfl) depth,
    fun i _ hi => anglesEnd?_of_plain hi (Or.inr (Or.inl rfl)) depth, fun i c _ hi hc => ?_⟩
  obtain ⟨d, hd, rfl⟩ := Option.map_eq_some_iff.mp hc
  exact anglesEnd?_of_closer hi hd depth

theorem map_parens? (f : File) (i : Nat) :
    (f.parens? i).map (·.1) =
      (f.anglesFrom? i).bind fun o => if f.hasKind o .lparen then (f.closer? o).map fun c => (o, c.1) else none := by
  unfold parens?
  split
  · next hangles => rw [hangles]; rfl
  · next o hangles =>
    refine Eq.trans ?_ (congrArg (Option.bind · _) hangles).symm
    rw [Option.bind_some]
    split
    · cases f.closer? o <;> rfl
    · rfl

namespace Widened

theorem expressionEnd_eq (h : Widened f f' place) (hi : Seen f f' place words i) :
    f'.expressionEnd (place i) = place (f.expressionEnd i) := by
  fun_induction expressionEnd f i with
  | case1 i hk => exact expressionEnd_of_none ((h.kind?_eq i).trans hk)
  | case2 i k hk hstop => rw [expressionEnd_of_kind ((h.kind?_eq i).trans hk), if_pos hstop]
  | case3 i k hk hstop hopens c hc hcloser ih =>
    obtain ⟨c', hcloser', hc'⟩ := h.closer?_eq_some hcloser
    rw [expressionEnd_of_kind ((h.kind?_eq i).trans hk), if_neg hstop, if_pos hopens, hcloser',
      ← ih (hi.mono (by have := hc.1; omega)), hi.place_succ_of_closer h hcloser, ← hc']
  | case4 i k hk hstop hopens hcloser ih =>
    have hne : f.hasKind i .lparen = false ∨ place (i + 1) = place i + 1 := by
      rcases hi.place_succ with hsucc | hgap | hgap
      · exact Or.inr hsucc
      · exact Or.inl (hasKind_eq_false hk (by rintro rfl; exact ne_of_kind hk hgap.dot (by decide) rfl))
      · have hclosed := hgap.closer
        rw [hcloser] at hclosed
        cases hclosed
    rw [expressionEnd_of_kind ((h.kind?_eq i).trans hk), if_neg hstop, if_pos hopens, h.closer?_eq_none hcloser,
      ← ih (hi.mono (Nat.le_succ i))]
    rcases hne with hne | hsucc
    · exact (stepsOver_expressionEnd f' _).place_succ hi (Nat.le_refl _) hne
    · rw [hsucc]
  | case5 i k hk hstop hopens ih =>
    rw [expressionEnd_of_kind ((h.kind?_eq i).trans hk), if_neg hstop, if_neg hopens, ← ih (hi.mono (Nat.le_succ i))]
    exact (stepsOver_expressionEnd f' _).place_succ hi (Nat.le_refl _)
      (hasKind_eq_false hk (by rintro rfl; exact hopens rfl))

theorem anglesEnd?_eq (h : Widened f f' place) (depth : Nat) (hi : Seen f f' place words i) :
    f'.anglesEnd? depth (place i) = (f.anglesEnd? depth i).map (place) := by
  fun_induction anglesEnd? f depth i with
  | case1 depth i hk => exact anglesEnd?_of_none ((h.kind?_eq i).trans hk)
  | case2 depth i k hk hlt ih =>
    have hsucc := hi.place_succ_of_kind hk (by rintro rfl; cases hlt) (by rintro rfl; cases hlt)
    rw [anglesEnd?_of_kind ((h.kind?_eq i).trans hk), if_pos hlt, ← hsucc, ih (hi.mono (Nat.le_succ i))]
  | case3 depth i k hk hlt hgt hle =>
    have hsucc := hi.place_succ_of_kind hk (by rintro rfl; cases hgt) (by rintro rfl; cases hgt)
    rw [anglesEnd?_of_kind ((h.kind?_eq i).trans hk), if_neg hlt, if_pos hgt, if_pos hle, ← hsucc]
    rfl
  | case4 depth i k hk hlt hgt hle ih =>
    have hsucc := hi.place_succ_of_kind hk (by rintro rfl; cases hgt) (by rintro rfl; cases hgt)
    rw [anglesEnd?_of_kind ((h.kind?_eq i).trans hk), if_neg hlt, if_pos hgt, if_neg hle, ← hsucc,
      ih (hi.mono (Nat.le_succ i))]
  | case5 depth i k hk hlt hgt hstop =>
    rw [anglesEnd?_of_kind ((h.kind?_eq i).trans hk), if_neg hlt, if_neg hgt, if_pos hstop]
    rfl
  | case6 depth i k hk hlt hgt hstop hopens c hc hcloser ih =>
    obtain ⟨c', hcloser', hc'⟩ := h.closer?_eq_some hcloser
    rw [anglesEnd?_of_kind ((h.kind?_eq i).trans hk), if_neg hlt, if_neg hgt, if_neg hstop, if_pos hopens, hcloser',
      ← ih (hi.mono (by have := hc.1; omega)), hi.place_succ_of_closer h hcloser, ← hc']
  | case7 depth i k hk hlt hgt hstop hopens hcloser =>
    rw [anglesEnd?_of_kind ((h.kind?_eq i).trans hk), if_neg hlt, if_neg hgt, if_neg hstop, if_pos hopens,
      h.closer?_eq_none hcloser]
    rfl
  | case8 depth i k hk hlt hgt hstop hopens ih =>
    rw [anglesEnd?_of_kind ((h.kind?_eq i).trans hk), if_neg hlt, if_neg hgt, if_neg hstop, if_neg hopens,
      ← ih (hi.mono (Nat.le_succ i))]
    exact (stepsOver_anglesEnd? f' depth _).place_succ hi (Nat.le_refl _)
      (hasKind_eq_false hk (by rintro rfl; exact hopens rfl))

theorem anglesFrom?_eq (h : Widened f f' place) (hi : Seen f f' place words i) :
    f'.anglesFrom? (place i) = (f.anglesFrom? i).map (place) := by
  rw [anglesFrom?, anglesFrom?, h.hasKind_eq]
  split
  · exact h.anglesEnd?_eq 0 hi
  · rfl

/-- Parentheses after an optional list of type arguments. -/
theorem map_parens?_eq (h : Widened f f' place) (hi : Seen f f' place words i) :
    (f'.parens? (place i)).map (·.1) =
      (f.parens? i).map fun q => (place q.1.1, place q.1.2) := by
  have hmap : (f.parens? i).map (fun q => (place q.1.1, place q.1.2)) =
      ((f.parens? i).map (·.1)).map fun q => (place q.1, place q.2) := by
    rw [Option.map_map]
    rfl
  rw [hmap, map_parens?, map_parens?, h.anglesFrom?_eq hi]
  cases f.anglesFrom? i with
  | none => rfl
  | some o =>
    show (if f'.hasKind (place o) .lparen then _ else _) = Option.map _ (if f.hasKind o .lparen then _ else _)
    rw [h.hasKind_eq]
    split
    · have hsame := h.map_closer? o
      have hpair : ∀ (g : File) (o : Nat), (g.closer? o).map (fun c => (o, c.1)) = ((g.closer? o).map (·.1)).map (o, ·) :=
        fun g o => (Option.map_map _ _ _).symm
      rw [hpair, hpair, hsame, Option.map_map, Option.map_map, Option.map_map]
      rfl
    · rfl

end Widened

end SchemaSplice.Source.File
