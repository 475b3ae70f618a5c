import SchemaSplice.Proofs.Splice.Cuts
import SchemaSplice.Proofs.Splice.Nesting
/-!
# Chains and cuts

What is read of a chain before a cut does not depend on what stands after the cut, and what is read after a cut is what is read
of the rest as a file of its own. Both hold of matched brackets, then of lists of type arguments, then of calls, and so of
the calls of a chain and of the texts between their parentheses.
-/

namespace SchemaSplice.Source.File

variable {f f' g : File} {x rest rest' : List Char} {front : List Token} {i j o depth q : Nat} {t : Token}

theorem IsRead.map_closer?_eq_some_iff (hf : f.IsRead) {c : Nat} :
    (f.closer? o).map (·.1) = some c ↔ (o, c) ∈ pairs (f.tokens.toList.map Token.kind) := by
  constructor
  · intro h
    obtain ⟨d, hd, rfl⟩ := Option.map_eq_some_iff.mp h
    exact hf.mem_pairs_of_closer? hd
  · intro h
    obtain ⟨hc, hcloser⟩ := hf.closer?_of_mem_pairs h
    rw [hcloser]
    rfl

theorem kind?_of_token (h : f.tokens[i]? = some t) : f.kind? i = some t.kind := by
  rw [kind?, h]
  rfl

theorem hasKind_of_token {k : Kind} (h : f.tokens[i]? = some t) (hk : t.kind = k) : f.hasKind i k = true := by
  rw [hasKind, kind?_of_token h, hk, beq_self_eq_true]

theorem anglesEnd?_of_none (h : f.kind? j = none) : f.anglesEnd? depth j = none := by
  rw [anglesEnd?]
  split
  · rfl
  · next hk =>
    rw [h] at hk
    cases hk

/-! ### Before a cut -/

/-- Two files that begin with the same tokens. -/
structure Begin (f f' : File) (front : List Token) : Prop where
  read : f.IsRead
  read' : f'.IsRead
  tokens : ∃ back, f.tokens.toList = front ++ back
  tokens' : ∃ back, f'.tokens.toList = front ++ back

namespace Begin

theorem getElem?_eq (h : Begin f f' front) (hi : i < front.length) : f'.tokens[i]? = f.tokens[i]? := by
  obtain ⟨back, hback⟩ := h.tokens
  obtain ⟨back', hback'⟩ := h.tokens'
  rw [← Array.getElem?_toList, ← Array.getElem?_toList, hback, hback', List.getElem?_append_left hi,
    List.getElem?_append_left hi]

theorem kind?_eq (h : Begin f f' front) (hi : i < front.length) : f'.kind? i = f.kind? i := by
  rw [kind?, kind?, h.getElem?_eq hi]

theorem hasKind_eq (h : Begin f f' front) (hi : i < front.length) (k : Kind) : f'.hasKind i k = f.hasKind i k := by
  rw [hasKind, hasKind, h.kind?_eq hi]

theorem word?_eq (h : Begin f f' front) (hi : i < front.length) : f'.word? i = f.word? i := by
  rw [word?, word?, h.hasKind_eq hi, tokenText, tokenText, h.getElem?_eq hi]

/-- A bracket that is closed before the cut is closed by the same one. -/
theorem closer? (h : Begin f f' front) {c : { j : Nat // o < j ∧ j < f.size }} (hc : f.closer? o = some c)
    (hlt : c.1 < front.length) : ∃ hc', f'.closer? o = some ⟨c.1, hc'⟩ := by
  obtain ⟨back, hback⟩ := h.tokens
  obtain ⟨back', hback'⟩ := h.tokens'
  have hfront : c.1 < (front.map Token.kind).length := by rwa [List.length_map]
  have hpair := h.read.mem_pairs_of_closer? hc
  rw [hback, List.map_append, mem_pairs_append_left hfront] at hpair
  apply h.read'.closer?_of_mem_pairs
  rwa [hback', List.map_append, mem_pairs_append_left hfront]

theorem anglesEnd? (h : Begin f f' front) (hend : f.anglesEnd? depth j = some q) (hq : q ≤ front.length) :
    f'.anglesEnd? depth j = some q := by
  have hlt := lt_of_anglesEnd? hend
  have hkind : f'.kind? j = f.kind? j := h.kind?_eq (by omega)
  fun_induction File.anglesEnd? f depth j with
  | case1 => cases hend
  | case2 depth j k hk hlt' ih =>
    have hnext := lt_of_anglesEnd? hend
    rw [anglesEnd?_of_kind (hkind.trans hk), if_pos hlt']
    exact ih hend hnext (h.kind?_eq (by omega))
  | case3 depth j k hk hlt' hgt hle =>
    rw [anglesEnd?_of_kind (hkind.trans hk), if_neg hlt', if_pos hgt, if_pos hle]
    exact hend
  | case4 depth j k hk hlt' hgt hle ih =>
    have hnext := lt_of_anglesEnd? hend
    rw [anglesEnd?_of_kind (hkind.trans hk), if_neg hlt', if_pos hgt, if_neg hle]
    exact ih hend hnext (h.kind?_eq (by omega))
  | case5 => cases hend
  | case6 depth j k hk hlt' hgt hstop hopens d hd hcloser ih =>
    have hnext := lt_of_anglesEnd? hend
    obtain ⟨hd', hcloser'⟩ := h.closer? hcloser (by show d < front.length; omega)
    rw [anglesEnd?_of_kind (hkind.trans hk), if_neg hlt', if_neg hgt, if_neg hstop, if_pos hopens, hcloser']
    exact ih hend hnext (h.kind?_eq (by omega))
  | case7 => cases hend
  | case8 depth j k hk hlt' hgt hstop hopens ih =>
    have hnext := lt_of_anglesEnd? hend
    rw [anglesEnd?_of_kind (hkind.trans hk), if_neg hlt', if_neg hgt, if_neg hstop, if_neg hopens]
    exact ih hend hnext (h.kind?_eq (by omega))

theorem anglesFrom? (h : Begin f f' front) (hend : f.anglesFrom? j = some q) (hq : q < front.length) :
    f'.anglesFrom? j = some q := by
  have hle := le_of_anglesFrom? hend
  unfold File.anglesFrom? at hend ⊢
  rw [h.hasKind_eq (by omega)]
  split
  · next hlt =>
    rw [if_pos hlt] at hend
    exact h.anglesEnd? hend (Nat.le_of_lt hq)
  · next hlt => rwa [if_neg hlt] at hend

end Begin

theorem CutAt.begin (hf : f.IsRead) (hf' : f'.IsRead) (h : f.CutAt x front rest) (h' : f'.CutAt x front rest') :
    Begin f f' front :=
  ⟨hf, hf', ⟨_, h.tokens⟩, ⟨_, h'.tokens⟩⟩

/-! ### After a cut -/

namespace Ends

theorem getElem?_eq (h : f.Ends g x front) (i : Nat) :
    f.tokens[front.length + i]? = g.tokens[i]?.map (Token.later (Text.byteCount x)) := by
  rw [← Array.getElem?_toList, ← Array.getElem?_toList, h.tokens, List.getElem?_append_right (Nat.le_add_right _ _),
    Nat.add_sub_cancel_left, List.getElem?_map]

theorem kind?_eq (h : f.Ends g x front) (i : Nat) : f.kind? (front.length + i) = g.kind? i := by
  rw [kind?, kind?, h.getElem?_eq, Option.map_map]
  rfl

theorem hasKind_eq (h : f.Ends g x front) (i : Nat) (k : Kind) : f.hasKind (front.length + i) k = g.hasKind i k := by
  rw [hasKind, hasKind, h.kind?_eq]

theorem word?_eq (h : f.Ends g x front) (i : Nat) : f.word? (front.length + i) = g.word? i := by
  rw [word?, word?, h.hasKind_eq, tokenText, tokenText, h.getElem?_eq]
  cases g.tokens[i]? with
  | none => rfl
  | some t => rfl

theorem span_eq (h : f.Ends g x front) (ht : g.tokens[i]? = some t) :
    f.span (front.length + i) = ⟨Text.byteCount x + (g.span i).start, Text.byteCount x + (g.span i).stop⟩ := by
  have ht' := h.getElem?_eq i
  rw [ht] at ht'
  rw [span_of_token ht, span_of_token ht', Token.later_stop]
  rfl

/-- A rest that begins with a token does so after every cut. -/
theorem first {x' : List Char} {front' : List Token} (h : f.Ends g x front) (h' : f'.Ends g x' front')
    (ht : f.tokens[front.length]? = some t) (hstart : t.start = Text.byteCount x) :
    ∃ t', f'.tokens[front'.length]? = some t' ∧ t'.kind = t.kind ∧ t'.start = Text.byteCount x' := by
  have hfirst := h.getElem?_eq 0
  have hfirst' := h'.getElem?_eq 0
  rw [Nat.add_zero, ht] at hfirst
  obtain ⟨u, hu, rfl⟩ := Option.map_eq_some_iff.mp hfirst.symm
  rw [Nat.add_zero, hu] at hfirst'
  have hzero : u.start = 0 := Nat.add_left_cancel (n := Text.byteCount x) hstart
  refine ⟨_, hfirst', rfl, ?_⟩
  show _ + u.start = _
  rw [hzero, Nat.add_zero]

theorem map_closer?_eq (hf : f.IsRead) (hg : g.IsRead) (h : f.Ends g x front) (o : Nat) :
    (f.closer? (front.length + o)).map (·.1) = (g.closer? o).map (front.length + ·.1) := by
  have hkinds : f.tokens.toList.map Token.kind = front.map Token.kind ++ g.tokens.toList.map Token.kind := by
    rw [h.tokens, List.map_append, List.map_map]
    rfl
  have hpairs : ∀ c, (front.length + o, front.length + c) ∈ pairs (f.tokens.toList.map Token.kind) ↔
      (o, c) ∈ pairs (g.tokens.toList.map Token.kind) := by
    intro c
    rw [hkinds, ← List.length_map (f := Token.kind), mem_pairs_append_right]
  ext c
  rw [hf.map_closer?_eq_some_iff]
  constructor
  · intro hc
    have hlt := (lt_of_mem_pairs hc).1
    obtain ⟨d, rfl⟩ : ∃ d, c = front.length + d := ⟨c - front.length, by omega⟩
    obtain ⟨hd, hcloser⟩ := hg.closer?_of_mem_pairs ((hpairs d).mp hc)
    rw [hcloser]
    rfl
  · intro hc
    obtain ⟨d, hd, rfl⟩ := Option.map_eq_some_iff.mp hc
    exact (hpairs d.1).mpr (hg.mem_pairs_of_closer? hd)

theorem anglesEnd?_eq (hf : f.IsRead) (hg : g.IsRead) (h : f.Ends g x front) (depth j : Nat) :
    f.anglesEnd? depth (front.length + j) = (g.anglesEnd? depth j).map (front.length + ·) := by
  fun_induction File.anglesEnd? g depth j with
  | case1 depth j hk => exact anglesEnd?_of_none ((h.kind?_eq j).trans hk)
  | case2 depth j k hk hlt ih => rw [anglesEnd?_of_kind ((h.kind?_eq j).trans hk), if_pos hlt, Nat.add_assoc, ih]
  | case3 depth j k hk hlt hgt hle =>
    rw [anglesEnd?_of_kind ((h.kind?_eq j).trans hk), if_neg hlt, if_pos hgt, if_pos hle]
    rfl
  | case4 depth j k hk hlt hgt hle ih =>
    rw [anglesEnd?_of_kind ((h.kind?_eq j).trans hk), if_neg hlt, if_pos hgt, if_neg hle, Nat.add_assoc, ih]
  | case5 depth j k hk hlt hgt hstop =>
    rw [anglesEnd?_of_kind ((h.kind?_eq j).trans hk), if_neg hlt, if_neg hgt, if_pos hstop]
    rfl
  | case6 depth j k hk hlt hgt hstop hopens d hd hcloser ih =>
    rw [anglesEnd?_of_kind ((h.kind?_eq j).trans hk), if_neg hlt, if_neg hgt, if_neg hstop, if_pos hopens]
    have hsame := map_closer?_eq hf hg h j
    rw [hcloser] at hsame
    obtain ⟨d', hcloser', hd'⟩ := Option.map_eq_some_iff.mp hsame
    rw [hcloser']
    simp only [hd', Nat.add_assoc, ih]
  | case7 depth j k hk hlt hgt hstop hopens hcloser =>
    rw [anglesEnd?_of_kind ((h.kind?_eq j).trans hk), if_neg hlt, if_neg hgt, if_neg hstop, if_pos hopens]
    have hsame := map_closer?_eq hf hg h j
    rw [hcloser] at hsame
    rw [Option.map_eq_none_iff.mp hsame]
    rfl
  | case8 depth j k hk hlt hgt hstop hopens ih =>
    rw [anglesEnd?_of_kind ((h.kind?_eq j).trans hk), if_neg hlt, if_neg hgt, if_neg hstop, if_neg hopens,
      Nat.add_assoc, ih]

theorem anglesFrom?_eq (hf : f.IsRead) (hg : g.IsRead) (h : f.Ends g x front) (j : Nat) :
    f.anglesFrom? (front.length + j) = (g.anglesFrom? j).map (front.length + ·) := by
  rw [File.anglesFrom?, File.anglesFrom?, h.hasKind_eq]
  split
  · exact anglesEnd?_eq hf hg h 0 j
  · rfl

end Ends

end SchemaSplice.Source.File

namespace SchemaSplice.Chain

open Source

variable {f f' g : File} {x rest rest' : List Char} {front : List Token} {i j k : Nat} {s : Segment}
  {ss ss' : List Segment}

/-! ### Calls -/

/-- The text between the parentheses of a call. -/
def Segment.arguments (s : Segment) (f : File) : Option String :=
  Text.slice? f.text (s.argumentsSpan f).start (s.argumentsSpan f).stop

structure CallAt (f : File) (s : Segment) : Prop where
  dot : f.hasKind s.dot .dot = true ∨ f.hasKind s.dot .questionDot = true
  word : f.word? (s.dot + 1) = some s.name
  angles : f.anglesFrom? (s.dot + 2) = some s.lparen
  lparen : f.hasKind s.lparen .lparen = true
  matched : s.Matched f

theorem CallAt.lt (h : CallAt f s) : s.dot + 2 ≤ s.lparen ∧ s.lparen < s.rparen ∧ s.rparen < f.size := by
  obtain ⟨c, -, hc⟩ := h.matched
  have hle := File.le_of_anglesFrom? h.angles
  have := c.2
  omega

/-- A chain goes on with a call that stands where it has come to. -/
theorem CallAt.segmentsFrom_eq (h : CallAt f s) : segmentsFrom f s.dot = s :: segmentsFrom f (s.rparen + 1) := by
  obtain ⟨⟨c, hlt⟩, hcloser, hc⟩ := h.matched
  have hparens : ∃ hq, f.parens? (s.dot + 2) = some ⟨(s.lparen, s.rparen), hq⟩ := by
    unfold File.parens?
    split
    · next hangles =>
      rw [h.angles] at hangles
      cases hangles
    · next o hangles =>
      rw [h.angles] at hangles
      cases hangles
      rw [if_pos h.lparen, hcloser]
      cases hc
      exact ⟨⟨File.le_of_anglesFrom? h.angles, hlt⟩, rfl⟩
  obtain ⟨hq, hparens⟩ := hparens
  rw [segmentsFrom, if_pos ((Bool.or_eq_true _ _).mpr h.dot), h.word, hparens]

theorem callAt_of_segmentsFrom (h : segmentsFrom f i = s :: ss) :
    CallAt f s ∧ s.dot = i ∧ segmentsFrom f (s.rparen + 1) = ss := by
  unfold segmentsFrom at h
  split at h
  · next hdot =>
    split at h
    · next name lparen rparen hlt hword hparens =>
      obtain ⟨hangles, hopen, hcloser⟩ := closer?_of_parens? hparens
      obtain ⟨rfl, rfl⟩ := List.cons.inj h
      exact ⟨⟨(Bool.or_eq_true _ _).mp hdot, hword, hangles, hopen, _, hcloser, rfl⟩, rfl, rfl⟩
    · cases h
  · cases h

/-- A call that opens before a cut opens there in every file that begins alike. -/
theorem CallAt.reopened (hb : File.Begin f f' front) (h : CallAt f s) (hs : s.lparen < front.length) {c : Nat}
    (hm : Segment.Matched f' { s with rparen := c }) : CallAt f' { s with rparen := c } := by
  have hlt := h.lt.1
  have hdot : s.dot < front.length ∧ s.dot + 1 < front.length := by omega
  refine ⟨?_, (hb.word?_eq hdot.2).trans h.word, hb.anglesFrom? h.angles hs, (hb.hasKind_eq hs _).trans h.lparen, hm⟩
  exact h.dot.imp (hb.hasKind_eq hdot.1 _).trans (hb.hasKind_eq hdot.1 _).trans

theorem CallAt.before (hb : File.Begin f f' front) (h : CallAt f s) (hs : s.rparen < front.length) : CallAt f' s := by
  obtain ⟨c, hcloser, hc⟩ := h.matched
  obtain ⟨hc', hcloser'⟩ := hb.closer? hcloser (by omega)
  exact h.reopened hb (Nat.lt_trans h.lt.2.1 hs) ⟨_, hcloser', hc⟩

/-- A call, counted from an earlier token on. -/
def Segment.later (n : Nat) (s : Segment) : Segment := ⟨s.name, n + s.dot, n + s.lparen, n + s.rparen⟩

theorem callAt_later (hf : f.IsRead) (hg : g.IsRead) (h : f.Ends g x front) (s : Segment) :
    CallAt f (s.later front.length) ↔ CallAt g s := by
  have hangles : f.anglesFrom? (front.length + s.dot + 2) = some (front.length + s.lparen) ↔
      g.anglesFrom? (s.dot + 2) = some s.lparen := by
    rw [Nat.add_assoc, File.Ends.anglesFrom?_eq hf hg h, Option.map_eq_some_iff]
    constructor
    · rintro ⟨q, hq, heq⟩
      rw [hq, Nat.add_left_cancel heq]
    · exact fun hq => ⟨_, hq, rfl⟩
  have hmatched : (s.later front.length).Matched f ↔ s.Matched g := by
    have hiff : ∀ {e : File} {o c : Nat}, (∃ d : { j : Nat // o < j ∧ j < e.size }, e.closer? o = some d ∧ d.1 = c) ↔
        (e.closer? o).map (·.1) = some c := fun {e o c} => Option.map_eq_some_iff.symm
    unfold Segment.Matched Segment.later
    rw [hiff, hiff, File.Ends.map_closer?_eq hf hg h, Option.map_eq_some_iff, Option.map_eq_some_iff]
    simp only [Nat.add_left_cancel_iff]
  constructor
  · rintro ⟨hdot, hword, hangles', hlparen, hmatched'⟩
    simp only [Segment.later, h.hasKind_eq, Nat.add_assoc, h.word?_eq] at hdot hword hlparen
    exact ⟨hdot, hword, hangles.mp hangles', hlparen, hmatched.mp hmatched'⟩
  · rintro ⟨hdot, hword, hangles', hlparen, hmatched'⟩
    refine ⟨?_, ?_, hangles.mpr hangles', ?_, hmatched.mpr hmatched'⟩
    · simp only [Segment.later, h.hasKind_eq]
      exact hdot
    · simp only [Segment.later, Nat.add_assoc, h.word?_eq]
      exact hword
    · simp only [Segment.later, h.hasKind_eq]
      exact hlparen

/-- A chain after a cut is the chain of the rest. -/
theorem segmentsFrom_later (hf : f.IsRead) (hg : g.IsRead) (h : f.Ends g x front) (i : Nat) :
    segmentsFrom f (front.length + i) = (segmentsFrom g i).map (Segment.later front.length) := by
  generalize hss : segmentsFrom g i = ss
  induction ss generalizing i with
  | nil =>
    cases hnone : segmentsFrom f (front.length + i) with
    | nil => rfl
    | cons s rest =>
      -- A call of the file would be a call of the rest.
      exfalso
      obtain ⟨hcall, hdot, -⟩ := callAt_of_segmentsFrom hnone
      have hlt := hcall.lt
      obtain ⟨s', rfl⟩ : ∃ s', s = Segment.later front.length s' := by
        refine ⟨⟨s.name, i, s.lparen - front.length, s.rparen - front.length⟩, ?_⟩
        cases s
        simp only [Segment.later, Segment.mk.injEq] at hdot hlt ⊢
        exact ⟨trivial, hdot, by omega, by omega⟩
      have hcall' := (callAt_later hf hg h s').mp hcall
      obtain rfl : s'.dot = i := Nat.add_left_cancel hdot
      rw [hcall'.segmentsFrom_eq] at hss
      cases hss
  | cons s ss ih =>
    obtain ⟨hcall, rfl, hrest⟩ := callAt_of_segmentsFrom hss
    have hcall' := ((callAt_later hf hg h s).mpr hcall).segmentsFrom_eq
    rw [List.map_cons, ← ih (s.rparen + 1) hrest]
    exact hcall'

/-! ### Walks over calls -/

/-- The calls of a chain from one token to another. -/
inductive Walk (f : File) : Nat → List Segment → Nat → Prop
  | stop (i : Nat) : Walk f i [] i
  | call {s : Segment} {ss : List Segment} {j : Nat} (hs : CallAt f s) (h : Walk f (s.rparen + 1) ss j) :
      Walk f s.dot (s :: ss) j

namespace Walk

theorem segmentsFrom_eq (h : Walk f i ss j) : segmentsFrom f i = ss ++ segmentsFrom f j := by
  induction h with
  | stop => rfl
  | call hs _ ih => rw [hs.segmentsFrom_eq, ih, List.cons_append]

theorem trans (h : Walk f i ss j) (h' : Walk f j ss' k) : Walk f i (ss ++ ss') k := by
  induction h with
  | stop => exact h'
  | call hs _ ih => exact .call hs (ih h')

theorem le (h : Walk f i ss j) : i ≤ j := by
  induction h with
  | stop => exact Nat.le_refl _
  | call hs _ ih =>
    have := hs.lt
    omega

theorem mem (h : Walk f i ss j) : ∀ s ∈ ss, CallAt f s ∧ s.rparen < j := by
  induction h with
  | stop => simp
  | call hs h ih =>
    intro s' hs'
    rcases List.mem_cons.mp hs' with rfl | hs'
    · exact ⟨hs, h.le⟩
    · exact ih s' hs'

theorem before (hb : File.Begin f f' front) (h : Walk f i ss j) (hj : j ≤ front.length) : Walk f' i ss j := by
  induction h with
  | stop => exact .stop _
  | call hs h ih =>
    have := h.le
    exact .call (hs.before hb (by omega)) (ih hj)

end Walk

theorem exists_walk (h : segmentsFrom f i = ss ++ ss') : ∃ j, Walk f i ss j ∧ segmentsFrom f j = ss' := by
  induction ss generalizing i with
  | nil => exact ⟨i, .stop i, h⟩
  | cons s ss ih =>
    obtain ⟨hcall, rfl, hrest⟩ := callAt_of_segmentsFrom h
    obtain ⟨j, hwalk, hj⟩ := ih hrest
    exact ⟨j, .call hcall hwalk, hj⟩

/-! ### Texts between parentheses -/

/-- Before a cut the text of a file begins alike, and so do the texts between parentheses. -/
theorem arguments_before (hf : f.IsRead) (hf' : f'.IsRead) (h : f.CutAt x front rest) (h' : f'.CutAt x front rest')
    (hs : CallAt f s) (hlt : s.rparen < front.length) : s.arguments f' = s.arguments f := by
  have hb := h.begin hf hf' h'
  have hlparen := hs.lt
  obtain ⟨t, ht, -⟩ := exists_token_of_hasKind hs.lparen
  obtain ⟨u, hu⟩ : ∃ u, f.tokens[s.rparen]? = some u := ⟨_, Array.getElem?_eq_getElem hlparen.2.2⟩
  have hstop := (h.stop_le_iff hu).1 hlt
  have hstart : u.start ≤ Text.byteCount x := by
    have hpos := (le_start_of_mem_scanFrom (mem_scan_of_token hf hu)).2
    omega
  have ht' := (hb.getElem?_eq (Nat.lt_trans hlparen.2.1 hlt)).trans ht
  have hu' := (hb.getElem?_eq hlt).trans hu
  unfold Segment.arguments Segment.argumentsSpan Text.slice?
  rw [span_of_token ht, span_of_token hu, span_of_token ht', span_of_token hu', h.text, h'.text,
    sliceChars?_append_left hstart, sliceChars?_append_left hstart]

theorem arguments_later (h : f.Ends g x front) (hs : CallAt g s) :
    (s.later front.length).arguments f = s.arguments g := by
  obtain ⟨t, ht, -⟩ := exists_token_of_hasKind hs.lparen
  obtain ⟨u, hu⟩ : ∃ u, g.tokens[s.rparen]? = some u := ⟨_, Array.getElem?_eq_getElem hs.lt.2.2⟩
  unfold Segment.arguments Segment.argumentsSpan Segment.later Text.slice?
  rw [h.span_eq ht, h.span_eq hu, h.text, sliceChars?_append_right]

end SchemaSplice.Chain
