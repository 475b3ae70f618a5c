import SchemaSplice.Proofs.Rerun.Pieces
import SchemaSplice.Proofs.Rerun.Rewalking
import SchemaSplice.Proofs.Splice.Rejection
/-!
# Where a pass makes its edits

The edits of a pass stand between tokens: around the arguments of an output call, before the dot that a chain goes on with, or after the
last import. As long as no call runs on past a bracket that its chain starts in, two procedures share none of these places, and there is
a token between any two edits.
-/

namespace SchemaSplice.Source.File

variable {f : File} {n m i position : Nat}

/-- There are `n` tokens before a position, which is the end of a token or a blank. -/
def CutsAt (f : File) (n position : Nat) : Prop :=
  ∃ P Q, glyphs f.text.toList = P ++ Q ∧ Text.byteCount (flatten P) = position ∧ (wordsOf P).length = n

theorem CutsAt.of_stop (hf : f.IsRead) (hi : i < f.size) (h : f.CutsAt n (f.span i).stop) : n = i + 1 := by
  obtain ⟨P, Q, hsplit, hcount, rfl⟩ := h
  obtain ⟨t, ht, hspan⟩ := span_eq_of_lt hi
  rw [hspan] at hcount
  obtain ⟨P', g, w, rfl, hg, rfl⟩ := hf.exists_concat_of_stop hsplit ht hcount.symm
  rw [wordsOf_append, hg, List.length_append, List.length_singleton]

theorem CutsAt.of_start (hf : f.IsRead) (hi : i < f.size) (h : f.CutsAt n (f.span i).start) : n = i := by
  obtain ⟨P, Q, hsplit, hcount, rfl⟩ := h
  obtain ⟨t, ht, hspan⟩ := span_eq_of_lt hi
  rw [hspan] at hcount
  exact (hf.exists_cons_of_start hsplit ht hcount.symm).1

end SchemaSplice.Source.File

namespace SchemaSplice.Chain

open Source

variable {f : File} {i d : Nat} {s t : Segment}

/-! ### Where chains come to -/

theorem comesTo_dot (ht : t ∈ segmentsFrom f i) : CallsMoved.ComesTo i (segmentsFrom f i) t.dot := by
  obtain ⟨front, back, hsplit⟩ := List.append_of_mem ht
  obtain ⟨j, hwalk, hj⟩ := exists_walk hsplit
  obtain ⟨-, rfl, -⟩ := callAt_of_segmentsFrom hj
  rw [hsplit]
  have hmem : ∀ {ss : List Segment} {i j : Nat}, Walk f i ss j → j = i ∨ ∃ s ∈ ss, j = s.rparen + 1 := by
    intro ss i j hw
    induction hw with
    | stop => exact Or.inl rfl
    | @call s ss j _ _ ih =>
      right
      rcases ih with rfl | ⟨s', hs', rfl⟩
      · exact ⟨s, List.mem_cons_self, rfl⟩
      · exact ⟨s', List.mem_cons_of_mem _ hs', rfl⟩
  exact (hmem hwalk).imp id fun ⟨s, hs, hd⟩ => ⟨s, List.mem_append_left _ hs, hd⟩

/-- The calls after a token that a chain comes to are calls of the chain. -/
theorem mem_of_comesTo (hd : CallsMoved.ComesTo i (segmentsFrom f i) d) (hs : s ∈ segmentsFrom f d) :
    s ∈ segmentsFrom f i := by
  rcases hd with rfl | ⟨t, ht, rfl⟩
  · exact hs
  · obtain ⟨front, back, hsplit⟩ := List.append_of_mem ht
    obtain ⟨j, hwalk, hj⟩ := exists_walk hsplit
    obtain ⟨-, -, hback⟩ := callAt_of_segmentsFrom hj
    rw [hback] at hs
    rw [hsplit]
    exact List.mem_append_right _ (List.mem_cons_of_mem _ hs)

namespace Strategy

/-- The dot before which a call is inserted. -/
def insertsAt? : Strategy → Option Nat
  | insertAfterInput input => some (input.rparen + 1)
  | replaceOutput _ => none
  | insertBeforeTerminal terminal => some terminal.dot

def cutFrom : Strategy → Nat
  | insertAfterInput input => input.rparen + 1
  | replaceOutput output => output.lparen + 1
  | insertBeforeTerminal terminal => terminal.dot

def cutTo : Strategy → Nat
  | insertAfterInput input => input.rparen + 1
  | replaceOutput output => output.rparen
  | insertBeforeTerminal terminal => terminal.dot

theorem cuts_of_insertsAt? {strategy : Strategy} (h : strategy.insertsAt? = some d) :
    strategy.cutFrom = d ∧ strategy.cutTo = d := by
  cases strategy <;> cases h <;> exact ⟨rfl, rfl⟩

theorem eq_replaceOutput {strategy : Strategy} (h : strategy.insertsAt? = none) : ∃ o, strategy = .replaceOutput o := by
  cases strategy with
  | replaceOutput o => exact ⟨o, rfl⟩
  | insertAfterInput => cases h
  | insertBeforeTerminal => cases h

end Strategy

end SchemaSplice.Chain

namespace SchemaSplice.Pass

open Source SchemaSplice.Types Annotation Declaration Chain

variable {f : File} {x y : Finding} {o s t : Segment} {d n : Nat}

/-! ### Places of findings -/

theorem Located.callAt (hx : Located f x) (hs : s ∈ x.procedure.segments) : CallAt f s := by
  rw [hx.segments] at hs
  obtain ⟨front, back, hsplit⟩ := List.append_of_mem hs
  obtain ⟨j, -, hj⟩ := exists_walk hsplit
  exact (callAt_of_segmentsFrom hj).1

theorem Located.callBy (hx : Located f x) (h : x.strategy.insertsAt? = some d) :
    ∃ t ∈ x.procedure.segments, d = t.dot ∨ d = t.rparen + 1 := by
  have hcall := hx.call_mem
  cases hs : x.strategy with
  | insertAfterInput input =>
    rw [hs] at h hcall
    cases h
    exact ⟨input, hcall, Or.inr rfl⟩
  | replaceOutput => rw [hs] at h; cases h
  | insertBeforeTerminal terminal =>
    rw [hs] at h hcall
    cases h
    exact ⟨terminal, hcall, Or.inl rfl⟩

theorem Located.comesTo (hx : Located f x) (h : x.strategy.insertsAt? = some d) :
    CallsMoved.ComesTo (x.procedure.root + 1) x.procedure.segments d := by
  obtain ⟨t, ht, rfl | rfl⟩ := hx.callBy h
  · rw [hx.segments] at ht ⊢
    exact comesTo_dot ht
  · exact Or.inr ⟨t, ht, rfl⟩

theorem Located.output_mem (hx : Located f x) (h : x.strategy = .replaceOutput o) : o ∈ x.procedure.segments := by
  have hmem := hx.call_mem
  rwa [h] at hmem

/-- The position of an edit tells how many tokens stand before it. -/
theorem Located.cuts (hf : f.IsRead) (hx : Located f x) :
    (f.CutsAt n (x.splice f).edit.span.start → n = x.strategy.cutFrom) ∧
      (f.CutsAt n (x.splice f).edit.span.stop → n = x.strategy.cutTo) := by
  have hcall := (hx.callAt hx.call_mem).lt
  unfold Finding.splice
  cases hs : x.strategy with
  | insertAfterInput input =>
    rw [hs] at hcall
    exact ⟨File.CutsAt.of_stop hf hcall.2.2, File.CutsAt.of_stop hf hcall.2.2⟩
  | replaceOutput o =>
    rw [hs] at hcall
    exact ⟨File.CutsAt.of_stop hf (Nat.lt_trans hcall.2.1 hcall.2.2), File.CutsAt.of_start hf hcall.2.2⟩
  | insertBeforeTerminal terminal =>
    rw [hs] at hcall
    have hlt : terminal.dot < f.size := by
      have : terminal.dot + 2 ≤ terminal.lparen ∧ terminal.lparen < terminal.rparen ∧ terminal.rparen < f.size := hcall
      omega
    exact ⟨File.CutsAt.of_start hf hlt, File.CutsAt.of_start hf hlt⟩

def Unentangled (x : Finding) (f : File) : Prop := ∀ s ∈ x.procedure.segments, ¬s.Overruns f

/-- Two procedures share no call. -/
theorem not_shared (hf : f.IsRead) (hx : Located f x) (hy : Located f y) (hux : Unentangled x f) (huy : Unentangled y f)
    (hne : x.procedure.root ≠ y.procedure.root) (hs : s ∈ x.procedure.segments) (ht : t ∈ y.procedure.segments) :
    s.lparen ≠ t.lparen := by
  unfold Unentangled at hux huy
  rw [hx.segments] at hs hux
  rw [hy.segments] at ht huy
  intro hsame
  rcases Nat.lt_or_gt_of_ne hne with hlt | hgt
  · obtain ⟨o, ho, hover⟩ := overruns_of_shared hf hy.root hlt hs ht hsame
    exact huy o ho hover
  · obtain ⟨o, ho, hover⟩ := overruns_of_shared hf hx.root hgt ht hs hsame.symm
    exact hux o ho hover

theorem lparen_eq_of_rparen_eq (hf : f.IsRead) (hs : s.Matched f) (ht : t.Matched f) (h : s.rparen = t.rparen) :
    s.lparen = t.lparen := by
  obtain ⟨c, hc, hcs⟩ := hs
  obtain ⟨c', hc', hct⟩ := ht
  have := c.2
  have := c'.2
  have := hf.laminar hc hc'
  omega

/-- A chain that comes to the dot before which a call is inserted is the chain that it is inserted into. -/
theorem root_eq_of_comesTo (hf : f.IsRead) (hx : Located f x) (hy : Located f y) (hux : Unentangled x f)
    (huy : Unentangled y f) (hd : CallsMoved.ComesTo (x.procedure.root + 1) x.procedure.segments d)
    (hat : y.strategy.insertsAt? = some d) : x.procedure.root = y.procedure.root := by
  by_contra hne
  have hd' := hy.comesTo hat
  rw [hx.segments] at hd
  rw [hy.segments] at hd'
  have hnone : segmentsFrom f d = [] := by
    apply List.eq_nil_iff_forall_not_mem.mpr
    intro s hs
    refine not_shared hf hx hy hux huy hne ?_ ?_ (rfl : s.lparen = s.lparen)
    · rw [hx.segments]
      exact mem_of_comesTo hd hs
    · rw [hy.segments]
      exact mem_of_comesTo hd' hs
  have hcall := hy.call_mem
  cases hs : y.strategy with
  | replaceOutput => rw [hs] at hat; cases hat
  | insertBeforeTerminal terminal =>
    rw [hs] at hat hcall
    cases hat
    have hsegments := (hy.callAt hcall).segmentsFrom_eq
    rw [show (Strategy.insertBeforeTerminal terminal).call.dot = terminal.dot from rfl, hnone] at hsegments
    cases hsegments
  | insertAfterInput input =>
    rw [hs] at hat hcall
    cases hat
    rcases hd with hroot | ⟨s, hmem, hrparen⟩
    · rw [hroot] at hnone
      have hterminal := hx.terminal
      rw [hx.segments, hnone] at hterminal
      cases hterminal
    · rw [← hx.segments] at hmem
      refine not_shared hf hx hy hux huy hne hmem hcall ?_
      exact lparen_eq_of_rparen_eq hf (hx.callAt hmem).matched (hy.callAt hcall).matched (Nat.succ.inj hrparen).symm

theorem Located.dot_of_insertsAt? (hf : f.IsRead) (hx : Located f x) (h : x.strategy.insertsAt? = some d) :
    ∃ j, d = j + 1 ∧ (f.hasKind j .ident = true ∨ f.hasKind j .rparen = true) := by
  rcases hx.comesTo h with rfl | ⟨s, hs, rfl⟩
  · exact ⟨_, rfl, Or.inl hx.root⟩
  · exact ⟨_, rfl, Or.inr (hx.isCall hf hs).rparen⟩

/-- There is a token between the edits of two procedures. -/
theorem cutTo_ne_cutFrom (hf : f.IsRead) (hx : Located f x) (hy : Located f y) (hux : Unentangled x f)
    (huy : Unentangled y f) (hne : x.procedure.root ≠ y.procedure.root)
    (hdot : ∀ d, y.strategy.insertsAt? = some d → f.hasKind d .dot = true) :
    x.strategy.cutTo ≠ y.strategy.cutFrom := by
  intro heq
  cases hat : x.strategy.insertsAt? with
  | some d =>
    rw [(Strategy.cuts_of_insertsAt? hat).2] at heq
    cases hat' : y.strategy.insertsAt? with
    | some d' =>
      rw [(Strategy.cuts_of_insertsAt? hat').1] at heq
      exact hne (root_eq_of_comesTo hf hx hy hux huy (hx.comesTo hat) (heq ▸ hat'))
    | none =>
      obtain ⟨o, ho⟩ := Strategy.eq_replaceOutput hat'
      have hmem := hy.call_mem
      rw [ho] at heq hmem
      obtain ⟨j, hj, hkind⟩ := hx.dot_of_insertsAt? hf hat
      obtain rfl : j = o.lparen := Nat.succ.inj (hj.symm.trans heq)
      rcases hkind with hk | hk
      · cases File.hasKind_unique (hy.callAt hmem).lparen hk
      · cases File.hasKind_unique (hy.callAt hmem).lparen hk
  | none =>
    obtain ⟨o, ho⟩ := Strategy.eq_replaceOutput hat
    have hmem := hx.call_mem
    rw [ho] at heq hmem
    cases hat' : y.strategy.insertsAt? with
    | some d' =>
      rw [(Strategy.cuts_of_insertsAt? hat').1] at heq
      have hdot := hdot d' hat'
      rw [← heq] at hdot
      cases File.hasKind_unique (hx.isCall hf hmem).rparen hdot
    | none =>
      obtain ⟨o', ho'⟩ := Strategy.eq_replaceOutput hat'
      have hmem' := hy.call_mem
      rw [ho'] at heq hmem'
      have heq' : o.rparen = o'.lparen + 1 := heq
      obtain ⟨c, hc, hco⟩ := (hx.callAt hmem).matched
      obtain ⟨c', hc', hco'⟩ := (hy.callAt hmem').matched
      have hlaminar := hf.laminar hc hc'
      have hne' := not_shared hf hx hy hux huy hne hmem hmem'
      have hc := c.2
      have hc' := c'.2
      have : (Strategy.replaceOutput o).call = o := rfl
      have : (Strategy.replaceOutput o').call = o' := rfl
      simp only [Strategy.call] at *
      omega

end SchemaSplice.Pass
