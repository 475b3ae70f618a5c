import SchemaSplice.Proofs.Rerun.Reasking
import SchemaSplice.Proofs.Splice.FixedPoint
/-!
# Chains of a widened file

A chain has the same calls in a file with runs of tokens inserted, at the places that they have moved to. Where a run stands after a
dot that the chain comes to, its call of `output` is one more call of the chain.
-/

namespace SchemaSplice.Chain

open Source Declaration
open File (Widened Seen Enters AfterDot InParens)

variable {f f' : File} {place : Nat → Nat} {words : List String} {i j d : Nat} {s o : Segment}
  {segments segments' ss ss' os : List Segment}

/-! ### Calls -/

/-- A call where it has moved to; its dot stays before its name. -/
def Segment.moved (place : Nat → Nat) (s : Segment) : Segment :=
  ⟨s.name, place (s.dot + 1) - 1, place s.lparen, place s.rparen⟩

theorem lastNamed?_moved (place : Nat → Nat) (segments : List Segment) (name : String) :
    lastNamed? (segments.map (Segment.moved place)) name = (lastNamed? segments name).map (Segment.moved place) := by
  unfold lastNamed?
  rw [← List.map_reverse, List.find?_map]
  rfl

/-- The call of `output` of the run after the dot at token `d`. -/
structure NewOutput (f f' : File) (place : Nat → Nat) (words : List String) (d : Nat) (o : Segment) : Prop where
  afterDot : AfterDot f f' place words d
  call : CallAt f' o
  name : o.name = "output"
  dot : o.dot = place d
  lparen : o.lparen = place d + 2
  rparen : o.rparen + 2 = place (d + 1)
  next : f'.hasKind (o.rparen + 1) .dot = true

inductive NewOutputs (f f' : File) (place : Nat → Nat) (words : List String) (i : Nat) : List Segment → Prop
  | none (h : ¬AfterDot f f' place words i) : NewOutputs f f' place words i []
  | one {o : Segment} (h : NewOutput f f' place words i o) : NewOutputs f f' place words i [o]

/-- The calls of a chain from token `i` on have moved, with the calls of the runs that it comes to among them. -/
inductive CallsMoved (f f' : File) (place : Nat → Nat) (words : List String) : Nat → List Segment → List Segment → Prop
  | stop {i : Nat} {os : List Segment} (h : NewOutputs f f' place words i os) : CallsMoved f f' place words i [] os
  | call {s : Segment} {ss ss' os : List Segment} (hs : CallAt f s) (h : NewOutputs f f' place words s.dot os)
    (hrest : CallsMoved f f' place words (s.rparen + 1) ss ss') :
    CallsMoved f f' place words s.dot (s :: ss) (os ++ s.moved place :: ss')

theorem segmentsFrom_of_not_dot (h : (f.hasKind i .dot || f.hasKind i .questionDot) = false) : segmentsFrom f i = [] := by
  rw [segmentsFrom, if_neg (by rw [h]; exact Bool.false_ne_true)]

theorem exists_newOutput (h : Widened f f' place) (hgap : AfterDot f f' place words d) :
    ∃ o, NewOutput f f' place words d o := by
  obtain ⟨c, hc, hdot, hnext⟩ := hgap.dot'
  obtain ⟨e, hcloser, rfl⟩ := Option.map_eq_some_iff.mp hc
  have hangles : f'.anglesFrom? (place d + 2) = some (place d + 2) := by
    unfold File.anglesFrom?
    rw [File.hasKind_eq_false (beq_iff_eq.mp hgap.lparen) (by decide)]
    rfl
  have hdot' : f'.hasKind (place d) .dot = true := (h.hasKind_iff d .dot).mpr hgap.dot
  have hcall : CallAt f' ⟨"output", place d, place d + 2, e.1⟩ :=
    ⟨Or.inl hdot', hgap.name, hangles, hgap.lparen, e, hcloser, rfl⟩
  exact ⟨_, hgap, hcall, rfl, rfl, rfl, hnext, hdot⟩

/-- A call stands in the widened file where it has moved to. -/
theorem CallAt.moved (h : Widened f f' place) (hs : CallAt f s) (hseen : Seen f f' place words s.dot) :
    CallAt f' (s.moved place) := by
  have hname : place (s.dot + 2) = place (s.dot + 1) + 1 :=
    (hseen.mono (Nat.le_succ s.dot)).succ (hasKind_of_word? hs.word) rfl
  have hpos : 0 < place (s.dot + 1) := Nat.lt_of_le_of_lt (Nat.zero_le _) (h.place_lt_place (Nat.lt_succ_self s.dot))
  have hdot : place (s.dot + 1) - 1 + 1 = place (s.dot + 1) := Nat.sub_add_cancel hpos
  obtain ⟨c, hcloser, hc⟩ := hs.matched
  obtain ⟨c', hcloser', hc'⟩ := h.closer?_eq_some hcloser
  refine ⟨?_, ?_, ?_, (h.hasKind_iff s.lparen .lparen).mpr hs.lparen, c', hcloser', hc'.trans (congrArg place hc)⟩
  · show f'.hasKind (place (s.dot + 1) - 1) .dot = true ∨ f'.hasKind (place (s.dot + 1) - 1) .questionDot = true
    rcases hseen.place_succ with hsucc | hgap | hgap
    · rw [hsucc, Nat.add_sub_cancel, h.hasKind_eq, h.hasKind_eq]
      exact hs.dot
    · obtain ⟨c, -, hdot, hnext⟩ := hgap.dot'
      rw [← hnext]
      exact Or.inl hdot
    · rcases hs.dot with hk | hk
      · exact absurd rfl (File.ne_of_kind (beq_iff_eq.mp hk) hgap.lparen (by decide))
      · exact absurd rfl (File.ne_of_kind (beq_iff_eq.mp hk) hgap.lparen (by decide))
  · show f'.word? (place (s.dot + 1) - 1 + 1) = some s.name
    rw [hdot, h.word?_eq]
    exact hs.word
  · show f'.anglesFrom? (place (s.dot + 1) - 1 + 2) = some (place s.lparen)
    rw [show place (s.dot + 1) - 1 + 2 = place (s.dot + 2) by rw [hname]; omega,
      h.anglesFrom?_eq (hseen.mono (Nat.le_add_right s.dot 2)), hs.angles, Option.map_some]

/-- A call that has moved comes from a call. -/
theorem CallAt.of_moved (h : Widened f f' place) (hs : CallAt f' o) {i : Nat} (hseen : Seen f f' place words i)
    (hdot : f.hasKind i .dot = true ∨ f.hasKind i .questionDot = true) (ho : o.dot + 1 = place (i + 1)) :
    ∃ s, CallAt f s ∧ s.dot = i := by
  have hword := hs.word
  rw [ho, h.word?_eq] at hword
  have hname : place (i + 2) = place (i + 1) + 1 := (hseen.mono (Nat.le_succ i)).succ (hasKind_of_word? hword) rfl
  have hangles := hs.angles
  rw [show o.dot + 2 = place (i + 2) by rw [hname]; omega, h.anglesFrom?_eq (hseen.mono (Nat.le_add_right i 2))] at hangles
  obtain ⟨l, hl, hlparen⟩ := Option.map_eq_some_iff.mp hangles
  have hopen := hs.lparen
  rw [← hlparen, h.hasKind_eq] at hopen
  have hmatched : (f'.closer? o.lparen).map (·.1) = some o.rparen := Option.map_eq_some_iff.mpr hs.matched
  rw [← hlparen, h.map_closer?] at hmatched
  obtain ⟨c, hcloser, -⟩ := Option.map_eq_some_iff.mp hmatched
  exact ⟨⟨o.name, i, l, c.1⟩, ⟨hdot, hword, hl, hopen, c, hcloser, rfl⟩, rfl⟩

/-- Where no run makes a call first, a chain goes on with the call that has moved. -/
theorem callsMoved_next (h : Widened f f' place) (hseen : Seen f f' place words i) {i' : Nat}
    (hi' : (f.hasKind i .dot || f.hasKind i .questionDot) = true → i' + 1 = place (i + 1))
    (hdot : (f'.hasKind i' .dot || f'.hasKind i' .questionDot) = (f.hasKind i .dot || f.hasKind i .questionDot))
    (hos : NewOutputs f f' place words i os)
    (hrest : ∀ s ss, segmentsFrom f i = s :: ss →
      CallsMoved f f' place words (s.rparen + 1) ss (segmentsFrom f' (place (s.rparen + 1)))) :
    CallsMoved f f' place words i (segmentsFrom f i) (os ++ segmentsFrom f' i') := by
  cases hsegments : segmentsFrom f i with
  | cons s ss =>
    have hrest' := hrest s ss hsegments
    obtain ⟨hcall, rfl, -⟩ := callAt_of_segmentsFrom hsegments
    have hk : (f.hasKind s.dot .dot || f.hasKind s.dot .questionDot) = true := (Bool.or_eq_true _ _).mpr hcall.dot
    have hmoved := hcall.moved h hseen
    have hbounds := hcall.lt
    obtain ⟨c, hcloser, hc⟩ := hcall.matched
    have hafter := (hseen.mono (by omega)).place_succ_of_closer h hcloser
    rw [hc] at hafter
    have hstart : (s.moved place).dot = i' := by
      show place (s.dot + 1) - 1 = i'
      rw [← hi' hk, Nat.add_sub_cancel]
    rw [← hstart, hmoved.segmentsFrom_eq]
    refine .call hcall hos ?_
    rw [hafter] at hrest'
    exact hrest'
  | nil =>
    cases hsegments' : segmentsFrom f' i' with
    | nil =>
      rw [List.append_nil]
      exact .stop hos
    | cons o ss =>
      -- A call of the widened file would come from one of the file.
      exfalso
      obtain ⟨hcall, rfl, -⟩ := callAt_of_segmentsFrom hsegments'
      have hk : (f.hasKind i .dot || f.hasKind i .questionDot) = true :=
        hdot.symm.trans ((Bool.or_eq_true _ _).mpr hcall.dot)
      obtain ⟨s, hs, rfl⟩ := hcall.of_moved h hseen ((Bool.or_eq_true _ _).mp hk) (hi' hk)
      rw [hs.segmentsFrom_eq] at hsegments
      cases hsegments

/-- The calls of a chain have moved. -/
theorem segmentsFrom_moved (h : Widened f f' place) (hseen : Seen f f' place words i) :
    CallsMoved f f' place words i (segmentsFrom f i) (segmentsFrom f' (place i)) := by
  induction hn : f.size - i using Nat.strongRecOn generalizing i with
  | ind n ih =>
    have hrest : ∀ s ss, segmentsFrom f i = s :: ss →
        CallsMoved f f' place words (s.rparen + 1) ss (segmentsFrom f' (place (s.rparen + 1))) := by
      intro s ss hsegments
      obtain ⟨hcall, rfl, rfl⟩ := callAt_of_segmentsFrom hsegments
      have hbounds := hcall.lt
      exact ih _ (by omega) (hseen.mono (by omega)) rfl
    by_cases hgap : AfterDot f f' place words i
    · obtain ⟨o, ho⟩ := exists_newOutput h hgap
      have hnext : o.rparen + 1 + 1 = place (i + 1) := ho.rparen
      have hsegments' : segmentsFrom f' (place i) = [o] ++ segmentsFrom f' (o.rparen + 1) := by
        rw [← ho.dot, ho.call.segmentsFrom_eq]
        rfl
      rw [hsegments']
      refine callsMoved_next h hseen (fun _ => hnext) ?_ (.one ho) hrest
      rw [ho.next, hgap.dot]
      rfl
    · show CallsMoved f f' place words i (segmentsFrom f i) ([] ++ segmentsFrom f' (place i))
      refine callsMoved_next h hseen (fun hk => ?_) ?_ (.none hgap) hrest
      · rcases hseen.place_succ with hsucc | hafterDot | hinParens
        · exact hsucc.symm
        · exact absurd hafterDot hgap
        · rw [Bool.or_eq_true] at hk
          rcases hk with hk | hk
          · exact absurd rfl (File.ne_of_kind (beq_iff_eq.mp hk) hinParens.lparen (by decide))
          · exact absurd rfl (File.ne_of_kind (beq_iff_eq.mp hk) hinParens.lparen (by decide))
      · rw [h.hasKind_eq, h.hasKind_eq]

/-- The calls of a chain by its root. -/
theorem segmentsFrom_root (h : Widened f f' place) {root : Nat} (hseen : Seen f f' place words root)
    (hname : f.hasKind root .ident = true) :
    CallsMoved f f' place words (root + 1) (segmentsFrom f (root + 1)) (segmentsFrom f' (place root + 1)) := by
  rw [← hseen.succ hname rfl]
  exact segmentsFrom_moved h (hseen.mono (Nat.le_succ root))

namespace CallsMoved

/-! ### What the calls are -/

/-- A chain comes to a token: it starts there, or goes on from there after a call. -/
def ComesTo (i : Nat) (segments : List Segment) (d : Nat) : Prop := d = i ∨ ∃ s ∈ segments, d = s.rparen + 1

/-- Each call has moved, or is that of a run that the chain comes to. -/
theorem mem (h : CallsMoved f f' place words i ss ss') (ho : o ∈ ss') :
    (∃ s ∈ ss, o = s.moved place) ∨ ∃ d, ComesTo i ss d ∧ NewOutput f f' place words d o := by
  have hnew : ∀ {i : Nat} {ss os : List Segment}, NewOutputs f f' place words i os → o ∈ os →
      ∃ d, ComesTo i ss d ∧ NewOutput f f' place words d o := by
    intro i ss os hos ho
    cases hos with
    | none => cases ho
    | one h =>
      rw [List.mem_singleton] at ho
      subst ho
      exact ⟨i, Or.inl rfl, h⟩
  induction h with
  | stop hos => exact Or.inr (hnew hos ho)
  | @call s ss ss' os hs hos hrest ih =>
    rcases List.mem_append.mp ho with ho | ho
    · exact Or.inr (hnew hos ho)
    rcases List.mem_cons.mp ho with rfl | ho
    · exact Or.inl ⟨s, List.mem_cons_self, rfl⟩
    rcases ih ho with ⟨t, ht, rfl⟩ | ⟨d, hd, hnew⟩
    · exact Or.inl ⟨t, List.mem_cons_of_mem _ ht, rfl⟩
    · refine Or.inr ⟨d, Or.inr ?_, hnew⟩
      rcases hd with rfl | ⟨t, ht, rfl⟩
      · exact ⟨s, List.mem_cons_self, rfl⟩
      · exact ⟨t, List.mem_cons_of_mem _ ht, rfl⟩

/-- A run that the chain comes to makes a call of it. -/
theorem exists_mem (h : CallsMoved f f' place words i ss ss') (hd : ComesTo i ss d) (hgap : AfterDot f f' place words d) :
    ∃ o ∈ ss', NewOutput f f' place words d o := by
  have hnew : ∀ {os : List Segment}, NewOutputs f f' place words d os → ∃ o ∈ os, NewOutput f f' place words d o := by
    intro os hos
    cases hos with
    | none hno => exact absurd hgap hno
    | one h => exact ⟨_, List.mem_singleton_self _, h⟩
  induction h with
  | stop hos =>
    rcases hd with rfl | ⟨s, hs, -⟩
    · exact hnew hos
    · cases hs
  | @call s ss ss' os hs hos hrest ih =>
    have hlater : ComesTo (s.rparen + 1) ss d → ∃ o ∈ os ++ s.moved place :: ss', NewOutput f f' place words d o := by
      intro hd
      obtain ⟨o, ho, hnew⟩ := ih hd
      exact ⟨o, List.mem_append_right _ (List.mem_cons_of_mem _ ho), hnew⟩
    rcases hd with rfl | ⟨t, ht, rfl⟩
    · obtain ⟨o, ho, hnew⟩ := hnew hos
      exact ⟨o, List.mem_append_left _ ho, hnew⟩
    · rcases List.mem_cons.mp ht with rfl | ht
      · exact hlater (Or.inl rfl)
      · exact hlater (Or.inr ⟨t, ht, rfl⟩)

/-- A chain that comes to no run has its calls where they have moved to. -/
theorem eq_map (h : CallsMoved f f' place words i ss ss') (hapart : ∀ d, ComesTo i ss d → ¬AfterDot f f' place words d) :
    ss' = ss.map (Segment.moved place) := by
  have hnone : ∀ {i : Nat} {os : List Segment}, NewOutputs f f' place words i os → ¬AfterDot f f' place words i → os = [] := by
    intro i os hos hno
    cases hos with
    | none => rfl
    | one h => exact absurd h.afterDot hno
  induction h with
  | stop hos => exact hnone hos (hapart _ (Or.inl rfl))
  | @call s ss ss' os hs hos hrest ih =>
    obtain rfl := hnone hos (hapart _ (Or.inl rfl))
    rw [List.nil_append, List.map_cons, ih]
    intro d hd
    refine hapart d (Or.inr ?_)
    rcases hd with rfl | ⟨t, ht, rfl⟩
    · exact ⟨s, List.mem_cons_self, rfl⟩
    · exact ⟨t, List.mem_cons_of_mem _ ht, rfl⟩

/-- No call is lost. -/
theorem eq_nil (h : CallsMoved f f' place words i ss ss') (hnil : ss' = []) : ss = [] := by
  cases h with
  | stop => rfl
  | call => simp at hnil

/-! ### Last calls -/

theorem lastNamed?_eq (h : CallsMoved f f' place words i ss ss') {name : String} (hname : name ≠ "output") :
    lastNamed? ss' name = (lastNamed? ss name).map (Segment.moved place) := by
  have hnone : ∀ {i : Nat} {os : List Segment}, NewOutputs f f' place words i os → os.reverse.find? (·.name == name) = none := by
    intro i os hos
    cases hos with
    | none => rfl
    | one h =>
      rw [List.find?_eq_none]
      simpa [h.name] using hname.symm
  unfold lastNamed?
  induction h with
  | stop hos => exact hnone hos
  | @call s ss ss' os hs hos hrest ih =>
    simp only [List.reverse_append, List.reverse_cons, List.append_assoc, List.find?_append, hnone hos, Option.or_none, ih]
    cases ss.reverse.find? (·.name == name) with
    | some t => rfl
    | none =>
      rw [Option.map_none, Option.none_or, Option.none_or]
      simp only [List.find?_cons, List.find?_nil, Segment.moved]
      split <;> rfl

theorem terminal? (h : CallsMoved f f' place words i ss ss') : TerminalAlike place (terminal? ss) (terminal? ss') := by
  unfold Chain.terminal?
  rw [h.lastNamed?_eq (by decide), h.lastNamed?_eq (by decide)]
  cases lastNamed? ss "query" <;> cases lastNamed? ss "mutation"
  · exact .error
  · exact .ok rfl rfl
  · exact .ok rfl rfl
  · exact .error

end CallsMoved

end SchemaSplice.Chain
