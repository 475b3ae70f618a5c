import SchemaSplice.Chain.Procedure
import SchemaSplice.Proofs.Rerun.Resolving
import SchemaSplice.Proofs.Resolution.Lookups
/-!
# Asking again in a widened project

What is asked about annotations, values and handlers gets the same answers in a project whose files have runs of tokens inserted, one
query after the other. What is reported on the way may differ, for reports tell tokens and lines.
-/

namespace SchemaSplice.Declaration

open Annotation Source SchemaSplice.Types
open File (Widened Seen Enters)

structure SameKnown (words : List String) (s s' : Inquiry) : Prop where
  types : s'.types = s.types
  values : s'.values = s.values
  lacks : s.types.Lacks words

/-- Two queries give the same answer and leave the same known. -/
structure SameAnswer (words : List String) (r r' : Option TypeId × Inquiry) : Prop where
  answer : r'.1 = r.1
  known : SameKnown words r.2 r'.2

variable {p p' : Project} {places : Nat → Nat → Nat} {words : List String} {s s' : Inquiry} {current : Nat}

theorem SameKnown.remember (h : SameKnown words s s') (name : String) (type : Option TypeId) :
    SameKnown words (s.remember name type) (s'.remember name type) :=
  ⟨h.types, congrArg ((name, type) :: ·) h.values, h.lacks⟩

theorem annotationAt_alike (h : WidenedProject p p' places words) (hs : SameKnown words s s') {start : Nat}
    (hstart : Enters (p.file current) (p'.file current) (places current) words start) :
    SameAnswer words (annotationAt p s current start)
      (annotationAt p' s' current (places current start)) := by
  have hread : EndsAlike words _ (typeAt ⟨p.file current, topScope p current, []⟩ start s.types)
      (typeAt ⟨p'.file current, topScope p' current, []⟩ (places current start) s.types) :=
    typeAt_rereads (h.file current) (topScope_rereads h current) rfl hstart s.types hs.lacks
  unfold annotationAt
  simp only
  rw [hs.types]
  generalize typeAt ⟨p.file current, topScope p current, []⟩ start s.types = r,
    typeAt ⟨p'.file current, topScope p' current, []⟩ (places current start) s.types = r' at hread ⊢
  cases hread with
  | ok ht hab => exact ⟨congrArg some hab.value, rfl, hs.values, ht⟩
  | error ht => exact ⟨rfl, rfl, hs.values, ht⟩

theorem SameAnswer.function (h : SameKnown words s s') (result : TypeId) :
    SameAnswer words (some (s.onTable (Table.function result)).1, (s.onTable (Table.function result)).2)
      (some (s'.onTable (Table.function result)).1, (s'.onTable (Table.function result)).2) := by
  unfold Inquiry.onTable
  rw [h.types]
  exact ⟨rfl, rfl, h.values, h.lacks⟩

theorem SameAnswer.remember {r r' : Option TypeId × Inquiry} (h : SameAnswer words r r') (name : String) :
    SameAnswer words (r.1, r.2.remember name r.1) (r'.1, r'.2.remember name r'.1) := by
  rw [h.answer]
  exact ⟨rfl, h.known.remember name r.1⟩

theorem valueType_alike (h : WidenedProject p p' places words) (hs : SameKnown words s s') (name : String) :
    SameAnswer words (valueType p s current name) (valueType p' s' current name) := by
  induction hn : unanswered p s using Nat.strongRecOn generalizing s s' current name with
  | ind n ih =>
    have hvalues := hs.values
    cases hknown : s.values.lookup name with
    | some known =>
      rw [valueType_of_known hknown, valueType_of_known (hvalues ▸ hknown)]
      exact ⟨rfl, hs⟩
    | none =>
      have hnamed := h.valueNamed?_eq name current
      have hpending := hs.remember name none
      cases hd : p.valueNamed? name current with
      | none =>
        rw [valueType_of_undeclared hknown hd, valueType_of_undeclared (hvalues ▸ hknown) (by rw [hnamed, hd]; rfl)]
        exact ⟨rfl, hpending⟩
      | some d =>
        obtain ⟨hmem, -⟩ := Project.valueNamed?_some hd
        rw [valueType_of_declared hknown hd, valueType_of_declared (hvalues ▸ hknown) (by rw [hnamed, hd]; rfl)]
        apply SameAnswer.remember
        obtain ⟨hsource, henters⟩ := valueSource_place (h.file d.file) (h.value_seen d hmem) (h.value_name d hmem) (h.value d hmem)
        unfold declaredType
        rw [show valueSource (p'.file (moved places d).file) (moved places d) = _ from hsource]
        cases hform : valueSource (p.file d.file) d with
        | type start => exact annotationAt_alike h hpending (henters start (Or.inl hform))
        | result start =>
          have hread := annotationAt_alike h hpending (henters start (Or.inr hform))
          simp only [sourceMoved, moved, declMoved]
          generalize annotationAt p (s.remember name none) d.file start = read,
            annotationAt p' (s'.remember name none) d.file (places d.file start) = read' at hread ⊢
          obtain ⟨answer, t⟩ := read
          obtain ⟨answer', t'⟩ := read'
          obtain rfl : answer' = answer := hread.answer
          cases answer' with
          | none => exact hread
          | some result => exact SameAnswer.function hread.known result
        | value other => exact ih _ (hn ▸ unanswered_remember_lt hknown hd) hpending other rfl
        | nothing => exact ⟨rfl, hpending⟩

end SchemaSplice.Declaration

namespace SchemaSplice.Chain

open Source SchemaSplice.Types Declaration
open File (Widened Seen Enters)

variable {words : List String}

/-! ### Handlers -/

inductive TerminalAlike (place : Nat → Nat) :
    Except SkipReason (ProcedureKind × Segment) → Except SkipReason (ProcedureKind × Segment) → Prop
  | ok {kind : ProcedureKind} {t t' : Segment} (hlparen : t'.lparen = place t.lparen)
    (hrparen : t'.rparen = place t.rparen) : TerminalAlike place (.ok (kind, t)) (.ok (kind, t'))
  | error {reason reason' : SkipReason} : TerminalAlike place (.error reason) (.error reason')

inductive HandlerAlike (f f' : File) (place : Nat → Nat) (words : List String) :
    Except SkipReason Handler → Except SkipReason Handler → Prop
  | ok {handler handler' : Handler} (hform : handler'.form = formMoved place handler.form)
    (henters : FormEnters f f' place words handler.form) : HandlerAlike f f' place words (.ok handler) (.ok handler')
  | error {reason reason' : SkipReason} : HandlerAlike f f' place words (.error reason) (.error reason')

def SameIgnored (f f' : File) (place : Nat → Nat) : Prop :=
  ∀ i, f.hasKind i .lparen = true → (f.closer? i).map (·.1) ≠ some (i + 1) →
    isIgnored f' (place (i + 1)) = isIgnored f (i + 1)

theorem handler?_alike {f f' : File} {place : Nat → Nat} (h : Widened f f' place) (hignored : SameIgnored f f' place)
    {kind : ProcedureKind} {t t' : Segment} (hlparen : t'.lparen = place t.lparen) (hrparen : t'.rparen = place t.rparen)
    (ht : CallAt f t) (henters : Enters f f' place words t.lparen) :
    HandlerAlike f f' place words (handler? f kind t) (handler? f' kind t') := by
  have hstart : t'.lparen + 1 = place (t.lparen + 1) := by rw [hlparen, henters.succ ht.lparen]
  have hseen := henters.seen.mono (Nat.le_succ t.lparen)
  unfold handler?
  simp only
  rw [hstart, hrparen]
  by_cases hempty : t.rparen ≤ t.lparen + 1
  · rw [if_pos hempty, if_pos (h.place_le_place hempty)]
    exact .error
  · have hopen : (f.closer? t.lparen).map (·.1) ≠ some (t.lparen + 1) := by
      obtain ⟨c, hcloser, hc⟩ := ht.matched
      rw [hcloser, Option.map_some, hc]
      exact fun heq => hempty (Nat.le_of_eq (Option.some.inj heq))
    rw [if_neg hempty, if_neg (Nat.not_le_of_lt (h.place_lt_place (Nat.lt_of_not_le hempty))),
      hignored _ ht.lparen hopen]
    split
    · exact .error
    · obtain ⟨hform, hresult⟩ := handlerForm_place h hseen (f.expressionEnd (t.lparen + 1))
      refine .ok ?_ hresult
      unfold File.handler
      simp only
      rw [h.expressionEnd_eq hseen, hform]

/-! ### Procedures -/

variable {p p' : Project} {places : Nat → Nat → Nat} {s s' : Inquiry} {current root root' : Nat}
  {segments segments' : List Segment}

theorem returnType_alike (h : WidenedProject p p' places words) (hs : SameKnown words s s') {handler handler' : Handler}
    (hform : handler'.form = formMoved (places current) handler.form)
    (henters : FormEnters (p.file current) (p'.file current) (places current) words handler.form) :
    SameAnswer words (returnType p s current handler) (returnType p' s' current handler') := by
  unfold returnType
  rw [hform]
  cases hcase : handler.form with
  | function returnsAt =>
    cases returnsAt with
    | none => exact ⟨rfl, hs⟩
    | some start => exact annotationAt_alike h hs (henters start hcase)
  | reference name =>
    have hvalue := @valueType_alike _ _ _ _ _ _ current h hs name
    refine ⟨?_, hvalue.known⟩
    show Option.bind _ _ = Option.bind _ _
    rw [hvalue.answer]
    unfold Inquiry.table
    rw [hvalue.known.types]
  | other => exact ⟨rfl, hs⟩

inductive ProcedureAlike (words : List String) : Option Procedure × Inquiry → Option Procedure × Inquiry → Prop
  | skipped {t t' : Inquiry} (known : SameKnown words t t') : ProcedureAlike words (none, t) (none, t')
  | found {m m' : Procedure} {t t' : Inquiry} (known : SameKnown words t t') (type : m'.returnType = m.returnType) :
    ProcedureAlike words (some m, t) (some m', t')

theorem sameKnown_skip (h : SameKnown words s s') (f f' : File) (root root' : Nat) (reason reason' : SkipReason) :
    SameKnown words (skip f s root reason) (skip f' s' root' reason') := ⟨h.types, h.values, h.lacks⟩

theorem procedureAt_of_terminal? (h : terminal? segments = .error reason) :
    procedureAt p s current root segments = (none, skip (p.file current) s root reason) := by
  unfold procedureAt
  rw [h]

theorem procedureAt_alike (h : WidenedProject p p' places words) (hs : SameKnown words s s')
    (hterminal : TerminalAlike (places current) (terminal? segments) (terminal? segments'))
    (hhandler : ∀ kind t t', terminal? segments = .ok (kind, t) → terminal? segments' = .ok (kind, t') →
      HandlerAlike (p.file current) (p'.file current) (places current) words
        (handler? (p.file current) kind t) (handler? (p'.file current) kind t')) :
    ProcedureAlike words (procedureAt p s current root segments) (procedureAt p' s' current root' segments') := by
  unfold procedureAt
  generalize terminal? segments = t, terminal? segments' = t' at hterminal hhandler ⊢
  cases hterminal with
  | error => exact .skipped (sameKnown_skip hs _ _ _ _ _ _)
  | @ok kind t t' hlparen hrparen =>
    have hhandler := hhandler kind t t' rfl rfl
    simp only
    generalize handler? (p.file current) kind t = handler, handler? (p'.file current) kind t' = handler' at hhandler ⊢
    cases hhandler with
    | error => exact .skipped (sameKnown_skip hs _ _ _ _ _ _)
    | @ok handler handler' hform henters =>
      have htype := @returnType_alike _ _ _ _ _ _ current h hs _ _ hform henters
      simp only
      generalize returnType p s current handler = r, returnType p' s' current handler' = r' at htype ⊢
      obtain ⟨answer, t⟩ := r
      obtain ⟨answer', t'⟩ := r'
      obtain rfl : answer' = answer := htype.answer
      cases answer' with
      | none => exact .skipped (sameKnown_skip htype.known _ _ _ _ _ _)
      | some type => exact .found htype.known rfl

end SchemaSplice.Chain
