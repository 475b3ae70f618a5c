import SchemaSplice.Chain.Procedure
import SchemaSplice.Proofs.Reading.Invariant
/-!
# Invariants of inquiries

Queries about annotations, values and procedures change the types of an inquiry only by resolution and by adding function
types, so they keep what resolution keeps and give types that may be used.
-/

namespace SchemaSplice.Declaration

open Annotation Source SchemaSplice.Types

/-- An inquiry whose types have a property and whose values have valid types. -/
structure Known (Inv : TypeState → Prop) (valid : TypeState → TypeId → Prop) (s : Inquiry) : Prop where
  types : Inv s.types
  values : ∀ name id, s.values.lookup name = some (some id) → valid s.types id

/-- What a query that starts with the types `s` comes to: types that were valid stay so, the answer is valid, and so is
what is known then; if there is no answer, only if `strict`. -/
structure Informs (Inv : TypeState → Prop) (valid : TypeState → TypeId → Prop) (strict : Prop) (s : TypeState)
    (r : Option TypeId × Inquiry) : Prop where
  keeps : ∀ id, valid s id → valid r.2.types id
  answer : ∀ id, r.1 = some id → valid r.2.types id
  known : (r.1 = none → strict) → Known Inv valid r.2

section

variable {p : Project} {Inv : List Nat → TypeState → Prop} {valid : List Nat → TypeState → TypeId → Prop}
  {strict : Prop} {s : Inquiry}

theorem Known.remember (h : Known (Inv []) (valid []) s) {name : String} {type : Option TypeId}
    (htype : ∀ id, type = some id → valid [] s.types id) : Known (Inv []) (valid []) (s.remember name type) where
  types := h.types
  values other id hid := by
    simp only [Inquiry.remember, List.lookup_cons] at hid
    split at hid
    · exact htype id (Option.some.inj hid)
    · exact h.values other id hid

/-- Reading a type within an inquiry. -/
theorem Known.leaves {ε α : Type} [HasIds α] (h : Known (Inv []) (valid []) s) {a : α} {t : TypeState}
    (hread : Leaves (Inv []) (valid []) strict s.types (.ok a t : EStateM.Result ε TypeState α)) (log : List Event) :
    Known (Inv []) (valid []) { s with types := t, log } where
  types := hread.2.2
  values name id hid := hread.1 id (h.values name id hid)

theorem Known.leaves_error {ε α : Type} [HasIds α] (h : Known (Inv []) (valid []) s) {e : ε} {t : TypeState}
    (hread : Leaves (Inv []) (valid []) strict s.types (.error e t : EStateM.Result ε TypeState α))
    (hstrict : strict) (log : List Event) : Known (Inv []) (valid []) { s with types := t, log } where
  types := hread.2 hstrict
  values name id hid := hread.1 id (h.values name id hid)

theorem Upheld.annotationAt (U : Upheld p Inv valid strict) (hs : Known (Inv []) (valid []) s)
    (file start : Nat) : Informs (Inv []) (valid []) strict s.types (annotationAt p s file start) := by
  have hread : Leaves (Inv []) (valid []) strict s.types
      (typeAt ⟨p.file file, Declaration.topScope p file, []⟩ start s.types) :=
    typeAt_sound (Γ := []) (U.transport []) (U.topScope [] file) (fun _ h => h) start s.types hs.types
      (fun _ h => nomatch h)
  unfold Declaration.annotationAt
  simp only
  split
  · next parsed types hres =>
    rw [hres] at hread
    refine ⟨hread.1, fun id hid => ?_, fun _ => hs.leaves hread s.log⟩
    rw [← Option.some.inj hid]
    exact hread.2.1 _ (List.mem_singleton.mpr rfl)
  · next e types hres =>
    rw [hres] at hread
    exact ⟨hread.1, (fun _ hid => nomatch hid), fun hstrict => hs.leaves_error hread (hstrict rfl) _⟩

theorem Upheld.functionType (U : Upheld p Inv valid strict) (hs : Known (Inv []) (valid []) s) {result : TypeId}
    (hresult : valid [] s.types result) :
    Informs (Inv []) (valid []) strict s.types
      (some (s.onTable (Table.function result)).1, (s.onTable (Table.function result)).2) := by
  have hinsert := tableInsert_sound (Γ := [result]) (U.transport []) (k := .object { calls := [result] }) trivial
    (fun _ h => h) s.types hs.types fun id hid => by
      rw [List.mem_singleton.mp hid]
      exact hresult
  obtain ⟨hkeep, hnew, hinv⟩ := hinsert
  refine ⟨hkeep, fun id hid => ?_, fun _ => ⟨hinv, fun name id hid => hkeep id (hs.values name id hid)⟩⟩
  rw [← Option.some.inj hid]
  exact hnew _ (List.mem_singleton.mpr rfl)

/-- What was asked for a value is remembered. -/
theorem Informs.remember {s₀ : TypeState} {type : Option TypeId} (h : Informs (Inv []) (valid []) strict s₀ (type, s))
    (name : String) : Informs (Inv []) (valid []) strict s₀ (type, s.remember name type) :=
  ⟨h.keeps, h.answer, fun hstrict => (h.known hstrict).remember h.answer⟩

theorem Upheld.valueType (U : Upheld p Inv valid strict) (hs : Known (Inv []) (valid []) s) (current : Nat)
    (name : String) : Informs (Inv []) (valid []) strict s.types (valueType p s current name) := by
  fun_induction Declaration.valueType p s current name with
  | case1 s current name known hknown =>
    refine ⟨fun _ hid => hid, fun id hid => ?_, fun _ => hs⟩
    exact hs.values name id (hknown.trans (congrArg some hid))
  | case2 s current name hunknown pending hd =>
    exact ⟨fun _ hid => hid, by simp, fun _ => hs.remember (by simp)⟩
  | case3 s current name hunknown pending d hd type s' hbody ih =>
    apply Informs.remember
    have hpending : Known (Inv []) (valid []) pending := hs.remember (by simp)
    show Informs (Inv []) (valid []) strict pending.types (type, s')
    cases hsource : valueSource (p.file d.file) d with
    | type start =>
      rw [hsource] at hbody
      simp only at hbody
      rw [← hbody]
      exact U.annotationAt hpending d.file start
    | result start =>
      rw [hsource] at hbody
      have hread := U.annotationAt hpending d.file start
      simp only at hbody
      generalize Declaration.annotationAt p pending d.file start = read at hbody hread
      obtain ⟨_ | result, s₁⟩ := read
      · rw [← hbody]
        exact hread
      · have hfunction := U.functionType (hread.known (by simp)) (hread.answer result rfl)
        rw [← hbody]
        exact ⟨fun id hid => hfunction.keeps id (hread.keeps id hid), hfunction.answer, hfunction.known⟩
    | value other =>
      rw [hsource] at hbody
      simp only at hbody
      rw [← hbody]
      exact ih other hpending
    | nothing =>
      rw [hsource] at hbody
      rw [← hbody]
      exact ⟨fun _ hid => hid, by simp, fun _ => hpending⟩

end

/-! ### Properties kept whatever types are used -/

section

variable {p : Project} {Inv : TypeState → Prop}

theorem known_anyId {s : Inquiry} (hs : Inv s.types) : Known Inv AnyId s := ⟨hs, fun _ _ _ => trivial⟩

theorem Maintained.annotationAt (M : Maintained p Inv) {s : Inquiry} (hs : Inv s.types)
    (file start : Nat) : Inv (annotationAt p s file start).2.types :=
  ((M.upheld.annotationAt (known_anyId hs) file start).known fun _ => trivial).types

theorem Maintained.valueType (M : Maintained p Inv) {s : Inquiry} (hs : Inv s.types) (current : Nat)
    (name : String) : Inv (valueType p s current name).2.types :=
  ((M.upheld.valueType (known_anyId hs) current name).known fun _ => trivial).types

theorem Maintained.returnType (M : Maintained p Inv) {s : Inquiry} (hs : Inv s.types) (current : Nat)
    (handler : Handler) : Inv (Chain.returnType p s current handler).2.types := by
  unfold Chain.returnType
  split
  · exact M.annotationAt hs current _
  · exact hs
  · exact M.valueType hs current _
  · exact hs

theorem Maintained.procedureAt (M : Maintained p Inv) {s : Inquiry} (hs : Inv s.types)
    (current root : Nat) (segments : List Chain.Segment) :
    Inv (Chain.procedureAt p s current root segments).2.types := by
  unfold Chain.procedureAt
  simp only
  split
  · exact hs
  · split
    · exact hs
    · next handler _ =>
      have htype := M.returnType hs current handler
      split
      · next hres =>
        rw [hres] at htype
        exact htype
      · next hres =>
        rw [hres] at htype
        exact htype

end

end SchemaSplice.Declaration
