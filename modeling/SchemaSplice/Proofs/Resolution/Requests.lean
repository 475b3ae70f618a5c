import SchemaSplice.Proofs.Resolution.Moves
/-!
# Requests

Everything that resolution can be asked for from outside: names, members of enums, values and signatures, and a reading of a
type, of an object type or of a list of bases at any token of any file. The states that any requests lead to are the
reachable ones. A request changes the state by moves only.
-/

namespace SchemaSplice.Declaration

open Annotation Source SchemaSplice.Types HasIds

inductive Request where
  /-- The type that a name with type arguments stands for. -/
  | named (name : String) (args : List TypeId)
  /-- The type of an enum's member. -/
  | member (qualifier name : String)
  /-- The type of a value. -/
  | value (name : String)
  /-- The result type of a function, given the token where it is written. -/
  | signature (start? : Option Nat)
  /-- The type that is written at a token. -/
  | type (f : File) (params : Bindings) (position : Nat)
  /-- The object type whose opening brace stands at a token. -/
  | object (f : File) (params : Bindings) (position : Nat)
  /-- The bases that are listed at a token. -/
  | heritage (f : File) (params : Bindings) (position : Nat)

namespace Request

/-- What answers a request. What is read at a token comes with the token after it. -/
abbrev Answer : Request → Type
  | named .. => Except TypeError TypeId
  | member .. => Except TypeError TypeId
  | value _ => Option TypeId
  | signature _ => Option TypeId
  | type .. => Except TypeError (TypeId × Nat)
  | object .. => Except TypeError (ObjectType × Nat)
  | heritage .. => Except TypeError (List TypeId × Nat)

def args : Request → List TypeId
  | named _ args => args
  | type _ params _ => params.map (·.2)
  | object _ params _ => params.map (·.2)
  | heritage _ params _ => params.map (·.2)
  | _ => []

end Request

def Inquiry.run {α : Type} (s : Inquiry) (reading : Reading α) : Except TypeError α × Inquiry :=
  match reading s.types with
  | .ok a types => (.ok a, { s with types })
  | .error e types => (.error e, { s with types })

def readType (env : Env) (position : Nat) : Reading (TypeId × Nat) :=
  (fun r => (r.value, r.next)) <$> (typeAt env position).adaptExcept (·.cause)

def readObject (env : Env) (position : Nat) : Reading (ObjectType × Nat) :=
  (fun r => (r.value, r.next)) <$> (objectAt env position).adaptExcept (·.cause)

def readHeritage (env : Env) (position : Nat) : Reading (List TypeId × Nat) :=
  (heritageAt env position).adaptExcept (·.cause)

def serve (p : Project) (current : Nat) (s : Inquiry) : (r : Request) → r.Answer × Inquiry
  | .named name args => s.run (resolveNamed p current name args)
  | .member qualifier name => s.run (enumMember p current qualifier name)
  | .value name => valueType p s current name
  | .signature none => (none, s)
  | .signature (some start) => annotationAt p s current start
  | .type f params position => s.run (readType ⟨f, topScope p current, params⟩ position)
  | .object f params position => s.run (readObject ⟨f, topScope p current, params⟩ position)
  | .heritage f params position => s.run (readHeritage ⟨f, topScope p current, params⟩ position)

/-- The states that requests lead to, starting with nothing; a request may be made with types that are known. -/
inductive Reachable (p : Project) (current : Nat) : Inquiry → Prop where
  | start : Reachable p current {}
  | serve {s : Inquiry} (r : Request) (h : Reachable p current s) (hargs : ∀ a ∈ r.args, a.slot < s.table.size) :
    Reachable p current (serve p current s r).2

section

variable {p : Project} {current : Nat} {s : Inquiry} {α : Type}

@[simp] theorem Inquiry.run_types (s : Inquiry) (reading : Reading α) :
    (s.run reading).2.types = stateAfter (reading s.types) := by
  unfold Inquiry.run
  cases reading s.types <;> rfl

/-! ### Moves -/

theorem moves_annotationAt (s : Inquiry) (file start : Nat) : Moves p s.types (annotationAt p s file start).2.types := by
  have htype : Yields p Anything (typeAt ⟨p.file file, topScope p file, []⟩ start) :=
    yields_typeAt (yields_topScope file) start
  have hread := htype.moves s.types
  unfold annotationAt
  simp only
  split
  · next hres =>
    rw [hres] at hread
    exact hread
  · next hres =>
    rw [hres] at hread
    exact hread

theorem moves_functionType (s : Inquiry) (result : TypeId) :
    Moves p s.types (s.onTable (Table.function result)).2.types := (TableYields.function result s.types).1

theorem moves_valueType (s : Inquiry) (current : Nat) (name : String) :
    Moves p s.types (valueType p s current name).2.types := by
  fun_induction valueType p s current name with
  | case1 s current name known hknown => exact .refl _
  | case2 s current name hunknown pending hd => exact .refl _
  | case3 s current name hunknown pending d hd type s' hbody ih =>
    show Moves p pending.types s'.types
    cases hsource : valueSource (p.file d.file) d with
    | type start =>
      rw [hsource] at hbody
      simp only at hbody
      have hread := moves_annotationAt (p := p) pending d.file start
      rw [hbody] at hread
      exact hread
    | result start =>
      rw [hsource] at hbody
      have hread := moves_annotationAt (p := p) pending d.file start
      simp only at hbody
      generalize annotationAt p pending d.file start = read at hbody hread
      obtain ⟨_ | result, s₁⟩ := read
      · cases hbody
        exact hread
      · have hfunction := moves_functionType (p := p) s₁ result
        cases hbody
        exact hread.trans hfunction
    | value other =>
      rw [hsource] at hbody
      simp only at hbody
      have hread := ih other
      rw [hbody] at hread
      exact hread
    | nothing =>
      rw [hsource] at hbody
      cases hbody
      exact .refl _

theorem yields_readType {env : Env} (hscope : ScopeYields p env.scope) (position : Nat) :
    Yields p Anything (readType env position) :=
  (Yields.adaptExcept _ (yields_typeAt hscope position)).bind fun _ _ => Yields.pure trivial

theorem yields_readObject {env : Env} (hscope : ScopeYields p env.scope) (position : Nat) :
    Yields p Anything (readObject env position) :=
  (Yields.adaptExcept _ (yields_objectAt hscope position)).bind fun _ _ => Yields.pure trivial

/-- A request changes the types found by moves only. -/
theorem moves_serve (p : Project) (current : Nat) (s : Inquiry) (r : Request) :
    Moves p s.types (serve p current s r).2.types := by
  have hrun : ∀ {β : Type} {Q : β → Prop} {reading : Reading β}, Yields p Q reading →
      Moves p s.types (s.run reading).2.types := by
    intro β Q reading h
    rw [Inquiry.run_types]
    exact h.moves s.types
  cases r with
  | named name args => exact hrun (yields_resolveWithin maxNesting current name args)
  | member qualifier name => exact hrun (yields_enumMember current qualifier name)
  | value name => exact moves_valueType s current name
  | signature start? =>
    cases start? with
    | none => exact .refl _
    | some start => exact moves_annotationAt s current start
  | type f params position => exact hrun (yields_readType (yields_topScope current) position)
  | object f params position => exact hrun (yields_readObject (yields_topScope current) position)
  | heritage f params position =>
    exact hrun (Yields.adaptExcept _ (yields_heritageAt (yields_topScope current) position))

/-! ### Known types -/

theorem Known.run [HasIds α] {Inv : TypeState → Prop} {valid : TypeState → TypeId → Prop} {Γ : List TypeId}
    {reading : Reading α} (hs : Known Inv valid s) (h : Sound Inv valid True Γ reading)
    (hΓ : ∀ a ∈ Γ, valid s.types a) : Known Inv valid (s.run reading).2 := by
  have hleaves := h s.types hs.types hΓ
  unfold Inquiry.run
  cases hres : reading s.types with
  | ok a types =>
    rw [hres] at hleaves
    exact ⟨hleaves.2.2, fun name id hid => hleaves.1 id (hs.values name id hid)⟩
  | error e types =>
    rw [hres] at hleaves
    exact ⟨hleaves.2 trivial, fun name id hid => hleaves.1 id (hs.values name id hid)⟩

theorem Upheld.serve {Inv : List Nat → TypeState → Prop} {valid : List Nat → TypeState → TypeId → Prop}
    (U : Upheld p Inv valid True) (hs : Known (Inv []) (valid []) s) (r : Request)
    (hargs : ∀ a ∈ r.args, valid [] s.types a) : Known (Inv []) (valid []) (serve p current s r).2 := by
  have hparams : ∀ params : Bindings, ∀ id ∈ ids params, id ∈ params.map Prod.snd := by
    intro params id hid
    obtain ⟨b, hb, hid⟩ := mem_ids_list.mp hid
    exact List.mem_map.mpr ⟨b, hb, (List.mem_singleton.mp hid).symm⟩
  cases r with
  | named name args => exact hs.run (U.resolveWithin [] maxNesting current name args) hargs
  | member qualifier name => exact hs.run (U.enumMember current qualifier name) fun _ h => nomatch h
  | value name => exact (U.valueType hs current name).known fun _ => trivial
  | signature start? =>
    cases start? with
    | none => exact hs
    | some start => exact (U.annotationAt hs current start).known fun _ => trivial
  | type f params position =>
    refine hs.run (Γ := params.map Prod.snd) ?_ hargs
    have hread := typeAt_sound (f := f) (U.transport []) (U.topScope [] current) (hparams params) position
    exact (hread.adaptExcept _).bind fun r => Sound.pure fun id hid => List.mem_append_left _ (by simpa [ids] using hid)
  | object f params position =>
    refine hs.run (Γ := params.map Prod.snd) ?_ hargs
    have hread := objectAt_sound (f := f) (U.transport []) (U.topScope [] current) (hparams params) position
    refine (hread.adaptExcept _).bind fun r => Sound.pure fun id hid => List.mem_append_left _ ?_
    exact (List.mem_append.mp hid).resolve_right List.not_mem_nil
  | heritage f params position =>
    refine hs.run (Γ := params.map Prod.snd) ?_ hargs
    have hread := heritageAt_sound (f := f) (U.transport []) (U.topScope [] current) (hparams params) position
    exact hread.adaptExcept _

/-- In a reachable state, all types that are known are in the table. -/
theorem Reachable.known (h : Reachable p current s) : Known TypeState.Closed InTable s := by
  induction h with
  | start => exact ⟨closed_start, fun _ _ h => nomatch h⟩
  | serve r _ hargs ih => exact (closed_upheld p).serve ih r hargs

end

end SchemaSplice.Declaration
