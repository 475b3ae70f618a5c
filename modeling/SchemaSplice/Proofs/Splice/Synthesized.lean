import SchemaSplice.Proofs.Meaning.Calls
import SchemaSplice.Proofs.Reading.Inquiry
import SchemaSplice.Proofs.Splice.Printed
/-!
# Synthesized validators

What synthesis builds from a table: calls of fixed names, whose leaves are literals of the table and the names of its enums.
Enum names are words of the source and big integers are digits, in every table that queries build. So the validators
of such a table are tame, since all other names in them are fixed, and texts are quoted.
-/

namespace SchemaSplice

open Source SchemaSplice.Types Annotation Declaration

/-! ### Kinds in a table -/

def AllKinds (P : TypeKind → Prop) (t : Table) : Prop := ∀ (i : Nat) (k : TypeKind), t.slots[i]? = some (.kind k) → P k

section

variable {P : TypeKind → Prop} {t : Table}

theorem AllKinds.kind (h : AllKinds P t) (hnever : P .never) (id : TypeId) : P (t.kind id) := by
  unfold Table.kind
  generalize t.size = steps
  induction steps generalizing id with
  | zero => exact hnever
  | succ steps ih =>
    unfold Table.follow
    split
    · next k hk => exact h _ k hk
    · next target _ => exact ih target
    · exact hnever

theorem AllKinds.push (h : AllKinds P t) {k : TypeKind} (hk : P k) :
    AllKinds P { t with slots := t.slots.push (.kind k) } := by
  intro i k' hi
  rw [Array.getElem?_push] at hi
  split at hi
  · cases hi
    exact hk
  · exact h i k' hi

theorem AllKinds.define (h : AllKinds P t) (place target : TypeId) :
    AllKinds P (Table.define place target t).2 := by
  intro i k hi
  simp only [Table.define, Array.getElem?_setIfInBounds] at hi
  split at hi
  · split at hi <;> cases hi
  · exact h i k hi

/-- Resolution keeps a property of kinds that readable kinds and the members of declared enums have. -/
theorem allKinds_maintained {p : Project} (hread : ∀ k, Readable k → P k) (hpending : P .pending)
    (henum : ∀ e m l, IsEntry p e m l → P (.enumLiteral e m l)) :
    Maintained p fun s => AllKinds P s.table where
  insert _ k hk hs := hs.push (hread k hk)
  enumLiteral _ e m l hentry hs := hs.push (henum e m l hentry)
  recordEnum _ _ _ hs := hs
  rememberEnum _ _ _ hs := hs
  defines := by
    intro current name args first rest resolver s _ _ _ hbody hs
    have hreserved : AllKinds P (s.reserve (name, args)).table := hs.push hpending
    have hread := hbody _ hreserved
    rw [defineInstance_apply]
    split
    · next type t hres =>
      rw [hres] at hread
      exact AllKinds.define hread _ _
    · next e t hres =>
      rw [hres] at hread
      exact hread

end

/-! ### Printable tables -/

/-- A kind whose names and digits can be printed as they are. -/
def Printable : TypeKind → Prop
  | .enumLiteral e _ l => QuietText e ∧ Readable (.literal l)
  | .literal l => Readable (.literal l)
  | _ => True

def PrintableTable (t : Table) : Prop := AllKinds Printable t

theorem printable_of_readable {k : TypeKind} (h : Readable k) : Printable k := by
  cases k with
  | enumLiteral e m l => exact h.elim
  | literal l => exact h
  | _ => trivial

theorem PrintableTable.kind {t : Table} (h : PrintableTable t) (id : TypeId) : Printable (t.kind id) :=
  AllKinds.kind h trivial id

/-- Resolution keeps tables printable when declared names are. -/
theorem maintained_printable {p : Project} (hnames : ∀ d ∈ p.types, QuietText d.name) :
    Maintained p (fun s => PrintableTable s.table) :=
  allKinds_maintained (fun _ => printable_of_readable) trivial fun _ _ _ hentry => by
    have hread := hentry.readable
    obtain ⟨d, hd, rfl, -⟩ := hentry
    exact ⟨hnames d hd, hread⟩

/-! ### What synthesis builds -/

mutual

/-- A validator whose leaves are literals and enum names of a table. -/
inductive Built (t : Table) : Validator → Prop where
  | call {name : String} {args : List Argument} : QuietText name → (∀ a ∈ args, BuiltArgument t a) →
      Built t (.call name args)
  | method {receiver : Validator} {name : String} {args : List Argument} : Built t receiver → QuietText name →
      (∀ a ∈ args, BuiltArgument t a) → Built t (.method receiver name args)

inductive BuiltArgument (t : Table) : Argument → Prop where
  | validator {v : Validator} : Built t v → BuiltArgument t (.validator v)
  | list {items : List Argument} : (∀ a ∈ items, BuiltArgument t a) → BuiltArgument t (.list items)
  | fields {entries : List (String × Validator)} : (∀ e ∈ entries, Built t e.2) → BuiltArgument t (.fields entries)
  | literal {id : TypeId} {l : Literal} : t.literal? id = some l → BuiltArgument t (.ofLiteral l)
  | name {id : TypeId} {e m : String} {l : Literal} : t.kind id = .enumLiteral e m l → BuiltArgument t (.name e)

end

theorem quietText_of_mem_bareNames : ∀ name ∈ bareNames, QuietText name := by decide

/-- The names of calls are quiet, and all arguments are validators, literals or enum names. -/
theorem CallTree.built {t : Table} {Keys : List String → Prop} {v : Validator} (h : CallTree t Keys v) :
    Built t v := by
  have hone : ∀ {a : Argument}, BuiltArgument t a → ∀ b ∈ [a], BuiltArgument t b := by
    intro a ha b hb
    rwa [List.mem_singleton.mp hb]
  have hlist : ∀ {vs : List Validator}, (∀ v ∈ vs, Built t v) → BuiltArgument t (.list (vs.map .validator)) := by
    intro vs hvs
    refine .list fun a ha => ?_
    obtain ⟨v, hv, rfl⟩ := List.mem_map.mp ha
    exact .validator (hvs v hv)
  induction h with
  | bare hname => exact .call (quietText_of_mem_bareNames _ hname) (by simp)
  | literal hl => exact .call (by decide) (hone (.literal hl))
  | strings _ htexts =>
    refine .call (by decide) (hone (.list fun a ha => ?_))
    obtain ⟨s, hs, rfl⟩ := List.mem_map.mp ha
    obtain ⟨id, hid⟩ := htexts s hs
    exact .literal hid
  | wholeEnum hk _ => exact .call (by decide) (hone (.name hk))
  | union _ _ ih => exact .call (by decide) (hone (hlist ih))
  | tuple _ ih => exact .call (by decide) (hone (hlist ih))
  | openTuple _ _ ihItems ihRest =>
    exact .method (.call (by decide) (hone (hlist ihItems))) (by decide) (hone (.validator ihRest))
  | one hname _ ih =>
    have hquiet : ∀ name ∈ ["array", "set"], QuietText name := by decide
    exact .call (hquiet _ hname) (hone (.validator ih))
  | two hname _ _ ihLeft ihRight =>
    have hquiet : ∀ name ∈ ["map", "record", "intersection"], QuietText name := by decide
    exact .call (hquiet _ hname) (List.forall_mem_cons.mpr ⟨.validator ihLeft, hone (.validator ihRight)⟩)
  | object _ _ ih => exact .call (by decide) (hone (.fields ih))
  | modified hname _ ih =>
    have hquiet : ∀ name ∈ ["nullable", "optional", "nullish"], QuietText name := by decide
    exact .method ih (hquiet _ hname) (by simp)

/-- Every validator of a type is built from its table. -/
theorem built_synthesize {t : Table} {limit depth : Nat} {id : TypeId} {v : Validator}
    (h : synthesize t limit depth id = .ok v) : Built t v := by
  have hcalls : CallTree t (fun _ => True) v := callTree_synthesize (fun _ => trivial) h
  exact hcalls.built

/-! ### Tame validators -/

theorem tame_ofLiteral {l : Literal} (h : Readable (.literal l)) : Tame (Argument.ofLiteral l).chars := by
  cases l with
  | text s => exact tame_quoteJson _
  | number x => exact tame_numberChars x
  | flag b => cases b <;> exact .of_all (by decide)
  | bigInt digits =>
    refine .append (.of_quiet ?_) (.of_all (by decide))
    intro c hc
    exact isQuiet_of_isDigit (h c hc)

theorem PrintableTable.literal? {t : Table} (h : PrintableTable t) {id : TypeId} {l : Literal}
    (hl : t.literal? id = some l) : Readable (.literal l) := by
  have hkind := h.kind id
  unfold Table.literal? at hl
  cases hk : t.kind id with
  | literal l' =>
    rw [hk] at hl hkind
    cases hl
    exact hkind
  | enumLiteral e m l' =>
    rw [hk] at hl hkind
    cases hl
    exact hkind.2
  | _ =>
    rw [hk] at hl
    cases hl

/-- Validators built from a printable table are tame. -/
theorem Built.tame {t : Table} (ht : PrintableTable t) {v : Validator} (h : Built t v) : Tame v.chars := by
  refine @Built.rec t (fun v _ => Tame v.chars) (fun a _ => Tame a.chars) ?call ?method
    ?validator ?list ?fields ?literal ?name v h
  case call =>
    intro name args hname _ hargs
    exact tame_call hname hargs
  case method =>
    intro receiver name args _ hname _ hreceiver hargs
    exact tame_method hreceiver hname hargs
  case validator =>
    intro v _ hv
    exact hv
  case list =>
    intro items _ hitems
    exact tame_list hitems
  case fields =>
    intro entries _ hentries
    exact tame_fields hentries
  case literal =>
    intro id l hl
    exact tame_ofLiteral (ht.literal? hl)
  case name =>
    intro id e m l hk
    have hkind := ht.kind id
    rw [hk] at hkind
    exact hkind.1.tame

theorem tame_validatorOfResult {t : Table} (ht : PrintableTable t) {limit : Nat} {id : TypeId}
    {v : Validator} (h : validatorOfResult t limit id = .ok v) : Tame v.chars :=
  (built_synthesize h).tame ht

end SchemaSplice
