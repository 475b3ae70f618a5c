import Mathlib.Logic.Relation
import SchemaSplice.Proofs.Descent.Limits
/-!
# Validators cover their types

Each part that a layer visits lies at least one level deeper, whatever the kind of the type, so no chain of visited parts is
longer than the levels that are left. A type that has a validator therefore unfolds completely: its validator is built
from those of all types that it visits, and so on down to types that visit nothing. A type that reaches itself has
no validator, however deep types may be.
-/

namespace SchemaSplice

open SchemaSplice.Types

inductive Covers (t : Table) : TypeId → Validator → Prop
  | of_parts {id v} (part : TypeId → Validator) (hparts : ∀ u, Visits t id u → Covers t u (part u))
      (h : Synthesis.layer t (fun _ u => .ok (part u)) id = .ok v) : Covers t id v

variable {t : Table} {limit depth : Nat} {id u : TypeId} {v v' : Validator}

/-- A layer depends on the validators of its visited parts alone. -/
theorem layer_eq_of_visits {part part' : Synthesis.Parts} (h : ∀ k u, Visits t id u → part k u = part' k u) :
    Synthesis.layer t part id = Synthesis.layer t part' id := by
  have hsame : UpTo (fun _ => False) (Synthesis.layer t part id) (Synthesis.layer t part' id) :=
    Synthesis.layer_upTo fun k u hu => Or.inr (h k u hu)
  rcases hsame with ⟨-, hfalse, -⟩ | hsame
  · exact hfalse.elim
  · exact hsame

theorem Covers.unique (h : Covers t id v) (h' : Covers t id v') : v = v' := by
  induction h generalizing v' with
  | of_parts part hparts hlayer ih =>
    cases h' with
    | of_parts part' hparts' hlayer' =>
      rw [layer_eq_of_visits fun _ u hu => congrArg Except.ok (ih u hu (hparts' u hu)), hlayer'] at hlayer
      exact (Except.ok.inj hlayer).symm

/-! ### Visited parts lie deeper -/

/-- What a type with a validator visits has a validator too, at least one level deeper. -/
theorem exists_deeper (h : synthesize t limit depth id = .ok v) (hu : Visits t id u) :
    ∃ depth' w, depth < depth' ∧ synthesize t limit depth' u = .ok w := by
  obtain ⟨-, hlayer⟩ := layer_of_synthesize h
  obtain ⟨k, w, hw⟩ := Synthesis.exists_of_visits hlayer hu
  exact ⟨depth + 1 + k, w, by omega, hw⟩

theorem exists_deeper_of_transGen (h : synthesize t limit depth id = .ok v) (hu : Relation.TransGen (Visits t) id u) :
    ∃ depth' w, depth < depth' ∧ synthesize t limit depth' u = .ok w := by
  induction hu with
  | single hu => exact exists_deeper h hu
  | tail _ hu ih =>
    obtain ⟨middle, w, hmiddle, hw⟩ := ih
    obtain ⟨depth', w', hdepth, hw'⟩ := exists_deeper hw hu
    exact ⟨depth', w', Nat.lt_trans hmiddle hdepth, hw'⟩

/-- A chain of visited parts is no longer than the levels that are left. -/
theorem length_le_of_synthesize (path : Nat → TypeId) {n : Nat} (hpath : ∀ i < n, Visits t (path i) (path (i + 1)))
    (h : synthesize t limit depth (path 0) = .ok v) : depth + n ≤ limit := by
  induction n generalizing path depth v with
  | zero => exact (layer_of_synthesize h).1
  | succ n ih =>
    obtain ⟨depth', w, hdepth, hw⟩ := exists_deeper h (hpath 0 (Nat.succ_pos n))
    have hle := ih (fun i => path (i + 1)) (fun i hi => hpath (i + 1) (Nat.succ_lt_succ hi)) hw
    omega

theorem not_reaches_self (h : synthesize t limit depth id = .ok v) : ¬Relation.TransGen (Visits t) id id := by
  intro hself
  -- Each round leads back to the type with fewer levels left.
  induction hn : limit + 1 - depth using Nat.strongRecOn generalizing depth v with
  | ind n ih =>
    obtain ⟨depth', w, hdepth, hw⟩ := exists_deeper_of_transGen h hself
    have hle := (layer_of_synthesize h).1
    exact ih (limit + 1 - depth') (by omega) hw rfl

/-! ### Validators are complete -/

theorem covers_of_synthesize (h : synthesize t limit depth id = .ok v) : Covers t id v := by
  induction hn : limit + 1 - depth using Nat.strongRecOn generalizing depth id v with
  | ind n ih =>
    obtain ⟨hle, hlayer⟩ := layer_of_synthesize h
    -- A visited part has one validator, at whatever depth it is asked for.
    have hpart : ∀ u, ∃ w, ∀ depth' w', synthesize t limit depth' u = .ok w' → w' = w := by
      intro u
      by_cases hsome : ∃ depth' w, synthesize t limit depth' u = .ok w
      · obtain ⟨depth', w, hw⟩ := hsome
        exact ⟨w, fun depth'' w' hw' => synthesize_unique hw' hw⟩
      · exact ⟨.primitive "never", fun depth' w' hw' => absurd ⟨depth', w', hw'⟩ hsome⟩
    choose part hpart using hpart
    refine .of_parts part (fun u hu => ?_) ?_
    · obtain ⟨depth', w, hdepth, hw⟩ := exists_deeper h hu
      rw [← hpart u depth' w hw]
      exact ih (limit + 1 - depth') (by omega) hw rfl
    · have hsame : UpTo (fun _ => True)
          (Synthesis.layer t (fun k part => synthesize t limit (depth + 1 + k) part) id)
          (Synthesis.layer t (fun _ u => .ok (part u)) id) := by
        refine Synthesis.layer_upTo fun k u _ => ?_
        cases hresult : synthesize t limit (depth + 1 + k) u with
        | error e => exact Or.inl ⟨e, trivial, rfl⟩
        | ok w => exact Or.inr (congrArg Except.ok (hpart u _ w hresult))
      exact hsame.eq_of_ok hlayer

/-- A type from which the visited parts go on without end, such as one that reaches itself, has no validator at any limit;
and a validator covers all that its type unfolds to, which ends within the limit. -/
theorem synthesize_covers (t : Table) (limit depth : Nat) (id : TypeId) :
    (∀ path : Nat → TypeId, path 0 = id → (∀ n, Visits t (path n) (path (n + 1))) →
      ∃ e, synthesize t limit depth id = .error e) ∧
    (Relation.TransGen (Visits t) id id → ∃ e, synthesize t limit depth id = .error e) ∧
    ∀ v, synthesize t limit depth id = .ok v →
      Covers t id v ∧ (∀ v', Covers t id v' → v' = v) ∧
        ∀ (path : Nat → TypeId) (n : Nat), path 0 = id → (∀ i < n, Visits t (path i) (path (i + 1))) →
          depth + n ≤ limit := by
  have hbounded : ∀ v, synthesize t limit depth id = .ok v → ∀ (path : Nat → TypeId) (n : Nat), path 0 = id →
      (∀ i < n, Visits t (path i) (path (i + 1))) → depth + n ≤ limit := by
    rintro v h path n rfl hpath
    exact length_le_of_synthesize path hpath h
  refine ⟨fun path hstart hpath => ?_, fun hself => ?_, fun v h => ?_⟩
  · cases hresult : synthesize t limit depth id with
    | error e => exact ⟨e, rfl⟩
    | ok v =>
      have hle := hbounded v hresult path (limit + 1) hstart fun i _ => hpath i
      omega
  · cases hresult : synthesize t limit depth id with
    | error e => exact ⟨e, rfl⟩
    | ok v => exact absurd hself (not_reaches_self hresult)
  · have hcovers := covers_of_synthesize h
    exact ⟨hcovers, fun v' hcovers' => hcovers'.unique hcovers, hbounded v h⟩

/-- An object type that holds itself in place 0, `string[]` in place 1. -/
def nodeAndList : Table :=
  tableOfKinds [.object { symbol := some "Node", properties := [⟨.name "next", ⟨0⟩, true⟩] }, .array (some ⟨2⟩), .string] []

theorem nodeAndList_covers :
    (∀ limit depth, ∃ e, synthesize nodeAndList limit depth ⟨0⟩ = .error e) ∧
      Covers nodeAndList ⟨1⟩ (.call "array" [.validator (.primitive "string")]) := by
  constructor
  · intro limit depth
    have hnode : IsObject nodeAndList ⟨0⟩ { symbol := some "Node", properties := [⟨.name "next", ⟨0⟩, true⟩] } :=
      ⟨by rfl, rfl⟩
    have hvisits : Visits nodeAndList ⟨0⟩ ⟨0⟩ := by
      refine .field hnode (by decide) ⟨_, List.mem_singleton_self _, "next", rfl, rfl, ?_⟩
      rw [← holdsFunction_iff]
      decide
    exact (synthesize_covers nodeAndList limit depth ⟨0⟩).2.1 (.single hvisits)
  · exact ((synthesize_covers nodeAndList 1 0 ⟨1⟩).2.2 _ (by cbv)).1

end SchemaSplice
