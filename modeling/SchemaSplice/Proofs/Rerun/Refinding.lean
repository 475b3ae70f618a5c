import SchemaSplice.Proofs.Rerun.Rewalking
import SchemaSplice.Proofs.Splice.Findings
/-!
# Findings of a widened project

A pass over a widened file finds the procedures where they have moved to, with the validators they had, as long as no procedure starts
in a run.
-/

namespace SchemaSplice.Chain

open Source SchemaSplice.Types Declaration Pass
open File (Widened Seen Enters AfterDot InParens)

/-! ### Lists that go along -/

/-- The second list goes along the first one and has some further elements. -/
inductive Interleaved {α β : Type} (R : α → β → Prop) (extra : β → Prop) : List α → List β → Prop
  | nil : Interleaved R extra [] []
  | cons {a : α} {b : β} {as : List α} {bs : List β} (hab : R a b) (h : Interleaved R extra as bs) :
    Interleaved R extra (a :: as) (b :: bs)
  | more {b : β} {as : List α} {bs : List β} (hb : extra b) (h : Interleaved R extra as bs) : Interleaved R extra as (b :: bs)

section

variable {α β : Type} {R : α → β → Prop} {extra : β → Prop}

theorem Interleaved.append {as as' : List α} {bs bs' : List β} (h : Interleaved R extra as bs)
    (h' : Interleaved R extra as' bs') : Interleaved R extra (as ++ as') (bs ++ bs') := by
  induction h with
  | nil => exact h'
  | cons hab _ ih => exact .cons hab ih
  | more hb _ ih => exact .more hb ih

theorem interleaved_extra {bs : List β} (h : ∀ b ∈ bs, extra b) : Interleaved R extra [] bs := by
  induction bs with
  | nil => exact .nil
  | cons b bs ih => exact .more (h b List.mem_cons_self) (ih fun b hb => h b (List.mem_cons_of_mem _ hb))

/-- What is found at places goes along with what is found at the numbers that they are places of. -/
theorem interleaved_range {place : Nat → Nat} (hmono : StrictMono place) {g : Nat → Option α} {g' : Nat → Option β}
    (hkept : ∀ i, Option.Rel R (g i) (g' (place i))) (hrun : ∀ j, j ∉ Set.range place → ∀ b ∈ g' j, extra b) (n : Nat) :
    Interleaved R extra ((List.range n).filterMap g) ((List.range (place n)).filterMap g') := by
  have hextra : ∀ js : List Nat, (∀ j ∈ js, j ∉ Set.range place) → Interleaved R extra [] (js.filterMap g') := by
    intro js hjs
    refine interleaved_extra fun b hb => ?_
    obtain ⟨j, hj, hgj⟩ := List.mem_filterMap.mp hb
    exact hrun j (hjs j hj) b hgj
  induction n with
  | zero =>
    refine hextra _ fun j hj => ?_
    rintro ⟨i, rfl⟩
    exact Nat.not_lt_of_le (hmono.monotone (Nat.zero_le i)) (List.mem_range.mp hj)
  | succ n ih =>
    obtain ⟨k, hk⟩ := Nat.exists_eq_add_of_le (hmono (Nat.lt_succ_self n))
    have hrange : List.range (place (n + 1)) = List.range (place n) ++ (place n :: (List.range k).map (place n + 1 + ·)) := by
      rw [hk, List.range_add, Nat.succ_eq_add_one, List.range_succ, List.append_assoc, List.singleton_append]
    rw [hrange, List.range_succ, List.filterMap_append, List.filterMap_append]
    refine ih.append ?_
    have hafter : Interleaved R extra [] (((List.range k).map (place n + 1 + ·)).filterMap g') := by
      refine hextra _ fun j hj => ?_
      obtain ⟨m, hm, rfl⟩ := List.mem_map.mp hj
      rw [List.mem_range] at hm
      rintro ⟨i, hi⟩
      have hlow : n < i := hmono.lt_iff_lt.mp (by omega)
      have hhigh : i < n + 1 := hmono.lt_iff_lt.mp (by rw [hk]; omega)
      omega
    rw [List.filterMap_cons, List.filterMap_nil, List.filterMap_cons]
    have hn := hkept n
    generalize g n = a, g' (place n) = b at hn
    cases hn with
    | none => exact hafter
    | some hab => exact .cons hab hafter

theorem filterMap_range_of_le {n m : Nat} (hnm : n ≤ m) {g : Nat → Option α} (hg : ∀ i, n ≤ i → g i = none) :
    (List.range m).filterMap g = (List.range n).filterMap g := by
  obtain ⟨k, rfl⟩ := Nat.exists_eq_add_of_le hnm
  have hrest : ((List.range k).map fun j => n + j).filterMap g = [] := by
    rw [List.filterMap_eq_nil_iff]
    intro j hj
    obtain ⟨j, -, rfl⟩ := List.mem_map.mp hj
    exact hg _ (Nat.le_add_right n j)
  rw [List.range_add, List.filterMap_append, hrest, List.append_nil]

end

/-! ### Chains -/

def chainFrom? (f : File) (factories : List String) (root : Nat) : Option (Nat × List Segment) :=
  match f.word? root with
  | some word =>
    if factories.contains word && !(segmentsFrom f (root + 1)).isEmpty then some (root, segmentsFrom f (root + 1)) else none
  | none => none

theorem chains_eq (f : File) (factories : List String) :
    chains f factories = (List.range f.size).filterMap (chainFrom? f factories) := rfl

theorem chainFrom?_eq_some_iff {f : File} {factories : List String} {root : Nat} {c : Nat × List Segment} :
    chainFrom? f factories root = some c ↔
      (∃ w ∈ factories, f.word? root = some w) ∧ segmentsFrom f (root + 1) ≠ [] ∧ c = (root, segmentsFrom f (root + 1)) := by
  unfold chainFrom?
  cases f.word? root with
  | none => simp
  | some w =>
    simp only [Option.ite_none_right_eq_some, Bool.and_eq_true, List.contains_iff_mem, Bool.not_eq_true',
      List.isEmpty_eq_false_iff, Option.some.injEq, exists_eq_right']
    constructor
    · rintro ⟨⟨hw, hne⟩, rfl⟩
      exact ⟨hw, hne, rfl⟩
    · rintro ⟨hw, hne, rfl⟩
      exact ⟨⟨hw, hne⟩, rfl⟩

theorem mem_chains_iff {f : File} {factories : List String} {c : Nat × List Segment} :
    c ∈ chains f factories ↔ chainFrom? f factories c.1 = some c := by
  rw [chains_eq, List.mem_filterMap]
  constructor
  · rintro ⟨root, -, hroot⟩
    obtain ⟨-, -, rfl⟩ := chainFrom?_eq_some_iff.mp hroot
    exact hroot
  · intro hc
    obtain ⟨⟨w, -, hw⟩, -, -⟩ := chainFrom?_eq_some_iff.mp hc
    exact ⟨c.1, List.mem_range.mpr (File.lt_size_of_hasKind (hasKind_of_word? hw)), hc⟩

section

variable {f f' : File} {place : Nat → Nat} {words : List String} {c c' : Nat × List Segment}

structure ChainMoved (f f' : File) (place : Nat → Nat) (words : List String) (c c' : Nat × List Segment) : Prop where
  seen : Seen f f' place words c.1
  name : f.hasKind c.1 .ident = true
  root : c'.1 = place c.1
  segments : c.2 = segmentsFrom f (c.1 + 1)
  segments' : c'.2 = segmentsFrom f' (c'.1 + 1)

theorem ChainMoved.calls (hc : ChainMoved f f' place words c c') (h : Widened f f' place) :
    CallsMoved f f' place words (c.1 + 1) c.2 c'.2 := by
  rw [hc.segments, hc.segments', hc.root]
  exact segmentsFrom_root h hc.seen hc.name

def NoProcedure (c : Nat × List Segment) : Prop := ∃ reason, terminal? c.2 = .error reason

/-- The runs of a widened file leave the procedures as they are: chains are read where the runs that may come are stepped over, those
that start in a run are no procedures, and no handler is in a run or has other comments before it. -/
structure Undisturbed (f f' : File) (place : Nat → Nat) (words : List String) : Prop where
  widened : Widened f f' place
  seen : ∀ i w, f.word? i = some w → w ∈ words →
    Seen f f' place words i ∨ segmentsFrom f (i + 1) = [] ∧ segmentsFrom f' (place i + 1) = []
  runs : ∀ j, j ∉ Set.range place → ∀ c ∈ chainFrom? f' words j, NoProcedure c
  terminals : ∀ c ∈ chains f words, ∀ kind t, terminal? c.2 = .ok (kind, t) → ¬InParens f place t.lparen
  ignored : SameIgnored f f' place

/-- A call comes after the root of a chain or not, whether runs come between or not. -/
theorem segmentsFrom_eq_nil_iff (h : Widened f f' place) {root : Nat} (hseen : Seen f f' place words root) {w : String}
    (hname : f.word? root = some w) : segmentsFrom f' (place root + 1) = [] ↔ segmentsFrom f (root + 1) = [] := by
  have hcalls := segmentsFrom_root h hseen (hasKind_of_word? hname)
  constructor
  · intro hnil
    exact hcalls.eq_nil hnil
  · intro hnil
    have hapart : ∀ d, CallsMoved.ComesTo (root + 1) (segmentsFrom f (root + 1)) d → ¬AfterDot f f' place words d := by
      intro d hd hgap
      rw [hnil] at hd
      rcases hd with rfl | ⟨s, hs, -⟩
      · exact (hgap.word root w rfl hname).2 hnil
      · cases hs
    rw [hcalls.eq_map hapart, hnil]
    rfl

theorem chains_interleaved (h : Undisturbed f f' place words) :
    Interleaved (ChainMoved f f' place words) NoProcedure (chains f words) (chains f' words) := by
  have hnone : ∀ {g : File} {i : Nat}, g.size ≤ i → chainFrom? g words i = none := by
    intro g i hi
    rw [Option.eq_none_iff_forall_ne_some]
    intro c hc
    obtain ⟨⟨w, -, hw⟩, -, -⟩ := chainFrom?_eq_some_iff.mp hc
    exact Nat.not_lt_of_le hi (File.lt_size_of_hasKind (hasKind_of_word? hw))
  rw [chains_eq, chains_eq, ← filterMap_range_of_le h.widened.size_le fun i hi => hnone hi]
  refine interleaved_range h.widened.mono (fun i => ?_) h.runs f.size
  cases hc : chainFrom? f words i with
  | none =>
    cases hc' : chainFrom? f' words (place i) with
    | none => exact .none
    | some c' =>
      obtain ⟨⟨w, hw, hname⟩, hne, -⟩ := chainFrom?_eq_some_iff.mp hc'
      rw [h.widened.word?_eq] at hname
      exfalso
      rcases h.seen i w hname hw with hseen | ⟨-, hnil⟩
      · have hne' := mt (segmentsFrom_eq_nil_iff h.widened hseen hname).mpr hne
        rw [chainFrom?_eq_some_iff.mpr ⟨⟨w, hw, hname⟩, hne', rfl⟩] at hc
        cases hc
      · exact hne hnil
  | some c =>
    obtain ⟨⟨w, hw, hname⟩, hne, rfl⟩ := chainFrom?_eq_some_iff.mp hc
    rcases h.seen i w hname hw with hseen | ⟨hnil, -⟩
    · have hne' := mt (segmentsFrom_eq_nil_iff h.widened hseen hname).mp hne
      rw [chainFrom?_eq_some_iff.mpr ⟨⟨w, hw, (h.widened.word?_eq i).trans hname⟩, hne', rfl⟩]
      exact .some ⟨hseen, hasKind_of_word? hname, rfl, rfl, rfl⟩
    · exact absurd hnil hne

end

/-! ### Findings -/

/-- A finding of the widened file: its chain has moved, and it has the same validator. -/
structure FindingMoved (f f' : File) (place : Nat → Nat) (words : List String) (x x' : Finding) : Prop where
  chain : ChainMoved f f' place words (x.procedure.root, x.procedure.segments) (x'.procedure.root, x'.procedure.segments)
  validator : x'.validator = x.validator

inductive SameFound (f f' : File) (place : Nat → Nat) (words : List String) :
    Except Failure (List Finding) → Except Failure (List Finding) → Prop
  | error {e e' : Failure} : SameFound f f' place words (.error e) (.error e')
  | ok {xs xs' : List Finding} (h : List.Forall₂ (FindingMoved f f' place words) xs xs') :
    SameFound f f' place words (.ok xs) (.ok xs')

section

variable {p p' : Project} {places : Nat → Nat → Nat} {words : List String} {s s' : Inquiry} {index : Nat} {settings : Settings}

theorem procedureAt_moved (h : WidenedProject p p' places words)
    (hfile : Undisturbed (p.file index) (p'.file index) (places index) words) {c c' : Nat × List Segment}
    (hmem : c ∈ chains (p.file index) words) (hc : ChainMoved (p.file index) (p'.file index) (places index) words c c')
    (hs : SameKnown words s s') :
    ProcedureAlike words (procedureAt p s index c.1 c.2) (procedureAt p' s' index c'.1 c'.2) := by
  have hcalls := hc.calls hfile.widened
  have hterminal := hcalls.terminal?
  refine procedureAt_alike h hs hterminal fun kind t t' ht ht' => ?_
  have hsegment : t ∈ c.2 := by
    unfold terminal? at ht
    split at ht
    · next hq _ => cases ht; exact mem_of_lastNamed? hq
    · next hq => cases ht; exact mem_of_lastNamed? hq
    · cases ht
    · cases ht
  rw [ht, ht'] at hterminal
  cases hterminal with
  | ok hlparen hrparen =>
    rw [hc.segments] at hsegment
    obtain ⟨front, back, hsplit⟩ := List.append_of_mem hsegment
    obtain ⟨j, hwalk, hj⟩ := exists_walk hsplit
    obtain ⟨hcall, rfl, -⟩ := callAt_of_segmentsFrom hj
    have hle := hwalk.le
    have hlt := hcall.lt
    exact handler?_alike hfile.widened hfile.ignored hlparen hrparen hcall
      ⟨hc.seen.mono (by omega), hfile.terminals c hmem kind t ht⟩

theorem types_visit (f : File) (procedure : Procedure) (s : Inquiry) :
    (visit f settings procedure {} s).2.types = s.types ∧ (visit f settings procedure {} s).2.values = s.values := by
  unfold visit
  cases validatorOfResult s.table settings.maxDepth procedure.returnType <;> exact ⟨rfl, rfl⟩

theorem visitChains_moved (h : WidenedProject p p' places words)
    (hfile : Undisturbed (p.file index) (p'.file index) (places index) words) {cs cs' : List (Nat × List Segment)}
    (hcs : Interleaved (ChainMoved (p.file index) (p'.file index) (places index) words) NoProcedure cs cs')
    (hmem : ∀ c ∈ cs, c ∈ chains (p.file index) words) (hs : SameKnown words s s') {xs xs' : List Finding}
    (hxs : List.Forall₂ (FindingMoved (p.file index) (p'.file index) (places index) words) xs xs') :
    SameFound (p.file index) (p'.file index) (places index) words
      (visitChains p index (collect (p.file index) settings) cs xs s).1
      (visitChains p' index (collect (p'.file index) settings) cs' xs' s').1 := by
  induction hcs generalizing s s' xs xs' with
  | nil => exact .ok hxs
  | @cons c c' cs cs' hc _ ih =>
    have hrest : ∀ c ∈ cs, c ∈ chains (p.file index) words := fun c hc => hmem c (List.mem_cons_of_mem _ hc)
    have hprocedure := procedureAt_moved h hfile (hmem c List.mem_cons_self) hc hs
    obtain ⟨root, segments⟩ := c
    obtain ⟨root', segments'⟩ := c'
    unfold visitChains
    generalize hr : procedureAt p s index root segments = r, hr' : procedureAt p' s' index root' segments' = r'
      at hprocedure
    cases hprocedure with
    | skipped hknown => exact ih hrest hknown hxs
    | @found m m' t t' hknown htype =>
      have hresult : validatorOfResult t'.table settings.maxDepth m'.returnType =
          validatorOfResult t.table settings.maxDepth m.returnType := by
        unfold Inquiry.table
        rw [hknown.types, htype]
      simp only
      unfold collect
      rw [hresult]
      cases hv : validatorOfResult t.table settings.maxDepth m.returnType with
      | error cause => exact .error
      | ok v =>
        refine ih hrest ?_ ?_
        · obtain ⟨htypes, hvalues⟩ := @types_visit settings (p.file index) m t
          obtain ⟨htypes', hvalues'⟩ := @types_visit settings (p'.file index) m' t'
          refine ⟨?_, ?_, ?_⟩
          · rw [htypes', htypes, hknown.types]
          · rw [hvalues', hvalues, hknown.values]
          · rw [htypes]
            exact hknown.lacks
        · refine List.rel_append hxs (.cons ⟨?_, rfl⟩ .nil)
          simp only
          rw [root_of_procedureAt hr, root_of_procedureAt hr', (terminal_mem_of_procedureAt hr).1,
            (terminal_mem_of_procedureAt hr').1]
          exact hc
  | @more c' cs cs' hc' _ ih =>
    obtain ⟨root', segments'⟩ := c'
    obtain ⟨reason, hreason⟩ := hc'
    rw [show visitChains p' index (collect (p'.file index) settings) ((root', segments') :: cs') xs' s' =
      visitChains p' index (collect (p'.file index) settings) cs' xs' (skip (p'.file index) s' root' reason) by
        rw [visitChains, procedureAt_of_terminal? hreason]]
    have hknown : SameKnown words s (skip (p'.file index) s' root' reason) := ⟨hs.types, hs.values, hs.lacks⟩
    exact ih hmem hknown hxs

/-- A pass over a widened file finds the same procedures. -/
theorem found_moved (h : WidenedProject p p' places settings.factories)
    (hfile : Undisturbed (p.file index) (p'.file index) (places index) settings.factories) :
    SameFound (p.file index) (p'.file index) (places index) settings.factories (found p index settings)
      (found p' index settings) :=
  visitChains_moved h hfile (chains_interleaved hfile) (fun _ hc => hc) ⟨rfl, rfl, fun _ _ => rfl⟩ .nil

end

end SchemaSplice.Chain
