import Mathlib.Data.List.TakeWhile
import SchemaSplice.Proofs.Grammar.Unfolding
import SchemaSplice.Proofs.Meaning.Shapes
import SchemaSplice.Proofs.Resolution.Reaching
/-!
# Unions in canonical form

The union of types keeps the first of each group of members that are the same, in the order in which they occur. Only
`true` and `false` are put together: where both occur, `boolean` takes the place of the first of them, unless it occurs
itself. So no member is lost, none is kept twice, and nothing that stood in the table before reads in another way.
-/

namespace SchemaSplice.Types.Table

open Annotation (drop_filter_takeWhile)

variable {t t' : Table} {a b m : TypeId} {ms ks F R : List TypeId}

/-! ### First occurrences -/

/-- The first of the types that are the same, for each of them. -/
def firsts (t : Table) : List TypeId → List TypeId
  | [] => []
  | m :: ms => m :: (firsts t ms).filter (!t.same m ·)

theorem dedupe_eq_append (t : Table) (kept ms : List TypeId) :
    t.dedupe kept ms = kept ++ (t.firsts ms).filter fun m => !kept.any (t.same · m) := by
  induction ms generalizing kept with
  | nil => rw [firsts, List.filter_nil, List.append_nil, dedupe]
  | cons m ms ih =>
    rw [dedupe, firsts]
    split
    · next hany =>
      -- What is the same as `m` is the same as an earlier one.
      rw [List.filter_cons_of_neg (by simp [hany]), ih, List.filter_filter]
      congr 1
      refine List.filter_congr fun x _ => ?_
      obtain ⟨k, hk, hsame⟩ := List.any_eq_true.mp hany
      cases hx : t.same m x with
      | false => simp
      | true =>
        have hkept : kept.any (t.same · x) = true := List.any_eq_true.mpr ⟨k, hk, same_trans hsame hx⟩
        simp [hkept]
    · next hany =>
      rw [List.filter_cons_of_pos (by simp [hany]), ih, List.filter_filter, List.append_assoc, List.singleton_append]
      congr 2
      refine List.filter_congr fun x _ => ?_
      simp

theorem dedupe_eq_firsts (t : Table) (ms : List TypeId) : t.dedupe [] ms = t.firsts ms := by
  rw [dedupe_eq_append, List.nil_append]
  exact List.filter_eq_self.mpr fun _ _ => rfl

theorem mem_of_mem_firsts (h : m ∈ t.firsts ms) : m ∈ ms := by
  rw [← dedupe_eq_firsts] at h
  exact (mem_of_mem_dedupe [] ms h).resolve_left List.not_mem_nil

theorem exists_same_mem_firsts (h : m ∈ ms) : ∃ k ∈ t.firsts ms, t.same k m = true := by
  rw [← dedupe_eq_firsts]
  exact exists_same_mem_dedupe [] ms (Or.inr h)

theorem firsts_pairwise (t : Table) (ms : List TypeId) : (t.firsts ms).Pairwise (t.same · · = false) := by
  rw [← dedupe_eq_firsts]
  exact dedupe_pairwise [] ms .nil

/-! ### Literal booleans -/

def isAnyFlag (t : Table) (id : TypeId) : Bool := t.isFlag true id || t.isFlag false id

theorem isFlag_iff {value : Bool} : t.isFlag value a = true ↔ t.kind a = .literal (.flag value) := beq_iff_eq

theorem isAnyFlag_iff : t.isAnyFlag a = true ↔ t.isFlag true a = true ∨ t.isFlag false a = true :=
  Bool.or_eq_true_iff

/-- Types that are the same are the same literal boolean. -/
theorem isFlag_of_same {value : Bool} (h : t.same a b = true) (ha : t.isFlag value a = true) :
    t.isFlag value b = true := by
  rw [isFlag_iff] at ha ⊢
  rw [same, Bool.or_eq_true, beq_iff_eq, ha] at h
  rcases h with rfl | h
  · exact ha
  · cases hb : t.kind b with
    | literal l =>
      rw [hb] at h
      cases l with
      | flag value' => rw [beq_iff_eq.mp h]
      | _ => cases h
    | _ =>
      rw [hb] at h
      cases h

theorem isAnyFlag_of_same (h : t.same a b = true) (ha : t.isAnyFlag a = true) : t.isAnyFlag b = true :=
  isAnyFlag_iff.mpr ((isAnyFlag_iff.mp ha).imp (isFlag_of_same h) (isFlag_of_same h))

theorem kind_eq_boolean_of_same (h : t.same a b = true) (ha : t.kind a = .boolean) : t.kind b = .boolean := by
  rw [same, Bool.or_eq_true, beq_iff_eq, ha] at h
  rcases h with rfl | h
  · exact ha
  · cases hb : t.kind b with
    | boolean => rfl
    | _ =>
      rw [hb] at h
      cases h

/-- Whether both literal booleans are among types. -/
def HasBothFlags (t : Table) (ms : List TypeId) : Prop :=
  (∃ a ∈ ms, t.isFlag true a = true) ∧ ∃ b ∈ ms, t.isFlag false b = true

/-- The three ways in which literal booleans are widened. -/
theorem widenFlags_cases (t : Table) (ms : List TypeId) :
    (¬t.HasBothFlags ms ∧ widenFlags ms t = (ms, t)) ∨
      (t.HasBothFlags ms ∧ (∃ r ∈ ms.filter (!t.isAnyFlag ·), t.kind r = .boolean) ∧
        widenFlags ms t = (ms.filter (!t.isAnyFlag ·), t)) ∨
      (t.HasBothFlags ms ∧ (∀ r ∈ ms.filter (!t.isAnyFlag ·), t.kind r ≠ .boolean) ∧
        widenFlags ms t =
          (ms.takeWhile (!t.isAnyFlag ·) ++ ⟨t.size⟩ :: (ms.dropWhile (!t.isAnyFlag ·)).filter (!t.isAnyFlag ·),
            (insert .boolean t).2)) := by
  have hboth : (ms.any (t.isFlag true) && ms.any (t.isFlag false)) = true ↔ t.HasBothFlags ms := by
    rw [Bool.and_eq_true, List.any_eq_true, List.any_eq_true]
    rfl
  have hboolean : (ms.filter (!t.isAnyFlag ·)).any (t.isKind · .boolean) = true ↔
      ∃ r ∈ ms.filter (!t.isAnyFlag ·), t.kind r = .boolean := by
    simp only [List.any_eq_true, isKind, beq_iff_eq]
  have happly : widenFlags ms t =
      if ms.any (t.isFlag true) && ms.any (t.isFlag false) then
        if (ms.filter (!t.isAnyFlag ·)).any (t.isKind · .boolean) then (ms.filter (!t.isAnyFlag ·), t)
        else (ms.takeWhile (!t.isAnyFlag ·) ++
          ⟨t.size⟩ :: (ms.filter (!t.isAnyFlag ·)).drop (ms.takeWhile (!t.isAnyFlag ·)).length, (insert .boolean t).2)
      else (ms, t) := widenFlags_apply ms t
  rw [drop_filter_takeWhile] at happly
  by_cases hflags : t.HasBothFlags ms
  · rw [if_pos (hboth.mpr hflags)] at happly
    by_cases hr : ∃ r ∈ ms.filter (!t.isAnyFlag ·), t.kind r = .boolean
    · rw [if_pos (hboolean.mpr hr)] at happly
      exact Or.inr (Or.inl ⟨hflags, hr, happly⟩)
    · rw [if_neg (mt hboolean.mp hr)] at happly
      exact Or.inr (Or.inr ⟨hflags, fun r hmem hk => hr ⟨r, hmem, hk⟩, happly⟩)
  · rw [if_neg (mt hboth.mp hflags)] at happly
    exact Or.inl ⟨hflags, happly⟩

/-! ### Canonical members -/

/-- The members `R`, in the table `t'`, are the canonical form of the types `F` of the table `t`. -/
structure Canonical (t t' : Table) (F R : List TypeId) : Prop where
  distinct : R.Pairwise fun a b => t'.same a b = false
  notBoth : ¬t'.HasBothFlags R
  covers : ∀ m ∈ F, (∃ r ∈ R, t'.same m r = true) ∨ t'.isAnyFlag m = true ∧ ∃ r ∈ R, t'.kind r = .boolean
  added : ∀ r ∈ R, r ∈ F ∨ t.size ≤ r.slot ∧ t'.kind r = .boolean ∧ t.HasBothFlags F
  order : (R.filter (· ∈ F)).Sublist (t.firsts F)
  place : ∀ front b back, R = front ++ b :: back → b ∉ F → front = (t.firsts F).takeWhile (!t.isAnyFlag ·)
  kept : ∀ id, id.slot < t.size → t'.kind id = t.kind id

section

variable (hF : ∀ m ∈ F, m.slot < t.size) (hkeep : ∀ id, id.slot < t.size → t'.kind id = t.kind id)
include hF hkeep

theorem same_of_kept (ha : a ∈ F) (hb : b ∈ F) : t'.same a b = t.same a b := by
  rw [same, same, hkeep a (hF a ha), hkeep b (hF b hb)]

theorem isFlag_of_kept {value : Bool} (ha : a ∈ F) : t'.isFlag value a = t.isFlag value a := by
  rw [isFlag, isFlag, hkeep a (hF a ha)]

theorem isAnyFlag_of_kept (ha : a ∈ F) : t'.isAnyFlag a = t.isAnyFlag a := by
  rw [isAnyFlag, isAnyFlag, isFlag_of_kept hF hkeep ha, isFlag_of_kept hF hkeep ha]

theorem pairwise_of_sublist (hR : R.Sublist (t.firsts F)) : R.Pairwise fun a b => t'.same a b = false := by
  refine ((t.firsts_pairwise F).sublist hR).imp_of_mem fun {a b} ha hb h => ?_
  rw [same_of_kept hF hkeep (mem_of_mem_firsts (hR.mem ha)) (mem_of_mem_firsts (hR.mem hb))]
  exact h

/-- What was dropped only for being the same as an earlier type is still there, and a literal boolean may have gone for
a `boolean`. -/
theorem covers_of_dropped
    (hdropped : ∀ k ∈ t.firsts F, k ∈ R ∨ t.isAnyFlag k = true ∧ ∃ r ∈ R, t'.kind r = .boolean) (hm : m ∈ F) :
    (∃ r ∈ R, t'.same m r = true) ∨ t'.isAnyFlag m = true ∧ ∃ r ∈ R, t'.kind r = .boolean := by
  obtain ⟨k, hk, hsame⟩ := exists_same_mem_firsts (t := t) hm
  rcases hdropped k hk with hk' | ⟨hflag, hboolean⟩
  · refine Or.inl ⟨k, hk', ?_⟩
    rw [same_of_kept hF hkeep hm (mem_of_mem_firsts hk), same_comm, hsame]
  · refine Or.inr ⟨?_, hboolean⟩
    rw [isAnyFlag_of_kept hF hkeep hm, isAnyFlag_of_same hsame hflag]

/-- No type was added: some of the first occurrences are the members. -/
theorem canonical_of_sublist (hR : R.Sublist (t.firsts F)) (hboth : ¬t.HasBothFlags R)
    (hdropped : ∀ k ∈ t.firsts F, k ∈ R ∨ t.isAnyFlag k = true ∧ ∃ r ∈ R, t.kind r = .boolean) :
    Canonical t t' F R where
  distinct := pairwise_of_sublist hF hkeep hR
  notBoth := by
    rintro ⟨⟨a, ha, hatrue⟩, b, hb, hbfalse⟩
    rw [isFlag_of_kept hF hkeep (mem_of_mem_firsts (hR.mem ha))] at hatrue
    rw [isFlag_of_kept hF hkeep (mem_of_mem_firsts (hR.mem hb))] at hbfalse
    exact hboth ⟨⟨a, ha, hatrue⟩, b, hb, hbfalse⟩
  covers m hm := by
    refine covers_of_dropped hF hkeep (fun k hk => (hdropped k hk).imp_right fun h => ⟨h.1, ?_⟩) hm
    obtain ⟨r, hr, hboolean⟩ := h.2
    exact ⟨r, hr, (hkeep r (hF r (mem_of_mem_firsts (hR.mem hr)))).trans hboolean⟩
  added r hr := Or.inl (mem_of_mem_firsts (hR.mem hr))
  order := List.filter_sublist.trans hR
  place front b back heq hb := by
    have hmem : b ∈ R := by
      rw [heq]
      exact List.mem_append_right _ List.mem_cons_self
    exact absurd (mem_of_mem_firsts (hR.mem hmem)) hb
  kept := hkeep

/-- A `boolean` was added in the place of the first literal boolean. -/
theorem canonical_of_boolean (hboolean : t'.kind ⟨t.size⟩ = .boolean) (hboth : t.HasBothFlags (t.firsts F))
    (hnone : ∀ r ∈ (t.firsts F).filter (!t.isAnyFlag ·), t.kind r ≠ .boolean) :
    Canonical t t' F ((t.firsts F).takeWhile (!t.isAnyFlag ·) ++
      ⟨t.size⟩ :: ((t.firsts F).dropWhile (!t.isAnyFlag ·)).filter (!t.isAnyFlag ·)) := by
  generalize hfront : (t.firsts F).takeWhile (!t.isAnyFlag ·) = front
  generalize hback : ((t.firsts F).dropWhile (!t.isAnyFlag ·)).filter (!t.isAnyFlag ·) = back
  have hothers : front ++ back = (t.firsts F).filter (!t.isAnyFlag ·) := by
    conv => rhs; rw [← List.takeWhile_append_dropWhile (p := (!t.isAnyFlag ·)) (l := t.firsts F)]
    rw [List.filter_append, hback, List.filter_eq_self.mpr, hfront]
    intro a ha
    exact @List.mem_takeWhile_imp _ (!t.isAnyFlag ·) _ a ha
  have hsub : (front ++ back).Sublist (t.firsts F) := by
    rw [hothers]
    exact List.filter_sublist
  have hmem : ∀ r, r ∈ front ++ ⟨t.size⟩ :: back ↔ r = ⟨t.size⟩ ∨ r ∈ front ++ back := by
    intro r
    simp only [List.mem_append, List.mem_cons]
    exact or_left_comm
  have hplain : ∀ r ∈ front ++ back, t'.isAnyFlag r = false ∧ t'.kind r ≠ .boolean := by
    intro r hr
    have hrF := mem_of_mem_firsts (hsub.mem hr)
    rw [hothers] at hr
    rw [isAnyFlag_of_kept hF hkeep hrF, hkeep r (hF r hrF)]
    exact ⟨by simpa using (List.mem_filter.mp hr).2, hnone r hr⟩
  have hfresh : (⟨t.size⟩ : TypeId) ∉ F := fun h => Nat.lt_irrefl _ (hF _ h)
  have hbooleanFlag : ∀ value, t'.isFlag value ⟨t.size⟩ = false := by
    intro value
    rw [isFlag, hboolean]
    rfl
  have hnoflag : ∀ value, ∀ r ∈ front ++ ⟨t.size⟩ :: back, t'.isFlag value r = false := by
    intro value r hr
    rcases (hmem r).mp hr with rfl | hr
    · exact hbooleanFlag value
    · have hnot := (hplain r hr).1
      rw [isAnyFlag, Bool.or_eq_false_iff] at hnot
      cases value
      · exact hnot.2
      · exact hnot.1
  have happart : ∀ r ∈ front ++ back, t'.same ⟨t.size⟩ r = false := by
    intro r hr
    by_contra hsame
    rw [Bool.not_eq_false] at hsame
    exact (hplain r hr).2 (kind_eq_boolean_of_same hsame hboolean)
  refine
    { distinct := ?_
      notBoth := ?_
      covers := fun m hm => covers_of_dropped hF hkeep (fun k hk => ?_) hm
      added := fun r hr => ?_
      order := ?_
      place := fun front' b back' heq hb => ?_
      kept := hkeep }
  · have hsorted := pairwise_of_sublist hF hkeep hsub
    refine (List.pairwise_middle fun h => ?_).mpr (hsorted.cons happart)
    rw [same_comm]
    exact h
  · rintro ⟨⟨a, ha, hatrue⟩, -⟩
    rw [hnoflag true a ha] at hatrue
    cases hatrue
  · by_cases hk' : t.isAnyFlag k = true
    · exact Or.inr ⟨hk', ⟨t.size⟩, (hmem _).mpr (Or.inl rfl), hboolean⟩
    · refine Or.inl ((hmem k).mpr (Or.inr ?_))
      rw [hothers]
      exact List.mem_filter.mpr ⟨hk, by simpa using hk'⟩
  · rcases (hmem r).mp hr with rfl | hr
    · obtain ⟨⟨x, hx, hxtrue⟩, y, hy, hyfalse⟩ := hboth
      exact Or.inr ⟨Nat.le_refl _, hboolean, ⟨x, mem_of_mem_firsts hx, hxtrue⟩, y, mem_of_mem_firsts hy, hyfalse⟩
    · exact Or.inl (mem_of_mem_firsts (hsub.mem hr))
  · rw [List.filter_append, List.filter_cons_of_neg (by simpa using hfresh), ← List.filter_append]
    exact List.filter_sublist.trans hsub
  · have hbFresh : b = ⟨t.size⟩ := by
      have hmem' : b ∈ front ++ ⟨t.size⟩ :: back := by
        rw [heq]
        exact List.mem_append_right _ List.mem_cons_self
      exact ((hmem b).mp hmem').resolve_right fun h => hb (mem_of_mem_firsts (hsub.mem h))
    subst hbFresh
    have hnot : (⟨t.size⟩ : TypeId) ∉ front ++ back := fun h => hfresh (mem_of_mem_firsts (hsub.mem h))
    rw [List.mem_append, not_or] at hnot
    exact ((List.append_cons_inj_of_notMem hnot.1 hnot.2).mp heq).1.symm.trans hfront.symm

end

/-! ### Unions -/

/-- The members of a union that was built over the table `t`; any other type is its own only member. -/
def unionMembers (t : Table) (built : TypeId × Table) : List TypeId :=
  if built.1.slot < t.size then [built.1] else ((built.2.kind built.1).union?).getD [built.1]

theorem kind_insert (k : TypeKind) (t : Table) : (insert k t).2.kind (insert k t).1 = k :=
  kind_of_slot (Array.getElem?_push_size)

theorem grows_insert (k : TypeKind) (t : Table) :
    t.size ≤ (insert k t).2.size ∧ ∀ i, i < t.size → (insert k t).2.slots[i]? = t.slots[i]? := by
  refine ⟨?_, fun i hi => ?_⟩
  · show t.slots.size ≤ (t.slots.push (.kind k)).size
    rw [Array.size_push]
    exact Nat.le_succ _
  · show (t.slots.push (.kind k))[i]? = t.slots[i]?
    rw [Array.getElem?_push_lt hi, ← Array.getElem?_eq_getElem hi]

theorem unionMembers_soleOr (hsize : t.size ≤ t'.size) (hne : R ≠ [])
    (hsole : ∀ r, R = [r] → r.slot < t.size ∨ (t'.kind r).union? = none) :
    unionMembers t (soleOr .union R t') = R := by
  match R with
  | [] => exact absurd rfl hne
  | [r] =>
    show (if r.slot < t.size then [r] else ((t'.kind r).union?).getD [r]) = [r]
    split
    · rfl
    · next hr => rw [(hsole r rfl).resolve_left hr, Option.getD_none]
  | r :: r' :: rest =>
    have hfresh : ¬(insert (.union (r :: r' :: rest)) t').1.slot < t.size := Nat.not_lt_of_le hsize
    show unionMembers t (insert (.union (r :: r' :: rest)) t') = _
    rw [unionMembers, kind_insert, if_neg hfresh]
    rfl

theorem grows_soleOr (R : List TypeId) (t : Table) :
    t.size ≤ (soleOr .union R t).2.size ∧ ∀ i, i < t.size → (soleOr .union R t).2.slots[i]? = t.slots[i]? := by
  match R with
  | [] => exact grows_insert _ t
  | [r] => exact ⟨Nat.le_refl _, fun _ _ => rfl⟩
  | r :: r' :: rest => exact grows_insert _ t

theorem Closed.mem_flattenUnion_lt (ht : t.Closed) (hms : ∀ m ∈ ms, m.slot < t.size) :
    ∀ m ∈ t.flattenUnion ms, m.slot < t.size := by
  intro m hm
  obtain ⟨u, hu, hm⟩ := List.mem_flatMap.mp hm
  cases hk : t.kind u with
  | union inner =>
    rw [hk] at hm
    refine ht.hasPart_lt (hms u hu) ?_
    rw [HasPart, hk]
    exact hm
  | _ =>
    rw [hk] at hm
    rw [List.mem_singleton.mp hm]
    exact hms u hu

theorem equivalence_same (t : Table) : Equivalence fun a b => t.same a b = true where
  refl := t.same_refl
  symm {a b} h := by rw [same_comm, h]
  trans := same_trans

/-- The union of types of a table has their canonical form, and being the same is an equivalence. -/
theorem union_canonical (ht : t.Closed) (hms : ∀ m ∈ ms, m.slot < t.size) (hne : t.flattenUnion ms ≠ []) :
    Canonical t (union ms t).2 (t.flattenUnion ms) (unionMembers t (union ms t)) ∧
      ∀ t : Table, Equivalence fun a b => t.same a b = true := by
  refine ⟨?_, equivalence_same⟩
  have hF := ht.mem_flattenUnion_lt hms
  rw [union_apply, dedupe_eq_firsts]
  generalize t.flattenUnion ms = F at hF hne
  have hkeep : ∀ R t', t.size ≤ t'.size → (∀ i, i < t.size → t'.slots[i]? = t.slots[i]?) →
      ∀ id, id.slot < t.size → (soleOr .union R t').2.kind id = t.kind id := by
    intro R t' hsize hgrow id hid
    refine ht.kind_eq (fun i hi => ?_) hid
    rw [(grows_soleOr R t').2 i (Nat.lt_of_lt_of_le hi hsize), hgrow i hi]
  have hfirsts : ∀ r ∈ t.firsts F, r.slot < t.size := fun r hr => hF r (mem_of_mem_firsts hr)
  rcases widenFlags_cases t (t.firsts F) with ⟨hboth, heq⟩ | ⟨-, ⟨r, hr, hboolean⟩, heq⟩ | ⟨hboth, hnone, heq⟩
  · have hfirst : t.firsts F ≠ [] := by
      obtain ⟨m, hm⟩ := List.exists_mem_of_ne_nil F hne
      obtain ⟨k, hk, -⟩ := exists_same_mem_firsts (t := t) hm
      exact List.ne_nil_of_mem hk
    have hsole : ∀ r, t.firsts F = [r] → r.slot < t.size ∨ (t.kind r).union? = none :=
      fun r hr => Or.inl (hfirsts r (hr ▸ List.mem_singleton_self r))
    rw [heq, unionMembers_soleOr (Nat.le_refl _) hfirst hsole]
    exact canonical_of_sublist hF (hkeep _ t (Nat.le_refl _) fun _ _ => rfl) (.refl _) hboth fun k hk => Or.inl hk
  · have hsole : ∀ s, (t.firsts F).filter (!t.isAnyFlag ·) = [s] → s.slot < t.size ∨ (t.kind s).union? = none :=
      fun s hs => Or.inl (hfirsts s (List.mem_of_mem_filter (hs ▸ List.mem_singleton_self s)))
    rw [heq, unionMembers_soleOr (Nat.le_refl _) (List.ne_nil_of_mem hr) hsole]
    refine canonical_of_sublist hF (hkeep _ t (Nat.le_refl _) fun _ _ => rfl) List.filter_sublist ?_ fun k hk => ?_
    · rintro ⟨⟨a, ha, hatrue⟩, -⟩
      have hplain := (List.mem_filter.mp ha).2
      rw [isAnyFlag, hatrue] at hplain
      cases hplain
    · by_cases hflag : t.isAnyFlag k = true
      · exact Or.inr ⟨hflag, r, hr, hboolean⟩
      · exact Or.inl (List.mem_filter.mpr ⟨hk, by simpa using hflag⟩)
  · have hgrow := grows_insert .boolean t
    have hplace : (⟨t.size⟩ : TypeId).slot < (insert .boolean t).2.size := by
      show t.slots.size < (t.slots.push _).size
      rw [Array.size_push]
      exact Nat.lt_succ_self _
    have hadded : (insert .boolean t).2.kind ⟨t.size⟩ = .boolean := kind_insert .boolean t
    rw [heq, unionMembers_soleOr hgrow.1 (by simp)]
    · refine canonical_of_boolean hF (hkeep _ _ hgrow.1 hgrow.2) ?_ hboth hnone
      refine kind_of_slot ?_
      rw [(grows_soleOr _ _).2 _ hplace]
      exact Array.getElem?_push_size
    · intro r hr
      have hmem : (⟨t.size⟩ : TypeId) ∈ [r] := by
        rw [← hr]
        exact List.mem_append_right _ List.mem_cons_self
      rw [← List.mem_singleton.mp hmem, hadded]
      exact Or.inr rfl

/-- A table with the literals `true` and `false`, with `null`, and with the union of `true` and `null`. -/
def flagsAndNull : Table where
  slots := #[.kind (.literal (.flag true)), .kind .null, .kind (.literal (.flag false)), .kind (.union [⟨0⟩, ⟨1⟩])]

/-- Both literals occur, one of them in a union, and `boolean` stands before `null`. -/
theorem flagsAndNull_canonical :
    flagsAndNull.Closed ∧ flagsAndNull.flattenUnion [⟨3⟩, ⟨2⟩] = [⟨0⟩, ⟨1⟩, ⟨2⟩] ∧
      unionMembers flagsAndNull (union [⟨3⟩, ⟨2⟩] flagsAndNull) = [⟨4⟩, ⟨1⟩] ∧
      Canonical flagsAndNull (union [⟨3⟩, ⟨2⟩] flagsAndNull).2 (flagsAndNull.flattenUnion [⟨3⟩, ⟨2⟩])
        (unionMembers flagsAndNull (union [⟨3⟩, ⟨2⟩] flagsAndNull)) := by
  have hclosed : flagsAndNull.Closed := by
    have hslots : ∀ slot ∈ flagsAndNull.slots, ∀ b ∈ slotIds slot, b.slot < flagsAndNull.size := by decide
    rintro a b ⟨slot, hslot, hb⟩
    exact hslots slot (Array.mem_of_getElem? hslot) b hb
  exact ⟨hclosed, by decide, by decide, (union_canonical hclosed (by decide) (by decide)).1⟩

end SchemaSplice.Types.Table
