import Mathlib.Data.List.Forall2
import SchemaSplice.Proofs.Grammar.Forms
import SchemaSplice.Proofs.Resolution.Completeness
/-!
# Types that unfold to trees

What a tree says of a type of a table: whether it is a union or an intersection and of what, and whether two types are the
same primitive or literal.
-/

namespace SchemaSplice.Annotation

open Source SchemaSplice.Types

/-! ### Kinds of types that unfold -/

section

variable {t : Table} {id a b : TypeId} {ids : List TypeId} {x y : Tree} {xs : List Tree}

theorem unfoldAll_iff : UnfoldAll t ids xs ↔ List.Forall₂ (Unfolds t) ids xs := by
  induction ids generalizing xs with
  | nil => cases xs <;> simp [UnfoldAll]
  | cons id ids ih => cases xs <;> simp [UnfoldAll, ih]

/-- Two types that unfold are the same primitive or literal if their trees are. -/
theorem Unfolds.agrees (ha : Unfolds t a x) (hb : Unfolds t b y) : (t.kind a).agrees (t.kind b) = x.alike y := by
  have hcompound : ∀ {c z}, Unfolds t c z → (∀ l, z ≠ .atom l) → ∀ k, (t.kind c).agrees k = false := by
    intro c z h hz k
    cases z with
    | atom l => exact absurd rfl (hz l)
    | _ =>
      obtain ⟨_, hk, -⟩ := h
      rw [hk]
      rfl
  by_cases hx : ∃ l, x = .atom l
  · obtain ⟨l, rfl⟩ := hx
    by_cases hy : ∃ m, y = .atom m
    · obtain ⟨m, rfl⟩ := hy
      rw [show t.kind a = l.kind from ha, show t.kind b = m.kind from hb]
      rfl
    · rw [TypeKind.agrees_comm, hcompound hb (by simpa using hy)]
      cases y <;> first | rfl | simp at hy
  · rw [hcompound ha (by simpa using hx)]
    cases x <;> first | rfl | simp at hx

theorem Unfolds.isFlag (h : Unfolds t id x) (value : Bool) : t.isFlag value id = x.isFlag value := by
  rw [Table.isFlag]
  cases x with
  | atom a =>
    rw [show t.kind id = a.kind from h]
    cases a with
    | primitive p => cases p <;> rfl
    | literal v => cases v <;> simp [Atom.kind, Tree.isFlag, Bool.beq_eq_decide_eq]
  | _ =>
    obtain ⟨_, hk, -⟩ := h
    rw [hk]
    rfl

theorem Unfolds.isBoolean (h : Unfolds t id x) : t.isKind id .boolean = x.isBoolean := by
  rw [Table.isKind]
  cases x with
  | atom a =>
    rw [show t.kind id = a.kind from h]
    cases a with
    | primitive p => cases p <;> rfl
    | literal v => rfl
  | _ =>
    obtain ⟨_, hk, -⟩ := h
    rw [hk]
    rfl

/-- A type is a union if its tree is. -/
theorem Unfolds.union? (h : Unfolds t id x) :
    (t.kind id).union? = none ∧ x.alternatives = [x] ∨
      ∃ members xs, (t.kind id).union? = some members ∧ x = .union xs ∧ List.Forall₂ (Unfolds t) members xs := by
  cases x with
  | union xs =>
    obtain ⟨members, hk, hall⟩ := h
    exact Or.inr ⟨members, xs, by rw [hk]; rfl, rfl, unfoldAll_iff.mp hall⟩
  | atom a =>
    rw [show t.kind id = a.kind from h]
    cases a with
    | primitive p => cases p <;> exact Or.inl ⟨rfl, rfl⟩
    | literal v => exact Or.inl ⟨rfl, rfl⟩
  | _ =>
    obtain ⟨_, hk, -⟩ := h
    rw [hk]
    exact Or.inl ⟨rfl, rfl⟩

/-- A type is an intersection if its tree is. -/
theorem Unfolds.intersection? (h : Unfolds t id x) :
    (t.kind id).intersection? = none ∧ x.factors = [x] ∨
      ∃ members xs, (t.kind id).intersection? = some members ∧ x = .intersection xs ∧
        List.Forall₂ (Unfolds t) members xs := by
  cases x with
  | intersection xs =>
    obtain ⟨members, hk, hall⟩ := h
    exact Or.inr ⟨members, xs, by rw [hk]; rfl, rfl, unfoldAll_iff.mp hall⟩
  | atom a =>
    rw [show t.kind id = a.kind from h]
    cases a with
    | primitive p => cases p <;> exact Or.inl ⟨rfl, rfl⟩
    | literal v => exact Or.inl ⟨rfl, rfl⟩
  | _ =>
    obtain ⟨_, hk, -⟩ := h
    rw [hk]
    exact Or.inl ⟨rfl, rfl⟩

/-- The members of a union unfold to the members of its tree. -/
theorem Unfolds.alternatives (h : Unfolds t id x) :
    List.Forall₂ (Unfolds t) (((t.kind id).union?).getD [id]) x.alternatives := by
  rcases h.union? with ⟨hnone, hx⟩ | ⟨members, xs, hsome, rfl, hall⟩
  · rw [hnone, hx]
    exact .cons h .nil
  · rw [hsome]
    exact hall

/-- The members of an intersection unfold to the members of its tree. -/
theorem Unfolds.factors (h : Unfolds t id x) :
    List.Forall₂ (Unfolds t) (((t.kind id).intersection?).getD [id]) x.factors := by
  rcases h.intersection? with ⟨hnone, hx⟩ | ⟨members, xs, hsome, rfl, hall⟩
  · rw [hnone, hx]
    exact .cons h .nil
  · rw [hsome]
    exact hall

/-- No union is its only member. -/
theorem union?_eq_none (h : Unfolds t id x) (hx : x.alternatives = [x]) : (t.kind id).union? = none := by
  rcases h.union? with ⟨hnone, -⟩ | ⟨members, xs, -, rfl, -⟩
  · exact hnone
  · have hsize := congrArg sizeOf (show xs = [.union xs] from hx)
    simp at hsize
    omega

end

/-! ### Lists of types and trees -/

section

variable {α β : Type}

theorem map_eraseDupsBy_loop (f : α → β) (r : β → β → Bool) (as kept : List α) :
    List.eraseDupsBy.loop r (as.map f) (kept.map f) =
      (List.eraseDupsBy.loop (fun a b => r (f a) (f b)) as kept).map f := by
  induction as generalizing kept with
  | nil => simp [List.eraseDupsBy.loop]
  | cons a as ih =>
    have hany : (kept.map f).any (r (f a)) = kept.any fun b => r (f a) (f b) := List.any_map
    simp only [List.map_cons, List.eraseDupsBy.loop, hany]
    cases kept.any fun b => r (f a) (f b) with
    | true => exact ih kept
    | false => exact ih (a :: kept)

theorem map_eraseDupsBy (f : α → β) (r : β → β → Bool) (as : List α) :
    (as.map f).eraseDupsBy r = (as.eraseDupsBy fun a b => r (f a) (f b)).map f :=
  map_eraseDupsBy_loop f r as []

theorem sublist_eraseDupsBy_loop (r : α → α → Bool) (as kept : List α) :
    (List.eraseDupsBy.loop r as kept).Sublist (kept.reverse ++ as) := by
  induction as generalizing kept with
  | nil => simp [List.eraseDupsBy.loop]
  | cons a as ih =>
    rw [List.eraseDupsBy.loop]
    split
    · exact (ih kept).trans ((List.Sublist.refl _).append (List.sublist_cons_self a as))
    · have h := ih (a :: kept)
      rw [List.reverse_cons, List.append_assoc] at h
      exact h

theorem eraseDupsBy_sublist (r : α → α → Bool) (as : List α) : (as.eraseDupsBy r).Sublist as :=
  sublist_eraseDupsBy_loop r as []

theorem map_widenBy (f : α → β) (isTrue isFalse isBoolean : β → Bool) (boolean : α) (as : List α) :
    widenBy isTrue isFalse isBoolean (f boolean) (as.map f) =
      (widenBy (isTrue ∘ f) (isFalse ∘ f) (isBoolean ∘ f) boolean as).map f := by
  simp only [widenBy, List.any_map, List.filter_map, List.takeWhile_map, List.dropWhile_map, apply_ite (List.map f),
    List.map_append, List.map_cons]
  rfl

theorem takeWhile_congr {p q : α → Bool} {as : List α} (h : ∀ a ∈ as, p a = q a) : as.takeWhile p = as.takeWhile q := by
  induction as with
  | nil => rfl
  | cons a as ih =>
    rw [List.takeWhile_cons, List.takeWhile_cons, h a List.mem_cons_self,
      ih fun b hb => h b (List.mem_cons_of_mem _ hb)]

/-- The rest of a filtered list after its first run. -/
theorem drop_filter_takeWhile (p : α → Bool) (as : List α) :
    (as.filter p).drop (as.takeWhile p).length = (as.dropWhile p).filter p := by
  induction as with
  | nil => rfl
  | cons a as ih =>
    by_cases ha : p a = true
    · rw [List.filter_cons_of_pos ha, List.takeWhile_cons_of_pos ha, List.dropWhile_cons_of_pos ha]
      exact ih
    · rw [List.takeWhile_cons_of_neg ha, List.dropWhile_cons_of_neg ha]
      rfl

end
/-! ### Elements and properties that unfold -/

section

variable {x : Tree}

theorem UnfoldElements.concat {t : Table} {es : List Element} {xs : List (ElementFlag × Tree)} {e : Element}
    {flag : ElementFlag} (h : UnfoldElements t es xs) (hflag : e.flag = flag) (htype : Unfolds t e.type x) :
    UnfoldElements t (es ++ [e]) (xs ++ [(flag, x)]) := by
  induction es generalizing xs with
  | nil =>
    cases xs with
    | nil => exact ⟨hflag, htype, trivial⟩
    | cons => exact h.elim
  | cons e' es ih =>
    cases xs with
    | nil => exact h.elim
    | cons y xs => exact ⟨h.1, h.2.1, ih h.2.2⟩

theorem UnfoldFields.concat {t : Table} {ps : List Property} {fs : List (TypedProperty Tree)} {p : Property}
    {f : TypedProperty Tree} (h : UnfoldFields t ps fs) (hkey : p.key = .name f.key) (hoptional : p.isOptional = f.isOptional)
    (htype : Unfolds t p.type f.type) : UnfoldFields t (ps ++ [p]) (fs ++ [f]) := by
  induction ps generalizing fs with
  | nil =>
    cases fs with
    | nil => exact ⟨hkey, hoptional, htype, trivial⟩
    | cons => exact h.elim
  | cons p' ps ih =>
    cases fs with
    | nil => exact h.elim
    | cons g fs => exact ⟨h.1, h.2.1, h.2.2.1, ih h.2.2.2⟩

/-- The keys of properties are those of their trees. -/
theorem UnfoldFields.any_key {t : Table} {ps : List Property} {fs : List (TypedProperty Tree)} (h : UnfoldFields t ps fs)
    (key : Identifier) : (ps.any fun p => p.key == .name key) = fs.any fun f => key == f.key := by
  induction ps generalizing fs with
  | nil =>
    cases fs with
    | nil => rfl
    | cons => exact h.elim
  | cons p ps ih =>
    cases fs with
    | nil => exact h.elim
    | cons f fs =>
      have hkey : (p.key == .name key) = (key == f.key) := by
        rw [h.1, Bool.eq_iff_iff, beq_iff_eq, beq_iff_eq, PropertyKey.name.injEq, Subtype.ext_iff]
        exact eq_comm
      rw [List.any_cons, List.any_cons, hkey, ih h.2.2.2]

end

end SchemaSplice.Annotation
