import SchemaSplice.Proofs.Rerun.Refinding
/-!
# Declarations of a widened project

A project is indexed alike when its files get runs of tokens in which no declaration starts: the declarations are the same ones, in the
same order, at the tokens where they have moved to.
-/

namespace SchemaSplice.Declaration

open Source
open File (Widened Seen)
open Chain (Interleaved interleaved_range filterMap_range_of_le)

variable {f f' : File} {place : Nat → Nat} {words : List String} {index i : Nat} {Form : Type}

/-! ### Declarations of a file -/

def declarers : List String := ["type", "interface", "enum", "function", "const", "let", "var"]

def declAt (form? : File → Nat → Option Form) (index : Nat) (f : File) (i : Nat) : Option (Decl Form) :=
  if f.afterDot i then none
  else
    match f.word? (i + 1), form? f i with
    | some name, some form => some ⟨name, index, form, i + 1⟩
    | _, _ => none

theorem declsIn_eq (form? : File → Nat → Option Form) (index : Nat) (f : File) :
    declsIn form? index f = (List.range f.size).filterMap (declAt form? index f) := rfl

/-- What a test for declarations looks at: the word that declares, and the token after the name. -/
structure Tests (form? : File → Nat → Option Form) : Prop where
  word : ∀ f i form, form? f i = some form → ∃ w ∈ declarers, f.word? i = some w
  alike : ∀ {f f' : File} {place : Nat → Nat}, Widened f f' place → ∀ i, place (i + 2) = place i + 2 →
    form? f' (place i) = form? f i

theorem tests_typeForm? : Tests typeForm? where
  word f i form h := by
    unfold typeForm? at h
    simp only at h
    split at h
    · next hw => exact ⟨_, by decide, hw⟩
    · next hw => exact ⟨_, by decide, hw⟩
    · next hw => exact ⟨_, by decide, hw⟩
    · cases h
  alike h i hplace := by
    unfold typeForm?
    simp only
    rw [← hplace, h.word?_eq, h.kind?_eq, h.hasWord_eq]

theorem tests_valueForm? : Tests valueForm? where
  word f i form h := by
    unfold valueForm? at h
    simp only at h
    split at h
    · next hw => exact ⟨_, by decide, hw⟩
    · next hw => exact ⟨_, by decide, hw⟩
    · next hw => exact ⟨_, by decide, hw⟩
    · next hw => exact ⟨_, by decide, hw⟩
    · cases h
  alike h i hplace := by
    unfold valueForm?
    simp only
    rw [← hplace, h.word?_eq, h.kind?_eq]

theorem declAt_eq_some_iff {form? : File → Nat → Option Form} {d : Decl Form} :
    declAt form? index f i = some d ↔
      f.afterDot i = false ∧ ∃ name form, f.word? (i + 1) = some name ∧ form? f i = some form ∧ d = ⟨name, index, form, i + 1⟩ := by
  unfold declAt
  cases f.afterDot i with
  | true => simp
  | false =>
    rw [if_neg Bool.false_ne_true]
    cases f.word? (i + 1) <;> cases form? f i <;> simp [eq_comm]

/-- Words have their next token and the one before where they had them, and no declaration starts in a run. -/
structure Reindexed (f f' : File) (place : Nat → Nat) : Prop where
  widened : Widened f f' place
  next : ∀ i w, f.word? i = some w → place (i + 1) = place i + 1
  afterDot : ∀ i w, f.word? i = some w → f'.afterDot (place i) = f.afterDot i
  runs : ∀ j, j ∉ Set.range place → ∀ w ∈ declarers, f'.word? j = some w → f'.word? (j + 1) = none

theorem declAt_moved (h : Reindexed f f' place) {form? : File → Nat → Option Form} (ht : Tests form?) (i : Nat) :
    declAt form? index f' (place i) = (declAt form? index f i).map (declMoved place) := by
  ext d'
  rw [Option.map_eq_some_iff, declAt_eq_some_iff]
  constructor
  · rintro ⟨hdot, name, form, hname, hform, rfl⟩
    obtain ⟨w, -, hw⟩ := ht.word _ _ _ hform
    rw [h.widened.word?_eq] at hw
    have hnext := h.next i w hw
    rw [← hnext, h.widened.word?_eq] at hname
    have hnext' := h.next (i + 1) name hname
    rw [ht.alike h.widened i (by rw [hnext', hnext])] at hform
    refine ⟨⟨name, index, form, i + 1⟩,
      declAt_eq_some_iff.mpr ⟨(h.afterDot i w hw).symm.trans hdot, name, form, hname, hform, rfl⟩, ?_⟩
    rw [declMoved, hnext]
  · rintro ⟨d, hd, rfl⟩
    obtain ⟨hdot, name, form, hname, hform, rfl⟩ := declAt_eq_some_iff.mp hd
    obtain ⟨w, -, hw⟩ := ht.word _ _ _ hform
    have hnext := h.next i w hw
    have hnext' := h.next (i + 1) name hname
    refine ⟨(h.afterDot i w hw).trans hdot, name, form, ?_, ?_, ?_⟩
    · rw [← hnext, h.widened.word?_eq, hname]
    · rw [ht.alike h.widened i (by rw [hnext', hnext]), hform]
    · rw [declMoved, hnext]

theorem Interleaved.eq_map {α β : Type} {g : α → β} {as : List α} {bs : List β}
    (h : Interleaved (fun a b => b = g a) (fun _ => False) as bs) : bs = as.map g := by
  induction h with
  | nil => rfl
  | cons hab _ ih => rw [hab, ih, List.map_cons]
  | more hb => exact hb.elim

theorem declsIn_moved (h : Reindexed f f' place) {form? : File → Nat → Option Form} (ht : Tests form?) (index : Nat) :
    declsIn form? index f' = (declsIn form? index f).map (declMoved place) := by
  have hnone : ∀ i, f'.size ≤ i → declAt form? index f' i = none := by
    intro i hi
    rw [Option.eq_none_iff_forall_ne_some]
    intro d hd
    obtain ⟨-, name, form, -, hform, -⟩ := declAt_eq_some_iff.mp hd
    obtain ⟨w, -, hw⟩ := ht.word _ _ _ hform
    exact Nat.not_lt_of_le hi (File.lt_size_of_hasKind (Chain.hasKind_of_word? hw))
  rw [declsIn_eq, declsIn_eq, ← filterMap_range_of_le h.widened.size_le hnone]
  refine Interleaved.eq_map (interleaved_range h.widened.mono (fun i => ?_) ?_ f.size)
  · rw [declAt_moved h ht]
    cases declAt form? index f i with
    | none => exact .none
    | some d => exact .some rfl
  · intro j hj d hd
    obtain ⟨-, name, form, hname, hform, -⟩ := declAt_eq_some_iff.mp hd
    obtain ⟨w, hmem, hw⟩ := ht.word _ _ _ hform
    rw [h.runs j hj w hmem hw] at hname
    cases hname

/-! ### Declarations of a project -/

theorem flatMap_zipIdx {α β : Type} (g : α × Nat → List β) (l : List α) (n : Nat) :
    (l.zipIdx n).flatMap g = (List.range l.length).flatMap fun i => (l[i]?.map fun a => g (a, n + i)).getD [] := by
  induction l generalizing n with
  | nil => rfl
  | cons a l ih =>
    rw [List.zipIdx_cons, List.flatMap_cons, ih, List.length_cons, List.range_succ_eq_map, List.flatMap_cons, List.flatMap_map]
    simp only [List.getElem?_cons_zero, Option.map_some, Option.getD_some, Nat.add_zero, List.getElem?_cons_succ]
    congr 2
    funext i
    rw [Nat.add_right_comm, Nat.add_assoc]

theorem declsIn_ofFiles (form? : File → Nat → Option Form) (files : List File) :
    (files.zipIdx.flatMap fun (f, i) => declsIn form? i f) =
      (List.range files.length).flatMap fun i => declsIn form? i ((Project.ofFiles files).file i) := by
  rw [flatMap_zipIdx]
  refine List.flatMap_congr fun i hi => ?_
  rw [List.mem_range] at hi
  have hfile : (Project.ofFiles files).file i = files[i] := by
    rw [Project.file, Project.ofFiles, List.getElem?_toArray, List.getElem?_eq_getElem hi]
    rfl
  rw [hfile, List.getElem?_eq_getElem hi, Nat.zero_add]
  rfl

structure ReindexedFiles (files files' : List File) (places : Nat → Nat → Nat) (words : List String) : Prop where
  length : files'.length = files.length
  file : ∀ j, Reindexed ((Project.ofFiles files).file j) ((Project.ofFiles files').file j) (places j)
  type_seen : ∀ d ∈ (Project.ofFiles files).types,
    Seen ((Project.ofFiles files).file d.file) ((Project.ofFiles files').file d.file) (places d.file) words d.token
  value_seen : ∀ d ∈ (Project.ofFiles files).values,
    Seen ((Project.ofFiles files).file d.file) ((Project.ofFiles files').file d.file) (places d.file) words d.token
  enum : ∀ d ∈ (Project.ofFiles files).types, d.form = .enum → d.name ∉ words

variable {files files' : List File} {places : Nat → Nat → Nat}

theorem exists_declAt {form? : File → Nat → Option Form} {d : Decl Form}
    (h : d ∈ files.zipIdx.flatMap fun (f, i) => declsIn form? i f) :
    d.file < files.length ∧ ∃ i, declAt form? d.file ((Project.ofFiles files).file d.file) i = some d := by
  rw [declsIn_ofFiles, List.mem_flatMap] at h
  obtain ⟨j, hj, hd⟩ := h
  rw [declsIn_eq, List.mem_filterMap] at hd
  obtain ⟨i, -, hi⟩ := hd
  obtain ⟨-, name, form, -, -, rfl⟩ := declAt_eq_some_iff.mp hi
  exact ⟨List.mem_range.mp hj, i, hi⟩

theorem declsIn_ofFiles_moved (hlength : files'.length = files.length)
    (hfile : ∀ j, Reindexed ((Project.ofFiles files).file j) ((Project.ofFiles files').file j) (places j))
    {form? : File → Nat → Option Form} (ht : Tests form?) :
    (files'.zipIdx.flatMap fun (f, i) => declsIn form? i f) =
      (files.zipIdx.flatMap fun (f, i) => declsIn form? i f).map (moved places) := by
  rw [declsIn_ofFiles, declsIn_ofFiles, hlength, List.map_flatMap]
  refine List.flatMap_congr fun i _ => ?_
  rw [declsIn_moved (hfile i) ht i]
  refine List.map_congr_left fun d hd => ?_
  rw [declsIn_eq, List.mem_filterMap] at hd
  obtain ⟨j, -, hd⟩ := hd
  obtain ⟨-, name, form, -, -, rfl⟩ := declAt_eq_some_iff.mp hd
  rfl

/-- Projects whose files have runs of tokens are indexed alike. -/
theorem ReindexedFiles.widened (h : ReindexedFiles files files' places words) :
    WidenedProject (Project.ofFiles files) (Project.ofFiles files') places words where
  file j := (h.file j).widened
  types := declsIn_ofFiles_moved h.length h.file tests_typeForm?
  values := declsIn_ofFiles_moved h.length h.file tests_valueForm?
  type_seen := h.type_seen
  value_seen := h.value_seen
  type_name d hd := by
    obtain ⟨-, i, hi⟩ := exists_declAt hd
    obtain ⟨-, name, form, hname, -, hd⟩ := declAt_eq_some_iff.mp hi
    rw [show d.token = i + 1 by rw [hd]]
    exact Chain.hasKind_of_word? hname
  value_name d hd := by
    obtain ⟨-, i, hi⟩ := exists_declAt hd
    obtain ⟨-, name, form, hname, -, hd⟩ := declAt_eq_some_iff.mp hi
    rw [show d.token = i + 1 by rw [hd]]
    exact Chain.hasKind_of_word? hname
  enum d hd henum := by
    refine ⟨h.enum d hd henum, ?_⟩
    obtain ⟨-, i, hi⟩ := exists_declAt hd
    obtain ⟨-, name, form, -, hform, hd⟩ := declAt_eq_some_iff.mp hi
    obtain rfl : form = .enum := by rw [← henum, hd]
    rw [show d.token + 1 = i + 2 by rw [hd], File.hasKind]
    unfold typeForm? at hform
    simp only at hform
    split at hform
    · split at hform <;> cases hform
    · split at hform <;> cases hform
    · exact (Option.ite_none_right_eq_some.mp hform).1
    · cases hform
  value d hd hvariable := by
    obtain ⟨-, i, hi⟩ := exists_declAt hd
    obtain ⟨-, name, form, -, hform, hd⟩ := declAt_eq_some_iff.mp hi
    obtain rfl : form = .variable := by rw [← hvariable, hd]
    rw [show d.token + 1 = i + 2 by rw [hd], File.hasKind, File.hasKind, ← Bool.or_eq_true]
    unfold valueForm? at hform
    simp only at hform
    split at hform
    · split at hform <;> cases hform
    · exact (Option.ite_none_right_eq_some.mp hform).1
    · exact (Option.ite_none_right_eq_some.mp hform).1
    · exact (Option.ite_none_right_eq_some.mp hform).1
    · cases hform

end SchemaSplice.Declaration
