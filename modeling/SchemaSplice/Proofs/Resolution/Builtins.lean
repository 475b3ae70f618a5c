import SchemaSplice.Proofs.Grammar.Arrows
import SchemaSplice.Proofs.Resolution.Heritage
/-!
# Built-in collections as bases

An interface that extends a built-in set or map by its name has a base that was built for the type arguments written there.
The name is looked up among the remembered instances and the declarations first, but both know declared names only.
-/

namespace SchemaSplice.Types

/-- The built-in types that are validated by their elements. -/
inductive Collection where
  | set
  | map
deriving DecidableEq, Repr

namespace Collection

def typeName : Collection → String
  | set => "Set"
  | map => "Map"

def keys : Collection → List PropertyKey
  | set => [.name "add", .name "delete", .name "clear", .name "has", .name "forEach", .name "size", .symbol "iterator"]
  | map =>
    [.name "set", .name "delete", .name "clear", .name "get", .name "has", .name "forEach", .name "size",
      .symbol "iterator"]

def arity : Collection → Nat
  | set => 1
  | map => 2

variable {c : Collection} {args : List TypeId} {build : TableM TypeId}

/-- What is built last is the type itself, an object with its keys. -/
theorem build_eq_nominal (h : Builtin.lookup? c.typeName args = some build) (t : Table) :
    args.length = c.arity ∧ ∃ properties t', properties.map (·.key) = c.keys ∧
      build t = Builtin.nominal c.typeName args properties t' := by
  cases c with
  | set =>
    match args, h with
    | [element], h =>
      cases h
      exact ⟨rfl, _, _, rfl, rfl⟩
  | map =>
    match args, h with
    | [key, value], h =>
      cases h
      exact ⟨rfl, _, _, rfl, rfl⟩

end Collection

end SchemaSplice.Types

namespace SchemaSplice.Annotation

open Source SchemaSplice.Types

variable {env : Env} {s u : TypeState}

/-! ### Reading a name with type arguments -/

theorem lookup_ok {α : Type} {p : Nat} {reading : Reading α} {a : α} (h : lookup p reading s = .ok a u) :
    reading s = .ok a u := by
  unfold lookup at h
  split at h
  · next hread =>
    cases h
    exact hread
  · cases h

theorem adaptExcept_ok {ε ε' α : Type} {g : ε → ε'} {m : EStateM ε TypeState α} {a : α}
    (h : m.adaptExcept g s = .ok a u) : m s = .ok a u := by
  unfold EStateM.adaptExcept at h
  split at h
  · cases h
  · next hread =>
    cases h
    exact hread

/-- What is read with a postfix is the type before it or an array. -/
theorem arraySuffix_ok {f : File} {p q : Nat} {lt : p < q} {le : q ≤ f.size} {type : TypeId}
    {r : Parsed f p TypeId} (h : arraySuffix f p q lt le type s = .ok r u) :
    (r.value = type ∧ u = s) ∨ ∃ e, u.table.slots[r.value.slot]? = some (.kind (.array e)) := by
  fun_induction arraySuffix f p q lt le type generalizing s with
  | case1 q lt le type hopen hclose ih =>
    obtain ⟨array, t, harray, h⟩ := exists_of_bind_ok h
    cases harray
    rcases ih _ h with ⟨hvalue, rfl⟩ | harray
    · rw [hvalue]
      exact Or.inr ⟨some type, insert_slot_size s _⟩
    · exact Or.inr harray
  | case2 q lt le type hopen hclose => cases h
  | case3 q lt le type hopen =>
    cases h
    exact Or.inl ⟨rfl, rfl⟩

/-- A word with type arguments is looked up with what they are read as. -/
theorem postfixType_ok {q : Nat} {w : String} {later : Later env.file q} {r : Parsed env.file q TypeId}
    (hword : env.file.hasWord q w = true) (hlt : env.file.hasKind (q + 1) .lt = true) (hkeyword : keyword? w = none)
    (hsupported : isUnsupportedWord w = false) (hreadonly : w ≠ "readonly") (h : postfixType env q later s = .ok r u) :
    ∃ (hp : q < env.file.size) (args : Parsed env.file q (List TypeId)) (id : TypeId) (t t' : TypeState),
      typeArguments env hp later (q + 2) (Nat.lt_add_of_pos_right (Nat.zero_lt_succ 1)) [] s = .ok args t ∧
        env.scope.named w args.value t = .ok id t' ∧
        ((r.value = id ∧ u = t') ∨ ∃ e, u.table.slots[r.value.slot]? = some (.kind (.array e))) := by
  have hkind : env.file.kind? q = some .ident := beq_iff_eq.mp (File.hasKind_of_hasWord hword)
  have hread : env.file.word? q = some w := beq_iff_eq.mp hword
  have htext : env.file.tokenText q = w := by
    unfold File.word? at hread
    rw [if_pos (File.hasKind_of_hasWord hword)] at hread
    exact Option.some.inj hread
  have hdot : env.file.hasKind (q + 1) .dot = false := by
    unfold File.hasKind at hlt ⊢
    rw [beq_iff_eq.mp hlt]
    rfl
  have hgeneral : ∀ p (hp : q ≤ p), p = q →
      (do
        let base ← primary env p (later.mono hp)
        arraySuffix env.file q base.next (Nat.lt_of_le_of_lt hp base.lt_next) base.next_le base.value) s = .ok r u →
      ∃ base v, primary env q later s = .ok base v ∧
        ((r.value = base.value ∧ u = v) ∨ ∃ e, u.table.slots[r.value.slot]? = some (.kind (.array e))) := by
    intro p hp heq h
    subst heq
    obtain ⟨base, v, hbase, h⟩ := exists_of_bind_ok h
    exact ⟨base, v, hbase, arraySuffix_ok h⟩
  have hskip : skipReadonly env.file q = q := by
    apply skipReadonly_of_false
    unfold File.hasWord
    rw [hread]
    exact beq_eq_false_iff_ne.mpr fun heq => hreadonly (Option.some.inj heq)
  obtain ⟨base, v, hbase, hr⟩ := hgeneral (skipReadonly env.file q) (le_skipReadonly env.file q) hskip h
  rw [primary_of_some env later hkind] at hbase
  have hbase : named env q (File.lt_size_of_kind? hkind) later s = .ok base v := hbase
  unfold named at hbase
  simp only [htext, hkeyword, hsupported] at hbase
  unfold reference at hbase
  simp only [htext, hdot, hlt] at hbase
  obtain ⟨args, t, hargs, hbase⟩ := exists_of_bind_ok hbase
  obtain ⟨id, t', hid, hbase⟩ := exists_of_bind_ok hbase
  cases hbase
  exact ⟨_, args, id, t, _, hargs, lookup_ok hid, hr⟩

theorem length_lt_heritageRest {q next : Nat} {bases read : List TypeId}
    (h : heritageRest env q bases s = .ok (read, next) u) : bases.length < read.length := by
  fun_induction heritageRest env q bases generalizing s with
  | case1 q bases ih =>
    obtain ⟨base, t, -, h⟩ := exists_of_bind_ok h
    split at h
    · next hcomma =>
      have hrest := ih base hcomma h
      rw [List.length_append] at hrest
      exact Nat.lt_of_succ_lt hrest
    · cases h
      simp

/-- A clause with a single base is read like that base. -/
theorem heritageAt_ok {p next : Nat} {base : TypeId} (hword : env.file.hasWord p "extends" = true)
    (h : heritageAt env p s = .ok ([base], next) u) :
    ∃ r, postfixType env (p + 1) (laterAt env (p + 1)) s = .ok r u ∧ r.value = base := by
  unfold heritageAt at h
  rw [if_pos hword, heritageRest] at h
  obtain ⟨r, t, hr, h⟩ := exists_of_bind_ok h
  split at h
  · have hlength := length_lt_heritageRest h
    simp at hlength
  · cases h
    exact ⟨r, hr, rfl⟩

end SchemaSplice.Annotation

namespace SchemaSplice.Declaration

open Annotation Source SchemaSplice.Types

variable {p : Project} {s u : TypeState} {c : Collection}

/-! ### Names that are not declared -/

/-- All remembered instances are those of declared names. -/
def NamesDeclared (p : Project) (s : TypeState) : Prop := ∀ entry ∈ s.memo, ∃ d ∈ p.types, d.name = entry.1.1

theorem NamesDeclared.reserve {current : Nat} {name : String} {first : Decl TypeForm}
    {rest : List (Decl TypeForm)} (hs : NamesDeclared p s) (hnamed : p.typesNamed name current = first :: rest)
    (args : List TypeId) :
    NamesDeclared p (s.reserve (name, args)) := by
  obtain ⟨hmem, hname⟩ := mem_of_mem_visible (hnamed ▸ List.mem_cons_self : first ∈ p.typesNamed name current)
  intro entry hentry
  rcases List.mem_cons.mp hentry with rfl | hentry
  · exact ⟨first, hmem, hname⟩
  · exact hs entry hentry

theorem NamesDeclared.forget (hs : NamesDeclared p s) (inst : Instance) :
    NamesDeclared p { s with memo := s.memo.filter (·.1 != inst) } :=
  fun entry hentry => hs entry (List.mem_filter.mp hentry).1

theorem namesDeclared_maintained (p : Project) : Maintained p (NamesDeclared p) where
  insert _ _ _ hs := hs
  enumLiteral _ _ _ _ _ hs := hs
  recordEnum _ _ _ hs := hs
  rememberEnum _ _ _ hs := hs
  defines := by
    intro current name args first rest resolver s hnamed _ _ hbody hs
    have hread := hbody _ (hs.reserve hnamed args)
    rw [defineInstance_apply]
    split
    · next type t hres =>
      rw [hres] at hread
      exact hread
    · next e t hres =>
      rw [hres] at hread
      exact hread.forget (name, args)

/-- A name that the project does not declare is that of a built-in type, wherever it is looked up. -/
theorem resolveWithin_of_undeclared {name : String} (hname : ∀ d ∈ p.types, d.name ≠ name) (hs : NamesDeclared p s)
    (levels current : Nat) (args : List TypeId) :
    resolveWithin p levels current name args s =
      match Builtin.lookup? name args with
      | some build => onTable build s
      | none => .error (.unknownName name) s := by
  have hmemo : s.memo.lookup (name, args) = none := by
    rw [List.lookup_eq_none_iff]
    intro entry hentry
    obtain ⟨d, hd, heq⟩ := hs entry hentry
    rw [bne_iff_ne]
    intro hinst
    exact hname d hd (heq.trans (congrArg Prod.fst hinst).symm)
  have hnamed : p.typesNamed name current = [] := by
    rw [List.eq_nil_iff_forall_not_mem]
    intro d hd
    obtain ⟨hmem, heq⟩ := mem_of_mem_visible hd
    exact hname d hmem heq
  have hstep : ∀ body, resolveStep p body current name args s =
      match Builtin.lookup? name args with
      | some build => onTable build s
      | none => .error (.unknownName name) s := by
    intro body
    have happly := resolveStep_apply p body current name args s
    rw [hmemo, hnamed] at happly
    refine happly.trans ?_
    cases Builtin.lookup? name args <;> rfl
  cases levels with
  | zero => exact hstep none
  | succ levels => exact hstep (some _)

/-! ### A base that is a collection -/

/-- What stands for a collection as it was built. -/
structure IsCollection (c : Collection) (o : ObjectType) : Prop where
  symbol : o.symbol = some c.typeName
  arity : o.typeArgs.length = c.arity
  keys : o.keys = c.keys

/-- A place holds a kind, which is the collection if it is an object. -/
def BuiltAs (c : Collection) (t : Table) (id : TypeId) : Prop :=
  ∃ k, t.slots[id.slot]? = some (.kind k) ∧ k ≠ .pending ∧ ∀ o, k = .object o → IsCollection c o

theorem BuiltAs.persists {t t' : Table} {id : TypeId} (h : BuiltAs c t id) (ht : t.Persists t') :
    BuiltAs c t' id ∧ t'.object? id = t.object? id := by
  obtain ⟨k, hslot, hne, hk⟩ := h
  have hslot' := ht _ _ hslot fun heq => hne (Slot.kind.inj heq)
  refine ⟨⟨k, hslot', hne, hk⟩, ?_⟩
  unfold Table.object?
  rw [Table.kind_of_slot hslot, Table.kind_of_slot hslot']

theorem BuiltAs.isCollection {t : Table} {id : TypeId} {o : ObjectType} (h : BuiltAs c t id)
    (ho : t.object? id = some o) : IsCollection c o := by
  obtain ⟨k, hslot, -, hk⟩ := h
  exact hk o ((Table.kind_of_slot hslot).symm.trans (object?_eq_some_iff.mp ho))

theorem onTable_ok {ε α : Type} {change : TableM α} {a : α} (h : (onTable change : EStateM ε TypeState α) s = .ok a u) :
    change s.table = (a, u.table) := by
  cases h
  rfl

theorem isCollection_of_lookup? {args : List TypeId} {build : TableM TypeId} {id : TypeId}
    (hbuild : Builtin.lookup? c.typeName args = some build) (h : (onTable build : Reading TypeId) s = .ok id u) :
    ∃ o, u.table.slots[id.slot]? = some (.kind (.object o)) ∧ IsCollection c o := by
  obtain ⟨hlength, properties, t, hkeys, hnominal⟩ := Collection.build_eq_nominal hbuild s.table
  obtain ⟨hid, htable⟩ := Prod.mk.inj (hnominal.symm.trans (onTable_ok h))
  refine ⟨{ symbol := some c.typeName, typeArgs := args, properties }, ?_, ⟨rfl, hlength, hkeys⟩⟩
  rw [← hid, ← htable]
  exact Array.getElem?_push_size

section

variable {Inv : TypeState → Prop} {f : File} {params : Bindings}

theorem Maintained.scope (M : Maintained p Inv) (levels home : Nat) :
    ScopeSound Inv AnyId True (scopeOf p (resolveWithin p levels) home) :=
  M.upheld.scopeOf (O := []) (M.upheld.resolveWithin [] levels) home

theorem Maintained.keeps_typeArguments (M : Maintained p Inv) (levels home : Nat) (params : Bindings) {q start : Nat}
    (hq : q < f.size) (hstart : q < start) :
    Keeps Inv (typeArguments ⟨f, scopeOf p (resolveWithin p levels) home, params⟩ hq
      (laterAt ⟨f, scopeOf p (resolveWithin p levels) home, params⟩ q) start hstart []) := by
  have T := M.upheld.transport []
  have hscope := ScopeSound.tracks (f := f) (M.scope levels home)
  have hlater : LaterTracks id (Same Inv) AnyId True (HasIds.ids params)
      (laterAt ⟨f, scopeOf p (resolveWithin p levels) home, params⟩ q)
      (laterAt ⟨f, scopeOf p (resolveWithin p levels) home, renameParams id params⟩ q) :=
    fun r _ => typeAt_tracks T hscope (fun _ h => h) r
  have hread := @typeArguments_tracks id (Same Inv) AnyId True (HasIds.ids params) f
    (scopeOf p (resolveWithin p levels) home) (scopeOf p (resolveWithin p levels) home) params q hq _ _ hlater start hstart
    [] fun _ h => nomatch h
  exact Keeps.of_sound (Sound.of_tracks hread)

/-- A base that is written as a collection with type arguments is the collection or an array. -/
theorem builtAs_of_heritageAt {levels home after next : Nat} {base : TypeId}
    (hname : ∀ d ∈ p.types, d.name ≠ c.typeName) (hs : NamesDeclared p s)
    (hextends : f.hasWord after "extends" = true) (hword : f.hasWord (after + 1) c.typeName = true)
    (hlt : f.hasKind (after + 2) .lt = true)
    (h : heritageAt ⟨f, scopeOf p (resolveWithin p levels) home, params⟩ after s = .ok ([base], next) u) :
    BuiltAs c u.table base := by
  obtain ⟨r, hr, rfl⟩ := heritageAt_ok hextends h
  have hplain : keyword? c.typeName = none ∧ isUnsupportedWord c.typeName = false ∧ c.typeName ≠ "readonly" := by
    cases c <;> decide
  obtain ⟨hq, args, id, t, t', hargs, hid, hcases⟩ := postfixType_ok hword hlt hplain.1 hplain.2.1 hplain.2.2 hr
  have ht : NamesDeclared p t := by
    have hread := (namesDeclared_maintained p).keeps_typeArguments levels home params hq
      (Nat.lt_add_of_pos_right (Nat.zero_lt_succ 1)) s hs
    rw [hargs] at hread
    exact hread
  have hresolve := (resolveWithin_of_undeclared hname ht levels home args.value).symm.trans hid
  cases hlookup : Builtin.lookup? c.typeName args.value with
  | none =>
    rw [hlookup] at hresolve
    cases hresolve
  | some build =>
    rw [hlookup] at hresolve
    obtain ⟨b, hslot, hb⟩ := isCollection_of_lookup? hlookup hresolve
    rcases hcases with ⟨hvalue, rfl⟩ | ⟨e, harray⟩
    · rw [hvalue]
      refine ⟨_, hslot, (fun h => nomatch h), ?_⟩
      intro o ho
      cases ho
      exact hb
    · exact ⟨_, harray, (fun h => nomatch h), fun o ho => nomatch ho⟩

end

/-! ### Interfaces that extend a collection -/

/-- The declaration at a token names a collection with type arguments as its first base. -/
def ExtendsByName (c : Collection) (f : File) (token : Nat) : Prop :=
  ∃ params after, parameters? f (token + 1) = some (params, after) ∧ f.hasWord after "extends" = true ∧
    f.hasWord (after + 1) c.typeName = true ∧ f.hasKind (after + 2) .lt = true

section

variable {f : File} {levels home : Nat} {args bases read : List TypeId} {body own merged : ObjectType} {base : TypeId}

theorem exists_of_interfacePart {scope : Scope} {token : Nat}
    (h : interfacePart f scope token args s = .ok (body, bases) u) :
    ∃ params after bound t brace v r, parameters? f (token + 1) = some (params, after) ∧
      bindParameters f scope [] params args s = .ok bound t ∧
      heritageAt ⟨f, scope, bound⟩ after t = .ok (bases, brace) v ∧
      objectAt ⟨f, scope, bound⟩ brace v = .ok r u ∧ r.value = body := by
  unfold interfacePart at h
  obtain ⟨⟨bound, after⟩, t, hbound, h⟩ := exists_of_bind_ok h
  obtain ⟨⟨read, brace⟩, v, hread, h⟩ := exists_of_bind_ok h
  obtain ⟨r, w, hr, h⟩ := exists_of_bind_ok h
  cases h
  unfold boundParameters at hbound
  cases hparams : parameters? f (token + 1) with
  | none =>
    rw [hparams] at hbound
    cases hbound
  | some found =>
    rw [hparams] at hbound
    obtain ⟨bound', t', hbind, hbound⟩ := exists_of_bind_ok hbound
    cases hbound
    exact ⟨found.1, found.2, bound, t, brace, v, r, rfl, hbind, adaptExcept_ok hread, adaptExcept_ok hr, rfl⟩

theorem builtAs_of_interfacePart {token : Nat} (hname : ∀ d ∈ p.types, d.name ≠ c.typeName) (hs : NamesDeclared p s)
    (hextends : ExtendsByName c f token)
    (h : interfacePart f (scopeOf p (resolveWithin p levels) home) token args s = .ok (body, [base]) u) :
    BuiltAs c u.table base := by
  obtain ⟨params, after, bound, t, brace, v, r, hparams, hbind, hread, hobject, -⟩ := exists_of_interfacePart h
  obtain ⟨params', after', hparams', hword, hcollection, hlt⟩ := hextends
  cases hparams.symm.trans hparams'
  have ht : NamesDeclared p t := by
    have M := namesDeclared_maintained p
    have hkeeps := Keeps.of_sound (bindParameters_sound (Γ := args) (f := f) (M.upheld.transport []) (M.scope levels home)
      params fun _ h => h) s hs
    rw [hbind] at hkeeps
    exact hkeeps
  have hbuilt := builtAs_of_heritageAt hname ht hword hcollection hlt hread
  have M := persists_maintained p v.table
  have hkept := Keeps.of_sound (objectAt_sound (Γ := HasIds.ids bound) (f := f) (M.upheld.transport [])
    (M.scope levels home) (fun _ h => h) brace) v (Table.Persists.refl v.table)
  rw [hobject] at hkept
  exact (hbuilt.persists hkept).1

theorem ne_nil_of_interfacePart {scope : Scope} {token : Nat} (hextends : ExtendsByName c f token)
    (h : interfacePart f scope token args s = .ok (body, bases) u) : bases ≠ [] := by
  obtain ⟨params, after, bound, t, brace, v, r, hparams, -, hread, -, -⟩ := exists_of_interfacePart h
  obtain ⟨params', after', hparams', hword, -, -⟩ := hextends
  cases hparams.symm.trans hparams'
  unfold heritageAt at hread
  rw [if_pos hword] at hread
  exact List.ne_nil_of_length_pos (length_lt_heritageRest hread)

/-- Inheriting changes the properties of an object only. -/
theorem inherit_eq (o : ObjectType) (properties : List Property) :
    ∃ merged, inherit o properties = { o with properties := merged } := by
  unfold inherit
  induction properties generalizing o with
  | nil => exact ⟨o.properties, rfl⟩
  | cons q qs ih =>
    obtain ⟨merged, hmerged⟩ := ih (o.addProperty q)
    rw [List.foldl_cons, hmerged]
    unfold ObjectType.addProperty
    split
    · exact ⟨merged, rfl⟩
    · exact ⟨merged, rfl⟩

/-- Bases are collected in order, and the arguments stay. -/
theorem interfaceParts_ok {scope : Scope} {decls : List (Decl TypeForm)}
    (h : interfaceParts f scope args merged bases decls s = .ok (own, read) u) :
    bases <+: read ∧ own.typeArgs = merged.typeArgs := by
  induction decls generalizing merged bases s with
  | nil =>
    cases h
    exact ⟨List.prefix_rfl, rfl⟩
  | cons d ds ih =>
    unfold interfaceParts at h
    obtain ⟨⟨body, more⟩, t, -, h⟩ := exists_of_bind_ok h
    obtain ⟨hfront, hargs⟩ := ih h
    obtain ⟨properties, hinherit⟩ := inherit_eq merged body.properties
    rw [hinherit] at hargs
    exact ⟨(List.prefix_append bases more).trans hfront, hargs⟩

theorem Maintained.interfaceParts {Inv : TypeState → Prop} (M : Maintained p Inv) (levels home : Nat) (f : File)
    (args bases : List TypeId) (merged : ObjectType) (decls : List (Decl TypeForm)) :
    Keeps Inv (Declaration.interfaceParts f (scopeOf p (resolveWithin p levels) home) args merged bases decls) := by
  apply Keeps.of_sound
  refine interfaceParts_sound (Γ := args ++ (HasIds.ids merged ++ bases)) (M.upheld.transport []) (M.scope levels home) ?_ ?_
    ?_ decls
  · intro id hid
    exact List.mem_append_left _ hid
  · intro id hid
    exact List.mem_append_right _ (List.mem_append_left _ hid)
  · intro id hid
    exact List.mem_append_right _ (List.mem_append_right _ hid)

theorem eq_singleton_of_prefix {α : Type} {xs ys : List α} {a : α} (h : xs ++ ys <+: [a]) (hys : ys ≠ []) : ys = [a] := by
  obtain ⟨zs, hzs⟩ := h
  cases xs with
  | nil =>
    cases ys with
    | nil => exact absurd rfl hys
    | cons y ys => simp_all
  | cons x xs => simp_all

/-- The only base of an interface, named as a collection in one of its declarations. -/
theorem builtAs_of_interfaceParts (hname : ∀ d ∈ p.types, d.name ≠ c.typeName) {decls : List (Decl TypeForm)}
    (hs : NamesDeclared p s) {d : Decl TypeForm} (hd : d ∈ decls) (hextends : ExtendsByName c f d.token)
    (h : interfaceParts f (scopeOf p (resolveWithin p levels) home) args merged bases decls s = .ok (own, [base]) u) :
    BuiltAs c u.table base := by
  induction decls generalizing merged bases s with
  | nil => cases hd
  | cons first rest ih =>
    unfold interfaceParts at h
    obtain ⟨⟨body, more⟩, t, hpart, hrest⟩ := exists_of_bind_ok h
    rcases List.mem_cons.mp hd with heq | hd
    · -- A clause that is read has bases, so this one has the only base there is.
      subst heq
      have hsole := eq_singleton_of_prefix (interfaceParts_ok hrest).1 (ne_nil_of_interfacePart hextends hpart)
      subst hsole
      have hbuilt := builtAs_of_interfacePart hname hs hextends hpart
      have hkept := (persists_maintained p t.table).interfaceParts levels home f args (bases ++ [base])
        { inherit merged body.properties with calls := (inherit merged body.properties).calls ++ body.calls } rest t
        (Table.Persists.refl t.table)
      have hrest : interfaceParts f _ args _ (bases ++ [base]) rest t = _ := hrest
      rw [hrest] at hkept
      exact (hbuilt.persists hkept).1
    · have M := namesDeclared_maintained p
      have ht := Keeps.of_sound (interfacePart_sound (Γ := args) (f := f) (M.upheld.transport []) (M.scope levels home)
        first.token fun _ h => h) s hs
      rw [hpart] at ht
      exact ih ht hd hrest

end

end SchemaSplice.Declaration
