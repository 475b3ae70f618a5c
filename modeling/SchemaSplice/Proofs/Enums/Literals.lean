import SchemaSplice.Proofs.Enums.Numbering
import SchemaSplice.Proofs.Resolution.Requests
import SchemaSplice.Proofs.Splice.Findings
/-!
# Enum values in validators

Every literal of a validator is that of a type in the table, and every member of an enum in a table has the value that the
enum gave it when it was read. So what is said there of values goes for validators: a computed member puts a number
into them that nobody wrote.
-/

namespace SchemaSplice

open Source SchemaSplice.Types Annotation Declaration Chain Pass

inductive Occurs (l : Literal) : Argument → Prop where
  | self : Occurs l (.ofLiteral l)
  | call {name : String} {args : List Argument} {a : Argument} (ha : a ∈ args) (h : Occurs l a) :
    Occurs l (.validator (.call name args))
  | receiver {receiver : Validator} {name : String} {args : List Argument} (h : Occurs l (.validator receiver)) :
    Occurs l (.validator (.method receiver name args))
  | argument {receiver : Validator} {name : String} {args : List Argument} {a : Argument} (ha : a ∈ args)
    (h : Occurs l a) : Occurs l (.validator (.method receiver name args))
  | item {items : List Argument} {a : Argument} (ha : a ∈ items) (h : Occurs l a) : Occurs l (.list items)
  | field {entries : List (String × Validator)} {e : String × Validator} (he : e ∈ entries)
    (h : Occurs l (.validator e.2)) : Occurs l (.fields entries)

variable {t : Table} {l : Literal} {a : Argument}

theorem BuiltArgument.validator_of_eq {v : Validator} (h : BuiltArgument t a) (ha : a = .validator v) : Built t v := by
  cases h with
  | validator hv =>
    cases ha
    exact hv
  | @literal id l h => cases l <;> cases ha
  | _ => cases ha

theorem BuiltArgument.item_of_eq {items : List Argument} (h : BuiltArgument t a) (ha : a = .list items) :
    ∀ item ∈ items, BuiltArgument t item := by
  cases h with
  | list hitems =>
    cases ha
    exact hitems
  | @literal id l h => cases l <;> cases ha
  | _ => cases ha

theorem BuiltArgument.field_of_eq {entries : List (String × Validator)} (h : BuiltArgument t a)
    (ha : a = .fields entries) : ∀ e ∈ entries, Built t e.2 := by
  cases h with
  | fields hentries =>
    cases ha
    exact hentries
  | @literal id l h => cases l <;> cases ha
  | _ => cases ha

theorem BuiltArgument.literal_of_eq (h : BuiltArgument t a) (ha : a = .ofLiteral l) : ∃ id, t.literal? id = some l := by
  cases h with
  | @literal id l' h =>
    obtain rfl : l' = l := by
      cases l' <;> cases l <;> cases ha <;> rfl
    exact ⟨id, h⟩
  | _ => cases l <;> cases ha

theorem Occurs.literal (h : Occurs l a) (ha : BuiltArgument t a) : ∃ id, t.literal? id = some l := by
  induction h with
  | self => exact ha.literal_of_eq rfl
  | call hmem _ ih =>
    cases ha.validator_of_eq rfl with
    | call _ hargs => exact ih (hargs _ hmem)
  | receiver _ ih =>
    cases ha.validator_of_eq rfl with
    | method hreceiver => exact ih (.validator hreceiver)
  | argument hmem _ ih =>
    cases ha.validator_of_eq rfl with
    | method _ _ hargs => exact ih (hargs _ hmem)
  | item hmem _ ih => exact ih (ha.item_of_eq rfl _ hmem)
  | field hmem _ ih => exact ih (.validator (ha.field_of_eq rfl _ hmem))

/-- The literals of a validator are those of types in the table. -/
theorem Occurs.of_synthesize {limit depth : Nat} {id : TypeId} {v : Validator}
    (hv : synthesize t limit depth id = .ok v) (h : Occurs l (.validator v)) : ∃ id, t.literal? id = some l :=
  h.literal (.validator (built_synthesize hv))

/-! ### Members in tables -/

/-- A kind that is an entry of a declared enum, if it is an enum's member. -/
def FromEntry (p : Project) : TypeKind → Prop
  | .enumLiteral e m l => IsEntry p e m l
  | _ => True

theorem fromEntry_maintained (p : Project) : Maintained p fun s => AllKinds (FromEntry p) s.table := by
  apply allKinds_maintained
  · intro k hk
    cases k with
    | enumLiteral e m l => exact hk.elim
    | _ => trivial
  · trivial
  · exact fun _ _ _ hentry => hentry

/-- A member of an enum has the value that it takes there; the value is written or counted exactly if the member is regular. -/
def MemberValue (p : Project) (e m : String) (l : Literal) : Prop :=
  ∃ before w, IsMember p e before m w ∧ l = w.value (running before) ∧
    ((w = .missing → Whole before) → (Warranted before w l ↔ Regular before w))

theorem memberValue_of_allKinds {p : Project} (h : AllKinds (FromEntry p) t) {id : TypeId} {e m : String}
    (hk : t.kind id = .enumLiteral e m l) : MemberValue p e m l := by
  have hentry := h.kind trivial id
  rw [hk] at hentry
  obtain ⟨before, w, hmember, rfl⟩ := hentry.isMember
  exact ⟨before, w, hmember, rfl, warranted_iff_regular⟩

theorem fromEntry_of_reachable {p : Project} {current : Nat} {s : Inquiry} (h : Reachable p current s) :
    AllKinds (FromEntry p) s.table := by
  suffices hknown : Known (fun s => AllKinds (FromEntry p) s.table) AnyId s from hknown.types
  induction h with
  | start => exact known_anyId fun _ _ hk => nomatch hk
  | serve r _ _ ih => exact (fromEntry_maintained p).upheld.serve ih r fun _ _ => trivial

/-- In every state that requests lead to, the literals of validators are those of types, and a member of an enum has the value
that the enum gives it: what is written for it or the running number. That is a value which is written or counted exactly for
regular members, and so never if the initializer is computed. -/
theorem enum_values_regular (p : Project) (current : Nat) (s : Inquiry) (h : Reachable p current s) :
    (∀ limit depth id v l, synthesize s.table limit depth id = .ok v → Occurs l (.validator v) →
      ∃ id', s.table.literal? id' = some l) ∧
    ∀ id e m l, s.table.kind id = .enumLiteral e m l → MemberValue p e m l :=
  ⟨fun _ _ _ _ _ hv hl => hl.of_synthesize hv, fun _ _ _ _ hk => memberValue_of_allKinds (fromEntry_of_reachable h) hk⟩

/-- An enum whose last member counts on from a number, and a type of two of its members. -/
def levels : Project :=
  .ofFiles [.parse "a.ts" "enum Level \x7b Low, High = 5, Top \x7d type Subject = Level.High | Level.Top;"]

theorem levels_top {before : List Initializer} {w : Initializer} (h : IsMember levels "Level" before "Top" w) :
    before = [.missing, .number (.ofInt 5)] ∧ w = .missing := by
  obtain ⟨d, hd, hname, -, close, hclose, earlier, later, hwritten, rfl⟩ := h
  have hall : ∀ d ∈ levels.types, d.name = "Level" → ((levels.file d.file).closer? (d.token + 1)).map
      (fun close => writtenMembers (levels.file d.file) close.1 (d.token + 1 + 1)) =
        some [("Low", .missing), ("High", .number (.ofInt 5)), ("Top", .missing)] := by decide +kernel
  have hlevel := hall d hd hname
  rw [hclose, Option.map_some, hwritten, Option.some.injEq] at hlevel
  match earlier with
  | [] => simp at hlevel
  | [_] => simp at hlevel
  | [_, _] =>
    cases hlevel
    exact ⟨rfl, rfl⟩
  | _ :: _ :: _ :: _ => simp at hlevel

theorem levels_regular :
    let s := (serve levels 0 {} (.named "Subject" [])).2
    Reachable levels 0 s ∧ s.table.kind ⟨3⟩ = .enumLiteral "Level" "Top" (.number (.ofInt 6)) ∧
      (∃ v, synthesize s.table 50 0 ⟨3⟩ = .ok v ∧ Occurs (.number (.ofInt 6)) (.validator v)) ∧
      (∃ id, s.table.literal? id = some (.number (.ofInt 6))) ∧
      MemberValue levels "Level" "Top" (.number (.ofInt 6)) ∧
      ∃ before w, IsMember levels "Level" before "Top" w ∧ Whole before ∧ Regular before w ∧
        Warranted before w (.number (.ofInt 6)) := by
  intro s
  have hs : Reachable levels 0 s := .serve (.named "Subject" []) .start fun _ h => nomatch h
  obtain ⟨hk, hfunction⟩ : s.table.kind ⟨3⟩ = .enumLiteral "Level" "Top" (.number (.ofInt 6)) ∧
      s.table.isFunction ⟨3⟩ = false := by decide +kernel
  have hv : synthesize s.table 50 0 ⟨3⟩ = .ok (.call "literal" [.ofLiteral (.number (.ofInt 6))]) := by
    rw [synthesize, dif_neg (Nat.not_lt_zero 50), Synthesis.layer, hfunction, hk]
    rfl
  have hoccurs : Occurs (.number (.ofInt 6)) (.validator (.call "literal" [.ofLiteral (.number (.ofInt 6))])) :=
    .call List.mem_cons_self .self
  obtain ⟨hliterals, hmembers⟩ := enum_values_regular levels 0 s hs
  have hvalue := hmembers ⟨3⟩ _ _ _ hk
  obtain ⟨before, w, hmember, -, hregular⟩ := id hvalue
  obtain ⟨rfl, rfl⟩ := levels_top hmember
  have hwhole : Whole [.missing, .number (.ofInt 5)] := by
    refine ⟨by decide, by simp, fun x hx => ⟨5, ?_, by decide⟩⟩
    obtain rfl : x = .ofInt 5 := by simpa using hx
    exact Binary64.isWhole_ofInt (by decide)
  have htop : Regular [.missing, .number (.ofInt 5)] .missing := .missing (.after [.missing] (.ofInt 5) (by simp))
  exact ⟨hs, hk, ⟨_, hv, hoccurs⟩, hliterals 50 0 ⟨3⟩ _ _ hv hoccurs, hvalue, _, _, hmember, hwhole, htop,
    (hregular fun _ => hwhole).mpr htop⟩

/-- The same goes for the tables that the validators of a report are made from. -/
theorem emitted_enum_values (p : Project) (index : Nat) (settings : Settings) (report : FileReport)
    (h : (reportOnFile p index settings).1 = .ok report) :
    ∃ xs, found p index settings = .ok xs ∧ report.procedures.map (·.validator) = xs.map (·.validator.print) ∧
      ∀ x ∈ xs, ∃ t, validatorOfResult t settings.maxDepth x.procedure.returnType = .ok x.validator ∧
        (∀ l, Occurs l (.validator x.validator) → ∃ id, t.literal? id = some l) ∧
        ∀ id e m l, t.kind id = .enumLiteral e m l → MemberValue p e m l := by
  rw [reportOnFile_eq_found] at h
  obtain ⟨xs, hxs, h⟩ := Synthesis.exists_of_bind_eq_ok h
  obtain ⟨output, -, h⟩ := Synthesis.exists_of_bind_eq_ok h
  cases h
  refine ⟨xs, hxs, procedures_of _ xs, fun x hx => ?_⟩
  have hempty : AllKinds (FromEntry p) ({} : TypeState).table := fun _ _ hk => nomatch hk
  obtain ⟨-, s', -, htable, hv⟩ := (foundIn_of_found (fromEntry_maintained p) hempty hxs).1 x hx
  exact ⟨s'.table, hv, fun _ hl => hl.of_synthesize hv, fun _ _ _ _ hk => memberValue_of_allKinds htable hk⟩

/-- An enum whose first number is too long to be read and whose second value is computed, with a procedure that returns both. -/
def maskSource : String :=
  "import z from 'zod';enum Mask\x7bAll=0xffffffffffffffff,Read=1<<1\x7dprocedure.query(():[Mask.All,Mask.Read]=>m)"

def maskCall : String :=
  ".output(/* BEGIN GENERATED CONTENT */ z.tuple([z.literal(0), z.literal(1)]) /* END GENERATED CONTENT */)"

def maskOutput : String :=
  "import z from 'zod';enum Mask\x7bAll=0xffffffffffffffff,Read=1<<1\x7dprocedure" ++ maskCall ++
    ".query(():[Mask.All,Mask.Read]=>m)"

/-- The generated validator has a number for each member, and neither of them is written or counted. -/
theorem mask_values_invented :
    let p := Project.read [("a.ts", maskSource)]
    let all := Initializer.unread (some (.ofNat 0xffffffffffffffff))
    (∃ report, (reportOnFile p 0 {}).1 = .ok report ∧ report.output = some maskOutput) ∧
      IsMember p "Mask" [] "All" all ∧ ¬Warranted [] all (.number .zero) ∧
      IsMember p "Mask" [all] "Read" .computed ∧ ¬Warranted [all] .computed (.number .one) := by
  intro p all
  obtain ⟨hmask, hbody, hedits, himport⟩ : (⟨"Mask", 0, .enum, 6⟩ : Decl TypeForm) ∈ p.types ∧
      ((p.file 0).closer? 7).map (fun close => writtenMembers (p.file 0) close.1 8) =
        some [("All", all), ("Read", .computed)] ∧
      (visitProcedures p 0 ({} : Settings).factories (visit (p.file 0) {}) {}).1.toOption.map (·.edits) =
        some [⟨⟨72, 72⟩, maskCall⟩] ∧
      Import.ensure (p.file 0) ({} : Settings).source = .ok none := by decide +kernel
  obtain ⟨close, hclose, hwritten⟩ := Option.map_eq_some_iff.mp hbody
  refine ⟨?_, ⟨_, hmask, rfl, rfl, close, hclose, [], [("Read", .computed)], hwritten, rfl⟩, ?_,
    ⟨_, hmask, rfl, rfl, close, hclose, [("All", all)], [], hwritten, rfl⟩, ?_⟩
  · exact reportOnFile_of_edit p 0 {} ⟨⟨72, 72⟩, maskCall⟩ maskOutput hedits himport (by decide +kernel) (by decide +kernel)
  · exact fun h => absurd (h.number?_eq (by decide)) (by decide +kernel)
  · exact fun h => absurd (h.number?_eq (by decide)) (by decide)

end SchemaSplice
