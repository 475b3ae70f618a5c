import SchemaSplice.Proofs.Descent.Visits
import SchemaSplice.Proofs.Meaning.Faithful
import SchemaSplice.Run.Pass
/-!
# More depth

The limit on depth is asked about at every part and used for nothing else. So a run that has as many levels left as another
gives the same result, unless the other one was cut off: raising the limit changes no validator and no error
about a form, in one type and in a whole file.
-/

namespace SchemaSplice

open SchemaSplice.Types Source Chain Declaration

variable {t : Table} {limit limit' : Nat}

/-- With as many levels left, the result is the same unless the limit was reached. -/
theorem synthesize_upTo {depth depth' : Nat} (h : limit + depth' ≤ limit' + depth) (id : TypeId) :
    UpTo (· = .depth limit) (synthesize t limit depth id) (synthesize t limit' depth' id) := by
  -- The levels that are left bound the recursion of the shorter run.
  induction hn : limit + 1 - depth using Nat.strongRecOn generalizing depth depth' id with
  | ind n ih =>
    rw [synthesize, synthesize]
    split
    · exact Or.inl ⟨_, rfl, rfl⟩
    next hle =>
    rw [dif_neg (by omega : ¬limit' < depth')]
    refine Synthesis.layer_upTo fun k u _ => ?_
    exact ih (limit + 1 - (depth + 1 + k)) (by omega) (by omega) u rfl

/-- A validator does not depend on where the type lies and how deep types may be. -/
theorem synthesize_unique {depth depth' : Nat} {id : TypeId} {v v' : Validator}
    (h : synthesize t limit depth id = .ok v) (h' : synthesize t limit' depth' id = .ok v') : v = v' := by
  rcases Nat.le_total (limit + depth') (limit' + depth) with hle | hle
  · have hsame := (synthesize_upTo hle id).eq_of_ok h
    rw [h', Except.ok.injEq] at hsame
    exact hsame.symm
  · have hsame := (synthesize_upTo hle id).eq_of_ok h'
    rwa [h, Except.ok.injEq] at hsame

/-! ### Files -/

namespace Pass

/-- A failure that says that a type is too deep. -/
def TooDeep (e : Failure) : Prop := ∃ path line l, e = .procedure path line (.depth l)

variable (f : File) (settings settings' : Settings)

theorem visit_of_larger_limit (h : settings.maxDepth ≤ settings'.maxDepth) (procedure : Procedure) (progress : Progress)
    (s : Inquiry) :
    (∃ e, TooDeep e ∧ (visit f settings procedure progress s).1 = .error e) ∨
      visit f settings' procedure progress s = visit f settings procedure progress s := by
  have hupTo : UpTo (· = .depth settings.maxDepth)
      (synthesize s.table settings.maxDepth 0 (s.table.awaited procedure.returnType))
      (synthesize s.table settings'.maxDepth 0 (s.table.awaited procedure.returnType)) := synthesize_upTo h _
  rcases hupTo with ⟨e, rfl, hcut⟩ | hsame
  · refine Or.inl ⟨_, ⟨f.path, f.lineAt procedure.root, settings.maxDepth, rfl⟩, ?_⟩
    unfold visit validatorOfResult
    rw [hcut]
  · refine Or.inr ?_
    unfold visit validatorOfResult
    rw [hsame]

theorem visitChains_of_larger_limit (h : settings.maxDepth ≤ settings'.maxDepth) (p : Project) (index : Nat)
    (candidates : List (Nat × List Segment)) (progress : Progress) (s : Inquiry) :
    (∃ e, TooDeep e ∧ (visitChains p index (visit f settings) candidates progress s).1 = .error e) ∨
      visitChains p index (visit f settings') candidates progress s =
        visitChains p index (visit f settings) candidates progress s := by
  induction candidates generalizing progress s with
  | nil => exact Or.inr rfl
  | cons c rest ih =>
    obtain ⟨root, segments⟩ := c
    unfold visitChains
    cases procedureAt p s index root segments with
    | mk procedure? s₁ =>
      cases procedure? with
      | none => exact ih progress s₁
      | some procedure =>
        rcases visit_of_larger_limit f settings settings' h procedure progress s₁ with ⟨e, he, hcut⟩ | hsame
        · refine Or.inl ⟨e, he, ?_⟩
          simp only
          split
          · next heq =>
            rw [heq] at hcut
            cases hcut
          · next heq =>
            rw [heq] at hcut
            exact hcut
        · simp only [hsame]
          cases visit f settings procedure progress s₁ with
          | mk result s₂ =>
            cases result with
            | error e => exact Or.inr rfl
            | ok progress' => exact ih progress' s₂

theorem reportOnFile_of_larger_limit (p : Project) (index : Nat) (settings : Settings) {limit : Nat}
    (h : settings.maxDepth ≤ limit) (hdeep : ∀ e, TooDeep e → (reportOnFile p index settings).1 ≠ .error e) :
    reportOnFile p index { settings with maxDepth := limit } = reportOnFile p index settings := by
  unfold reportOnFile at hdeep ⊢
  unfold visitProcedures at hdeep ⊢
  rcases visitChains_of_larger_limit (p.file index) settings { settings with maxDepth := limit } h p index
    (chains (p.file index) settings.factories) {} {} with ⟨e, he, hcut⟩ | hsame
  · refine absurd ?_ (hdeep e he)
    simp only [hcut]
    rfl
  · simp only [hsame]
    rfl

end Pass

/-- The limit on depth only cuts off: what a type or a file gives without being too deep, it gives with every larger limit. -/
theorem synthesize_of_larger_limit (t : Table) {limit limit' : Nat} (h : limit ≤ limit') :
    (∀ depth id, (∀ l, synthesize t limit depth id ≠ .error (.depth l)) →
      synthesize t limit' depth id = synthesize t limit depth id) ∧
    (∀ id, (∀ l, validatorOfResult t limit id ≠ .error (.depth l)) →
      validatorOfResult t limit' id = validatorOfResult t limit id) ∧
    (∀ p index settings, settings.maxDepth = limit →
      (∀ e, Pass.TooDeep e → (reportOnFile p index settings).1 ≠ .error e) →
      reportOnFile p index { settings with maxDepth := limit' } = reportOnFile p index settings) := by
  have hsame : ∀ depth id, (∀ l, synthesize t limit depth id ≠ .error (.depth l)) →
      synthesize t limit' depth id = synthesize t limit depth id := by
    intro depth id hcut
    rcases synthesize_upTo (Nat.add_le_add_right h depth) id with ⟨e, rfl, he⟩ | hsame
    · exact absurd he (hcut limit)
    · exact hsame.symm
  refine ⟨hsame, fun id hcut => hsame 0 (t.awaited id) hcut, fun p index settings hlimit hcut => ?_⟩
  exact Pass.reportOnFile_of_larger_limit p index settings (by rw [hlimit]; exact h) hcut

/-- `string[]` in place 1, `string & string` in place 2. -/
def listAndClash : Table := tableOfKinds [.string, .array (some ⟨0⟩), .intersection [⟨0⟩, ⟨0⟩]] []

def clashingResult : Project := .ofFiles [.parse "a.ts" "procedure.query((): (string & string)[] => [])"]

theorem listAndClash_of_larger_limit :
    synthesize listAndClash 9 0 ⟨1⟩ = .ok (.call "array" [.validator (.primitive "string")]) ∧
    synthesize listAndClash 9 0 ⟨2⟩ = .error (.shape (.intersection "string & string")) ∧
    validatorOfResult listAndClash 9 ⟨1⟩ = validatorOfResult listAndClash 1 ⟨1⟩ ∧
    reportOnFile clashingResult 0 { maxDepth := 9 } =
      reportOnFile clashingResult 0 { maxDepth := 1 } := by
  obtain ⟨hsame, hresult, hfile⟩ := synthesize_of_larger_limit listAndClash (show 1 ≤ 9 by decide)
  have hlist : synthesize listAndClash 1 0 ⟨1⟩ = .ok (.call "array" [.validator (.primitive "string")]) := by cbv
  have hclash : synthesize listAndClash 1 0 ⟨2⟩ = .error (.shape (.intersection "string & string")) := by cbv
  have hreport : (reportOnFile clashingResult 0 { maxDepth := 1 }).1 =
      .error (.procedure "a.ts" 1 (.shape (.intersection "string & string"))) := by
    decide +kernel
  refine ⟨(hsame 0 ⟨1⟩ (by simp [hlist])).trans hlist, (hsame 0 ⟨2⟩ (by simp [hclash])).trans hclash,
    hresult ⟨1⟩ (fun l hcut => ?_), hfile _ 0 { maxDepth := 1 } rfl ?_⟩
  · have hcut : synthesize listAndClash 1 0 ⟨1⟩ = .error (.depth l) := hcut
    rw [hlist] at hcut
    cases hcut
  · rintro e ⟨path, line, l, rfl⟩ hdeep
    rw [hreport] at hdeep
    cases hdeep

end SchemaSplice
