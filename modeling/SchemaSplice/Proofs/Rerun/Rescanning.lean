import SchemaSplice.Declaration.Inquiry
import SchemaSplice.Proofs.Rerun.Rereading
/-!
# Scanning declarations in a widened file

Parameter lists, members of enums and handlers are found by scans that build no types. In a file with a run of tokens inserted they
find the same at the places that the tokens have moved to.
-/

namespace SchemaSplice.Declaration

open Annotation Source SchemaSplice.Types
open File (Widened Seen Enters StepsOver)

variable {f f' : File} {place : Nat → Nat} {words : List String} {i j q close depth : Nat}
  {d : Option Nat}

/-! ### Type parameters -/

theorem parameterEnd?_of_le (h : close ≤ j) : parameterEnd? f close depth j d = some (d, j) := by
  rw [parameterEnd?, if_pos h]

theorem parameterEnd?_of_kind (hj : ¬close ≤ j) {k : Kind} (hk : f.kind? j = some k) :
    parameterEnd? f close depth j d =
      if k == .lt then parameterEnd? f close (depth + 1) (j + 1) d
      else if k == .gt then parameterEnd? f close (depth - 1) (j + 1) d
      else if k == .comma && depth == 0 then some (d, j)
      else if k == .eq && depth == 0 then parameterEnd? f close depth (j + 1) (some (j + 1))
      else if k.opens then
        match f.closer? j with
        | some c => parameterEnd? f close depth (c.1 + 1) d
        | none => none
      else parameterEnd? f close depth (j + 1) d := by
  rw [parameterEnd?, if_neg hj, hk]
  cases f.closer? j <;> cases k <;> rfl

theorem parameterEnd?_of_other (hj : ¬close ≤ j) {k : Kind} (hk : f.kind? j = some k) (hlt : k ≠ .lt) (hgt : k ≠ .gt) :
    parameterEnd? f close depth j d =
      if k == .comma && depth == 0 then some (d, j)
      else if k == .eq && depth == 0 then parameterEnd? f close depth (j + 1) (some (j + 1))
      else if k.opens then
        match f.closer? j with
        | some c => parameterEnd? f close depth (c.1 + 1) d
        | none => none
      else parameterEnd? f close depth (j + 1) d := by
  rw [parameterEnd?_of_kind hj hk, if_neg (by simpa using hlt), if_neg (by simpa using hgt)]

theorem parameterEnd?_of_none (hj : ¬close ≤ j) (hk : f.kind? j = none) :
    parameterEnd? f close depth j d = parameterEnd? f close depth (j + 1) d := by
  rw [parameterEnd?, if_neg hj, hk]

theorem stepsOver_parameterEnd? (f : File) (close depth : Nat) (d : Option Nat) :
    StepsOver f (fun j => parameterEnd? f close depth j d) close := by
  refine ⟨fun j hj hk => ?_, fun j hj hk => ?_, fun j c hj hk hc => ?_⟩
  · show parameterEnd? f close depth j d = parameterEnd? f close depth (j + 1) d
    rw [parameterEnd?_of_kind (Nat.not_le_of_lt hj) (beq_iff_eq.mp hk)]
    rfl
  · show parameterEnd? f close depth j d = parameterEnd? f close depth (j + 1) d
    rw [parameterEnd?_of_kind (Nat.not_le_of_lt hj) (beq_iff_eq.mp hk)]
    rfl
  · obtain ⟨c, hcloser, rfl⟩ := Option.map_eq_some_iff.mp hc
    show parameterEnd? f close depth j d = parameterEnd? f close depth (c.1 + 1) d
    rw [parameterEnd?_of_kind (Nat.not_le_of_lt hj) (beq_iff_eq.mp hk), hcloser]
    rfl

/-- A parameter ends where the list does or at a comma. -/
theorem end_of_parameterEnd? {e : Option Nat} (h : parameterEnd? f close depth j d = some (e, q)) :
    close ≤ q ∨ f.hasKind q .comma = true := by
  fun_induction parameterEnd? f close depth j d with
  | case1 depth j d hj =>
    cases h
    exact Or.inl hj
  | case2 depth j d hj hk ih => exact ih h
  | case3 depth j d hj hk ih => exact ih h
  | case4 depth j d hj k hlt hgt hk hcomma =>
    cases h
    rw [Bool.and_eq_true, beq_iff_eq] at hcomma
    rw [hcomma.1] at hk
    exact Or.inr (beq_iff_eq.mpr hk)
  | case5 depth j d hj k hlt hgt hk hcomma heq ih => exact ih h
  | case6 depth j d hj k hlt hgt hk hcomma heq hopens c hc hcloser ih => exact ih h
  | case7 => cases h
  | case8 depth j d hj k hlt hgt hk hcomma heq hopens ih => exact ih h
  | case9 depth j d hj hk ih => exact ih h

/-- A default starts where types may be read. -/
theorem enters_of_parameterEnd? {e : Option Nat} (hseen : Seen f f' place words j)
    (hd : ∀ s ∈ d, Enters f f' place words s) (h : parameterEnd? f close depth j d = some (e, q)) :
    ∀ s ∈ e, Enters f f' place words s := by
  fun_induction parameterEnd? f close depth j d with
  | case1 depth j d hj =>
    cases h
    exact hd
  | case2 depth j d hj hk ih => exact ih (hseen.mono (Nat.le_succ j)) hd h
  | case3 depth j d hj hk ih => exact ih (hseen.mono (Nat.le_succ j)) hd h
  | case4 depth j d hj k hlt hgt hk hcomma =>
    cases h
    exact hd
  | case5 depth j d hj k hlt hgt hk hcomma heq ih =>
    rw [Bool.and_eq_true, beq_iff_eq] at heq
    rw [heq.1] at hk
    refine ih (hseen.mono (Nat.le_succ j)) ?_ h
    intro s hs
    cases hs
    exact hseen.enters_succ (beq_iff_eq.mpr hk) rfl
  | case6 depth j d hj k hlt hgt hk hcomma heq hopens c hc hcloser ih =>
    exact ih (hseen.mono (Nat.le_succ_of_le (Nat.le_of_lt hc.1))) hd h
  | case7 => cases h
  | case8 depth j d hj k hlt hgt hk hcomma heq hopens ih => exact ih (hseen.mono (Nat.le_succ j)) hd h
  | case9 depth j d hj hk ih => exact ih (hseen.mono (Nat.le_succ j)) hd h

theorem parameterEnd?_place (h : Widened f f' place) (hseen : Seen f f' place words j) :
    parameterEnd? f' (place close) depth (place j) (d.map (place)) =
      (parameterEnd? f close depth j d).map (Prod.map (Option.map (place)) (place)) := by
  have hbefore : ∀ {j : Nat}, ¬close ≤ j → ¬place close ≤ place j :=
    fun hj => Nat.not_le_of_lt (h.place_lt_place (Nat.lt_of_not_le hj))
  fun_induction parameterEnd? f close depth j d with
  | case1 depth j d hj => rw [parameterEnd?_of_le (h.place_le_place hj)]; rfl
  | case2 depth j d hj hk ih =>
    rw [parameterEnd?_of_kind (hbefore hj) ((h.kind?_eq j).trans hk), ← ih (hseen.mono (Nat.le_succ j)),
      hseen.succ (beq_iff_eq.mpr hk) rfl]
    rfl
  | case3 depth j d hj hk ih =>
    rw [parameterEnd?_of_kind (hbefore hj) ((h.kind?_eq j).trans hk), ← ih (hseen.mono (Nat.le_succ j)),
      hseen.succ (beq_iff_eq.mpr hk) rfl]
    rfl
  | case4 depth j d hj k hlt hgt hk hcomma =>
    rw [parameterEnd?_of_other (hbefore hj) ((h.kind?_eq j).trans hk) hlt hgt, if_pos hcomma]
    rfl
  | case5 depth j d hj k hlt hgt hk hcomma heq ih =>
    rw [parameterEnd?_of_other (hbefore hj) ((h.kind?_eq j).trans hk) hlt hgt, if_neg hcomma, if_pos heq,
      ← ih (hseen.mono (Nat.le_succ j))]
    rw [Bool.and_eq_true, beq_iff_eq] at heq
    rw [heq.1] at hk
    rw [Option.map_some, hseen.succ (beq_iff_eq.mpr hk) rfl]
  | case6 depth j d hj k hlt hgt hk hcomma heq hopens c hc hcloser ih =>
    obtain ⟨c', hcloser', hc'⟩ := h.closer?_eq_some hcloser
    rw [parameterEnd?_of_other (hbefore hj) ((h.kind?_eq j).trans hk) hlt hgt, if_neg hcomma, if_neg heq, if_pos hopens,
      hcloser', ← ih (hseen.mono (Nat.le_succ_of_le (Nat.le_of_lt hc.1))), hseen.place_succ_of_closer h hcloser, ← hc']
  | case7 depth j d hj k hlt hgt hk hcomma heq hopens hcloser =>
    rw [parameterEnd?_of_other (hbefore hj) ((h.kind?_eq j).trans hk) hlt hgt, if_neg hcomma, if_neg heq, if_pos hopens,
      h.closer?_eq_none hcloser]
    rfl
  | case8 depth j d hj k hlt hgt hk hcomma heq hopens ih =>
    rw [parameterEnd?_of_other (hbefore hj) ((h.kind?_eq j).trans hk) hlt hgt, if_neg hcomma, if_neg heq, if_neg hopens,
      ← ih (hseen.mono (Nat.le_succ j))]
    exact (stepsOver_parameterEnd? f' _ _ _).place_succ hseen (h.place_le_place (Nat.lt_of_not_le hj))
      (File.hasKind_eq_false hk (by rintro rfl; exact hopens rfl))
  | case9 depth j d hj hk ih =>
    rw [parameterEnd?_of_none (hbefore hj) ((h.kind?_eq j).trans hk), ← ih (hseen.mono (Nat.le_succ j)),
      hseen.place_succ_of_none hk]

def Parameter.moved (place : Nat → Nat) (p : Parameter) : Parameter :=
  { p with default? := p.default?.map (place) }

theorem parameterName_place (h : Widened f f' place) (hseen : Seen f f' place words j) :
    parameterName f' (place j) = place (parameterName f j) := by
  have hmodifier : isParameterModifier f' (place j) = isParameterModifier f j := by
    unfold isParameterModifier
    rw [h.hasWord_eq, h.hasWord_eq, h.hasWord_eq]
    cases hword : f.hasWord j "const" || f.hasWord j "in" || f.hasWord j "out" with
    | false => rfl
    | true =>
      have hident : f.hasKind j .ident = true := by
        rw [Bool.or_eq_true, Bool.or_eq_true] at hword
        rcases hword with (hword | hword) | hword <;> exact File.hasKind_of_hasWord hword
      rw [← hseen.succ hident rfl, h.hasKind_eq]
  unfold parameterName
  rw [hmodifier]
  split
  · next hword =>
    unfold isParameterModifier at hword
    rw [Bool.and_eq_true, Bool.or_eq_true, Bool.or_eq_true] at hword
    rcases hword.1 with (hword | hword) | hword <;> exact (hseen.succ_of_word hword).symm
  · rfl

theorem parametersFrom?_of_le (h : close ≤ j) : parametersFrom? f close j = some [] := by
  rw [parametersFrom?, if_pos h]

theorem parametersFrom?_of_not_le (hj : ¬close ≤ j) :
    parametersFrom? f close j =
      (f.word? (parameterName f j)).bind fun name =>
        (parameterEnd? f close 0 (parameterName f j + 1) none).bind fun e =>
          (parametersFrom? f close (e.2 + 1)).map (⟨name, e.1⟩ :: ·) := by
  rw [parametersFrom?, if_neg hj]
  cases f.word? (parameterName f j) with
  | none => rfl
  | some name =>
    simp only [Option.bind_some]
    split
    · next he => rw [he]; rfl
    · next default? stop he => rw [he]; rfl

theorem parametersFrom?_place (h : Widened f f' place) (hseen : Seen f f' place words j) :
    parametersFrom? f' (place close) (place j) =
      (parametersFrom? f close j).map (List.map (Parameter.moved place)) := by
  have hbefore : ∀ {j : Nat}, ¬close ≤ j → ¬place close ≤ place j :=
    fun hj => Nat.not_le_of_lt (h.place_lt_place (Nat.lt_of_not_le hj))
  -- The name of a parameter is a word, and its end is looked for from the next token on.
  have hend : ∀ {j : Nat} {name : String}, Seen f f' place words j → f.word? (parameterName f j) = some name →
      parameterEnd? f' (place close) 0 (parameterName f' (place j) + 1) none =
        (parameterEnd? f close 0 (parameterName f j + 1) none).map
          (Prod.map (Option.map (place)) (place)) := by
    intro j name hseen hname
    have hseen' := hseen.mono (le_parameterName f j)
    rw [parameterName_place h hseen, ← hseen'.succ (Chain.hasKind_of_word? hname) rfl]
    exact parameterEnd?_place h (d := none) (hseen'.mono (Nat.le_succ _))
  fun_induction parametersFrom? f close j with
  | case1 j hj => rw [parametersFrom?_of_le (h.place_le_place hj)]; rfl
  | case2 j hj hname =>
    rw [parametersFrom?_of_not_le (hbefore hj), parameterName_place h hseen, h.word?_eq, hname]
    rfl
  | case3 j hj name hname hnone =>
    rw [parametersFrom?_of_not_le (hbefore hj), hend hseen hname, hnone, parameterName_place h hseen, h.word?_eq, hname]
    rfl
  | case4 j hj name hname default? stop hsome ih =>
    rw [parametersFrom?_of_not_le (hbefore hj), hend hseen hname, hsome, parameterName_place h hseen, h.word?_eq, hname]
    have hstop : Seen f f' place words stop :=
      hseen.mono (Nat.le_trans (le_parameterName f j) (Nat.le_of_lt (le_of_parameterEnd? hsome)))
    have hrest : parametersFrom? f' (place close) (place stop + 1) =
        (parametersFrom? f close (stop + 1)).map (List.map (Parameter.moved place)) := by
      rcases end_of_parameterEnd? hsome with hclose | hcomma
      · rw [parametersFrom?_of_le (Nat.le_succ_of_le (h.place_le_place hclose)),
          parametersFrom?_of_le (Nat.le_succ_of_le hclose)]
        rfl
      · rw [← hstop.succ hcomma rfl, ih (hstop.mono (Nat.le_succ stop))]
    show (parametersFrom? f' (place close) (place stop + 1)).map _ = _
    rw [hrest, Option.map_map, Option.map_map]
    rfl

/-- The defaults of parameters start where types may be read. -/
theorem enters_of_parametersFrom? (hseen : Seen f f' place words j) {ps : List Parameter}
    (h : parametersFrom? f close j = some ps) : ∀ p ∈ ps, ∀ s ∈ p.default?, Enters f f' place words s := by
  fun_induction parametersFrom? f close j generalizing ps with
  | case1 =>
    cases h
    intro p hp
    cases hp
  | case2 => cases h
  | case3 => cases h
  | case4 j hj name hname default? stop hsome ih =>
    obtain ⟨rest, hrest, rfl⟩ := Option.map_eq_some_iff.mp h
    have hle := Nat.le_trans (le_parameterName f j) (Nat.le_of_lt (le_of_parameterEnd? hsome))
    intro p hp
    rcases List.mem_cons.mp hp with rfl | hp
    · exact enters_of_parameterEnd? (hseen.mono (Nat.le_succ_of_le (le_parameterName f j))) (by simp) hsome
    · exact ih (hseen.mono (Nat.le_succ_of_le hle)) hrest p hp

/-- A list of type arguments ends after its last bracket. -/
theorem gt_of_anglesEnd? (h : f.anglesEnd? depth j = some q) : 0 < q ∧ f.hasKind (q - 1) .gt = true := by
  fun_induction File.anglesEnd? f depth j with
  | case1 => cases h
  | case2 depth j k hk hlt ih => exact ih h
  | case3 depth j k hk hlt hgt hle =>
    cases h
    rw [beq_iff_eq] at hgt
    rw [hgt] at hk
    exact ⟨Nat.succ_pos j, beq_iff_eq.mpr hk⟩
  | case4 depth j k hk hlt hgt hle ih => exact ih h
  | case5 => cases h
  | case6 depth j k hk hlt hgt hstop hopens c hc hcloser ih => exact ih h
  | case7 => cases h
  | case8 depth j k hk hlt hgt hstop hopens ih => exact ih h

def parametersMoved (place : Nat → Nat) : List Parameter × Nat → List Parameter × Nat :=
  Prod.map (List.map (Parameter.moved place)) (place)

theorem parameters?_place (h : Widened f f' place) (hseen : Seen f f' place words i) :
    parameters? f' (place i) = (parameters? f i).map (parametersMoved place) := by
  unfold parameters?
  rw [h.hasKind_eq]
  split
  · next hlt =>
    rw [h.anglesFrom?_eq hseen]
    cases hangles : f.anglesFrom? i with
    | none => rfl
    | some stop =>
      unfold File.anglesFrom? at hangles
      rw [if_pos hlt] at hangles
      obtain ⟨hpos, hgt⟩ := gt_of_anglesEnd? hangles
      obtain ⟨hle, -⟩ := File.lt_of_anglesEnd? hangles
      have hlast : place stop - 1 = place (stop - 1) := by
        have hsucc := (hseen.mono (show i ≤ stop - 1 by omega)).succ hgt rfl
        rw [Nat.sub_add_cancel hpos] at hsucc
        rw [hsucc, Nat.add_sub_cancel]
      show (parametersFrom? f' (place stop - 1) (place i + 1)).map (·, place stop) = _
      rw [hlast, ← hseen.succ hlt rfl, parametersFrom?_place h (hseen.mono (Nat.le_succ i)), Option.map_map, Option.map_map]
      rfl
  · rfl

theorem enters_of_parameters? (hseen : Seen f f' place words i) {r : List Parameter × Nat}
    (h : parameters? f i = some r) :
    (∀ p ∈ r.1, ∀ s ∈ p.default?, Enters f f' place words s) ∧ i ≤ r.2 := by
  unfold parameters? at h
  split at h
  · split at h
    · cases h
    · next stop hangles =>
      obtain ⟨ps, hps, rfl⟩ := Option.map_eq_some_iff.mp h
      exact ⟨enters_of_parametersFrom? (hseen.mono (Nat.le_succ i)) hps, File.le_of_anglesFrom? hangles⟩
  · cases h
    exact ⟨by simp, Nat.le_refl i⟩

/-! ### Members of enums -/

theorem initializerValue_eq_ite (f : File) (i j : Nat) (running : Binary64) :
    initializerValue f i j running =
      let numbered (x : Binary64) : Literal × Binary64 := (.number x, x.add .one)
      if f.hasKind i .str = true ∧ j - i = 1 then (.text (Text.unquote (f.tokenText i)), running)
      else if f.hasKind i .number = true ∧ j - i = 1 then
        numbered ((Binary64.ofToken? (f.tokenText i)).getD running)
      else if f.hasKind i .minus = true ∧ f.hasKind (i + 1) .number = true ∧ j - i = 2 then
        numbered ((Binary64.ofToken? (f.tokenText (i + 1))).getD running.neg).neg
      else (.number ((running.add .one).sub .one), running.add .one) := by
  unfold initializerValue File.hasKind
  simp only [beq_iff_eq]
  split
  · next hk hj => rw [if_pos ⟨hk, hj⟩]
  · next hk hj => rw [if_neg (by simp [hk]), if_pos ⟨hk, hj⟩]
  · next hk hj => simp [hk, hj]
  · next h₁ h₂ h₃ =>
    rw [if_neg (fun h => h₁ h.1 h.2), if_neg (fun h => h₂ h.1 h.2), if_neg (fun h => h₃ h.1 h.2.2)]

theorem initializerValue_place (h : Widened f f' place) (hseen : Seen f f' place words i) (hij : i ≤ j)
    (running : Binary64) :
    initializerValue f' (place i) (place j) running = initializerValue f i j running := by
  have hmono := h.place_le_place hij
  have hlength : ∀ {n : Nat}, place (i + n) = place i + n →
      (place j - place i = n ↔ j - i = n) := by
    intro n hn
    rw [Nat.sub_eq_iff_eq_add' hmono, Nat.sub_eq_iff_eq_add' hij, ← hn]
    exact ⟨fun heq => h.mono.injective heq, fun heq => heq ▸ rfl⟩
  have hminus : f.hasKind i .minus = true → place (i + 1) = place i + 1 :=
    fun hk => hseen.succ hk rfl
  rw [initializerValue_eq_ite, initializerValue_eq_ite]
  simp only [h.hasKind_eq, h.tokenText_eq]
  refine if_congr (and_congr_right fun hk => hlength (hseen.succ hk rfl)) rfl ?_
  refine if_congr (and_congr_right fun hk => hlength (hseen.succ hk rfl)) rfl ?_
  by_cases hk : f.hasKind i .minus = true
  · rw [← hminus hk, h.hasKind_eq, h.tokenText_eq]
    refine if_congr (and_congr_right fun _ => and_congr_right fun hnumber => hlength ?_) rfl rfl
    rw [show i + 2 = i + 1 + 1 from rfl, (hseen.mono (Nat.le_succ i)).succ hnumber rfl, hminus hk]
  · rw [if_neg (fun h => hk h.1), if_neg (fun h => hk h.1)]

theorem enumValue_place (h : Widened f f' place) (hseen : Seen f f' place words i) (running : Binary64) :
    (enumValue f' (place i) running).value = (enumValue f i running).value ∧
      (enumValue f' (place i) running).running = (enumValue f i running).running ∧
      (enumValue f' (place i) running).next = place (enumValue f i running).next := by
  unfold enumValue
  rw [h.hasKind_eq]
  split
  · next heq =>
    have hseen' := hseen.mono (Nat.le_succ i)
    have hle := f.le_expressionEnd (i + 1)
    simp only
    rw [← hseen.succ heq rfl, h.expressionEnd_eq hseen', initializerValue_place h hseen' hle,
      skip_place h rfl (hseen'.mono hle)]
    exact ⟨rfl, rfl, rfl⟩
  · exact ⟨rfl, rfl, skip_place h rfl hseen⟩

theorem memberName?_place (h : Widened f f' place) (i : Nat) :
    memberName? f' (place i) = memberName? f i := by
  unfold memberName?
  rw [h.kind?_eq, h.tokenText_eq]

theorem enumEntries_of_le (hi : close ≤ i) (running : Binary64) : enumEntries f close i running = ([], none) := by
  rw [enumEntries, if_pos hi]

theorem enumEntries_of_none (hi : ¬close ≤ i) (hname : memberName? f i = none) (running : Binary64) :
    enumEntries f close i running = ([], some (malformed f i "an enum member")) := by
  rw [enumEntries, if_neg hi, hname]

theorem enumEntries_of_some (hi : ¬close ≤ i) {name : String} (hname : memberName? f i = some name) (running : Binary64) :
    enumEntries f close i running =
      ((name, (enumValue f (i + 1) running).value) ::
          (enumEntries f close (enumValue f (i + 1) running).next (enumValue f (i + 1) running).running).1,
        (enumEntries f close (enumValue f (i + 1) running).next (enumValue f (i + 1) running).running).2) := by
  rw [enumEntries, if_neg hi, hname]

/-- The members are the same, and the list ends early if it did. -/
theorem enumEntries_place (h : Widened f f' place) (hseen : Seen f f' place words i) (close : Nat) (running : Binary64) :
    (enumEntries f' (place close) (place i) running).1 = (enumEntries f close i running).1 ∧
      (enumEntries f' (place close) (place i) running).2.isSome =
        (enumEntries f close i running).2.isSome := by
  have hbefore : ∀ {i : Nat}, ¬close ≤ i → ¬place close ≤ place i :=
    fun hi => Nat.not_le_of_lt (h.place_lt_place (Nat.lt_of_not_le hi))
  fun_induction enumEntries f close i running with
  | case1 i running hi =>
    rw [enumEntries_of_le (h.place_le_place hi)]
    exact ⟨rfl, rfl⟩
  | case2 i running hi hname =>
    rw [enumEntries_of_none (hbefore hi) ((memberName?_place h i).trans hname)]
    exact ⟨rfl, rfl⟩
  | case3 i running hi name hname v rest error hrest ih =>
    have hsteady : place (i + 1) = place i + 1 := by
      unfold memberName? at hname
      split at hname
      · next hk => exact hseen.succ (beq_iff_eq.mpr hk) rfl
      · next hk => exact hseen.succ (beq_iff_eq.mpr hk) rfl
      · cases hname
    obtain ⟨hvalue, hrunning, hnext⟩ := enumValue_place h (hseen.mono (Nat.le_succ i)) running
    rw [enumEntries_of_some (hbefore hi) ((memberName?_place h i).trans hname), ← hsteady, hvalue, hrunning, hnext]
    obtain ⟨ih₁, ih₂⟩ := ih (hseen.mono (Nat.le_trans (Nat.le_succ i) (le_enumValue_next f (i + 1) running)))
    rw [ih₁, ih₂, hrest]
    exact ⟨rfl, rfl⟩

/-! ### Handlers and declared values -/

def formMoved (place : Nat → Nat) : HandlerForm → HandlerForm
  | .function returnsAt => .function (returnsAt.map (place))
  | .reference name => .reference name
  | .other => .other

/-- The result of a handler is written where types may be read. -/
def FormEnters (f f' : File) (place : Nat → Nat) (words : List String) (form : HandlerForm) : Prop :=
  ∀ start, form = .function (some start) → Enters f f' place words start

theorem formEnters_unannotated : FormEnters f f' place words (.function none) := by
  intro start hform
  cases hform

theorem formEnters_reference (name : String) : FormEnters f f' place words (.reference name) := by
  intro start hform
  cases hform

theorem formEnters_other : FormEnters f f' place words .other := by
  intro start hform
  cases hform

/-- A result after closed parentheses. -/
theorem colon_place (h : Widened f f' place) (hseen : Seen f f' place words i)
    {c : { j : Nat // i < j ∧ j < f.size }} (hc : f.closer? i = some c) :
    f'.hasKind (place c.1 + 1) .colon = f.hasKind (c.1 + 1) .colon ∧
      f'.hasKind (place c.1 + 1) .fatArrow = f.hasKind (c.1 + 1) .fatArrow ∧
      (f.hasKind (c.1 + 1) .colon = true →
        place c.1 + 2 = place (c.1 + 2) ∧ Enters f f' place words (c.1 + 2)) := by
  have hnext := hseen.place_succ_of_closer h hc
  have hseen' := hseen.mono (Nat.le_succ_of_le (Nat.le_of_lt c.2.1))
  refine ⟨by rw [← hnext, h.hasKind_eq], by rw [← hnext, h.hasKind_eq], fun hcolon => ⟨?_, hseen'.enters_succ hcolon rfl⟩⟩
  rw [show c.1 + 2 = c.1 + 1 + 1 from rfl, hseen'.succ hcolon rfl, hnext]

theorem functionForm_place (h : Widened f f' place) (hseen : Seen f f' place words i) :
    f'.functionForm (place i) = formMoved place (f.functionForm i) ∧
      FormEnters f f' place words (f.functionForm i) := by
  have hstar : (if f'.hasKind (place i) .punct && f'.tokenText (place i) == "*" then
      place i + 1 else place i) =
      place (if f.hasKind i .punct && f.tokenText i == "*" then i + 1 else i) := by
    rw [h.hasKind_eq, h.tokenText_eq]
    split
    · next hpunct =>
      rw [Bool.and_eq_true] at hpunct
      exact (hseen.succ hpunct.1 rfl).symm
    · rfl
  have hname : ∀ {i}, Seen f f' place words i →
      (if f'.hasKind (place i) .ident then place i + 1 else place i) =
        place (if f.hasKind i .ident then i + 1 else i) := fun hseen => skip_place h rfl hseen
  unfold File.functionForm
  simp only
  rw [hstar]
  have hle : i ≤ if f.hasKind i .punct && f.tokenText i == "*" then i + 1 else i := by split <;> omega
  generalize (if f.hasKind i .punct && f.tokenText i == "*" then i + 1 else i) = j at hle ⊢
  rw [hname (hseen.mono hle)]
  have hle' : j ≤ if f.hasKind j .ident then j + 1 else j := by split <;> omega
  generalize (if f.hasKind j .ident then j + 1 else j) = o at hle' ⊢
  have hseen' := hseen.mono (Nat.le_trans hle hle')
  rw [h.hasKind_eq]
  split
  · cases hcloser : f.closer? o with
    | none =>
      rw [h.closer?_eq_none hcloser]
      exact ⟨rfl, formEnters_other⟩
    | some c =>
      obtain ⟨c', hcloser', hc'⟩ := h.closer?_eq_some hcloser
      obtain ⟨hcolon, -, hresult⟩ := colon_place h hseen' hcloser
      rw [hcloser']
      simp only [hc', hcolon]
      cases hk : f.hasKind (c.1 + 1) .colon with
      | false => exact ⟨rfl, formEnters_unannotated⟩
      | true =>
        obtain ⟨hplace, henters⟩ := hresult hk
        simp only [if_true, hplace]
        refine ⟨rfl, fun start hform => ?_⟩
        cases hform
        exact henters
  · exact ⟨rfl, formEnters_other⟩

theorem parenthesizedForm_place (h : Widened f f' place) (hseen : Seen f f' place words i) :
    f'.parenthesizedForm (place i) = formMoved place (f.parenthesizedForm i) ∧
      FormEnters f f' place words (f.parenthesizedForm i) := by
  unfold File.parenthesizedForm
  cases hcloser : f.closer? i with
  | none =>
    rw [h.closer?_eq_none hcloser]
    exact ⟨rfl, formEnters_other⟩
  | some c =>
    obtain ⟨c', hcloser', hc'⟩ := h.closer?_eq_some hcloser
    obtain ⟨hcolon, harrow, hresult⟩ := colon_place h hseen hcloser
    rw [hcloser']
    simp only [hc', hcolon, harrow]
    split
    · exact ⟨rfl, formEnters_unannotated⟩
    · cases hk : f.hasKind (c.1 + 1) .colon with
      | false => exact ⟨rfl, formEnters_other⟩
      | true =>
        obtain ⟨hplace, henters⟩ := hresult hk
        simp only [if_true, hplace]
        refine ⟨rfl, fun start hform => ?_⟩
        cases hform
        exact henters

theorem handlerForm_place (h : Widened f f' place) (hseen : Seen f f' place words i) (stop : Nat) :
    f'.handlerForm (place i) (place stop) = formMoved place (f.handlerForm i stop) ∧
      FormEnters f f' place words (f.handlerForm i stop) := by
  have hasync : (f'.hasWord (place i) "async" && !f'.hasKind (place i + 1) .fatArrow) =
      (f.hasWord i "async" && !f.hasKind (i + 1) .fatArrow) := by
    rw [h.hasWord_eq]
    cases hword : f.hasWord i "async" with
    | false => rfl
    | true => rw [← hseen.succ_of_word hword, h.hasKind_eq]
  have hstart : (if f'.hasWord (place i) "async" && !f'.hasKind (place i + 1) .fatArrow then
      place i + 1 else place i) =
      place (if f.hasWord i "async" && !f.hasKind (i + 1) .fatArrow then i + 1 else i) := by
    rw [hasync]
    split
    · next hword =>
      rw [Bool.and_eq_true] at hword
      exact (hseen.succ_of_word hword.1).symm
    · rfl
  unfold File.handlerForm
  simp only
  rw [hstart]
  have hle : i ≤ if f.hasWord i "async" && !f.hasKind (i + 1) .fatArrow then i + 1 else i := by split <;> omega
  generalize (if f.hasWord i "async" && !f.hasKind (i + 1) .fatArrow then i + 1 else i) = j at hle ⊢
  have hseen' := hseen.mono hle
  rw [h.hasWord_eq]
  split
  · next hfunction =>
    rw [← hseen'.succ_of_word hfunction]
    exact functionForm_place h (hseen'.mono (Nat.le_succ j))
  · rw [h.hasKind_eq]
    split
    · exact parenthesizedForm_place h hseen'
    · have harrow : (f'.hasKind (place j) .ident && f'.hasKind (place j + 1) .fatArrow) =
          (f.hasKind j .ident && f.hasKind (j + 1) .fatArrow) := by
        rw [h.hasKind_eq]
        cases hident : f.hasKind j .ident with
        | false => rfl
        | true => rw [← hseen'.succ hident rfl, h.hasKind_eq]
      rw [harrow]
      split
      · exact ⟨rfl, formEnters_unannotated⟩
      · have hsole : (place j == place i && place stop == place i + 1 &&
            f'.hasKind (place i) .ident) = (j == i && stop == i + 1 && f.hasKind i .ident) := by
          rw [h.hasKind_eq]
          cases hident : f.hasKind i .ident with
          | false => rw [Bool.and_false, Bool.and_false]
          | true =>
            rw [← hseen.succ hident rfl, h.place_beq, h.place_beq]
        rw [hsole]
        split
        · rw [h.tokenText_eq]
          exact ⟨rfl, formEnters_reference _⟩
        · exact ⟨rfl, formEnters_other⟩

def declMoved (place : Nat → Nat) {Form : Type} (d : Decl Form) : Decl Form :=
  { d with token := place d.token }

def sourceMoved (place : Nat → Nat) : ValueSource → ValueSource
  | .type start => .type (place start)
  | .result start => .result (place start)
  | .value name => .value name
  | .nothing => .nothing

def SourceEnters (f f' : File) (place : Nat → Nat) (words : List String) (source : ValueSource) : Prop :=
  ∀ start, source = .type start ∨ source = .result start → Enters f f' place words start

theorem sourceEnters_type {start : Nat} (h : Enters f f' place words start) :
    SourceEnters f f' place words (.type start) := by
  intro other hother
  cases hother with
  | inl hsource =>
    cases hsource
    exact h
  | inr hsource => cases hsource

theorem sourceEnters_result {start : Nat} (h : Enters f f' place words start) :
    SourceEnters f f' place words (.result start) := by
  intro other hother
  cases hother with
  | inl hsource => cases hsource
  | inr hsource =>
    cases hsource
    exact h

theorem sourceEnters_value (name : String) : SourceEnters f f' place words (.value name) := by
  intro start hstart
  cases hstart with
  | inl hsource => cases hsource
  | inr hsource => cases hsource

theorem sourceEnters_nothing : SourceEnters f f' place words .nothing := by
  intro start hstart
  cases hstart with
  | inl hsource => cases hsource
  | inr hsource => cases hsource

theorem functionSource_place (h : Widened f f' place) {v : Decl ValueForm} (hform : v.form = .function)
    (hseen : Seen f f' place words v.token) (hname : f.hasKind v.token .ident = true) :
    valueSource f' (declMoved place v) = sourceMoved place (valueSource f v) ∧
      SourceEnters f f' place words (valueSource f v) := by
  obtain ⟨name, file, form, token⟩ := v
  cases hform
  have hseen' := hseen.mono (Nat.le_succ token)
  have hparens := h.map_parens?_eq hseen'
  simp only [valueSource, declMoved]
  rw [show place token.succ = place token + 1 from hseen.succ hname rfl] at hparens
  cases hp : f.parens? (token + 1) with
  | none =>
    rw [hp, Option.map_none, Option.map_eq_none_iff] at hparens
    rw [hparens]
    exact ⟨rfl, sourceEnters_nothing⟩
  | some q =>
    obtain ⟨⟨lparen, rparen⟩, hq⟩ := q
    rw [hp] at hparens
    obtain ⟨⟨⟨lparen', rparen'⟩, hq'⟩, hp', heq⟩ := Option.map_eq_some_iff.mp hparens
    obtain ⟨-, -, hcloser⟩ := Chain.closer?_of_parens? hp
    obtain ⟨hcolon, -, hresult⟩ := colon_place h (hseen'.mono hq.1) hcloser
    cases heq
    rw [hp']
    simp only at hcolon hresult ⊢
    rw [hcolon]
    cases hk : f.hasKind (rparen + 1) .colon with
    | false => exact ⟨rfl, sourceEnters_nothing⟩
    | true =>
      obtain ⟨hplace, henters⟩ := hresult hk
      exact ⟨congrArg ValueSource.result hplace, sourceEnters_result henters⟩

theorem variableSource_place (h : Widened f f' place) {v : Decl ValueForm} (hform : v.form = .variable)
    (hseen : Seen f f' place words v.token) (hname : f.hasKind v.token .ident = true)
    (hnext : f.hasKind (v.token + 1) .colon = true ∨ f.hasKind (v.token + 1) .eq = true) :
    valueSource f' (declMoved place v) = sourceMoved place (valueSource f v) ∧
      SourceEnters f f' place words (valueSource f v) := by
  obtain ⟨name, file, form, token⟩ := v
  cases hform
  have hsucc : place (token + 1) = place token + 1 := hseen.succ hname rfl
  have hseen' := hseen.mono (Nat.le_succ token)
  obtain ⟨hplace, henters⟩ : place (token + 2) = place token + 2 ∧ Enters f f' place words (token + 2) := by
    rw [show token + 2 = token + 1 + 1 from rfl]
    rcases hnext with hk | hk
    · exact ⟨by rw [hseen'.succ hk rfl, hsucc], hseen'.enters_succ hk rfl⟩
    · exact ⟨by rw [hseen'.succ hk rfl, hsucc], hseen'.enters_succ hk rfl⟩
  unfold valueSource declMoved
  simp only
  rw [← hsucc, h.hasKind_eq, ← hplace, h.expressionEnd_eq henters.seen]
  split
  · exact ⟨rfl, sourceEnters_type henters⟩
  · obtain ⟨hmoved, hresult⟩ := handlerForm_place h henters.seen (f.expressionEnd (token + 2))
    rw [hmoved]
    cases hv : f.handlerForm (token + 2) (f.expressionEnd (token + 2)) with
    | function returnsAt =>
      rw [hv] at hresult
      cases returnsAt with
      | none => exact ⟨rfl, sourceEnters_nothing⟩
      | some start => exact ⟨rfl, sourceEnters_result (hresult start rfl)⟩
    | reference name => exact ⟨rfl, sourceEnters_value name⟩
    | other => exact ⟨rfl, sourceEnters_nothing⟩

theorem valueSource_place (h : Widened f f' place) {v : Decl ValueForm} (hseen : Seen f f' place words v.token)
    (hname : f.hasKind v.token .ident = true)
    (hnext : v.form = .variable → f.hasKind (v.token + 1) .colon = true ∨ f.hasKind (v.token + 1) .eq = true) :
    valueSource f' (declMoved place v) = sourceMoved place (valueSource f v) ∧
      SourceEnters f f' place words (valueSource f v) := by
  cases hform : v.form with
  | function => exact functionSource_place h hform hseen hname
  | «variable» => exact variableSource_place h hform hseen hname (hnext hform)

end SchemaSplice.Declaration
