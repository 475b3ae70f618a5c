import SchemaSplice.Proofs.Brackets.Tilings
import SchemaSplice.Proofs.Grammar.Spelled
import SchemaSplice.Proofs.Rerun.Widening
/-!
# Weaving runs into a list

Runs are put between the elements of a list, one before each element and one after the last; most of them are empty. Each
element is found again where the lengths of the runs before it say. Brackets stay matched as they were if each
run matches its own, or stands between parentheses that are matched around it.
-/

namespace SchemaSplice.Source

/-! ### Runs between elements -/

/-- A list with runs between its elements: `gap n` stands before element `n`. -/
def weave {α : Type} (gap : Nat → List α) : List α → List α
  | [] => gap 0
  | x :: l => gap 0 ++ x :: weave (fun n => gap (n + 1)) l

def runStart {α : Type} (gap : Nat → List α) : Nat → Nat
  | 0 => 0
  | n + 1 => runStart gap n + (gap n).length + 1

/-- Where element `n` stands after its run. -/
def woven {α : Type} (gap : Nat → List α) (n : Nat) : Nat := runStart gap n + (gap n).length

section

variable {α β : Type} {gap : Nat → List α} {l : List α} {i j n t : Nat}

theorem runStart_succ (gap : Nat → List α) (n : Nat) : runStart gap (n + 1) = woven gap n + 1 := rfl

theorem woven_succ (gap : Nat → List α) (n : Nat) : woven gap (n + 1) = woven gap n + 1 + (gap (n + 1)).length := rfl

theorem woven_succ_of_nil (h : gap (n + 1) = []) : woven gap (n + 1) = woven gap n + 1 := by
  rw [woven_succ, h, List.length_nil, Nat.add_zero]

theorem strictMono_woven (gap : Nat → List α) : StrictMono (woven gap) := by
  apply strictMono_nat_of_lt_succ
  intro n
  rw [woven_succ]
  omega

/-- The places after the first element are those in the rest of the list. -/
theorem runStart_tail (gap : Nat → List α) (n : Nat) :
    runStart gap (n + 1) = (gap 0).length + 1 + runStart (fun n => gap (n + 1)) n := by
  induction n with
  | zero => simp [runStart]
  | succ n ih =>
    rw [runStart, ih]
    simp only [runStart]
    omega

theorem woven_tail (gap : Nat → List α) (n : Nat) :
    woven gap (n + 1) = (gap 0).length + 1 + woven (fun n => gap (n + 1)) n := by
  rw [woven, runStart_tail, woven, Nat.add_assoc]

theorem length_weave (gap : Nat → List α) (l : List α) : (weave gap l).length = woven gap l.length := by
  induction l generalizing gap with
  | nil => simp [weave, woven, runStart]
  | cons x l ih =>
    rw [weave, List.length_append, List.length_cons, ih, List.length_cons, woven_tail]
    omega

/-- Each element is found at its place. -/
theorem getElem?_weave (gap : Nat → List α) (l : List α) (i : Nat) : (weave gap l)[woven gap i]? = l[i]? := by
  induction l generalizing gap i with
  | nil =>
    rw [List.getElem?_nil, List.getElem?_eq_none_iff, length_weave]
    exact (strictMono_woven gap).monotone (Nat.zero_le i)
  | cons x l ih =>
    rw [weave]
    cases i with
    | zero => simp [woven, runStart]
    | succ i =>
      rw [woven_tail, List.getElem?_append_right (by omega),
        show (gap 0).length + 1 + woven (fun n => gap (n + 1)) i - (gap 0).length = woven (fun n => gap (n + 1)) i + 1 by omega,
        List.getElem?_cons_succ, List.getElem?_cons_succ, ih]

/-- A run with what stands before and after it. -/
theorem weave_split (gap : Nat → List α) (h : n ≤ l.length) :
    ∃ front back, weave gap l = front ++ (gap n ++ back) ∧ front.length = runStart gap n ∧ back.head? = l[n]? := by
  induction l generalizing gap n with
  | nil =>
    obtain rfl : n = 0 := Nat.le_zero.mp h
    exact ⟨[], [], by simp [weave], rfl, rfl⟩
  | cons x l ih =>
    cases n with
    | zero => exact ⟨[], x :: weave (fun n => gap (n + 1)) l, rfl, rfl, rfl⟩
    | succ n =>
      obtain ⟨front, back, hsplit, hlength, hhead⟩ := ih (fun n => gap (n + 1)) (Nat.le_of_succ_le_succ h)
      refine ⟨gap 0 ++ x :: front, back, ?_, ?_, hhead⟩
      · rw [weave, hsplit, List.append_assoc, List.cons_append]
      · rw [List.length_append, List.length_cons, hlength, runStart_tail]
        omega

/-- A place is that of an element or stands in a run. -/
theorem exists_woven_or_run (gap : Nat → List α) (j : Nat) :
    (∃ n, j = woven gap n) ∨ ∃ n t, t < (gap n).length ∧ j = runStart gap n + t := by
  have hfirst : ∃ n, j ≤ woven gap n := ⟨j, (strictMono_woven gap).le_apply⟩
  classical
  have hle := Nat.find_spec hfirst
  have hstart : runStart gap (Nat.find hfirst) ≤ j := by
    cases hn : Nat.find hfirst with
    | zero => exact Nat.zero_le j
    | succ n =>
      have hlt := Nat.find_min hfirst (m := n) (by omega)
      rw [runStart_succ]
      omega
  rcases Nat.eq_or_lt_of_le hle with heq | hlt
  · exact Or.inl ⟨_, heq⟩
  · refine Or.inr ⟨Nat.find hfirst, j - runStart gap (Nat.find hfirst), ?_, by omega⟩
    rw [woven] at hlt
    omega

theorem map_weave (g : α → β) (gap : Nat → List α) (l : List α) :
    (weave gap l).map g = weave (fun n => (gap n).map g) (l.map g) := by
  induction l generalizing gap with
  | nil => rfl
  | cons x l ih =>
    rw [weave, List.map_append, List.map_cons, ih]
    rfl

theorem runStart_map (g : α → β) (gap : Nat → List α) (n : Nat) : runStart (fun n => (gap n).map g) n = runStart gap n := by
  induction n with
  | zero => rfl
  | succ n ih => rw [runStart, runStart, ih, List.length_map]

theorem woven_map (g : α → β) (gap : Nat → List α) (n : Nat) : woven (fun n => (gap n).map g) n = woven gap n := by
  rw [woven, woven, runStart_map, List.length_map]

/-- Runs that are put before the elements of the second part of a list only. -/
theorem weave_append (gap : Nat → List α) (front l : List α) (h : ∀ n < front.length, gap n = []) :
    weave gap (front ++ l) = front ++ weave (fun n => gap (front.length + n)) l := by
  induction front generalizing gap with
  | nil => simp
  | cons x front ih =>
    rw [List.cons_append, weave, h 0 (by simp), List.nil_append, ih (fun n => gap (n + 1)) fun n hn => h _ (by simpa using hn)]
    simp only [List.length_cons, List.cons_append, Nat.add_right_comm]

theorem weave_prefix (front : List α) (gap : Nat → List α) (l : List α) :
    weave (fun n => (if n = 0 then front else []) ++ gap n) l = front ++ weave gap l := by
  cases l with
  | nil => rfl
  | cons x l => simp [weave]

end

/-! ### Sliding a run past an element -/

section

variable {α : Type} [DecidableEq α] {a : α} {gap : Nat → List α} {l : List α} {n : Nat}

/-- The run before element `n` begins with `a`, which is that element, too. -/
abbrev Slides (a : α) (gap : Nat → List α) (l : List α) (n : Nat) : Prop := (gap n).head? = some a ∧ l[n]? = some a

/-- The runs where those that begin with the element after them come behind that element, and end with it. -/
def slide (a : α) (gap : Nat → List α) (l : List α) : Nat → List α
  | 0 => if Slides a gap l 0 then [] else gap 0
  | n + 1 => (if Slides a gap l n then (gap n).tail ++ [a] else []) ++ if Slides a gap l (n + 1) then [] else gap (n + 1)

/-- The list is the same. -/
theorem weave_slide (a : α) (gap : Nat → List α) (l : List α) : weave (slide a gap l) l = weave gap l := by
  induction l generalizing gap with
  | nil => simp [weave, slide]
  | cons x l ih =>
    have hrest : (fun n => slide a gap (x :: l) (n + 1)) =
        fun n => (if n = 0 then if Slides a gap (x :: l) 0 then (gap 0).tail ++ [a] else [] else []) ++
          slide a (fun n => gap (n + 1)) l n := by
      funext n
      cases n <;> simp [slide, Slides]
    rw [weave, hrest, weave_prefix, ih, weave]
    by_cases hslides : Slides a gap (x :: l) 0
    · obtain ⟨t, ht⟩ := List.head?_eq_some_iff.mp hslides.1
      obtain rfl : x = a := Option.some.inj hslides.2
      rw [slide, if_pos hslides, if_pos hslides, ht]
      simp
    · rw [slide, if_neg hslides, if_neg hslides, List.nil_append]

theorem woven_slide (a : α) (gap : Nat → List α) (l : List α) (n : Nat) :
    woven (slide a gap l) n = if Slides a gap l n then runStart gap n else woven gap n := by
  induction n with
  | zero =>
    simp only [woven, runStart, slide]
    split <;> rfl
  | succ n ih =>
    have hlength : (if Slides a gap l n then runStart gap n else woven gap n) +
        (if Slides a gap l n then (gap n).tail ++ [a] else []).length = woven gap n := by
      by_cases hslides : Slides a gap l n
      · obtain ⟨t, ht⟩ := List.head?_eq_some_iff.mp hslides.1
        rw [if_pos hslides, if_pos hslides, woven, ht]
        simp
      · rw [if_neg hslides, if_neg hslides]
        rfl
    rw [woven_succ, ih, slide, List.length_append, woven_succ, runStart_succ]
    by_cases hslides : Slides a gap l (n + 1)
    · rw [if_pos hslides, if_pos hslides, List.length_nil]
      omega
    · rw [if_neg hslides, if_neg hslides]
      omega

theorem woven_slide_of_ne (h : l[n]? ≠ some a) : woven (slide a gap l) n = woven gap n := by
  rw [woven_slide, if_neg fun hslides => h hslides.2]

end

/-! ### Runs and brackets -/

section

variable {i o c n : Nat} {ks ks' run l : List Kind} {gap : Nat → List Kind}

def Enclosed (run : List Kind) : Prop := (0, run.length + 1) ∈ pairs (.lparen :: (run ++ [.rparen]))

/-- What stands between matched parentheses is a run that they enclose. -/
theorem enclosed_iff (front back : List Kind) :
    Enclosed run ↔ (front.length, front.length + 1 + run.length) ∈ pairs (front ++ .lparen :: (run ++ .rparen :: back)) := by
  have hlength : run.length + 1 < (Kind.lparen :: (run ++ [.rparen])).length := by simp
  have happ : Kind.lparen :: (run ++ .rparen :: back) = .lparen :: (run ++ [.rparen]) ++ back := by simp
  have hcut := @mem_pairs_append_right 0 (run.length + 1) front (.lparen :: (run ++ .rparen :: back))
  rw [show front.length + 1 + run.length = front.length + (run.length + 1) by omega]
  rw [Nat.add_zero] at hcut
  rw [Enclosed, hcut, happ, mem_pairs_append_left hlength]

/-- What is matched where parentheses enclose a run: what stands before them, they and what they enclose, and what stands behind. -/
theorem exists_pairs_enclosed (h : Enclosed run) (ks ks' : List Kind) :
    ∃ stack inner, OpenBefore ks.length stack ∧
      pairs (ks ++ .lparen :: (run ++ .rparen :: ks')) =
        pairsFrom 0 [] ks ++ (inner ++ pairsFrom (ks.length + 1 + run.length + 1) stack ks') ∧
      pairs (ks ++ .lparen :: .rparen :: ks') =
        pairsFrom 0 [] ks ++ (ks.length, ks.length + 1) :: pairsFrom (ks.length + 2) stack ks' ∧
      (ks.length, ks.length + 1 + run.length) ∈ inner ∧
      ∀ q ∈ inner, q = (ks.length, ks.length + 1 + run.length) ∨ ks.length < q.1 ∧ q.1 < ks.length + 1 + run.length := by
  obtain ⟨stack, hstack, hpairs⟩ := pairsFrom_append (.nil 0) ks
  rw [Nat.zero_add] at hstack hpairs
  have hbracket := (enclosed_iff ks ks').mp h
  have hopened : (ks.length, ks.length + 1 + run.length) ∈
      pairsFrom (ks.length + 1) ([] ++ ⟨ks.length, .lparen⟩ :: stack) (run ++ .rparen :: ks') := by
    rw [pairs, hpairs, pairsFrom_open rfl, List.mem_append] at hbracket
    refine hbracket.resolve_left fun hfront => ?_
    have := lt_of_mem_pairs hfront
    omega
  have hpush : OpenBefore (ks.length + 1) ([] ++ ⟨ks.length, .lparen⟩ :: stack) := hstack.push .lparen
  obtain ⟨inner, hbounds, hinside⟩ := pairsFrom_until hpush hopened
  have hdrop : (run ++ Kind.rparen :: ks').drop (ks.length + 1 + run.length + 1 - (ks.length + 1)) = ks' := by
    rw [show ks.length + 1 + run.length + 1 - (ks.length + 1) = run.length + 1 by omega, ← List.drop_drop, List.drop_left]
    rfl
  rw [hdrop, List.nil_append] at hinside
  have hlong : pairs (ks ++ .lparen :: (run ++ .rparen :: ks')) =
      pairsFrom 0 [] ks ++ (inner ++ pairsFrom (ks.length + 1 + run.length + 1) stack ks') := by
    rw [pairs, hpairs, pairsFrom_open rfl, hinside]
  refine ⟨stack, inner, hstack, hlong, by rw [pairs, hpairs, pairsFrom_open rfl, pairsFrom_close rfl], ?own, ?inside⟩
  case own =>
    rw [List.nil_append, hinside, List.mem_append] at hopened
    refine hopened.resolve_right fun hback => ?_
    have hbefore : OpenBefore (ks.length + 1 + run.length + 1) stack :=
      ⟨hstack.descending, fun b hb => Nat.lt_trans (hstack.before b hb) (by omega)⟩
    have := (bounds_of_mem_pairsFrom hbefore hback).2.1
    simp only at this
    omega
  case inside =>
    rintro ⟨o, c⟩ hmem
    have hle := hbounds _ hmem
    have hmem' : (o, c) ∈ pairsFrom (ks.length + 1) (⟨ks.length, .lparen⟩ :: stack) (run ++ .rparen :: ks') := by
      rw [hinside]
      exact List.mem_append_left _ hmem
    obtain ⟨hlt, hge, -⟩ := bounds_of_mem_pairsFrom hpush hmem'
    have hcross := laminar_pairs (p := (o, c)) (by rw [hlong]; exact List.mem_append_right _ (List.mem_append_left _ hmem)) hbracket
    unfold Laminar ClosesAfter at hcross
    simp only [Prod.mk.injEq] at hcross hlt hge hle ⊢
    omega

/-- What stands behind parentheses is matched as if they enclosed nothing. -/
theorem pairsFrom_past_enclosed {stack : List OpenBracket} {n size : Nat} (hstack : OpenBefore n stack) (ks' : List Kind) :
    pairsFrom (n + 1 + size + 1) stack ks' =
      (pairsFrom (n + 2) stack ks').map fun q => (pastInsertion (n + 1) size q.1, pastInsertion (n + 1) size q.2) := by
  have hkept : stack.map (OpenBracket.renamed (pastInsertion (n + 1) size)) = stack := by
    refine (List.map_congr_left fun b hb => ?_).trans (List.map_id stack)
    rw [OpenBracket.renamed, pastInsertion_of_lt (Nat.lt_succ_of_lt (hstack.before b hb))]
    rfl
  have hpast : ∀ i, n + 2 ≤ i → pastInsertion (n + 1) size i = size + i := fun _ hi => pastInsertion_of_le (by omega)
  have hlater := pairsFrom_renamed hpast stack ks'
  rwa [hkept, show size + (n + 2) = n + 1 + size + 1 by omega] at hlater

/-- Parentheses are matched across a run that they enclose, and so is all that stands around them. -/
theorem mem_pairs_insert_enclosed (h : Enclosed run) :
    (pastInsertion (ks.length + 1) run.length o, c) ∈ pairs (ks ++ .lparen :: (run ++ .rparen :: ks')) ↔
      ∃ c', (o, c') ∈ pairs (ks ++ .lparen :: .rparen :: ks') ∧ pastInsertion (ks.length + 1) run.length c' = c := by
  obtain ⟨stack, inner, hstack, hlong, hshort, hown, hinside⟩ := exists_pairs_enclosed h ks ks'
  have hclose : pastInsertion (ks.length + 1) run.length (ks.length + 1) = ks.length + 1 + run.length := by
    rw [pastInsertion_of_le (Nat.le_refl _)]
    omega
  have hinner : ∀ o c, (pastInsertion (ks.length + 1) run.length o, c) ∈ inner ↔ o = ks.length ∧ c = ks.length + 1 + run.length := by
    intro o c
    constructor
    · intro hmem
      have hcases := hinside _ hmem
      unfold pastInsertion at hcases
      simp only [Prod.mk.injEq] at hcases
      split at hcases <;> omega
    · rintro ⟨rfl, rfl⟩
      rw [pastInsertion_of_lt (Nat.lt_succ_self _)]
      exact hown
  have hfront : ∀ o c, (o, c) ∈ pairsFrom 0 [] ks → o < ks.length ∧ c < ks.length := by
    intro o c hmem
    have := lt_of_mem_pairs hmem
    omega
  rw [hlong, hshort, pairsFrom_past_enclosed hstack]
  simp only [List.mem_append, List.mem_cons, hinner, List.mem_map, Prod.mk.injEq, Prod.exists]
  constructor
  · rintro (hmem | ⟨rfl, rfl⟩ | ⟨o', c', hmem, ho, rfl⟩)
    · obtain ⟨ho, hc⟩ := hfront _ _ hmem
      have hlt : o < ks.length + 1 := by
        unfold pastInsertion at ho
        split at ho <;> omega
      rw [pastInsertion_of_lt hlt] at hmem
      exact ⟨c, Or.inl hmem, pastInsertion_of_lt (by omega)⟩
    · exact ⟨ks.length + 1, Or.inr (Or.inl ⟨rfl, rfl⟩), hclose⟩
    · obtain rfl := pastInsertion_injective _ _ ho
      exact ⟨c', Or.inr (Or.inr hmem), rfl⟩
  · rintro ⟨c', hmem | ⟨rfl, rfl⟩ | hmem, rfl⟩
    · obtain ⟨ho, hc⟩ := hfront _ _ hmem
      rw [pastInsertion_of_lt (by omega), pastInsertion_of_lt (by omega)]
      exact Or.inl hmem
    · exact Or.inr (Or.inl ⟨rfl, hclose⟩)
    · exact Or.inr (Or.inr ⟨o, c', hmem, rfl, rfl⟩)

/-- A run that may be put before token `n`: it is balanced, or enclosed by parentheses that stand there. -/
inductive Fits (ks : List Kind) (n : Nat) (run : List Kind) : Prop
  | balanced (h : Balanced run)
  | enclosed (i : Nat) (hn : n = i + 1) (hlparen : ks[i]? = some .lparen) (hrparen : ks[i + 1]? = some .rparen)
      (h : Enclosed run)

theorem mem_pairs_insert_fits (h : Fits (ks ++ ks') ks.length run) :
    (pastInsertion ks.length run.length o, c) ∈ pairs (ks ++ (run ++ ks')) ↔
      ∃ c', (o, c') ∈ pairs (ks ++ ks') ∧ pastInsertion ks.length run.length c' = c := by
  cases h with
  | balanced h => exact mem_pairs_insert h
  | enclosed i hn hlparen hrparen h =>
    rcases List.eq_nil_or_concat ks with rfl | ⟨front, k, rfl⟩
    · cases hn
    rw [List.concat_eq_append] at *
    obtain rfl : front.length = i := by simpa using hn
    cases ks' with
    | nil => simp at hrparen
    | cons k' back =>
      obtain rfl : k = .lparen := by simpa using hlparen
      obtain rfl : k' = .rparen := by simpa using hrparen
      have hinsert := @mem_pairs_insert_enclosed o c front back run h
      simpa using hinsert

def wovenAfter (n : Nat) (gap : Nat → List Kind) (i : Nat) : Nat := if i < n then i else n + woven gap (i - n)

theorem pastInsertion_wovenAfter (n : Nat) (gap : Nat → List Kind) (i : Nat) :
    pastInsertion n (gap 0).length (wovenAfter (n + 1) (fun m => gap (m + 1)) i) = wovenAfter n gap i := by
  unfold wovenAfter pastInsertion
  rcases Nat.lt_trichotomy i n with hlt | rfl | hgt
  · rw [if_pos (Nat.lt_succ_of_lt hlt), if_pos hlt, if_pos hlt]
  · simp only [if_pos (Nat.lt_succ_self i), if_neg (Nat.lt_irrefl i), Nat.sub_self, woven, runStart]
    omega
  · obtain ⟨m, rfl⟩ := Nat.exists_eq_add_of_lt hgt
    rw [if_neg (by omega : ¬n + m + 1 < n + 1), if_neg (by omega : ¬n + m + 1 < n),
      show n + m + 1 - n = m + 1 by omega, show n + m + 1 - (n + 1) = m by omega, woven_tail]
    split <;> omega

theorem mem_pairs_append_weave (front : List Kind) (h : ∀ n ≤ l.length, Fits (front ++ l) (front.length + n) (gap n)) :
    (wovenAfter front.length gap o, c) ∈ pairs (front ++ weave gap l) ↔
      ∃ c', (o, c') ∈ pairs (front ++ l) ∧ wovenAfter front.length gap c' = c := by
  -- The runs are put in from the last one on.
  induction l generalizing front gap c with
  | nil =>
    have hfits := h 0 (Nat.le_refl 0)
    have hinsert := mem_pairs_insert_fits (o := o) (c := c) hfits
    simp only [weave, List.append_nil] at hinsert ⊢
    rcases Nat.lt_or_ge o front.length with hlt | hge
    · rw [pastInsertion_of_lt hlt] at hinsert
      rw [wovenAfter, if_pos hlt, hinsert]
      refine exists_congr fun c' => and_congr_right fun hmem => ?_
      have := (lt_of_mem_pairs hmem).2
      rw [wovenAfter, if_pos this, pastInsertion_of_lt this]
    · constructor
      · intro hmem
        have hlt := lt_of_mem_pairs hmem
        have hle : woven gap 0 ≤ woven gap (o - front.length) := (strictMono_woven gap).monotone (Nat.zero_le _)
        rw [wovenAfter, if_neg (Nat.not_lt_of_le hge), List.length_append] at hlt
        rw [woven, runStart] at hle
        omega
      · rintro ⟨c', hmem, -⟩
        have hlt := lt_of_mem_pairs hmem
        omega
  | cons x l ih =>
    have hlist : ∀ l' : List Kind, front ++ x :: l' = front ++ [x] ++ l' := fun l' => by simp
    have hrest : ∀ c, _ := fun c => @ih c (fun n => gap (n + 1)) (front ++ [x]) fun n hn => by
      have hnext := h (n + 1) (Nat.succ_le_succ hn)
      rwa [hlist, show front.length + (n + 1) = (front ++ [x]).length + n by simp; omega] at hnext
    have hfits : Fits (front ++ x :: weave (fun n => gap (n + 1)) l) front.length (gap 0) := by
      rcases h 0 (Nat.zero_le _) with hbalanced | ⟨i, hi, hlparen, hrparen, henclosed⟩
      · exact .balanced hbalanced
      · rw [Nat.add_zero] at hi
        rw [List.getElem?_append_left (by omega)] at hlparen
        rw [List.getElem?_append_right (by omega), show i + 1 - front.length = 0 by omega] at hrparen
        refine .enclosed i hi ?_ ?_ henclosed
        · rw [List.getElem?_append_left (by omega)]
          exact hlparen
        · rw [List.getElem?_append_right (by omega), show i + 1 - front.length = 0 by omega]
          exact hrparen
    have hlength : (front ++ [x]).length = front.length + 1 := by simp
    rw [hlength] at hrest
    rw [weave, ← pastInsertion_wovenAfter, mem_pairs_insert_fits hfits]
    rw [← hlist, ← hlist] at hrest
    constructor
    · rintro ⟨d, hmem, rfl⟩
      obtain ⟨c', hc', rfl⟩ := (hrest d).mp hmem
      exact ⟨c', hc', (pastInsertion_wovenAfter _ _ _).symm⟩
    · rintro ⟨c', hmem, rfl⟩
      exact ⟨_, (hrest _).mpr ⟨c', hmem, rfl⟩, pastInsertion_wovenAfter _ _ _⟩

/-- Brackets are matched as they were before the runs were put in. -/
theorem mem_pairs_weave (h : ∀ n ≤ l.length, Fits l n (gap n)) :
    (woven gap o, c) ∈ pairs (weave gap l) ↔ ∃ c', (o, c') ∈ pairs l ∧ woven gap c' = c := by
  have hafter := @mem_pairs_append_weave o c l gap [] fun n hn => by
    rw [List.length_nil, Nat.zero_add]
    exact h n hn
  simpa [wovenAfter] using hafter

end

namespace File

/-! ### Files with runs -/

variable {f f' : File} {gap : Nat → List (Kind × String)} {i o c : Nat}

/-- The brackets of a file are matched, whether it was read off a text or not. -/
def Bracketed (f : File) : Prop := f.partners = partnerTable f.tokens.size (pairs (f.tokens.toList.map Token.kind))

theorem IsRead.bracketed (hf : f.IsRead) : f.Bracketed := hf.partners_eq

theorem Bracketed.closer?_iff (hf : f.Bracketed) :
    (f.closer? o).map (·.1) = some c ↔ (o, c) ∈ pairs (f.tokens.toList.map Token.kind) := by
  have hpartner : f.partner? o = some c ↔ (partnerTable f.tokens.size (pairs (f.tokens.toList.map Token.kind)))[o]? = some (some c) := by
    rw [partner?, hf, Option.join_eq_some_iff]
  constructor
  · intro h
    obtain ⟨d, hd, rfl⟩ := Option.map_eq_some_iff.mp h
    have hpartner' : f.partner? o = some d.1 := by
      unfold closer? at hd
      split at hd
      · next k hk =>
        split at hd
        · cases hd
          exact hk
        · cases hd
      · cases hd
    rcases mem_pairs_of_partnerTable (hpartner.mp hpartner') with hmem | hmem
    · exact hmem
    · have hlt := (lt_of_mem_pairs hmem).1
      have := d.2.1
      omega
  · intro h
    obtain ⟨hlt, hsize⟩ := lt_of_mem_pairs h
    have hsize' := hsize
    rw [List.length_map, Array.length_toList] at hsize
    rw [closer?, hpartner.mpr (partnerTable_of_mem_pairs h (Nat.lt_trans hlt hsize))]
    simp only
    rw [dif_pos ⟨hlt, hsize⟩]
    rfl

theorem lexemes_map_kind (f : File) : f.lexemes.map (·.1) = f.tokens.toList.map Token.kind := by
  rw [lexemes, List.map_map]
  rfl

/-- A file is the other one with runs of tokens put in, which leave brackets as they are. -/
structure Woven (f f' : File) (gap : Nat → List (Kind × String)) : Prop where
  bracketed : f.Bracketed
  bracketed' : f'.Bracketed
  lexemes : f'.lexemes = weave gap f.lexemes
  fits : ∀ n ≤ f.lexemes.length, Fits (f.lexemes.map (·.1)) n ((gap n).map (·.1))

namespace Woven

theorem lexeme_eq (h : Woven f f' gap) (i : Nat) : f'.lexemes[woven gap i]? = f.lexemes[i]? := by
  rw [h.lexemes, getElem?_weave]

theorem kind?_eq (h : Woven f f' gap) (i : Nat) : f'.kind? (woven gap i) = f.kind? i := by
  rw [kind?_eq_lexeme, kind?_eq_lexeme, h.lexeme_eq]

theorem tokenText_eq (h : Woven f f' gap) (i : Nat) : f'.tokenText (woven gap i) = f.tokenText i := by
  rw [tokenText_eq_lexeme, tokenText_eq_lexeme, h.lexeme_eq]

theorem map_closer?_eq (h : Woven f f' gap) (o : Nat) :
    (f'.closer? (woven gap o)).map (·.1) = (f.closer? o).map fun c => woven gap c.1 := by
  have hpairs (c : Nat) : (woven gap o, c) ∈ pairs (f'.tokens.toList.map Token.kind) ↔
      ∃ c', (o, c') ∈ pairs (f.tokens.toList.map Token.kind) ∧ woven gap c' = c := by
    have hweave := @mem_pairs_weave o c (f.lexemes.map (·.1)) (fun n => (gap n).map (·.1))
      fun n hn => h.fits n (by rwa [List.length_map] at hn)
    rw [← map_weave, ← h.lexemes, lexemes_map_kind, lexemes_map_kind] at hweave
    simpa only [woven_map] using hweave
  have hmap : ((f.closer? o).map fun c => woven gap c.1) = ((f.closer? o).map (·.1)).map (woven gap) := by
    rw [Option.map_map]
    rfl
  ext c
  rw [h.bracketed'.closer?_iff, hpairs, hmap]
  simp only [Option.map_eq_some_iff (f := woven gap), h.bracketed.closer?_iff]

/-- What stands in the file with runs is at its places. -/
theorem widened (h : Woven f f' gap) : Widened f f' (woven gap) where
  closes := fun {o c} hc => by
    obtain ⟨k, k', -, hk', hclose⟩ := closer?_of_mem_pairsFrom rfl (by simp)
      (h.bracketed.closer?_iff.mp (Option.map_eq_some_iff.mpr ⟨c, hc, rfl⟩))
    rw [kinds_getElem?] at hk'
    exact ⟨k', hk', Kind.closes_of_closer? hclose⟩
  mono := strictMono_woven gap
  kind?_eq := h.kind?_eq
  tokenText_eq := h.tokenText_eq
  map_closer? := h.map_closer?_eq

/-- A run stands before its element. -/
theorem spells (h : Woven f f' gap) {n : Nat} (hn : n ≤ f.lexemes.length) :
    f'.Spells (runStart gap n) (gap n ++ f.lexemes[n]?.toList) := by
  obtain ⟨front, back, hsplit, hlength, hhead⟩ := weave_split gap hn
  rw [Spells, ← File.lexemes, h.lexemes, hsplit, ← hlength, List.drop_left, ← hhead, List.prefix_append_right_inj]
  cases back with
  | nil => exact List.prefix_rfl
  | cons w back => exact ⟨back, rfl⟩

end Woven

end File

end SchemaSplice.Source
