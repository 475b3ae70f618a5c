import SchemaSplice.Proofs.Splice.Locality
/-!
# Replacing what follows a place

A run that stops before a text stops there too when the text is replaced, provided that the last token before the place
neither grows nor shrinks: it is a bracket, a semicolon, a closed literal or comment, or a word that nothing continues.
-/

namespace SchemaSplice.Source

/-! ### The last token before a place -/

/-- When a token that ends before `r` is the same token before `r'`: brackets, semicolons and closed literals need nothing,
a word must not go on, and a line comment cannot end before anything but a line feed. -/
def Seam (r r' : List Char) : Kind → Prop
  | .lparen | .rparen | .semi | .str | .blockComment => True
  | .ident => NoExtend r ∧ NoExtend r'
  | .lineComment => ∃ c, r.head? = some c ∧ c ≠ '\n'
  | _ => False

theorem spanLength_le (p : Char → Bool) (cs : List Char) : spanLength p cs ≤ cs.length :=
  (List.takeWhile_sublist p).length_le

theorem spanLength_take (p : Char → Bool) (cs : List Char) :
    ∀ a ∈ cs.take (spanLength p cs), p a = true := by
  induction cs with
  | nil => simp
  | cons c cs ih =>
    rw [spanLength_cons]
    split
    · next hc =>
      intro a ha
      rcases List.mem_cons.mp ha with rfl | ha
      · exact hc
      · exact ih a ha
    · simp

theorem head?_drop_spanLength (p : Char → Bool) (cs : List Char) {c : Char}
    (h : (cs.drop (spanLength p cs)).head? = some c) : p c = false := by
  induction cs with
  | nil => cases h
  | cons a cs ih =>
    rw [spanLength_cons] at h
    split at h
    · exact ih h
    · next ha =>
      obtain rfl : a = c := by simpa using h
      rw [Bool.not_eq_true] at ha
      exact ha

theorem spanLength_append_of_all {p : Char → Bool} {u : List Char} (hu : ∀ a ∈ u, p a = true)
    (r : List Char) : spanLength p (u ++ r) = u.length + spanLength p r := by
  induction u with
  | nil => simp
  | cons a u ih =>
    rw [List.cons_append, spanLength_cons, if_pos (hu a List.mem_cons_self),
      ih (fun b hb => hu b (List.mem_cons_of_mem _ hb)), List.length_cons]
    omega

/-- A closed quoted token ends with its quote. -/
theorem quotedBody_closed {quote : Char} {multiline : Bool} {cs : List Char} {n : Nat}
    (h : quotedBody quote multiline cs = (n, true)) : ∃ u v, cs = u ++ quote :: v ∧ u.length = n := by
  fun_induction quotedBody quote multiline cs generalizing n with
  | case1 => cases h
  | case2 => cases h
  | case3 c cs hc m closed hbody ih =>
    obtain ⟨rfl, rfl⟩ := Prod.mk.inj h
    obtain ⟨u, v, rfl, hu⟩ := ih hbody
    exact ⟨'\\' :: c :: u, v, rfl, by simp [hu]⟩
  | case4 c cs _ hc =>
    rw [beq_iff_eq] at hc
    obtain ⟨rfl, -⟩ := Prod.mk.inj h
    exact ⟨[], cs, by rw [hc, List.nil_append], rfl⟩
  | case5 => cases h
  | case6 c cs _ hc hbad m closed hbody ih =>
    obtain ⟨rfl, rfl⟩ := Prod.mk.inj h
    obtain ⟨u, v, rfl, hu⟩ := ih hbody
    exact ⟨c :: u, v, rfl, by simp [hu]⟩

/-- A closed comment ends with its closing characters. -/
theorem commentBody?_closed {cs : List Char} {n : Nat} (h : commentBody? cs = some n) :
    ∃ u v, cs = u ++ '*' :: '/' :: v ∧ u.length = n := by
  induction cs generalizing n with
  | nil => cases h
  | cons a cs ih =>
    rw [commentBody?_cons] at h
    split at h
    · next hend =>
      obtain ⟨rfl, hhead⟩ := hend
      cases cs with
      | nil => cases hhead
      | cons b bs =>
        cases hhead
        cases h
        exact ⟨[], bs, rfl, rfl⟩
    · obtain ⟨m, hm, rfl⟩ := Option.map_eq_some_iff.mp h
      obtain ⟨u, v, rfl, hu⟩ := ih hm
      exact ⟨a :: u, v, rfl, by simp [hu]⟩

/-- What is needed of the last token before a place to replace the text after it. -/
structure Replaces (c : Char) (cs : List Char) (r' : List Char) : Prop where
  length_le : (lexeme c cs).2 ≤ cs.length
  calm : ∀ z, (c :: cs.take (lexeme c cs).2).getLast? = some z → Calm z (cs.drop (lexeme c cs).2) r'
  lexeme_eq : lexeme c (cs.take (lexeme c cs).2 ++ r') = lexeme c cs

theorem calm_of_mem {z : Char} (r r' : List Char)
    (h : z ∉ ['.', '\\', 'e', 'E', 'x', 'X', '+', '-']) : Calm z r r' := by
  simp only [List.mem_cons, List.not_mem_nil, or_false, not_or] at h
  refine ⟨h.1, h.2.1, ?_⟩
  intro hmem
  simp only [List.mem_cons, List.not_mem_nil, or_false] at hmem
  exact absurd hmem (by simp [h])

theorem replaces_word {c : Char} (hc : isIdentStart c = true) (cs : List Char) {r' : List Char}
    (hseam : NoExtend (cs.drop (lexeme c cs).2) ∧ NoExtend r') : Replaces c cs r' := by
  have hlexeme := lexeme_of_isIdentStart hc
  have hword : ∀ z ∈ c :: cs.take (lexeme c cs).2, isIdentPart z = true := by
    intro z hz
    rcases List.mem_cons.mp hz with rfl | hz
    · rw [isIdentPart, hc, Bool.true_or]
    · rw [hlexeme] at hz
      exact spanLength_take _ _ z hz
  refine ⟨?_, ?_, ?_⟩
  · rw [hlexeme]
    exact spanLength_le _ _
  · intro z hz
    have hpart := hword z (List.mem_of_getLast? hz)
    refine ⟨?_, ?_, fun _ => hseam⟩
    · rintro rfl
      exact absurd hpart (by decide)
    · rintro rfl
      exact absurd hpart (by decide)
  · have hlength : (cs.take (spanLength isIdentPart cs)).length = spanLength isIdentPart cs :=
      List.length_take_of_le (spanLength_le _ _)
    rw [hlexeme, hlexeme, spanLength_append_of_all (spanLength_take _ _),
      spanLength_of_noExtend (fun _ h => h) hseam.2, hlength, Nat.add_zero]

theorem replaces_single {c : Char} (hs : isIdentStart c = false) (hd : c.isDigit = false)
    (hspecial : c ∉ ['/', '\x22', '\x27', '\x60', '.', '?', '='])
    (hother : c ∉ ['\\', '+', '-']) (cs r' : List Char) : Replaces c cs r' := by
  obtain ⟨hzero, hsame⟩ := lexeme_single hs hd hspecial cs
  refine ⟨?_, ?_, hsame _⟩
  · rw [hzero]
    exact Nat.zero_le _
  · intro z hz
    rw [hzero, List.take_zero, List.getLast?_singleton, Option.some.injEq] at hz
    subst hz
    apply calm_of_mem
    have hletter : ∀ l ∈ ['e', 'E', 'x', 'X'], c ≠ l := by
      rintro l hl rfl
      simp only [List.mem_cons, List.not_mem_nil, or_false] at hl
      rcases hl with rfl | rfl | rfl | rfl <;> exact absurd hs (by decide)
    simp only [List.mem_cons, List.not_mem_nil, or_false, not_or] at hspecial hother ⊢
    exact ⟨hspecial.2.2.2.2.1, hother.1, hletter 'e' (by simp), hletter 'E' (by simp), hletter 'x' (by simp),
      hletter 'X' (by simp), hother.2.1, hother.2.2⟩

theorem replaces_quoted {q : Char} (hq : isQuote q = true) {cs : List Char} {n : Nat}
    (hbody : quotedBody q false cs = (n, true)) (r' : List Char) : Replaces q cs r' := by
  obtain ⟨u, v, rfl, rfl⟩ := quotedBody_closed hbody
  have hne : q ≠ '\\' := by
    rintro rfl
    exact absurd hq (by decide)
  have hlexeme : ∀ l, lexeme q (u ++ q :: l) = (.str, u.length + 1) := by
    intro l
    rw [lexeme_quote hq, quotedBody_congr q false u hne v l (Nat.le_of_eq (by rw [hbody])), hbody,
      if_pos rfl]
  have htake : (u ++ q :: v).take (u.length + 1) = u ++ [q] := by
    rw [List.take_length_add_append, List.take_succ_cons, List.take_zero]
  refine ⟨?_, ?_, ?_⟩
  · rw [hlexeme]
    simp
  · intro z hz
    rw [hlexeme, htake, ← List.cons_append, List.getLast?_concat, Option.some.injEq] at hz
    subst hz
    apply calm_of_mem
    simp only [isQuote, Bool.or_eq_true, beq_iff_eq] at hq
    rcases hq with rfl | rfl <;> decide
  · rw [hlexeme, htake, List.append_assoc, List.singleton_append, hlexeme]

theorem replaces_blockComment {cs : List Char} {n : Nat} (hbody : commentBody? cs = some n)
    (r' : List Char) : Replaces '/' ('*' :: cs) r' := by
  obtain ⟨u, v, rfl, rfl⟩ := commentBody?_closed hbody
  have hlexeme : ∀ l, lexeme '/' ('*' :: (u ++ '*' :: '/' :: l)) = (.blockComment, u.length + 3) := by
    intro l
    have hcs : ∀ m : List Char, u ++ '*' :: '/' :: m = (u ++ ['*']) ++ '/' :: m := by simp
    rw [hcs] at hbody
    rw [hcs, lexeme_blockComment (commentBody?_congr (u ++ ['*']) v l hbody (by simp))]
  have htake : ('*' :: (u ++ '*' :: '/' :: v)).take (u.length + 3) = '*' :: (u ++ ['*', '/']) := by
    rw [List.take_succ_cons, List.take_length_add_append]
    rfl
  refine ⟨?_, ?_, ?_⟩
  · rw [hlexeme]
    simp
  · intro z hz
    rw [hlexeme, htake] at hz
    obtain rfl : '/' = z := by
      simpa [List.getLast?_cons, List.getLast?_append] using hz
    exact calm_of_mem _ _ (by decide)
  · rw [hlexeme, htake, List.cons_append, List.append_assoc]
    exact hlexeme r'

theorem replaces_quote {q : Char} (hq : isQuote q = true) {cs r' : List Char}
    (hseam : Seam (cs.drop (lexeme q cs).2) r' (lexeme q cs).1) : Replaces q cs r' := by
  rw [lexeme_quote hq] at hseam
  split at hseam
  · next hclosed => exact replaces_quoted hq (Prod.ext rfl hclosed) r'
  · exact hseam.elim

theorem replaces_slash {cs r' : List Char}
    (hseam : Seam (cs.drop (lexeme '/' cs).2) r' (lexeme '/' cs).1) : Replaces '/' cs r' := by
  by_cases hline : cs.head? = some '/'
  · obtain ⟨l, rfl⟩ := List.head?_eq_some_iff.mp hline
    obtain ⟨c, hc, hne⟩ : ∃ c, (l.drop (spanLength (· != '\n') l)).head? = some c ∧ c ≠ '\n' := hseam
    have hstop := head?_drop_spanLength _ _ hc
    rw [bne_eq_false_iff_eq] at hstop
    exact absurd hstop hne
  by_cases hblock : cs.head? = some '*'
  · obtain ⟨l, rfl⟩ := List.head?_eq_some_iff.mp hblock
    cases hbody : commentBody? l with
    | none =>
      rw [lexeme_openComment hbody] at hseam
      exact hseam.elim
    | some n => exact replaces_blockComment hbody r'
  · rw [lexeme_slash ⟨hline, hblock⟩] at hseam
    exact hseam.elim

theorem replaces_of_seam {c : Char} {cs r' : List Char}
    (hseam : Seam (cs.drop (lexeme c cs).2) r' (lexeme c cs).1) : Replaces c cs r' := by
  by_cases hs : isIdentStart c = true
  · have hkind : (lexeme c cs).1 = .ident := by rw [lexeme_of_isIdentStart hs]
    rw [hkind] at hseam
    exact replaces_word hs cs hseam
  rw [Bool.not_eq_true] at hs
  by_cases hd : c.isDigit = true
  · rw [lexeme_of_isDigit hs hd, numberLexeme_eq] at hseam
    split at hseam
    · exact hseam.elim
    · split at hseam <;> exact hseam.elim
  rw [Bool.not_eq_true] at hd
  by_cases hspecial : c ∉ ['/', '\x22', '\x27', '\x60', '.', '?', '=']
  · refine replaces_single hs hd hspecial ?_ cs r'
    intro hother
    simp only [List.mem_cons, List.not_mem_nil, or_false] at hother
    rcases hother with rfl | rfl | rfl <;> exact hseam
  simp only [Decidable.not_not, List.mem_cons, List.not_mem_nil, or_false] at hspecial
  rcases hspecial with rfl | rfl | rfl | rfl | rfl | rfl | rfl
  · exact replaces_slash hseam
  · exact replaces_quote (by decide) hseam
  · exact replaces_quote (by decide) hseam
  · rw [lexeme_template] at hseam
    split at hseam <;> exact hseam.elim
  · by_cases hdots : cs.take 2 = ['.', '.']
    · obtain ⟨l, rfl⟩ : ∃ l, cs = '.' :: '.' :: l :=
        ⟨cs.drop 2, by rw [← List.take_append_drop 2 cs, hdots]; rfl⟩
      exact hseam.elim
    · rw [lexeme_dot hdots] at hseam
      exact hseam.elim
  · by_cases hdot : cs.head? = some '.'
    · obtain ⟨l, rfl⟩ := List.head?_eq_some_iff.mp hdot
      exact hseam.elim
    · rw [lexeme_question hdot] at hseam
      exact hseam.elim
  · by_cases hgt : cs.head? = some '>'
    · obtain ⟨l, rfl⟩ := List.head?_eq_some_iff.mp hgt
      exact hseam.elim
    · rw [lexeme_eq hgt] at hseam
      exact hseam.elim

/-! ### Runs -/

namespace Scans

variable {k r r' : List Char} {ts : List (Kind × String)}

theorem replace_after (w : List Char) {z : Char} (hz : Calm z r r')
    (h : Scans (k ++ (w ++ z :: r)) ts (w ++ z :: r)) :
    Scans (k ++ (w ++ z :: r')) ts (w ++ z :: r') := by
  generalize hgoal : w ++ z :: r = goal at h
  generalize hcs : k ++ goal = cs at h
  induction h generalizing k with
  | stop cs =>
    obtain rfl : k = [] := by simpa using hcs
    exact .stop _
  | @space c cs goal ts hc h ih =>
    obtain ⟨y, rfl⟩ := h.suffix
    obtain rfl : k = c :: y := List.append_cancel_right hcs
    exact .space hc (ih hgoal rfl)
  | @token c cs goal ts hc h ih =>
    obtain ⟨y, hy⟩ := h.suffix
    subst hgoal
    have hfull : cs = (cs.take (lexeme c cs).2 ++ y ++ w) ++ z :: r := by
      rw [List.append_assoc, List.append_assoc, ← hy, List.take_append_drop]
    obtain rfl : k = c :: cs.take (lexeme c cs).2 ++ y := by
      apply (List.append_left_inj (w ++ z :: r)).mp
      rw [hcs, List.append_assoc, ← hy, List.cons_append, List.take_append_drop]
    have hlength : (cs.take (lexeme c cs).2).length = (lexeme c cs).2 := by
      rw [List.length_take_of_le]
      have hlen : (cs.drop (lexeme c cs).2).length = (y ++ (w ++ z :: r)).length := by rw [hy]
      rw [List.length_drop, List.length_append, List.length_append, List.length_cons] at hlen
      omega
    have hsame : lexeme c ((cs.take (lexeme c cs).2 ++ y ++ w) ++ z :: r') = lexeme c cs := by
      calc lexeme c ((cs.take (lexeme c cs).2 ++ y ++ w) ++ z :: r')
        _ = lexeme c ((cs.take (lexeme c cs).2 ++ y ++ w) ++ z :: r) := by
          apply lexeme_congr c _ hz
          rw [← hfull, List.length_append, List.length_append, hlength]
          omega
        _ = lexeme c cs := by rw [← hfull]
    rw [List.append_assoc, List.cons_append]
    apply Scans.of_lexeme hc ?_ (ih rfl hy.symm)
    rw [← List.append_assoc, ← List.append_assoc, hsame, hlength]

/-- The last step of a run. -/
theorem last (h : Scans (k ++ r) ts r) :
    (k = [] ∧ ts = []) ∨
      (∃ x c, k = x ++ [c] ∧ isSpace c = true ∧ Scans (k ++ r) ts ([c] ++ r)) ∨
      ∃ x c cs us, isSpace c = false ∧ k = x ++ (c :: cs.take (lexeme c cs).2) ∧
        cs.drop (lexeme c cs).2 = r ∧ Scans (k ++ r) us (c :: cs) ∧
        ts = us ++ [((lexeme c cs).1, String.ofList (c :: cs.take (lexeme c cs).2))] := by
  generalize hcs : k ++ r = cs at h
  induction h generalizing k with
  | stop cs =>
    left
    exact ⟨by simpa using hcs, rfl⟩
  | @space c cs r ts hc h ih =>
    obtain ⟨y, rfl⟩ := h.suffix
    obtain rfl : k = c :: y := List.append_cancel_right hcs
    right
    rcases ih rfl with ⟨rfl, rfl⟩ | ⟨x, d, rfl, hd, hrun⟩ | ⟨x, d, ds, us, hd, rfl, hrest, hrun, hts⟩
    · exact .inl ⟨[], c, rfl, hc, .stop _⟩
    · exact .inl ⟨c :: x, d, rfl, hd, .space hc hrun⟩
    · exact .inr ⟨c :: x, d, ds, us, hd, rfl, hrest, .space hc hrun, hts⟩
  | @token c cs r ts hc h ih =>
    obtain ⟨y, hy⟩ := h.suffix
    obtain rfl : k = c :: cs.take (lexeme c cs).2 ++ y := by
      apply (List.append_left_inj r).mp
      rw [hcs, List.append_assoc, ← hy, List.cons_append, List.take_append_drop]
    right
    rcases ih hy.symm with ⟨rfl, rfl⟩ | ⟨x, d, rfl, hd, hrun⟩ | ⟨x, d, ds, us, hd, rfl, hrest, hrun, hts⟩
    · exact .inr ⟨[], c, cs, [], hc, List.append_nil _, hy, .stop _, rfl⟩
    · exact .inl ⟨_, d, (List.append_assoc _ x [d]).symm, hd, .token hc hrun⟩
    · refine .inr ⟨c :: cs.take (lexeme c cs).2 ++ x, d, ds, _, hd, ?_, hrest, .token hc hrun, ?_⟩
      · rw [List.append_assoc]
      · rw [hts, List.cons_append]

/-- What follows a piece of text may be replaced if the last token of the piece allows it. -/
theorem replace (h : Scans (k ++ r) ts r) (hseam : ∀ t, ts.getLast? = some t → Seam r r' t.1) :
    Scans (k ++ r') ts r' := by
  rcases h.last with ⟨rfl, rfl⟩ | ⟨x, c, rfl, hc, hrun⟩ | ⟨x, c, cs, us, hc, rfl, rfl, hrun, rfl⟩
  · exact .stop _
  · have hcalm : Calm c r r' := by
      apply calm_of_mem
      intro hmem
      simp only [List.mem_cons, List.not_mem_nil, or_false] at hmem
      rcases hmem with rfl | rfl | rfl | rfl | rfl | rfl | rfl | rfl <;> exact absurd hc (by decide)
    rw [List.append_assoc] at hrun ⊢
    have hbefore := replace_after [] hcalm hrun
    rw [← List.append_nil ts]
    exact hbefore.trans (.space hc (.stop _))
  · obtain ⟨hle, hcalm, hsame⟩ := replaces_of_seam (hseam _ List.getLast?_concat)
    obtain ⟨w, z, hw⟩ : ∃ w z, c :: cs.take (lexeme c cs).2 = w ++ [z] :=
      ⟨_, _, (List.dropLast_concat_getLast (List.cons_ne_nil _ _)).symm⟩
    have hz : Calm z (cs.drop (lexeme c cs).2) r' := hcalm z (by rw [hw, List.getLast?_concat])
    have hcut : c :: cs = w ++ z :: cs.drop (lexeme c cs).2 := by
      rw [List.append_cons, ← hw, List.cons_append, List.take_append_drop]
    have hnew : c :: (cs.take (lexeme c cs).2 ++ r') = w ++ z :: r' := by
      rw [List.append_cons, ← hw, List.cons_append]
    have hbefore : Scans (x ++ (w ++ z :: cs.drop (lexeme c cs).2)) us (w ++ z :: cs.drop (lexeme c cs).2) := by
      rw [← hcut]
      rw [List.append_assoc, List.cons_append, List.take_append_drop] at hrun
      exact hrun
    rw [List.append_assoc, List.cons_append, hnew]
    apply (replace_after w hz hbefore).trans
    rw [← hnew]
    apply Scans.of_lexeme hc ?_ (.stop r')
    rw [hsame, List.length_take_of_le hle]

end Scans

end SchemaSplice.Source
