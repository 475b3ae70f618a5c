import SchemaSplice.Source.Token
/-!
# Runs of the scanner

`Scans cs ts rest` says that scanning `cs` finds the tokens `ts` and then stands before `rest`. Such runs compose and can be
cut at every token, and they tell where the tokens of a text lie: a run over a piece of text accounts for the tokens
of the piece, and what follows the piece is scanned as a text of its own.
-/

namespace SchemaSplice.Source

def Token.lexeme (t : Token) : Kind × String := (t.kind, t.text)

def lexemes (text : String) : List (Kind × String) := (scan text).map Token.lexeme

/-- Scanning the first text finds the tokens and stops before the second text. -/
inductive Scans : List Char → List (Kind × String) → List Char → Prop
  | stop (cs : List Char) : Scans cs [] cs
  | space {c : Char} {cs rest : List Char} {ts : List (Kind × String)} (hc : isSpace c = true)
      (h : Scans cs ts rest) : Scans (c :: cs) ts rest
  | token {c : Char} {cs rest : List Char} {ts : List (Kind × String)} (hc : isSpace c = false)
      (h : Scans (cs.drop (lexeme c cs).2) ts rest) :
      Scans (c :: cs) (((lexeme c cs).1, String.ofList (c :: cs.take (lexeme c cs).2)) :: ts) rest

namespace Scans

variable {a b cs rest : List Char} {ts us : List (Kind × String)}

theorem trans {c : List Char} (hab : Scans a ts b) (hbc : Scans b us c) : Scans a (ts ++ us) c := by
  induction hab with
  | stop => exact hbc
  | space hc _ ih => exact .space hc (ih hbc)
  | token hc _ ih => exact .token hc (ih hbc)

theorem of_lexeme {c : Char} {body r : List Char} {kind : Kind} (hc : isSpace c = false)
    (hlexeme : lexeme c (body ++ r) = (kind, body.length)) (h : Scans r ts rest) :
    Scans (c :: (body ++ r)) ((kind, String.ofList (c :: body)) :: ts) rest := by
  have hstep := @Scans.token c (body ++ r) rest ts hc
  rw [hlexeme, List.drop_left, List.take_left] at hstep
  exact hstep h

/-- A token of a single character. -/
theorem of_char {c : Char} {kind : Kind} (hc : isSpace c = false) (hlexeme : lexeme c cs = (kind, 0))
    (h : Scans cs ts rest) : Scans (c :: cs) ((kind, String.ofList [c]) :: ts) rest := by
  have hstep := @Scans.token c cs rest ts hc
  rw [hlexeme, List.drop_zero, List.take_zero] at hstep
  exact hstep h

theorem suffix (h : Scans cs ts rest) : ∃ x, cs = x ++ rest := by
  induction h with
  | stop cs => exact ⟨[], rfl⟩
  | @space c cs rest ts hc h ih =>
    obtain ⟨x, rfl⟩ := ih
    exact ⟨c :: x, rfl⟩
  | @token c cs rest ts hc h ih =>
    obtain ⟨x, hx⟩ := ih
    refine ⟨c :: cs.take (lexeme c cs).2 ++ x, ?_⟩
    rw [List.append_assoc, List.cons_append, ← hx, List.take_append_drop]

/-- Of two stops of one run, the later one is reached from the earlier one. -/
theorem between {x : List Char} (h : Scans cs ts (x ++ rest)) (h' : Scans cs us rest) :
    ∃ vs, Scans (x ++ rest) vs rest ∧ us = ts ++ vs := by
  have hshort : ∀ {l m : List Char} {ws : List (Kind × String)}, Scans l ws m → m.length ≤ l.length := by
    intro l m ws hl
    obtain ⟨y, rfl⟩ := hl.suffix
    rw [List.length_append]
    omega
  generalize hgoal : x ++ rest = goal at h
  induction h generalizing us with
  | stop cs =>
    subst hgoal
    exact ⟨us, h', rfl⟩
  | @space c cs goal ts hc h ih =>
    cases h' with
    | stop =>
      have hle := hshort h
      rw [← hgoal, List.length_append, List.length_cons] at hle
      omega
    | space _ h' => exact ih h' hgoal
    | token hc' _ =>
      rw [hc] at hc'
      cases hc'
  | @token c cs goal ts hc h ih =>
    cases h' with
    | stop =>
      have hle := hshort h
      rw [← hgoal, List.length_append, List.length_cons, List.length_drop] at hle
      omega
    | space hc' _ =>
      rw [hc] at hc'
      cases hc'
    | token _ h' =>
      obtain ⟨vs, hvs, rfl⟩ := ih h' hgoal
      exact ⟨vs, hvs, rfl⟩

end Scans

/-! ### Positions -/

theorem le_start_of_mem_scanFrom {start : Nat} {cs : List Char} {t : Token}
    (h : t ∈ scanFrom start cs) : start ≤ t.start ∧ t.start < t.stop := by
  fun_induction scanFrom start cs with
  | case1 => cases h
  | case2 start c rest hc ih =>
    have := ih h
    omega
  | case3 start c rest hc n body ih =>
    rcases List.mem_cons.mp h with rfl | h
    · refine ⟨Nat.le_refl _, ?_⟩
      have hpos := Char.utf8Size_pos c
      simp only [Token.stop, Text.size, String.toList_ofList, body, Text.byteCount_cons]
      omega
    · have := ih h
      omega

theorem scans_scanFrom (start : Nat) (cs : List Char) :
    Scans cs ((scanFrom start cs).map Token.lexeme) [] := by
  fun_induction scanFrom start cs with
  | case1 => exact .stop []
  | case2 start c rest hc ih => exact .space hc ih
  | case3 start c rest hc n body ih =>
    rw [Bool.not_eq_true] at hc
    exact .token hc ih

/-- A run splits the tokens of a text by position. -/
theorem scanFrom_of_scans {x rest : List Char} {ts : List (Kind × String)}
    (h : Scans (x ++ rest) ts rest) (start : Nat) :
    ∃ front, scanFrom start (x ++ rest) = front ++ scanFrom (start + Text.byteCount x) rest ∧
      front.map Token.lexeme = ts ∧ ∀ t ∈ front, t.stop ≤ start + Text.byteCount x := by
  generalize hcs : x ++ rest = cs at h
  induction h generalizing x start with
  | stop cs =>
    obtain rfl : x = [] := by simpa using hcs
    exact ⟨[], rfl, rfl, by simp⟩
  | @space c cs rest ts hc h ih =>
    obtain ⟨y, rfl⟩ := h.suffix
    obtain rfl : x = c :: y := List.append_cancel_right hcs
    obtain ⟨front, hfront, hlex, hstop⟩ := ih (start + c.utf8Size) rfl
    refine ⟨front, ?_, hlex, ?_⟩
    · rw [scanFrom_cons_space hc, hfront, Text.byteCount_cons, Nat.add_assoc]
    · intro t ht
      have := hstop t ht
      rw [Text.byteCount_cons]
      omega
  | @token c cs rest ts hc h ih =>
    obtain ⟨y, hy⟩ := h.suffix
    obtain rfl : x = c :: cs.take (lexeme c cs).2 ++ y := by
      apply (List.append_left_inj rest).mp
      rw [hcs, List.append_assoc, ← hy, List.cons_append, List.take_append_drop]
    obtain ⟨front, hfront, hlex, hstop⟩ :=
      ih (start + Text.byteCount (c :: cs.take (lexeme c cs).2)) hy.symm
    have hcount : start + Text.byteCount (c :: cs.take (lexeme c cs).2) + Text.byteCount y =
        start + Text.byteCount (c :: cs.take (lexeme c cs).2 ++ y) := by
      rw [Text.byteCount_append, Nat.add_assoc]
    rw [hcount] at hfront hstop
    refine ⟨⟨(lexeme c cs).1, String.ofList (c :: cs.take (lexeme c cs).2), start⟩ :: front, ?_, ?_, ?_⟩
    · rw [scanFrom_cons_of_not_space hc, hfront]
      rfl
    · rw [List.map_cons, hlex]
      rfl
    · intro t ht
      rcases List.mem_cons.mp ht with rfl | ht
      · simp only [Token.stop, Text.size, String.toList_ofList, Text.byteCount_append]
        omega
      · exact hstop t ht

/-- A run over a whole text finds its tokens. -/
theorem lexemes_of_scans {text : String} {ts : List (Kind × String)} (h : Scans text.toList ts []) :
    lexemes text = ts := by
  rw [← List.append_nil text.toList] at h
  obtain ⟨front, hscan, hfront, -⟩ := scanFrom_of_scans h 0
  rw [scanFrom_nil, List.append_nil, List.append_nil] at hscan
  rw [lexemes, scan, hscan, hfront]

/-- A token of a text is a stop of the run over it. -/
theorem scans_of_scanFrom_eq {start : Nat} {cs : List Char} (front back : List Token) {t : Token}
    (h : scanFrom start cs = front ++ t :: back) :
    ∃ x rest, cs = x ++ (t.text.toList ++ rest) ∧ t.start = start + Text.byteCount x ∧
      Scans cs (front.map Token.lexeme) (t.text.toList ++ rest) ∧
        Scans (t.text.toList ++ rest) [t.lexeme] rest := by
  fun_induction scanFrom start cs generalizing front with
  | case1 => simp at h
  | case2 start c rest hc ih =>
    obtain ⟨x, rest', rfl, hstart, hrun, htoken⟩ := ih front h
    refine ⟨c :: x, rest', rfl, ?_, .space hc hrun, htoken⟩
    rw [hstart, Text.byteCount_cons, Nat.add_assoc]
  | case3 start c rest hc n body ih =>
    rw [Bool.not_eq_true] at hc
    cases front with
    | nil =>
      rw [List.nil_append, List.cons.injEq] at h
      obtain ⟨rfl, -⟩ := h
      have htext : (String.ofList (c :: rest.take n)).toList ++ rest.drop n = c :: rest := by
        rw [String.toList_ofList, List.cons_append, List.take_append_drop]
      refine ⟨[], rest.drop n, htext.symm, rfl, ?_, ?_⟩
      · rw [htext]
        exact .stop _
      · rw [htext]
        exact .token hc (.stop _)
    | cons u front =>
      rw [List.cons_append, List.cons.injEq] at h
      obtain ⟨rfl, h⟩ := h
      obtain ⟨x, rest', hcs, hstart, hrun, htoken⟩ := ih front h
      refine ⟨c :: rest.take n ++ x, rest', ?_, ?_, .token hc hrun, htoken⟩
      · rw [List.append_assoc, ← hcs, List.cons_append, List.take_append_drop]
      · rw [hstart, Text.byteCount_append, Nat.add_assoc]

end SchemaSplice.Source
