import SchemaSplice.Proofs.Splice.Imports
import SchemaSplice.Proofs.Tokens.Coverage
/-!
# Tokens and blanks

A text is the sequence of its tokens and of the blanks between them. Every place between two of them is a stop of the scanner,
so what stands between two tokens, blanks and comments included, can be told from the sequence.
-/

namespace SchemaSplice.Source

/-- A token, or a blank. -/
structure Glyph where
  kind? : Option Kind
  chars : List Char
deriving DecidableEq, Repr

def Glyph.lexeme? (g : Glyph) : Option (Kind × String) := g.kind?.map fun k => (k, String.ofList g.chars)

/-- The tokens and blanks of a run of characters. -/
def glyphs (cs : List Char) : List Glyph :=
  match cs with
  | [] => []
  | c :: rest =>
    if isSpace c then ⟨none, [c]⟩ :: glyphs rest
    else ⟨some (lexeme c rest).1, c :: rest.take (lexeme c rest).2⟩ :: glyphs (rest.drop (lexeme c rest).2)
termination_by cs.length
decreasing_by
  all_goals simp only [List.length_drop, List.length_cons]
  all_goals omega

def flatten (gs : List Glyph) : List Char := gs.flatMap (·.chars)

def spelled (gs : List Glyph) : List (Kind × String) := gs.filterMap Glyph.lexeme?

/-- The significant tokens. -/
def wordsOf (gs : List Glyph) : List (Kind × String) := (spelled gs).filter (!·.1.isComment)

section

variable {gs gs' : List Glyph} {g : Glyph} {c : Char} {cs x rest rest' : List Char} {ts : List (Kind × String)}

@[simp] theorem flatten_nil : flatten [] = [] := rfl

@[simp] theorem flatten_cons (g : Glyph) (gs : List Glyph) : flatten (g :: gs) = g.chars ++ flatten gs := List.flatMap_cons

@[simp] theorem flatten_append (gs gs' : List Glyph) : flatten (gs ++ gs') = flatten gs ++ flatten gs' := List.flatMap_append

@[simp] theorem spelled_append (gs gs' : List Glyph) : spelled (gs ++ gs') = spelled gs ++ spelled gs' := List.filterMap_append

@[simp] theorem wordsOf_nil : wordsOf [] = [] := rfl

@[simp] theorem wordsOf_append (gs gs' : List Glyph) : wordsOf (gs ++ gs') = wordsOf gs ++ wordsOf gs' := by
  rw [wordsOf, spelled_append, List.filter_append]
  rfl

theorem wordsOf_cons (g : Glyph) (gs : List Glyph) : wordsOf (g :: gs) = wordsOf [g] ++ wordsOf gs := wordsOf_append [g] gs

/-! ### Reading -/

theorem glyphs_nil : glyphs [] = [] := by rw [glyphs]

theorem glyphs_space (hc : isSpace c = true) (cs : List Char) : glyphs (c :: cs) = ⟨none, [c]⟩ :: glyphs cs := by
  rw [glyphs, if_pos hc]

theorem glyphs_token (hc : isSpace c = false) (cs : List Char) :
    glyphs (c :: cs) =
      ⟨some (lexeme c cs).1, c :: cs.take (lexeme c cs).2⟩ :: glyphs (cs.drop (lexeme c cs).2) := by
  rw [glyphs, if_neg (by rw [hc]; exact Bool.false_ne_true)]

theorem flatten_glyphs (cs : List Char) : flatten (glyphs cs) = cs := by
  fun_induction glyphs cs with
  | case1 => rfl
  | case2 c rest hc ih => rw [flatten_cons, ih, List.singleton_append]
  | case3 c rest hc ih => rw [flatten_cons, ih, List.cons_append, List.take_append_drop]

theorem spelled_glyphs (start : Nat) (cs : List Char) : spelled (glyphs cs) = (scanFrom start cs).map Token.lexeme := by
  fun_induction glyphs cs generalizing start with
  | case1 => rw [scanFrom_nil]; rfl
  | case2 c rest hc ih =>
    rw [scanFrom_cons_space hc, ← ih]
    rfl
  | case3 c rest hc ih =>
    rw [Bool.not_eq_true] at hc
    rw [scanFrom_cons_of_not_space hc, List.map_cons, ← ih]
    rfl

/-- Texts with the same beginning that are scanned alike begin with the same tokens and blanks. -/
theorem glyphs_congr (h : Scans (x ++ rest) ts rest) (h' : Scans (x ++ rest') ts rest') :
    ∃ gs, glyphs (x ++ rest) = gs ++ glyphs rest ∧ glyphs (x ++ rest') = gs ++ glyphs rest' ∧ flatten gs = x ∧
      spelled gs = ts := by
  generalize hcs : x ++ rest = cs at h
  induction h generalizing x with
  | stop cs =>
    obtain rfl : x = [] := by simpa using hcs
    exact ⟨[], rfl, rfl, rfl, rfl⟩
  | @space c cs rest ts hc h ih =>
    obtain ⟨y, rfl⟩ := h.suffix
    obtain rfl : x = c :: y := List.append_cancel_right hcs
    obtain ⟨gs, hgs, hgs', rfl, rfl⟩ := ih (Scans.of_space hc h') rfl
    refine ⟨⟨none, [c]⟩ :: gs, ?_, ?_, rfl, rfl⟩
    · rw [glyphs_space hc, hgs]
      rfl
    · rw [List.cons_append, glyphs_space hc, hgs']
      rfl
  | @token c cs rest ts hc h ih =>
    obtain ⟨y, hy⟩ := h.suffix
    obtain rfl : x = c :: (cs.take (lexeme c cs).2 ++ y) := by
      apply (List.append_left_inj rest).mp
      rw [hcs, List.cons_append, List.append_assoc, ← hy, List.take_append_drop]
    obtain ⟨hsame, hrest⟩ := Scans.of_token hc h'
    obtain ⟨hkind, htext⟩ := Prod.mk.inj hsame
    -- Both texts go on with the token and then with the same characters.
    have htake : cs.take (lexeme c cs).2 = (cs.take (lexeme c cs).2 ++ y ++ rest').take
        (lexeme c (cs.take (lexeme c cs).2 ++ y ++ rest')).2 := by
      have hchars := congrArg String.toList htext
      rw [String.toList_ofList, String.toList_ofList] at hchars
      exact (List.cons.inj hchars).2
    have hdrop : (cs.take (lexeme c cs).2 ++ y ++ rest').drop
        (lexeme c (cs.take (lexeme c cs).2 ++ y ++ rest')).2 = y ++ rest' := by
      have hsplit := List.take_append_drop (lexeme c (cs.take (lexeme c cs).2 ++ y ++ rest')).2
        (cs.take (lexeme c cs).2 ++ y ++ rest')
      rw [← htake] at hsplit
      rw [List.append_assoc] at hsplit ⊢
      exact List.append_cancel_left hsplit
    rw [hdrop] at hrest
    obtain ⟨gs, hgs, hgs', rfl, rfl⟩ := ih hrest hy.symm
    refine ⟨⟨some (lexeme c cs).1, c :: cs.take (lexeme c cs).2⟩ :: gs, ?_, ?_, rfl, rfl⟩
    · rw [glyphs_token hc, hgs]
      rfl
    · rw [List.cons_append, glyphs_token hc, hdrop, hgs', ← hkind, ← htake]
      rfl

theorem exists_glyphs (h : Scans (x ++ rest) ts rest) :
    ∃ gs, glyphs (x ++ rest) = gs ++ glyphs rest ∧ flatten gs = x ∧ spelled gs = ts := by
  obtain ⟨gs, hgs, -, hrest⟩ := glyphs_congr h h
  exact ⟨gs, hgs, hrest⟩

/-- A text that is scanned alike whatever follows. -/
theorem glyphs_append {x : List Char} (h : SelfContained x) (rest : List Char) : glyphs (x ++ rest) = glyphs x ++ glyphs rest := by
  obtain ⟨ts, hts⟩ := h
  obtain ⟨gs, hgs, hgs', -⟩ := glyphs_congr (hts []) (hts rest)
  rw [List.append_nil, glyphs_nil, List.append_nil] at hgs
  rw [hgs', hgs]

/-- Every place between tokens and blanks is a stop of the scanner. -/
theorem scans_of_glyphs (h : glyphs cs = gs ++ gs') :
    cs = flatten gs ++ flatten gs' ∧ glyphs (flatten gs') = gs' ∧ Scans cs (spelled gs) (flatten gs') := by
  fun_induction glyphs cs generalizing gs with
  | case1 =>
    obtain ⟨rfl, rfl⟩ := List.append_eq_nil_iff.mp h.symm
    exact ⟨rfl, glyphs_nil, .stop []⟩
  | case2 c rest hc ih =>
    cases gs with
    | nil =>
      obtain rfl : _ = gs' := h
      rw [flatten_cons, flatten_glyphs]
      exact ⟨rfl, glyphs_space hc rest, .stop _⟩
    | cons g gs =>
      obtain ⟨rfl, hrest⟩ := List.cons.inj h
      obtain ⟨hcs, hgs', hscans⟩ := ih hrest
      exact ⟨by rw [flatten_cons, List.append_assoc, ← hcs, List.singleton_append], hgs', .space hc hscans⟩
  | case3 c rest hc ih =>
    rw [Bool.not_eq_true] at hc
    cases gs with
    | nil =>
      obtain rfl : _ = gs' := h
      rw [flatten_cons, flatten_glyphs, List.cons_append, List.take_append_drop]
      exact ⟨rfl, glyphs_token hc rest, .stop _⟩
    | cons g gs =>
      obtain ⟨rfl, hrest⟩ := List.cons.inj h
      obtain ⟨hcs, hgs', hscans⟩ := ih hrest
      refine ⟨?_, hgs', .token hc hscans⟩
      rw [flatten_cons, List.append_assoc, ← hcs, List.cons_append, List.take_append_drop]

end

/-! ### What stands between two tokens -/

section

variable {P M Q gs gs' : List Glyph} {g g' : Glyph} {k : Kind} {i j : Nat} {w : Kind × String}

theorem kind?_of_wordsOf (h : wordsOf [g] = [w]) :
    ∃ k, g.kind? = some k ∧ k.isComment = false ∧ w = (k, String.ofList g.chars) := by
  cases hk : g.kind? with
  | none =>
    rw [wordsOf, spelled, List.filterMap_cons_none (by rw [Glyph.lexeme?, hk]; rfl)] at h
    cases h
  | some k =>
    rw [wordsOf, spelled, List.filterMap_cons_some (by rw [Glyph.lexeme?, hk]; rfl)] at h
    cases hcomment : k.isComment with
    | true =>
      rw [List.filter_cons_of_neg (by simp [hcomment])] at h
      cases h
    | false =>
      rw [List.filter_cons_of_pos (by simp [hcomment])] at h
      exact ⟨k, rfl, hcomment, (List.cons.inj h).1.symm⟩

/-- The glyph of a token. -/
theorem exists_split_of_wordsOf (h : (wordsOf gs)[i]? = some w) :
    ∃ P g Q, gs = P ++ g :: Q ∧ wordsOf [g] = [w] ∧ (wordsOf P).length = i := by
  induction gs generalizing i with
  | nil => simp at h
  | cons g gs ih =>
    rw [wordsOf_cons] at h
    have hcases : wordsOf [g] = [] ∨ ∃ v, wordsOf [g] = [v] := by
      have hle : (wordsOf [g]).length ≤ 1 := Nat.le_trans (List.length_filter_le _ _) (List.length_filterMap_le _ _)
      exact Or.imp List.length_eq_zero_iff.mp List.length_eq_one_iff.mp (by omega)
    have hlater : ∀ {j : Nat}, (wordsOf gs)[j]? = some w →
        ∃ P g' Q, g :: gs = P ++ g' :: Q ∧ wordsOf [g'] = [w] ∧ (wordsOf P).length = (wordsOf [g]).length + j := by
      intro j hj
      obtain ⟨P, g', Q, rfl, hg', rfl⟩ := ih hj
      refine ⟨g :: P, g', Q, rfl, hg', ?_⟩
      rw [wordsOf_cons, List.length_append]
    rcases hcases with hnil | ⟨v, hv⟩
    · rw [hnil, List.nil_append] at h
      obtain ⟨P, g', Q, hsplit, hg', hlength⟩ := hlater h
      rw [hnil, List.length_nil, Nat.zero_add] at hlength
      exact ⟨P, g', Q, hsplit, hg', hlength⟩
    · rw [hv, List.singleton_append] at h
      cases i with
      | zero =>
        obtain rfl : v = w := Option.some.inj h
        exact ⟨[], g, gs, rfl, hv, rfl⟩
      | succ i =>
        obtain ⟨P, g', Q, hsplit, hg', hlength⟩ := hlater h
        rw [hv, List.length_singleton, Nat.add_comm] at hlength
        exact ⟨P, g', Q, hsplit, hg', hlength⟩

/-- Tokens `i` and `j` stand around some tokens and blanks. -/
structure Flanks (gs : List Glyph) (i j : Nat) (M : List Glyph) : Prop where
  split : ∃ P g g' Q w w', gs = P ++ g :: (M ++ g' :: Q) ∧ wordsOf [g] = [w] ∧ wordsOf [g'] = [w'] ∧ (wordsOf P).length = i
  length : i + 1 + (wordsOf M).length = j

theorem exists_flanks (hij : i < j) (hj : j < (wordsOf gs).length) : ∃ M, Flanks gs i j M := by
  obtain ⟨w, hw⟩ : ∃ w, (wordsOf gs)[i]? = some w := ⟨_, List.getElem?_eq_getElem (by omega)⟩
  obtain ⟨w', hw'⟩ : ∃ w', (wordsOf gs)[j]? = some w' := ⟨_, List.getElem?_eq_getElem (by omega)⟩
  obtain ⟨P, g, Q, hsplit, hg, hP⟩ := exists_split_of_wordsOf hw
  rw [hsplit, wordsOf_append, wordsOf_cons, hg, List.getElem?_append_right (by omega), List.singleton_append, hP,
    show j - i = j - i - 1 + 1 by omega, List.getElem?_cons_succ] at hw'
  obtain ⟨M, g', Q', rfl, hg', hM⟩ := exists_split_of_wordsOf hw'
  exact ⟨M, ⟨P, g, g', Q', w, w', hsplit, hg, hg', hP⟩, by omega⟩

theorem Flanks.append_left (h : Flanks gs i j M) (front : List Glyph) :
    Flanks (front ++ gs) ((wordsOf front).length + i) ((wordsOf front).length + j) M := by
  obtain ⟨P, g, g', Q, w, w', rfl, hg, hg', rfl⟩ := h.split
  refine ⟨⟨front ++ P, g, g', Q, w, w', (List.append_assoc ..).symm, hg, hg', ?_⟩, ?_⟩
  · rw [wordsOf_append, List.length_append]
  · rw [← h.length]
    omega

theorem Flanks.append_right (h : Flanks gs i j M) (back : List Glyph) : Flanks (gs ++ back) i j M := by
  obtain ⟨P, g, g', Q, w, w', rfl, hg, hg', hlength⟩ := h.split
  exact ⟨⟨P, g, g', Q ++ back, w, w', by simp, hg, hg', hlength⟩, h.length⟩

/-- A place between tokens and blanks is told by the bytes before it. -/
theorem prefix_unique {P' Q' : List Glyph} (h : P ++ Q = P' ++ Q') (hne : ∀ g ∈ P ++ Q, g.chars ≠ [])
    (hcount : Text.byteCount (flatten P) = Text.byteCount (flatten P')) : P = P' ∧ Q = Q' := by
  have hpos : ∀ {g : Glyph}, g.chars ≠ [] → 0 < Text.byteCount g.chars := by
    intro g hg
    obtain ⟨c, cs, hcs⟩ := List.exists_cons_of_ne_nil hg
    have := Char.utf8Size_pos c
    rw [hcs, Text.byteCount_cons]
    omega
  induction P generalizing P' with
  | nil =>
    cases P' with
    | nil => exact ⟨rfl, h⟩
    | cons g P' =>
      have hg := hpos (hne g (by rw [h]; exact List.mem_cons_self))
      rw [flatten_nil, flatten_cons, Text.byteCount_append, Text.byteCount_nil] at hcount
      omega
  | cons g P ih =>
    cases P' with
    | nil =>
      have hg := hpos (hne g List.mem_cons_self)
      rw [flatten_nil, flatten_cons, Text.byteCount_append, Text.byteCount_nil] at hcount
      omega
    | cons g' P' =>
      obtain ⟨rfl, hrest⟩ := List.cons.inj h
      rw [flatten_cons, flatten_cons, Text.byteCount_append, Text.byteCount_append] at hcount
      obtain ⟨rfl, hQ⟩ := ih hrest (fun g hg => hne g (List.mem_cons_of_mem _ hg)) (by omega)
      exact ⟨rfl, hQ⟩

theorem chars_ne_nil_of_mem_glyphs {cs : List Char} (hg : g ∈ glyphs cs) : g.chars ≠ [] := by
  fun_induction glyphs cs with
  | case1 => cases hg
  | case2 c rest hc ih =>
    rcases List.mem_cons.mp hg with rfl | hg
    · exact List.cons_ne_nil _ _
    · exact ih hg
  | case3 c rest hc ih =>
    rcases List.mem_cons.mp hg with rfl | hg
    · exact List.cons_ne_nil _ _
    · exact ih hg

theorem eq_of_lexeme_dot {c : Char} {cs : List Char} (h : (lexeme c cs).1 = .dot) : c = '.' ∧ (lexeme c cs).2 = 0 := by
  have hnumber : (numberLexeme c cs).1 ≠ .dot := by
    rw [numberLexeme_eq]
    split
    · simp
    · split <;> simp
  have hslash : (slashLexeme cs).1 ≠ .dot := by
    unfold slashLexeme
    split
    · simp
    · split <;> simp
    · simp
  have hquoted : ∀ {k : Kind} {q : Char} {m : Bool}, k ≠ .dot → (quotedLexeme k q m cs).1 ≠ .dot := by
    intro k q m hk
    unfold quotedLexeme
    split
    · exact hk
    · simp
  have hpaired : ∀ {k k' : Kind} {s : Char}, k ≠ .dot → k' ≠ .dot → (pairedLexeme s k k' cs).1 ≠ .dot := by
    intro k k' s hk hk'
    unfold pairedLexeme
    split
    · exact hk
    · exact hk'
  revert h
  fun_cases lexeme c cs <;> intro h
  case case13 =>
    unfold dotLexeme at h ⊢
    split at h
    · cases h
    · exact ⟨rfl, rfl⟩
  all_goals first
    | exact absurd h (by simp)
    | exact absurd h hnumber
    | exact absurd h hslash
    | exact absurd h (hquoted (by decide))
    | exact absurd h (hpaired (by decide) (by decide))

/-- A dot is written in one way. -/
theorem chars_of_dot {cs : List Char} (hg : g ∈ glyphs cs) (hk : g.kind? = some .dot) : g.chars = ['.'] := by
  fun_induction glyphs cs with
  | case1 => cases hg
  | case2 c rest hc ih =>
    rcases List.mem_cons.mp hg with rfl | hg
    · cases hk
    · exact ih hg
  | case3 c rest hc ih =>
    rcases List.mem_cons.mp hg with rfl | hg
    · obtain ⟨rfl, hlength⟩ := eq_of_lexeme_dot (Option.some.inj hk)
      rw [hlength, List.take_zero]
    · exact ih hg

end

/-! ### Tokens of a file -/

namespace File

variable {f : File} {P M Q : List Glyph} {g : Glyph} {k : Kind} {i j : Nat} {s : Chain.Segment}

theorem length_lexemes (f : File) : f.lexemes.length = f.size := by
  rw [lexemes, List.length_map, Array.length_toList]
  rfl

theorem IsRead.lexemes_eq (hf : f.IsRead) : f.lexemes = wordsOf (glyphs f.text.toList) := by
  rw [lexemes, hf.tokens_toList, wordsOf, spelled_glyphs 0, scan, List.filter_map]
  rfl

theorem IsRead.lexeme_of_dot (hf : f.IsRead) (h : f.hasKind i .dot = true) : f.lexemes[i]? = some (.dot, ".") := by
  rw [hasKind, beq_iff_eq, kind?_eq_lexeme] at h
  obtain ⟨w, hw, hkind⟩ := Option.map_eq_some_iff.mp h
  rw [hf.lexemes_eq] at hw ⊢
  obtain ⟨P, g, Q, hsplit, hg, -⟩ := exists_split_of_wordsOf hw
  obtain ⟨k, hk, -, rfl⟩ := kind?_of_wordsOf hg
  have hchars := chars_of_dot (g := g) (by rw [hsplit]; simp) (hk.trans (congrArg some hkind))
  rw [hw, hchars]
  exact congrArg some (Prod.ext hkind rfl)

/-- A place between tokens and blanks is a cut. -/
theorem IsRead.exists_cutAt (hf : f.IsRead) (h : glyphs f.text.toList = P ++ Q) :
    ∃ front, f.CutAt (flatten P) front (flatten Q) ∧ front.map Token.lexeme = wordsOf P := by
  obtain ⟨htext, -, hscans⟩ := scans_of_glyphs h
  have hstart : f.CutAt [] [] (flatten P ++ flatten Q) := ⟨htext, by rw [hf.tokens_toList, ← htext]; rfl, by simp⟩
  rw [htext] at hscans
  obtain ⟨front, hcut, hlexemes⟩ := hstart.extend hscans
  exact ⟨front, hcut, hlexemes⟩

/-- The token of a glyph of the text. -/
theorem IsRead.getElem?_of_glyphs (hf : f.IsRead) (h : glyphs f.text.toList = P ++ g :: Q) (hk : g.kind? = some k)
    (hcomment : k.isComment = false) :
    f.tokens[(wordsOf P).length]? = some ⟨k, String.ofList g.chars, Text.byteCount (flatten P)⟩ := by
  obtain ⟨front, hcut, hlexemes⟩ := hf.exists_cutAt h
  have hlength : front.length = (wordsOf P).length := by rw [← hlexemes, List.length_map]
  obtain ⟨-, hrest, -⟩ := scans_of_glyphs h
  obtain ⟨c, cs, hchars, hspace, rfl, hbody⟩ : ∃ c cs, flatten (g :: Q) = c :: cs ∧ isSpace c = false ∧ (lexeme c cs).1 = k ∧
      c :: cs.take (lexeme c cs).2 = g.chars := by
    cases hcs : flatten (g :: Q) with
    | nil =>
      rw [hcs, glyphs_nil] at hrest
      cases hrest
    | cons c cs =>
      rw [hcs] at hrest
      cases hspace : isSpace c with
      | true =>
        rw [glyphs_space hspace] at hrest
        obtain ⟨rfl, -⟩ := List.cons.inj hrest
        cases hk
      | false =>
        rw [glyphs_token hspace] at hrest
        obtain ⟨rfl, -⟩ := List.cons.inj hrest
        exact ⟨c, cs, rfl, hspace, Option.some.inj hk, rfl⟩
  rw [← Array.getElem?_toList, hcut.tokens, ← hlength, List.getElem?_append_right (Nat.le_refl _), Nat.sub_self, hchars,
    scanFrom_cons_of_not_space hspace, significant, List.filter_cons_of_pos (by simp [hcomment]), List.getElem?_cons_zero, hbody]

theorem IsRead.comments_eq_nil (hf : f.IsRead) (h : f.size ≤ i) : f.comments i = [] := by
  rw [hf] at h ⊢
  exact File.comments_eq_nil h

def Between (f : File) (i j : Nat) (M : List Glyph) : Prop := Flanks (glyphs f.text.toList) i j M

/-- A place where a token ends stands right after it. -/
theorem IsRead.exists_concat_of_stop (hf : f.IsRead) (h : glyphs f.text.toList = P ++ Q) {t : Token} (ht : f.tokens[i]? = some t)
    (hstop : t.stop = Text.byteCount (flatten P)) : ∃ P' g w, P = P' ++ [g] ∧ wordsOf [g] = [w] ∧ (wordsOf P').length = i := by
  have hword : (wordsOf (glyphs f.text.toList))[i]? = some t.lexeme := by
    rw [← hf.lexemes_eq, lexemes, List.getElem?_map, Array.getElem?_toList, ht]
    rfl
  obtain ⟨P', g, Q', hsplit, hg, rfl⟩ := exists_split_of_wordsOf hword
  obtain ⟨k, hk, hcomment, -⟩ := kind?_of_wordsOf hg
  have htoken := hf.getElem?_of_glyphs hsplit hk hcomment
  rw [ht, Option.some.injEq] at htoken
  have hsame : P ++ Q = P' ++ [g] ++ Q' := by rw [← h, hsplit, List.append_assoc, List.singleton_append]
  have hunique := prefix_unique hsame (by rw [← h]; exact fun g hg => chars_ne_nil_of_mem_glyphs hg)
    (by rw [← hstop, htoken]; simp [Token.stop, Text.size, Text.byteCount_append])
  exact ⟨P', g, _, hunique.1, hg, rfl⟩

/-- A place where a token begins stands right before it. -/
theorem IsRead.exists_cons_of_start (hf : f.IsRead) (h : glyphs f.text.toList = P ++ Q) {t : Token} (ht : f.tokens[i]? = some t)
    (hstart : t.start = Text.byteCount (flatten P)) : (wordsOf P).length = i ∧ ∃ g w Q', Q = g :: Q' ∧ wordsOf [g] = [w] := by
  have hword : (wordsOf (glyphs f.text.toList))[i]? = some t.lexeme := by
    rw [← hf.lexemes_eq, lexemes, List.getElem?_map, Array.getElem?_toList, ht]
    rfl
  obtain ⟨P', g, Q', hsplit, hg, rfl⟩ := exists_split_of_wordsOf hword
  obtain ⟨k, hk, hcomment, -⟩ := kind?_of_wordsOf hg
  have htoken := hf.getElem?_of_glyphs hsplit hk hcomment
  rw [ht, Option.some.injEq] at htoken
  obtain ⟨rfl, rfl⟩ := prefix_unique (h.symm.trans hsplit) (by rw [← h]; exact fun g hg => chars_ne_nil_of_mem_glyphs hg)
    (by rw [← hstart, htoken])
  exact ⟨rfl, g, _, Q', rfl, hg⟩

/-- The tokens around what stands between. -/
theorem Between.tokens (hf : f.IsRead) (h : f.Between i j M) :
    ∃ P Q t t', glyphs f.text.toList = P ++ (M ++ Q) ∧ f.tokens[i]? = some t ∧ f.tokens[j]? = some t' ∧
      t.stop = Text.byteCount (flatten P) ∧ t'.start = Text.byteCount (flatten (P ++ M)) := by
  obtain ⟨P, g, g', Q, w, w', hsplit, hg, hg', rfl⟩ := h.split
  obtain ⟨k, hk, hcomment, -⟩ := kind?_of_wordsOf hg
  obtain ⟨k', hk', hcomment', -⟩ := kind?_of_wordsOf hg'
  have ht := hf.getElem?_of_glyphs hsplit hk hcomment
  have hsplit' : glyphs f.text.toList = (P ++ g :: M) ++ g' :: Q := by rw [hsplit, List.append_assoc, List.cons_append]
  have ht' := hf.getElem?_of_glyphs hsplit' hk' hcomment'
  rw [wordsOf_append, wordsOf_cons, hg, List.length_append, List.length_append, List.length_singleton, ← Nat.add_assoc,
    h.length] at ht'
  refine ⟨P ++ [g], g' :: Q, _, _, by rw [hsplit]; simp, ht, ht', ?_, ?_⟩
  · simp only [Token.stop, Text.size, String.toList_ofList, flatten_append, flatten_cons, flatten_nil, List.append_nil,
      Text.byteCount_append]
  · simp

/-- The text between the parentheses of a call. -/
theorem Between.arguments (hf : f.IsRead) (h : f.Between s.lparen s.rparen M) :
    s.arguments f = some (String.ofList (flatten M)) := by
  obtain ⟨P, Q, t, t', hsplit, ht, ht', hstop, hstart⟩ := h.tokens hf
  obtain ⟨htext, -, -⟩ := scans_of_glyphs hsplit
  have hslice := sliceChars?_append_right (flatten P) (flatten (M ++ Q)) 0 (Text.byteCount (flatten M))
  rw [flatten_append M Q, sliceChars?_zero, ← flatten_append M Q, ← htext, Nat.add_zero, ← Text.byteCount_append,
    ← flatten_append] at hslice
  unfold Chain.Segment.arguments Chain.Segment.argumentsSpan Text.slice?
  rw [span_of_token ht, span_of_token ht']
  simp only [hstop, hstart, hslice, Option.map_some]

/-- Comments are put together with the token that they stand before. -/
theorem attachComments_append {pending cs back : List Token} {t : Token} (hcs : ∀ u ∈ cs, u.kind.isComment = true)
    (ht : t.kind.isComment = false) :
    attachComments pending (cs ++ t :: back) = (pending ++ cs, t) :: attachComments [] back := by
  induction cs generalizing pending with
  | nil =>
    rw [List.nil_append, attachComments, if_neg (by rw [ht]; exact Bool.false_ne_true), List.append_nil]
  | cons u cs ih =>
    rw [List.cons_append, attachComments, if_pos (hcs u List.mem_cons_self), ih fun v hv => hcs v (List.mem_cons_of_mem _ hv),
      List.append_assoc, List.singleton_append]

theorem getElem?_attachComments {pending front cs back : List Token} {u t : Token} (hu : u.kind.isComment = false)
    (hcs : ∀ v ∈ cs, v.kind.isComment = true) (ht : t.kind.isComment = false) :
    (attachComments pending (front ++ u :: (cs ++ t :: back)))[(significant front).length + 1]? = some (cs, t) := by
  induction front generalizing pending with
  | nil =>
    rw [List.nil_append, attachComments, if_neg (by rw [hu]; exact Bool.false_ne_true), attachComments_append hcs ht]
    rfl
  | cons v front ih =>
    rw [List.cons_append, attachComments]
    cases hv : v.kind.isComment with
    | true =>
      rw [if_pos rfl, significant, List.filter_cons_of_neg (by simp [hv])]
      exact ih
    | false =>
      rw [if_neg Bool.false_ne_true, significant, List.filter_cons_of_pos (by simp [hv]), List.length_cons,
        List.getElem?_cons_succ]
      exact ih

/-- The comments before a token stand between it and the one before. -/
theorem Between.comments (hf : f.IsRead) (h : f.Between i (i + 1) M) :
    (f.comments (i + 1)).map Token.lexeme = spelled M := by
  obtain ⟨P, g, g', Q, w, w', hsplit, hg, hg', rfl⟩ := h.split
  obtain ⟨k, hk, hcomment, -⟩ := kind?_of_wordsOf hg
  obtain ⟨k', hk', hcomment', -⟩ := kind?_of_wordsOf hg'
  have hspelled := spelled_glyphs 0 f.text.toList
  have hone : ∀ {g : Glyph} {k : Kind} (gs : List Glyph), g.kind? = some k →
      spelled (g :: gs) = (k, String.ofList g.chars) :: spelled gs := by
    intro g k gs hk
    rw [spelled, List.filterMap_cons_some (by rw [Glyph.lexeme?, hk]; rfl)]
    rfl
  rw [hsplit, spelled_append, hone _ hk, spelled_append, hone _ hk'] at hspelled
  obtain ⟨front, rest, hscan, hfront, hrest⟩ := List.map_eq_append_iff.mp hspelled.symm
  obtain ⟨u, rest, rfl, hu, hrest⟩ := List.map_eq_cons_iff.mp hrest
  obtain ⟨cs, rest, rfl, hcs, hrest⟩ := List.map_eq_append_iff.mp hrest
  obtain ⟨t, back, rfl, ht, -⟩ := List.map_eq_cons_iff.mp hrest
  have hM : ∀ v ∈ cs, v.kind.isComment = true := by
    have hlength : (wordsOf M).length = 0 := by have := h.length; omega
    rw [List.length_eq_zero_iff, wordsOf, ← hcs, List.filter_eq_nil_iff] at hlength
    intro v hv
    simpa [Token.lexeme] using hlength v.lexeme (List.mem_map_of_mem hv)
  have hattached := @getElem?_attachComments [] front cs back u t
    (by rw [show u.kind = k from congrArg Prod.fst hu, hcomment]) hM
    (by rw [show t.kind = k' from congrArg Prod.fst ht, hcomment'])
  have hlength : (significant front).length = (wordsOf P).length := by
    rw [wordsOf, ← hfront, List.filter_map, List.length_map]
    rfl
  have hleading : f.leading = ((attachComments [] (scan f.text)).map Prod.fst).toArray := by
    rw [hf]
    rfl
  rw [comments, hleading, List.getElem?_toArray, List.getElem?_map, scan, hscan, ← hlength, hattached]
  exact hcs

end File

end SchemaSplice.Source
