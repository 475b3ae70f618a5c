import SchemaSplice.Proofs.Splice.Edits
import SchemaSplice.Proofs.Splice.Matching
import SchemaSplice.Source.File
/-!
# Places in a file

The significant tokens of a file are the tokens of its text without the comments, and each of them marks two stops of the
scanner. Before such a token stands a comment or the significant token of the index before. Matched brackets
are of one kind.
-/

namespace SchemaSplice.Source

/-! ### Stops of the scanner -/

/-- The scanner stops before `rest`, at byte `position`, after the tokens `front`. -/
structure Stop (text : String) (front back : List Token) (position : Nat) (rest : List Char) : Prop where
  cut : ∃ x, text.toList = x ++ rest ∧ Text.byteCount x = position
  run : Scans text.toList (front.map Token.lexeme) rest
  back_eq : scanFrom position rest = back

variable {text : String} {front back : List Token} {t : Token}

theorem exists_head_of_mem_scanFrom {start : Nat} {cs : List Char} (h : t ∈ scanFrom start cs) :
    ∃ c body l, t.text.toList = c :: body ∧ isSpace c = false ∧ t.kind = (lexeme c l).1 := by
  fun_induction scanFrom start cs with
  | case1 => cases h
  | case2 start c rest hc ih => exact ih h
  | case3 start c rest hc n body ih =>
    rcases List.mem_cons.mp h with rfl | h
    · rw [Bool.not_eq_true] at hc
      exact ⟨c, rest.take n, rest, String.toList_ofList, hc, rfl⟩
    · exact ih h

theorem isIdentStart_of_lexeme {c : Char} {cs : List Char} (h : (lexeme c cs).1 = .ident) :
    isIdentStart c = true := by
  cases hs : isIdentStart c with
  | true => rfl
  | false =>
    exfalso
    by_cases hd : c.isDigit = true
    · rw [lexeme_of_isDigit hs hd, numberLexeme_eq] at h
      split at h
      · cases h
      · split at h <;> cases h
    · unfold lexeme slashLexeme quotedLexeme dotLexeme pairedLexeme at h
      rw [if_neg (by simp [hs]), if_neg hd] at h
      repeat' split at h
      all_goals cases h

/-- A word consists of word characters. -/
theorem isIdentPart_of_mem_scanFrom {start : Nat} {cs : List Char} (h : t ∈ scanFrom start cs)
    (hkind : t.kind = .ident) : ∀ c ∈ t.text.toList, isIdentPart c = true := by
  fun_induction scanFrom start cs with
  | case1 => cases h
  | case2 start c rest hc ih => exact ih h
  | case3 start c rest hc n body ih =>
    rcases List.mem_cons.mp h with rfl | h
    · have hs := isIdentStart_of_lexeme hkind
      intro a ha
      rw [String.toList_ofList] at ha
      rcases List.mem_cons.mp ha with rfl | ha
      · rw [isIdentPart, hs, Bool.true_or]
      · have hn : n = spanLength isIdentPart rest := by
          show (lexeme c rest).2 = _
          rw [lexeme_of_isIdentStart hs]
        rw [hn] at ha
        exact spanLength_take _ _ a ha
    · exact ih h

/-- A run that finds some of the first tokens of a text leaves the others. -/
theorem scanFrom_eq_of_scans {x rest : List Char} {start : Nat}
    (hscan : scanFrom start (x ++ rest) = front ++ back)
    (hrun : Scans (x ++ rest) (front.map Token.lexeme) rest) :
    scanFrom (start + Text.byteCount x) rest = back := by
  obtain ⟨front', hscan', hlexemes, -⟩ := scanFrom_of_scans hrun start
  have hlength : front'.length = front.length := by
    rw [← List.length_map (f := Token.lexeme), hlexemes, List.length_map]
  rw [hscan] at hscan'
  exact (List.append_inj_right hscan' hlength.symm).symm

theorem stop_before (h : scan text = front ++ t :: back) :
    ∃ rest, Stop text front (t :: back) t.start (t.text.toList ++ rest) := by
  obtain ⟨x, rest, hcut, hstart, hrun, -⟩ := scans_of_scanFrom_eq front back h
  rw [Nat.zero_add] at hstart
  refine ⟨rest, ⟨x, hcut, hstart.symm⟩, hrun, ?_⟩
  rw [scan, hcut] at h
  rw [hcut] at hrun
  rw [hstart]
  have hback := scanFrom_eq_of_scans h hrun
  rw [Nat.zero_add] at hback
  exact hback

theorem stop_after (h : scan text = front ++ t :: back) :
    ∃ rest, Stop text (front ++ [t]) back t.stop rest := by
  obtain ⟨x, rest, hcut, hstart, hrun, htoken⟩ := scans_of_scanFrom_eq front back h
  rw [Nat.zero_add] at hstart
  have hfull : text.toList = (x ++ t.text.toList) ++ rest := by rw [hcut, List.append_assoc]
  have hposition : Text.byteCount (x ++ t.text.toList) = t.stop := by
    rw [Text.byteCount_append, ← hstart]
    rfl
  have hrun' : Scans text.toList ((front ++ [t]).map Token.lexeme) rest := by
    rw [List.map_append]
    exact hrun.trans htoken
  refine ⟨rest, ⟨_, hfull, hposition⟩, hrun', ?_⟩
  rw [scan, List.append_cons, hfull] at h
  rw [hfull] at hrun'
  have hback := scanFrom_eq_of_scans h hrun'
  rw [Nat.zero_add, hposition] at hback
  exact hback

/-- The second of two stops is reached from the first. -/
theorem Stop.reach {middle : List Token} {position position' : Nat} {rest rest' : List Char}
    (h : Stop text front (middle ++ back) position rest)
    (h' : Stop text (front ++ middle) back position' rest') (hle : position ≤ position') :
    ∃ d inside, rest = d ++ rest' ∧ position' = position + Text.byteCount d ∧ Scans rest inside rest' := by
  obtain ⟨x, hx, rfl⟩ := h.cut
  obtain ⟨x', hx', rfl⟩ := h'.cut
  -- The longer prefix extends the shorter one.
  have hprefix : ∃ d, x' = x ++ d := by
    rcases List.append_eq_append_iff.mp (hx.symm.trans hx') with ⟨d, hd, -⟩ | ⟨d, hd, hrest⟩
    · exact ⟨d, hd⟩
    · have hcount : Text.byteCount d = 0 := by
        rw [hd, Text.byteCount_append] at hle
        omega
      have hnil : d = [] := by
        cases d with
        | nil => rfl
        | cons c d =>
          have hpos := Char.utf8Size_pos c
          rw [Text.byteCount_cons] at hcount
          omega
      subst hnil
      exact ⟨[], by rw [hd, List.append_nil, List.append_nil]⟩
  obtain ⟨d, rfl⟩ := hprefix
  obtain rfl : rest = d ++ rest' := by
    rw [hx', List.append_assoc] at hx
    exact (List.append_cancel_left hx).symm
  obtain ⟨inside, hinside, -⟩ := h.run.between h'.run
  exact ⟨d, inside, rfl, Text.byteCount_append x d, hinside⟩

/-! ### Significant tokens -/

theorem attachComments_map_snd (pending ts : List Token) :
    (attachComments pending ts).map Prod.snd = ts.filter (!·.kind.isComment) := by
  induction ts generalizing pending with
  | nil => rfl
  | cons t ts ih =>
    unfold attachComments
    by_cases ht : t.kind.isComment = true
    · rw [if_pos ht, ih, List.filter_cons_of_neg (by simp [ht])]
    · rw [if_neg ht, List.map_cons, ih, List.filter_cons_of_pos (by simpa using ht)]

theorem parse_tokens (path text : String) :
    (File.parse path text).tokens.toList = (scan text).filter (!·.kind.isComment) :=
  attachComments_map_snd [] (scan text)

theorem exists_split_of_filter {α : Type} {p : α → Bool} {l : List α} {i : Nat} {a : α}
    (h : (l.filter p)[i]? = some a) :
    ∃ front back, l = front ++ a :: back ∧ front.filter p = (l.filter p).take i ∧
      back.filter p = (l.filter p).drop (i + 1) := by
  induction l generalizing i with
  | nil => cases h
  | cons b l ih =>
    by_cases hb : p b = true
    · rw [List.filter_cons_of_pos hb] at h ⊢
      cases i with
      | zero =>
        obtain rfl : b = a := by simpa using h
        exact ⟨[], l, rfl, rfl, rfl⟩
      | succ i =>
        obtain ⟨front, back, rfl, hfront, hback⟩ := ih h
        refine ⟨b :: front, back, rfl, ?_, hback⟩
        rw [List.filter_cons_of_pos hb, hfront, List.take_succ_cons]
    · rw [List.filter_cons_of_neg hb] at h ⊢
      obtain ⟨front, back, rfl, hfront, hback⟩ := ih h
      refine ⟨b :: front, back, rfl, ?_, hback⟩
      rw [List.filter_cons_of_neg hb, hfront]

namespace File

/-- A file that was read off its text. -/
def IsRead (f : File) : Prop := f = File.parse f.path f.text

theorem isRead_parse (path text : String) : (File.parse path text).IsRead := rfl

variable {f : File} {i : Nat}

theorem IsRead.tokens_toList (hf : f.IsRead) : f.tokens.toList = (scan f.text).filter (!·.kind.isComment) := by
  have hparse := parse_tokens f.path f.text
  rw [← hf] at hparse
  exact hparse

/-- A significant token among all tokens, and what stands before it. -/
theorem IsRead.exists_split (hf : f.IsRead) (h : f.tokens[i]? = some t) :
    ∃ front back, scan f.text = front ++ t :: back ∧
      back.filter (!·.kind.isComment) = f.tokens.toList.drop (i + 1) ∧
      ∀ u, front.getLast? = some u → u.kind.isComment = true ∨ ∃ j, i = j + 1 ∧ f.tokens[j]? = some u := by
  rw [← Array.getElem?_toList, hf.tokens_toList] at h
  obtain ⟨front, back, hscan, hfront, hback⟩ := exists_split_of_filter h
  refine ⟨front, back, hscan, by rw [hback, hf.tokens_toList], ?_⟩
  intro u hu
  by_cases hcomment : u.kind.isComment = true
  · exact Or.inl hcomment
  right
  obtain ⟨l, rfl⟩ := List.getLast?_eq_some_iff.mp hu
  rw [List.filter_append, List.filter_cons_of_pos (by simpa using hcomment), List.filter_nil] at hfront
  have hi : i ≤ ((scan f.text).filter (!·.kind.isComment)).length :=
    Nat.le_of_lt (List.getElem?_eq_some_iff.mp h).1
  have hlength : (l.filter (!·.kind.isComment)).length + 1 = i := by
    have := congrArg List.length hfront
    rw [List.length_append, List.length_singleton, List.length_take_of_le hi] at this
    exact this
  refine ⟨(l.filter (!·.kind.isComment)).length, hlength.symm, ?_⟩
  rw [← Array.getElem?_toList, hf.tokens_toList]
  have htake : (((scan f.text).filter (!·.kind.isComment)).take i)[(l.filter (!·.kind.isComment)).length]? =
      some u := by
    rw [← hfront]
    simp
  rw [List.getElem?_take_of_lt (by omega)] at htake
  exact htake

theorem kinds_getElem? (f : File) (i : Nat) : (f.tokens.toList.map Token.kind)[i]? = f.kind? i := by
  rw [List.getElem?_map, Array.getElem?_toList]
  rfl

theorem IsRead.partners_eq (hf : f.IsRead) :
    f.partners = partnerTable f.tokens.size (pairs (f.tokens.toList.map Token.kind)) := by
  rw [hf]
  rfl

theorem IsRead.mem_pairs_of_closer? (hf : f.IsRead) {o : Nat} {c : { j : Nat // o < j ∧ j < f.size }}
    (h : f.closer? o = some c) : (o, c.1) ∈ pairs (f.tokens.toList.map Token.kind) := by
  have hpartner : f.partner? o = some c.1 := by
    unfold closer? at h
    split at h
    · next k hk =>
      split at h
      · cases h
        exact hk
      · cases h
    · cases h
  unfold partner? at hpartner
  rw [Option.join_eq_some_iff, hf.partners_eq] at hpartner
  rcases mem_pairs_of_partnerTable hpartner with hmem | hmem
  · exact hmem
  · have hlt := (bounds_of_mem_pairsFrom (.nil 0) hmem).1
    have := c.2.1
    exact absurd hlt (Nat.lt_asymm this)

/-- Matched brackets are found. -/
theorem IsRead.closer?_of_mem_pairs (hf : f.IsRead) {o c : Nat} (h : (o, c) ∈ pairs (f.tokens.toList.map Token.kind)) :
    ∃ hc, f.closer? o = some ⟨c, hc⟩ := by
  obtain ⟨hlt, hsize⟩ := lt_of_mem_pairs h
  rw [List.length_map, Array.length_toList] at hsize
  have hpartner : f.partner? o = some c := by
    rw [partner?, hf.partners_eq, partnerTable_of_mem_pairs h (Nat.lt_trans hlt hsize)]
    rfl
  refine ⟨⟨hlt, hsize⟩, ?_⟩
  rw [closer?, hpartner]
  exact dif_pos ⟨hlt, hsize⟩

/-- A bracket is closed by one of its kind. -/
theorem IsRead.kind?_of_closer? (hf : f.IsRead) {k : Kind} {j : { j : Nat // i < j ∧ j < f.size }}
    (hk : f.kind? i = some k) (h : f.closer? i = some j) : ∃ k', k.closer? = some k' ∧ f.kind? j.1 = some k' := by
  obtain ⟨k₁, k', hk₁, hk', hclose⟩ := closer?_of_mem_pairsFrom rfl (by simp) (hf.mem_pairs_of_closer? h)
  rw [kinds_getElem?] at hk₁ hk'
  rw [hk, Option.some.injEq] at hk₁
  subst hk₁
  exact ⟨k', hclose, hk'⟩

/-- The partner of a parenthesis is a parenthesis. -/
theorem IsRead.rparen_of_closer? (hf : f.IsRead) {j : { j : Nat // i < j ∧ j < f.size }}
    (hi : f.hasKind i .lparen = true) (h : f.closer? i = some j) : f.hasKind j.1 .rparen = true := by
  unfold hasKind at hi ⊢
  rw [beq_iff_eq] at hi ⊢
  obtain ⟨k', hclose, hk'⟩ := hf.kind?_of_closer? hi h
  cases hclose
  exact hk'

/-- Significant tokens stand one after the other. -/
theorem IsRead.stop_le_start_of_lt (hf : f.IsRead) {j : Nat} {u : Token} (hij : i < j) (hi : f.tokens[i]? = some t)
    (hj : f.tokens[j]? = some u) : t.stop ≤ u.start := by
  obtain ⟨front, back, hscan, hback, -⟩ := hf.exists_split hi
  obtain ⟨rest, hstop⟩ := stop_after hscan
  have hmem : u ∈ f.tokens.toList.drop (i + 1) := by
    refine List.mem_of_getElem? (i := j - (i + 1)) ?_
    rw [List.getElem?_drop, Array.getElem?_toList, ← hj]
    congr 1
    omega
  rw [← hback] at hmem
  have hscanned := (List.mem_filter.mp hmem).1
  rw [← hstop.back_eq] at hscanned
  exact (le_start_of_mem_scanFrom hscanned).1

/-! ### Anchored edits -/

variable {s : String}

theorem seam_of_isComment {k : Kind} (hk : k.isComment = true) {c : Char} (hc : isSpace c = false)
    (r r' : List Char) : Seam (c :: r) r' k := by
  cases k with
  | blockComment => trivial
  | lineComment =>
    refine ⟨c, rfl, ?_⟩
    rintro rfl
    cases hc
  | _ => cases hk

theorem anchored_insert {position : Nat} {rest : List Char} {front back : List Token}
    (hself : SelfContained s.toList) (hstop : Stop text front back position rest)
    (hseam : ∀ u, front.getLast? = some u → ∀ r, Seam rest (s.toList ++ r) u.kind) :
    Anchored text (Edit.insert position s) := by
  obtain ⟨x, hx, hposition⟩ := hstop.cut
  refine ⟨hself, x, [], rest, front.map Token.lexeme, [], hx, hposition, ?_, hstop.run, .stop _, ?_⟩
  · rw [List.append_nil]
    exact hposition
  · intro u hu r
    rw [List.getLast?_map] at hu
    obtain ⟨v, hv, rfl⟩ := Option.map_eq_some_iff.mp hu
    exact hseam v hv r

/-- An insertion before a significant token. -/
theorem IsRead.anchored_before (hf : f.IsRead) (h : f.tokens[i]? = some t) (hself : SelfContained s.toList)
    (hseam : ∀ j u, i = j + 1 → f.tokens[j]? = some u →
      ∀ rest r, Seam (t.text.toList ++ rest) (s.toList ++ r) u.kind) :
    Anchored f.text (Edit.insert t.start s) := by
  obtain ⟨front, back, hscan, -, hlast⟩ := hf.exists_split h
  obtain ⟨rest, hstop⟩ := stop_before hscan
  apply anchored_insert hself hstop
  intro u hu r
  rcases hlast u hu with hcomment | ⟨j, hj, hu'⟩
  · have hmem : t ∈ scanFrom 0 f.text.toList := by
      show t ∈ scan f.text
      rw [hscan]
      exact List.mem_append_right _ List.mem_cons_self
    obtain ⟨c, body, -, htext, hc, -⟩ := exists_head_of_mem_scanFrom hmem
    rw [htext]
    exact seam_of_isComment hcomment hc _ _
  · exact hseam j u hj hu' rest r

/-- An insertion after a significant token. -/
theorem IsRead.anchored_after (hf : f.IsRead) (h : f.tokens[i]? = some t) (hself : SelfContained s.toList)
    (hseam : ∀ r r', Seam r r' t.kind) : Anchored f.text (Edit.insert t.stop s) := by
  obtain ⟨front, back, hscan, -, -⟩ := hf.exists_split h
  obtain ⟨rest, hstop⟩ := stop_after hscan
  apply anchored_insert hself hstop
  intro u hu r
  rw [List.getLast?_concat, Option.some.injEq] at hu
  rw [← hu]
  exact hseam _ _

/-- A replacement of what stands between two significant tokens. -/
theorem IsRead.anchored_between (hf : f.IsRead) {j : Nat} {u : Token} (hij : i < j)
    (hi : f.tokens[i]? = some t) (hj : f.tokens[j]? = some u) (hself : SelfContained s.toList)
    (hseam : ∀ r r', Seam r r' t.kind) : Anchored f.text ⟨⟨t.stop, u.start⟩, s⟩ := by
  obtain ⟨front, back, hscan, hback, -⟩ := hf.exists_split hi
  have hj' : (back.filter (!·.kind.isComment))[j - (i + 1)]? = some u := by
    rw [hback, List.getElem?_drop, Array.getElem?_toList, ← hj]
    congr 1
    omega
  obtain ⟨middle, back', rfl, -, -⟩ := exists_split_of_filter hj'
  obtain ⟨rest, hstop⟩ := stop_after hscan
  have hscan' : scan f.text = ((front ++ [t]) ++ middle) ++ u :: back' := by
    rw [hscan]
    simp
  obtain ⟨rest', hstop'⟩ := stop_before hscan'
  obtain ⟨d, inside, rfl, hposition, hinside⟩ := hstop.reach hstop' (hf.stop_le_start_of_lt hij hi hj)
  obtain ⟨x, hx, hstart⟩ := hstop.cut
  refine ⟨hself, x, d, _, _, inside, hx, hstart, ?_, hstop.run, hinside, ?_⟩
  · rw [Text.byteCount_append, hstart]
    exact hposition.symm
  · intro v hv r
    rw [List.getLast?_map, List.getLast?_concat, Option.map_some, Option.some.injEq] at hv
    rw [← hv]
    exact hseam _ _

end File

end SchemaSplice.Source
