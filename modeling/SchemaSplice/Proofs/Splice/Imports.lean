import SchemaSplice.Proofs.Grammar.Spelled
import SchemaSplice.Proofs.Splice.FixedPoint
/-!
# The import is made once

The import statement is put behind a token that ends every walk over an import, or before all of them. So a walk that does not
jump over the new tokens reads what it read before, and one that jumps over them goes on after them as before: each import
statement stays what it was, no text becomes one, and the new statement is found after the last of them.
-/

namespace SchemaSplice.Source

/-! ### Inserted tokens -/

namespace File

def lexemes (f : File) : List (Kind × String) := f.tokens.toList.map Token.lexeme

/-- One file is the other one with a balanced run of tokens inserted. -/
structure Inserted (f f' : File) (front inside back : List (Kind × String)) : Prop where
  read : f.IsRead
  read' : f'.IsRead
  lexemes : f.lexemes = front ++ back
  lexemes' : f'.lexemes = front ++ (inside ++ back)
  balanced : Balanced (inside.map (·.1))

variable {f f' : File} {front inside back : List (Kind × String)} {i : Nat}

theorem kind?_eq_lexeme (f : File) (i : Nat) : f.kind? i = f.lexemes[i]?.map (·.1) := by
  rw [kind?, File.lexemes, List.getElem?_map, Array.getElem?_toList, Option.map_map]
  rfl

theorem tokenText_eq_lexeme (f : File) (i : Nat) : f.tokenText i = (f.lexemes[i]?.map (·.2)).getD "" := by
  rw [tokenText, File.lexemes, List.getElem?_map, Array.getElem?_toList]
  cases f.tokens[i]? with
  | none => rfl
  | some t => rfl

namespace Inserted

/-- Where a token of the first file stands in the second one. -/
abbrev place (front inside : List (Kind × String)) (i : Nat) : Nat := pastInsertion front.length inside.length i

theorem lexeme_eq (h : Inserted f f' front inside back) (i : Nat) : f'.lexemes[place front inside i]? = f.lexemes[i]? := by
  rw [h.lexemes, h.lexemes']
  by_cases hi : i < front.length
  · rw [place, pastInsertion_of_lt hi, List.getElem?_append_left hi, List.getElem?_append_left hi]
  · rw [Nat.not_lt] at hi
    rw [place, pastInsertion_of_le hi, List.getElem?_append_right (by omega), List.getElem?_append_right (by omega),
      List.getElem?_append_right hi]
    congr 1
    omega

theorem kind?_eq (h : Inserted f f' front inside back) (i : Nat) : f'.kind? (place front inside i) = f.kind? i := by
  rw [kind?_eq_lexeme, kind?_eq_lexeme, h.lexeme_eq]

theorem tokenText_eq (h : Inserted f f' front inside back) (i : Nat) :
    f'.tokenText (place front inside i) = f.tokenText i := by
  rw [tokenText_eq_lexeme, tokenText_eq_lexeme, h.lexeme_eq]

theorem hasKind_eq (h : Inserted f f' front inside back) (i : Nat) (k : Kind) :
    f'.hasKind (place front inside i) k = f.hasKind i k := by
  rw [hasKind, hasKind, h.kind?_eq]

theorem word?_eq (h : Inserted f f' front inside back) (i : Nat) : f'.word? (place front inside i) = f.word? i := by
  rw [word?, word?, h.hasKind_eq, h.tokenText_eq]

theorem hasWord_eq (h : Inserted f f' front inside back) (i : Nat) (w : String) :
    f'.hasWord (place front inside i) w = f.hasWord i w := by
  rw [hasWord, hasWord, h.word?_eq]

/-- The inserted tokens stand after those of the front. -/
theorem spells (h : Inserted f f' front inside back) : f'.Spells front.length inside := by
  rw [Spells, ← File.lexemes, h.lexemes', List.drop_left]
  exact List.prefix_append _ _

theorem size_eq (h : Inserted f f' front inside back) : f'.size = inside.length + f.size := by
  have hsize : ∀ g : File, g.size = g.lexemes.length := by
    intro g
    rw [File.lexemes, List.length_map, Array.length_toList, File.size]
  rw [hsize, hsize, h.lexemes, h.lexemes', List.length_append, List.length_append, List.length_append]
  omega

theorem map_closer?_eq (h : Inserted f f' front inside back) (o : Nat) :
    (f'.closer? (place front inside o)).map (·.1) = (f.closer? o).map fun c => place front inside c.1 := by
  have hkinds : f.tokens.toList.map Token.kind = front.map (·.1) ++ back.map (·.1) := by
    rw [← List.map_append, ← h.lexemes, File.lexemes, List.map_map]
    rfl
  have hkinds' : f'.tokens.toList.map Token.kind = front.map (·.1) ++ (inside.map (·.1) ++ back.map (·.1)) := by
    rw [← List.map_append, ← List.map_append, ← h.lexemes', File.lexemes, List.map_map]
    rfl
  have hpairs (c : Nat) : (place front inside o, c) ∈ pairs (f'.tokens.toList.map Token.kind) ↔
      ∃ c', (o, c') ∈ pairs (f.tokens.toList.map Token.kind) ∧ place front inside c' = c := by
    rw [hkinds, hkinds']
    simpa only [List.length_map] using @mem_pairs_insert o c (front.map (·.1)) (back.map (·.1)) _ h.balanced
  ext c
  rw [h.read'.map_closer?_eq_some_iff, hpairs]
  constructor
  · rintro ⟨c', hc', rfl⟩
    obtain ⟨hlt, hcloser⟩ := h.read.closer?_of_mem_pairs hc'
    rw [hcloser]
    rfl
  · intro hc
    obtain ⟨d, hd, rfl⟩ := Option.map_eq_some_iff.mp hc
    exact ⟨d.1, h.read.mem_pairs_of_closer? hd, rfl⟩

end Inserted

theorem CutAt.lexemes_eq {x rest : List Char} {before : List Token} (h : f.CutAt x before rest) (path : String) :
    f.lexemes = before.map Token.lexeme ++ (File.parse path (String.ofList rest)).lexemes := by
  rw [File.lexemes, (h.ends path).tokens, List.map_append, List.map_map]
  rfl

/-- An insertion inserts its tokens, before a token that began there and after one that ended there. -/
theorem IsRead.exists_inserted (hf : f.IsRead) {position : Nat} {s : String} {ws : List (Kind × String)}
    (he : Anchored f.text (.insert position s)) (hs : ∀ r, Scans (s.toList ++ r) ws r)
    (hws : Balanced (ws.map (·.1))) (hcomment : ∀ w ∈ ws, w.1.isComment = false) :
    ∃ out front back, applyEdits f.text [.insert position s] = .ok out ∧
      Inserted f (File.parse f.path out) front ws back ∧
      ∀ i t, f.tokens[i]? = some t →
        (t.stop = position → front.length = i + 1) ∧ (t.start = position → front.length = i) := by
  obtain ⟨out, x, d, rest, before, inside, happlied, hedited⟩ := hf.exists_edited he
  have hstart : Text.byteCount x = position := hedited.start
  have hstop : Text.byteCount (x ++ d) = position := hedited.stop
  obtain rfl : d = [] := by
    rw [Text.byteCount_append, hstart] at hstop
    cases d with
    | nil => rfl
    | cons c d =>
      have hpos := Char.utf8Size_pos c
      rw [Text.byteCount_cons] at hstop
      omega
  have hcut : f.CutAt x before rest := hedited.cut
  obtain ⟨tokens, hcut', htokens⟩ := hedited.cut'.extend (hs rest)
  have hsignificant : ws.filter (!·.1.isComment) = ws :=
    List.filter_eq_self.mpr fun w hw => by rw [hcomment w hw]; rfl
  rw [hsignificant] at htokens
  refine ⟨out, before.map Token.lexeme, (File.parse f.path (String.ofList rest)).lexemes, happlied,
    ⟨hf, hedited.read', hcut.lexemes_eq f.path, ?_, hws⟩, ?_⟩
  · rw [hcut'.lexemes_eq f.path, List.map_append, htokens, List.append_assoc]
  · intro i t ht
    rw [List.length_map]
    exact ⟨fun hend => hcut.length_of_stop hf ht (hend.trans hstart.symm),
      fun hbegin => hcut.length_of_start hf ht (hbegin.trans hstart.symm)⟩

end File

end SchemaSplice.Source

namespace SchemaSplice.Import

open Source File Annotation

/-! ### Walks over an import -/

variable {f f' : File} {i : Nat}

theorem statementFrom?_of_str (h : f.kind? i = some .str) :
    statementFrom? f i = some ⟨Text.unquote (f.tokenText i), [], if f.hasKind (i + 1) .semi then i + 1 else i⟩ := by
  rw [statementFrom?]
  split <;> simp_all

theorem statementFrom?_of_ident (h : f.kind? i = some .ident) :
    statementFrom? f i =
      if f.hasWord i "from" && f.hasKind (i + 1) .str then statementFrom? f (i + 1)
      else (statementFrom? f (i + 1)).map (.binding [f.tokenText i]) := by
  rw [statementFrom?]
  split <;> simp_all

theorem statementFrom?_of_comma (h : f.kind? i = some .comma) : statementFrom? f i = statementFrom? f (i + 1) := by
  rw [statementFrom?]
  split <;> simp_all

theorem statementFrom?_of_punct (h : f.kind? i = some .punct) :
    statementFrom? f i =
      if f.tokenText i == "*" && f.hasWord (i + 1) "as" then
        (f.word? (i + 2)).bind fun name => (statementFrom? f (i + 3)).map (.binding [name])
      else none := by
  rw [statementFrom?]
  split <;> simp_all
  congr 1
  cases f.word? (i + 2) <;> rfl

theorem statementFrom?_of_lbrace (h : f.kind? i = some .lbrace) :
    statementFrom? f i = (f.closer? i).bind fun c =>
      (statementFrom? f (c.1 + 1)).map (.binding (localNames f (List.range' (i + 1) (c.1 - (i + 1))))) := by
  rw [statementFrom?]
  split <;> simp_all
  cases f.closer? i <;> rfl

theorem statementFrom?_of_other (h : ∀ k ∈ [Kind.str, .ident, .comma, .punct, .lbrace], f.kind? i ≠ some k) :
    statementFrom? f i = none := by
  rw [statementFrom?]
  split <;> simp_all

theorem word?_of_spells {w : String} {ws : List Lexeme} (h : f.Spells i ((.ident, w) :: ws)) : f.word? i = some w := by
  rw [File.word?, h.hasKind, h.tokenText]
  rfl

theorem hasWord_of_spells {w : String} {ws : List Lexeme} (h : f.Spells i ((.ident, w) :: ws)) : f.hasWord i w = true := by
  rw [File.hasWord, word?_of_spells h]
  exact beq_self_eq_true _

theorem hasWord_of_beginsImport (h : beginsImport f i = true) : f.hasWord i "import" = true := by
  unfold beginsImport at h
  rw [Bool.and_eq_true, Bool.and_eq_true] at h
  exact h.1.1

theorem statementsFrom_of_size_le (h : f.size ≤ i) : statementsFrom f i = [] := by
  rw [statementsFrom, if_neg (Nat.not_lt_of_le h)]

theorem statementsFrom_of_some {s : Statement} (hbegins : beginsImport f i = true)
    (hs : statementFrom? f (bindingsStart f i) = some s) : statementsFrom f i = s :: statementsFrom f (s.last + 1) := by
  rw [statementsFrom, if_pos (File.lt_size_of_hasWord (hasWord_of_beginsImport hbegins)), if_pos hbegins]
  split
  · next s' hs' =>
    rw [hs, Option.some.injEq] at hs'
    rw [hs']
  · next hs' =>
    rw [hs] at hs'
    cases hs'

theorem statementsFrom_skip (h : beginsImport f i = true → statementFrom? f (bindingsStart f i) = none) :
    statementsFrom f i = statementsFrom f (i + 1) := by
  by_cases hlt : i < f.size
  · rw [statementsFrom, if_pos hlt]
    split
    · next hbegins =>
      split
      · next hs =>
        rw [h hbegins] at hs
        cases hs
      · rfl
    · rfl
  · rw [statementsFrom_of_size_le (by omega), statementsFrom_of_size_le (by omega)]

theorem lt_last_of_mem {s : Statement} (h : s ∈ statementsFrom f i) : i < s.last := by
  fun_induction statementsFrom f i with
  | case1 i hlt hbegins s₀ hs hle hstart ih =>
    rcases List.mem_cons.mp h with rfl | h
    · omega
    · have := ih h
      omega
  | case2 i hlt hbegins hfail ih => exact Nat.lt_of_succ_lt (ih h)
  | case3 i hlt hbegins ih => exact Nat.lt_of_succ_lt (ih h)
  | case4 => cases h

/-- The statements before one end before it, and those after it follow its last token. -/
theorem statementsFrom_of_append {before after : List Statement} {s : Statement}
    (h : statementsFrom f i = before ++ s :: after) :
    (∀ s' ∈ before, s'.last < s.last) ∧ statementsFrom f (s.last + 1) = after := by
  fun_induction statementsFrom f i generalizing before with
  | case1 i hlt hbegins s₀ hs hle hstart ih =>
    cases before with
    | nil =>
      obtain ⟨rfl, hafter⟩ := List.cons.inj h
      exact ⟨by simp, hafter⟩
    | cons s' before =>
      obtain ⟨rfl, hrest⟩ := List.cons.inj h
      obtain ⟨hbefore, hafter⟩ := ih hrest
      have hmem : s ∈ statementsFrom f (s₀.last + 1) := hrest ▸ List.mem_append_right _ List.mem_cons_self
      have hlater := lt_last_of_mem hmem
      refine ⟨fun s' hs' => ?_, hafter⟩
      rcases List.mem_cons.mp hs' with rfl | hs'
      · exact Nat.lt_of_succ_lt hlater
      · exact hbefore s' hs'
  | case2 i hlt hbegins hfail ih => exact ih h
  | case3 i hlt hbegins ih => exact ih h
  | case4 => simp at h

/-- Where no import follows, none follows a later token. -/
theorem statementsFrom_eq_nil_of_le {j : Nat} (hle : i ≤ j) (h : statementsFrom f i = []) : statementsFrom f j = [] := by
  induction hle with
  | refl => exact h
  | @step j _ ih =>
    rw [← statementsFrom_skip]
    · exact ih
    · intro hbegins
      rw [Option.eq_none_iff_forall_ne_some]
      intro s hs
      rw [statementsFrom_of_some hbegins hs] at ih
      cases ih

/-! ### The files before and after -/

/-- The tokens of the import statement but for its semicolon. -/
def statementWords (source : String) : List Lexeme :=
  [(.ident, "import"), sign .lbrace, (.ident, namespaceName), sign .rbrace, (.ident, "from"), (.str, quoted source)]

def statementLexemes (source : String) : List Lexeme := statementWords source ++ [sign .semi]

theorem phrase_statementLexemes (source : String) : Phrase (statementLexemes source) := by
  have hfrom : Phrase [(.ident, "from"), (.str, quoted source), sign .semi] :=
    .plain (steady_ident rfl) rfl rfl (.plain (steady_quoted source) rfl rfl (.sign (by decide) rfl rfl .nil))
  have hbraces : Phrase (sign .lbrace :: [(.ident, namespaceName)] ++
      sign .rbrace :: [(.ident, "from"), (.str, quoted source), sign .semi]) := .between rfl (.ident rfl) hfrom
  exact .plain (steady_ident rfl) rfl rfl hbraces

/-- A file with the import statement inserted after a token that may end an import, or before all tokens. -/
structure Added (f f' : File) (source : String) (front back : List (Kind × String)) : Prop where
  inserted : Inserted f f' front (statementLexemes source) back
  seam : front.length = 0 ∨ ∃ j, front.length = j + 1 ∧ MayEnd f j

/-- A statement that was found again, with its tokens elsewhere: one that ends before token `n` binds the same names. -/
structure FoundAgain (place : Nat → Nat) (n : Nat) (s s' : Statement) : Prop where
  source : s'.source = s.source
  last : s'.last = place s.last
  bindings : s.last < n → s'.bindings = s.bindings

theorem FoundAgain.binding {place : Nat → Nat} {n : Nat} {s s' : Statement} (h : FoundAgain place n s s')
    {names names' : List String} (hnames : s.last < n → names' = names) :
    FoundAgain place n (s.binding names) (s'.binding names') := by
  refine ⟨h.source, h.last, fun hlt => ?_⟩
  simp only [Statement.binding, hnames hlt, h.bindings hlt]

theorem FoundAgain.eq_of_lt {place : Nat → Nat} {n : Nat} {s s' : Statement} (h : FoundAgain place n s s')
    (hlt : s.last < n) (hplace : place s.last = s.last) : s' = s := by
  have hbindings := h.bindings hlt
  have hlast := h.last.trans hplace
  have hsource := h.source
  cases s
  cases s'
  simp only at hbindings hlast hsource
  rw [hbindings, hlast, hsource]

theorem rel_exists {α : Type} {R : α → α → Prop} {x y : Option α} {a : α} (h : Option.Rel R x y) (hx : x = some a) :
    ∃ b, y = some b ∧ R a b := by
  subst hx
  cases h with
  | some hab => exact ⟨_, rfl, hab⟩

theorem rel_map {α β : Type} {R : α → α → Prop} {S : β → β → Prop} {x y : Option α} {g g' : α → β}
    (h : Option.Rel R x y) (hg : ∀ a b, x = some a → R a b → S (g a) (g' b)) : Option.Rel S (x.map g) (y.map g') := by
  cases h with
  | none => exact .none
  | some hab => exact .some (hg _ _ rfl hab)

theorem hasKind_of_kind? {k k' : Kind} (h : f.kind? i = some k) (hne : k ≠ k') : f.hasKind i k' = false := by
  rw [File.hasKind, h]
  simpa using hne

namespace Added

variable {source : String} {front back : List (Kind × String)}

/-- Where a token of the first file stands in the second one. -/
abbrev place (source : String) (front : List (Kind × String)) : Nat → Nat := Inserted.place front (statementLexemes source)

theorem place_of_lt (hi : i < front.length) : place source front i = i := pastInsertion_of_lt hi

theorem place_succ_of_ne (hne : front.length ≠ i + 1) : place source front (i + 1) = place source front i + 1 := by
  unfold place Inserted.place pastInsertion
  split <;> split <;> omega

/-- Tokens stand apart in the second file only after one that may end an import. -/
theorem place_succ (h : Added f f' source front back) {k : Kind} (hk : f.kind? i = some k) (hsemi : k ≠ .semi)
    (hstr : k ≠ .str) : place source front (i + 1) = place source front i + 1 := by
  apply place_succ_of_ne
  intro hlength
  rcases h.seam with hzero | ⟨j, hj, hend⟩
  · omega
  obtain rfl : j = i := by omega
  rcases hend with hs | ⟨hs, -⟩
  · rw [hasKind_of_kind? hk hsemi] at hs
    cases hs
  · rw [hasKind_of_kind? hk hstr] at hs
    cases hs

theorem place_succ_of_ident (h : Added f f' source front back) (hi : f.hasKind i .ident = true) :
    place source front (i + 1) = place source front i + 1 := by
  rw [File.hasKind, beq_iff_eq] at hi
  exact h.place_succ hi (by decide) (by decide)

/-- A string is followed by a semicolon in both files or in none: the insertion does not begin with one. -/
theorem last_of_str (h : Added f f' source front back) (hk : f.kind? i = some .str) :
    (if f'.hasKind (place source front i + 1) .semi then place source front i + 1 else place source front i) =
      place source front (if f.hasKind (i + 1) .semi then i + 1 else i) := by
  by_cases hlength : front.length = i + 1
  · have hplace : place source front i = i := place_of_lt (by omega)
    have hfirst : f'.kind? front.length = some .ident := h.inserted.spells.kind?
    rw [hlength] at hfirst
    have hnone : f.hasKind (i + 1) .semi = false := by
      rcases h.seam with hzero | ⟨j, hj, hend⟩
      · omega
      obtain rfl : j = i := by omega
      rcases hend with hs | ⟨-, hs⟩
      · rw [hasKind_of_kind? hk (by decide)] at hs
        cases hs
      · exact hs
    rw [hplace, hnone, hasKind_of_kind? hfirst (by decide)]
    exact hplace.symm
  · rw [← place_succ_of_ne hlength, h.inserted.hasKind_eq]
    split <;> rfl

theorem localName?_map (h : Added f f' source front back) (element : List Nat) :
    localName? f' (element.map (place source front)) = localName? f element := by
  have hdrop : (element.map (place source front)).dropWhile (!f'.hasWord · "as") =
      (element.dropWhile (!f.hasWord · "as")).map (place source front) := by
    rw [List.dropWhile_map]
    congr 2
    funext j
    exact congrArg Bool.not (h.inserted.hasWord_eq j "as")
  unfold localName?
  rw [hdrop]
  cases element.dropWhile (!f.hasWord · "as") with
  | nil =>
    simp only [List.map_nil, List.getLast?_map]
    cases element.getLast? with
    | none => rfl
    | some j => exact h.inserted.word?_eq j
  | cons j rest =>
    simp only [List.map_cons, List.head?_map]
    cases rest.head? with
    | none => rfl
    | some j => exact h.inserted.word?_eq j

theorem elements_map (h : Added f f' source front back) (tokens : List Nat) :
    elements f' (tokens.map (place source front)) = (elements f tokens).map (List.map (place source front)) := by
  induction tokens with
  | nil => rfl
  | cons j tokens ih =>
    rw [List.map_cons, elements, elements, h.inserted.hasKind_eq, ih]
    split
    · rfl
    · cases elements f tokens <;> rfl

theorem localNames_map (h : Added f f' source front back) (tokens : List Nat) :
    localNames f' (tokens.map (place source front)) = localNames f tokens := by
  rw [localNames, h.elements_map, List.filterMap_map]
  exact List.filterMap_congr fun element _ => h.localName?_map element

/-- Braces that close before the insertion hold the same names. -/
theorem localNames_eq (h : Added f f' source front back) {start n : Nat} (hle : start + n ≤ front.length) :
    localNames f' (List.range' start n) = localNames f (List.range' start n) := by
  rw [← h.localNames_map]
  congr 1
  refine ((List.map_congr_left fun j hj => ?_).trans (List.map_id _)).symm
  rw [List.mem_range'_1] at hj
  exact place_of_lt (by omega)

/-- Every walk over an import finds what it found. -/
theorem rel_statementFrom? (h : Added f f' source front back) (i : Nat) :
    Option.Rel (FoundAgain (place source front) front.length) (statementFrom? f i)
      (statementFrom? f' (place source front i)) := by
  have hi := h.inserted
  fun_induction statementFrom? f i with
  | case1 i hk =>
    rw [statementFrom?_of_str ((hi.kind?_eq i).trans hk), hi.tokenText_eq]
    exact .some ⟨rfl, h.last_of_str hk, fun _ => rfl⟩
  | case2 i hk hfrom ih =>
    have hnext := h.place_succ hk (by decide) (by decide)
    rw [statementFrom?_of_ident ((hi.kind?_eq i).trans hk), ← hnext, hi.hasWord_eq, hi.hasKind_eq, if_pos hfrom]
    exact ih
  | case3 i hk hfrom ih =>
    have hnext := h.place_succ hk (by decide) (by decide)
    rw [statementFrom?_of_ident ((hi.kind?_eq i).trans hk), ← hnext, hi.hasWord_eq, hi.hasKind_eq, if_neg hfrom,
      hi.tokenText_eq]
    exact rel_map ih fun s s' _ hs => hs.binding fun _ => rfl
  | case4 i hk ih =>
    have hnext := h.place_succ hk (by decide) (by decide)
    rw [statementFrom?_of_comma ((hi.kind?_eq i).trans hk), ← hnext]
    exact ih
  | case5 i hk has name hname ih =>
    have hnext := h.place_succ hk (by decide) (by decide)
    have has' := File.hasKind_of_hasWord (Bool.and_eq_true_iff.mp has).2
    have hnext' := h.place_succ_of_ident has'
    have hnext'' := h.place_succ_of_ident (Chain.hasKind_of_word? hname)
    rw [hnext] at hnext'
    rw [hnext'] at hnext''
    rw [statementFrom?_of_punct ((hi.kind?_eq i).trans hk), ← hnext, hi.tokenText_eq, hi.hasWord_eq, if_pos has,
      ← hnext', hi.word?_eq, hname, Option.bind_some, ← hnext'']
    exact rel_map ih fun s s' _ hs => hs.binding fun _ => rfl
  | case6 i hk has hname =>
    have hnext := h.place_succ hk (by decide) (by decide)
    have hnext' := h.place_succ_of_ident (File.hasKind_of_hasWord (Bool.and_eq_true_iff.mp has).2)
    rw [hnext] at hnext'
    rw [statementFrom?_of_punct ((hi.kind?_eq i).trans hk), ← hnext, hi.tokenText_eq, hi.hasWord_eq, if_pos has,
      ← hnext', hi.word?_eq, hname, Option.bind_none]
    exact .none
  | case7 i hk hnot =>
    have hnext := h.place_succ hk (by decide) (by decide)
    rw [statementFrom?_of_punct ((hi.kind?_eq i).trans hk), ← hnext, hi.tokenText_eq, hi.hasWord_eq, if_neg hnot]
    exact .none
  | case8 i hk c hc hcloser ih =>
    have hsame := hi.map_closer?_eq i
    rw [hcloser, Option.map_some, Option.map_eq_some_iff] at hsame
    obtain ⟨c', hcloser', hc'⟩ := hsame
    obtain ⟨k, hclose, hk'⟩ := hi.read.kind?_of_closer? hk hcloser
    cases hclose
    have hnext := h.place_succ hk' (by decide) (by decide)
    rw [statementFrom?_of_lbrace ((hi.kind?_eq i).trans hk), hcloser', Option.bind_some, hc', ← hnext]
    refine rel_map ih fun s s' hs hagain => hagain.binding fun hlt => ?_
    have hle := le_statementFrom?_last hs
    have hopen : Inserted.place front (statementLexemes source) i = i := place_of_lt (by omega)
    have hclosed : Inserted.place front (statementLexemes source) c = c := place_of_lt (by omega)
    rw [hopen, hclosed]
    exact h.localNames_eq (by omega)
  | case9 i hk hcloser =>
    have hsame := hi.map_closer?_eq i
    rw [hcloser, Option.map_none, Option.map_eq_none_iff] at hsame
    rw [statementFrom?_of_lbrace ((hi.kind?_eq i).trans hk), hsame]
    exact .none
  | case10 i hstr hident hcomma hpunct hlbrace =>
    rw [statementFrom?_of_other]
    · exact .none
    · simp only [hi.kind?_eq, List.forall_mem_cons, List.not_mem_nil, false_implies, implies_true, and_true]
      exact ⟨hstr, hident, hcomma, hpunct, hlbrace⟩

/-! ### The statements of both files -/

/-- Nothing that is read after the seam is a member of an object. -/
theorem afterDot_front (h : Added f f' source front back) :
    f.afterDot front.length = false ∧ f'.afterDot front.length = false := by
  rcases h.seam with hzero | ⟨j, hj, hend⟩
  · rw [hzero]
    exact ⟨rfl, rfl⟩
  · have hdot : f.hasKind j .dot = false ∧ f.hasKind j .questionDot = false := by
      rcases hend with hk | ⟨hk, -⟩
      all_goals
        rw [File.hasKind, beq_iff_eq] at hk
        exact ⟨hasKind_of_kind? hk (by decide), hasKind_of_kind? hk (by decide)⟩
    have hplace : place source front j = j := place_of_lt (by omega)
    have hdot' := hdot
    rw [← h.inserted.hasKind_eq, ← h.inserted.hasKind_eq] at hdot'
    rw [hj, afterDot, afterDot, hdot.1, hdot.2]
    refine ⟨rfl, ?_⟩
    rw [← hplace, hdot'.1, hdot'.2]
    rfl

theorem afterDot_place (h : Added f f' source front back) (i : Nat) :
    f'.afterDot (place source front i) = f.afterDot i := by
  by_cases hi : front.length = i
  · subst hi
    have hsemi : f'.kind? (front.length + 6) = some .semi := (Spells.right h.inserted.spells).kind?
    have hplace : place source front front.length = front.length + 6 + 1 :=
      (pastInsertion_of_le (Nat.le_refl _)).trans (Nat.add_comm 7 _)
    rw [hplace, h.afterDot_front.1, afterDot, hasKind_of_kind? hsemi (by decide), hasKind_of_kind? hsemi (by decide)]
    rfl
  · cases i with
    | zero =>
      rw [place_of_lt (Nat.pos_of_ne_zero hi)]
      rfl
    | succ j =>
      rw [place_succ_of_ne hi, afterDot, afterDot, h.inserted.hasKind_eq, h.inserted.hasKind_eq]

theorem beginsImport_place (h : Added f f' source front back) (i : Nat) :
    beginsImport f' (place source front i) = beginsImport f i := by
  unfold beginsImport
  rw [h.inserted.hasWord_eq, h.afterDot_place]
  cases hword : f.hasWord i "import" with
  | false => rfl
  | true =>
    rw [← h.place_succ_of_ident (File.hasKind_of_hasWord hword), h.inserted.hasKind_eq, h.inserted.hasKind_eq]

theorem bindingsStart_place (h : Added f f' source front back) (hi : f.hasWord i "import" = true) :
    bindingsStart f' (place source front i) = place source front (bindingsStart f i) := by
  have hnext := h.place_succ_of_ident (File.hasKind_of_hasWord hi)
  unfold bindingsStart
  rw [← hnext, h.inserted.hasWord_eq]
  cases htype : f.hasWord (i + 1) "type" with
  | false =>
    simp only [Bool.false_and, Bool.false_eq_true, if_false]
  | true =>
    have hnext' : place source front (i + 2) = place source front i + 2 := by
      rw [h.place_succ_of_ident (File.hasKind_of_hasWord htype), hnext]
    rw [← hnext', h.inserted.hasWord_eq, h.inserted.hasKind_eq]
    split
    · rfl
    · rfl

theorem statementFrom?_bindingsStart (h : Added f f' source front back) (hi : f.hasWord i "import" = true) :
    Option.Rel (FoundAgain (place source front) front.length) (statementFrom? f (bindingsStart f i))
      (statementFrom? f' (bindingsStart f' (place source front i))) := by
  rw [h.bindingsStart_place hi]
  exact h.rel_statementFrom? _

/-- What begins no import does not begin one after the insertion. -/
theorem fails_again (h : Added f f' source front back)
    (hfail : beginsImport f i = true → statementFrom? f (bindingsStart f i) = none)
    (hbegins : beginsImport f' (place source front i) = true) :
    statementFrom? f' (bindingsStart f' (place source front i)) = none := by
  rw [h.beginsImport_place] at hbegins
  have hrel := h.statementFrom?_bindingsStart (hasWord_of_beginsImport hbegins)
  rw [hfail hbegins] at hrel
  generalize statementFrom? f' _ = found at hrel ⊢
  cases hrel
  rfl

/-- Where no import follows, none follows the insertion. -/
theorem statementsFrom_after (h : Added f f' source front back) (hle : front.length ≤ i)
    (hnone : statementsFrom f i = []) : statementsFrom f' (place source front i) = [] := by
  have hnext : place source front (i + 1) = place source front i + 1 := place_succ_of_ne (by omega)
  fun_induction statementsFrom f i with
  | case1 => cases hnone
  | case2 i hlt hbegins hfail ih =>
    rw [statementsFrom_skip (h.fails_again fun _ => hfail), ← hnext]
    exact ih (Nat.le_succ_of_le hle) hnone (place_succ_of_ne (by omega))
  | case3 i hlt hbegins ih =>
    rw [statementsFrom_skip (h.fails_again fun hb => absurd hb hbegins), ← hnext]
    exact ih (Nat.le_succ_of_le hle) hnone (place_succ_of_ne (by omega))
  | case4 i hge =>
    apply statementsFrom_of_size_le
    have hplace : place source front i = 7 + i := pastInsertion_of_le hle
    rw [hplace, h.inserted.size_eq]
    exact Nat.add_le_add_left (Nat.le_of_not_lt hge) 7

/-- Before the insertion there are the same statements. -/
theorem statementsFrom_before (h : Added f f' source front back) (hle : i ≤ front.length)
    (hlast : ∀ s ∈ statementsFrom f i, s.last < front.length) (hnone : statementsFrom f front.length = []) :
    statementsFrom f' i = statementsFrom f i ++ statementsFrom f' front.length := by
  induction hk : front.length - i using Nat.strongRecOn generalizing i with
  | ind k ih =>
  rcases Nat.eq_or_lt_of_le hle with rfl | hi
  · rw [hnone, List.nil_append]
  have hplace : place source front i = i := place_of_lt hi
  by_cases hs : ∃ s, beginsImport f i = true ∧ statementFrom? f (bindingsStart f i) = some s
  · obtain ⟨s, hbegins, hs⟩ := hs
    rw [statementsFrom_of_some hbegins hs] at hlast ⊢
    have hend : s.last < front.length := hlast s List.mem_cons_self
    have hstart := lt_bindingsStart f i
    have hle' := le_statementFrom?_last hs
    have hbegins' := (h.beginsImport_place i).trans hbegins
    have hrel := h.statementFrom?_bindingsStart (hasWord_of_beginsImport hbegins)
    rw [hplace] at hbegins' hrel
    obtain ⟨s', hs', hagain⟩ := rel_exists hrel hs
    obtain rfl : s' = s := hagain.eq_of_lt hend (place_of_lt hend)
    rw [statementsFrom_of_some hbegins' hs', List.cons_append]
    congr 1
    exact ih _ (by omega) hend (fun s hs => hlast s (List.mem_cons_of_mem _ hs)) rfl
  · have hfail : beginsImport f i = true → statementFrom? f (bindingsStart f i) = none := by
      intro hbegins
      rw [Option.eq_none_iff_forall_ne_some]
      exact fun s hs' => hs ⟨s, hbegins, hs'⟩
    have hfail' := h.fails_again hfail
    rw [hplace] at hfail'
    rw [statementsFrom_skip hfail] at hlast ⊢
    rw [statementsFrom_skip hfail']
    exact ih _ (by omega) hi hlast rfl

/-- The inserted tokens are a statement. -/
theorem statementsFrom_inside (h : Added f f' source front back) :
    statementsFrom f' front.length =
      ⟨source, [namespaceName], front.length + 6⟩ :: statementsFrom f' (front.length + 7) := by
  have h₀ : f'.Spells front.length (statementLexemes source) := h.inserted.spells
  have h₁ := h₀.tail
  have h₂ := h₁.tail
  have h₄ := h₂.tail.tail
  have h₅ := h₄.tail
  obtain ⟨hc, hcloser⟩ := h.inserted.read'.closer?_of_spells (o := .lbrace) (c := .rbrace) rfl
    (.ident (by decide : isIdentifier namespaceName = true)) h₁
  have hbegins : beginsImport f' front.length = true := by
    rw [beginsImport, hasWord_of_spells h₀, h.afterDot_front.2, h₁.hasKind, h₁.hasKind]
    rfl
  have hstart : bindingsStart f' front.length = front.length + 1 := by
    have hword : f'.hasWord (front.length + 1) "type" = false := by
      rw [File.hasWord, File.word?, h₁.hasKind]
      rfl
    rw [bindingsStart, hword]
    rfl
  have hnames : localNames f' [front.length + 2] = [namespaceName] := by
    have has : f'.hasWord (front.length + 2) "as" = false := by
      rw [File.hasWord, word?_of_spells h₂]
      rfl
    have hcomma : f'.hasKind (front.length + 2) .comma = false := h₂.hasKind .comma
    have hdrop : [front.length + 2].dropWhile (!f'.hasWord · "as") = [] := by
      rw [List.dropWhile_cons_of_pos (by rw [has]; rfl), List.dropWhile_nil]
    have hlocal : localName? f' [front.length + 2] = some namespaceName := by
      rw [localName?, hdrop]
      exact word?_of_spells h₂
    rw [localNames, elements, hcomma, elements]
    simp only [Bool.false_eq_true, if_false, List.filterMap_cons, hlocal, List.filterMap_nil]
  have hrest : statementFrom? f' (front.length + 4) = some ⟨source, [], front.length + 6⟩ := by
    have hfrom : (f'.hasWord (front.length + 4) "from" && f'.hasKind (front.length + 4 + 1) .str) = true := by
      rw [hasWord_of_spells h₄, h₅.hasKind]
      rfl
    rw [statementFrom?_of_ident h₄.kind?, if_pos hfrom, statementFrom?_of_str h₅.kind?, h₅.tokenText, unquote_quoted,
      h₅.tail.hasKind]
    rfl
  have hwalk : statementFrom? f' (front.length + 1) = some ⟨source, [namespaceName], front.length + 6⟩ := by
    have hlength : front.length + 1 + 1 + 1 - (front.length + 1 + 1) = 1 := by omega
    rw [statementFrom?_of_lbrace h₁.kind?, hcloser, Option.bind_some]
    show (statementFrom? f' (front.length + 4)).map (Statement.binding (localNames f' (List.range' (front.length + 2)
      (front.length + 1 + 1 + 1 - (front.length + 1 + 1))))) = _
    rw [hrest, hlength, List.range'_one, hnames]
    rfl
  rw [statementsFrom_of_some hbegins (hstart ▸ hwalk)]

end Added

/-! ### The edit -/

variable {source : String}

theorem quoted_of_plain (h : PlainSource source) : quoted source = "'" ++ source ++ "'" := by
  have hescaped : source.toList.flatMap escapeQuoted = source.toList := by
    rw [List.flatMap_congr fun c hc => escapeQuoted_plain (h c hc)]
    exact List.flatMap_singleton' _
  rw [quoted, hescaped]
  apply String.toList_inj.mp
  simp

theorem scans_statementText (h : PlainSource source) (r : List Char) :
    Scans ((statementText source).toList ++ r) (statementLexemes source) r := by
  have htext : (statementText source).toList ++ r =
      (" ".intercalate ((statementWords source).map (·.2))).toList ++ (';' :: r) := by
    rw [statementText_toList, String.toList_intercalate]
    simp [statementWords, quoted_of_plain h, sign, Kind.sign, namespaceName, List.intercalate_cons_cons]
  rw [htext]
  have hwords : ∀ w ∈ statementWords source, Steady w := fun w hw =>
    (phrase_statementLexemes source).steady w (List.mem_append_left _ hw)
  exact (scans_spelled hwords (.semi r)).trans (.of_char rfl rfl (.stop r))

/-- The edit adds the statement after the old ones. -/
theorem Inserts.exists_added (hf : f.IsRead) (hsource : PlainSource source)
    (hplace : statements f ≠ [] ∨ directivesEnd f 0 < f.size) {e : Edit} (h : Inserts f source e) :
    ∃ out front back, applyEdits f.text [e] = .ok out ∧ Added f (File.parse f.path out) source front back ∧
      (∀ s ∈ statements f, s.last < front.length) ∧ statementsFrom f front.length = [] := by
  have hphrase := phrase_statementLexemes source
  have hanchored := anchored_import hf hsource hplace h
  have hcomment : ∀ w ∈ statementLexemes source, w.1.isComment = false := fun w hw => (hphrase.steady w hw).significant
  cases h with
  | @afterLast last hlast =>
    have hscans : ∀ r, Scans (("\n" ++ statementText source).toList ++ r) (statementLexemes source) r := by
      intro r
      rw [String.toList_append]
      exact .space rfl (scans_statementText hsource r)
    obtain ⟨before, hsplit⟩ := List.getLast?_eq_some_iff.mp hlast
    obtain ⟨hbefore, hafter⟩ := statementsFrom_of_append hsplit
    have hend := mayEnd_last_of_mem_statementsFrom 0 last (List.mem_of_getLast? hlast)
    have ht := Array.getElem?_eq_getElem hend.lt_size
    obtain ⟨out, front, back, happlied, hinserted, hseam⟩ := hf.exists_inserted hanchored hscans hphrase.balanced hcomment
    have hlength := (hseam _ _ ht).1 (by rw [span_of_token ht])
    refine ⟨out, front, back, happlied, ⟨hinserted, Or.inr ⟨_, hlength, hend⟩⟩, fun s hs => ?_, hlength ▸ hafter⟩
    rw [hsplit] at hs
    rcases List.mem_append.mp hs with hs | hs
    · exact hlength ▸ Nat.lt_succ_of_lt (hbefore s hs)
    · rw [List.mem_singleton.mp hs, hlength]
      exact Nat.lt_succ_self _
  | afterDirectives hnone =>
    have hscans : ∀ r, Scans ((statementText source ++ "\n").toList ++ r) (statementLexemes source) r := by
      intro r
      rw [String.toList_append, List.append_assoc, ← List.append_nil (statementLexemes source)]
      exact (scans_statementText hsource _).trans (.space rfl (.stop r))
    have ht := Array.getElem?_eq_getElem (hplace.resolve_left (not_not_intro hnone))
    obtain ⟨out, front, back, happlied, hinserted, hseam⟩ := hf.exists_inserted hanchored hscans hphrase.balanced hcomment
    have hlength := (hseam _ _ ht).2 (by rw [span_of_token ht])
    refine ⟨out, front, back, happlied, ⟨hinserted, ?_⟩, by simp [hnone], statementsFrom_eq_nil_of_le (Nat.zero_le _) hnone⟩
    rw [hlength]
    rcases semi_before_directivesEnd (f := f) 0 with hzero | ⟨j, hj, hsemi⟩
    · exact Or.inl hzero
    · exact Or.inr ⟨j, hj, Or.inl hsemi⟩

/-- The import is added once: afterwards the file has the statements that it had and a last one that binds the namespace, so
nothing is left to add. -/
theorem ensure_settles (path text : String) (hsource : PlainSource source)
    (hplace : statements (File.parse path text) ≠ [] ∨
      directivesEnd (File.parse path text) 0 < (File.parse path text).size)
    {e : Edit} (h : ensure (File.parse path text) source = .ok (some e)) :
    ∃ out last, applyEdits text [e] = .ok out ∧
      statements (File.parse path out) = statements (File.parse path text) ++ [⟨source, [namespaceName], last⟩] ∧
      ensure (File.parse path out) source = .ok none := by
  obtain ⟨hunbound, hinserts⟩ := inserts_of_ensure h
  obtain ⟨out, front, back, happlied, hadded, hlast, hnone⟩ :=
    hinserts.exists_added (File.isRead_parse path text) hsource hplace
  have hafter := hadded.statementsFrom_after (Nat.le_refl _) hnone
  have hplaced : Added.place source front front.length = front.length + 7 :=
    (pastInsertion_of_le (Nat.le_refl _)).trans (Nat.add_comm 7 _)
  have hstatements : statements (File.parse path out) =
      statements (File.parse path text) ++ [⟨source, [namespaceName], front.length + 6⟩] := by
    have hbefore := hadded.statementsFrom_before (Nat.zero_le _) hlast hnone
    rw [hadded.statementsFrom_inside, ← hplaced, hafter] at hbefore
    exact hbefore
  refine ⟨out, _, happlied, hstatements, ?_⟩
  have hold : (statements (File.parse path text)).find? (·.bindings.contains namespaceName) = none := by
    rw [List.find?_eq_none]
    intro s hs
    rw [List.contains_iff_mem]
    exact hunbound s hs
  have hfound : (statements (File.parse path out)).find? (·.bindings.contains namespaceName) =
      some ⟨source, [namespaceName], front.length + 6⟩ := by
    rw [hstatements, List.find?_append, hold, Option.none_or]
    rfl
  unfold ensure
  simp only [hfound, beq_self_eq_true, if_true]

/-- A file with imports in several forms, and with words that begin none. -/
def mixedImports : String :=
  "'use client';import(x);import type { A as B, type C } from \x22a\x22\nimport D, * as E from 'e' // f\nimport \x7b(\x7d;g"

theorem mixedImports_settle :
    ∃ e, ensure (File.parse "a.ts" mixedImports) "zod" = .ok (some e) ∧
      ∃ out last, applyEdits mixedImports [e] = .ok out ∧
        statements (File.parse "a.ts" out) =
          [⟨"a", ["B", "C"], 18⟩, ⟨"e", ["D", "E"], 26⟩, ⟨"zod", [namespaceName], last⟩] ∧
        ensure (File.parse "a.ts" out) "zod" = .ok none := by
  have hstatements : statements (File.parse "a.ts" mixedImports) =
      [⟨"a", ["B", "C"], 18⟩, ⟨"e", ["D", "E"], 26⟩] := by decide +kernel
  have hensure : ensure (File.parse "a.ts" mixedImports) "zod" =
      .ok (some (.insert 88 "\nimport \x7b z \x7d from 'zod';")) := by decide +kernel
  obtain ⟨out, last, happlied, hsettled, hnone⟩ :=
    ensure_settles "a.ts" mixedImports (by decide) (Or.inl (by rw [hstatements]; simp)) hensure
  rw [hstatements] at hsettled
  exact ⟨_, hensure, out, last, happlied, hsettled, hnone⟩

end SchemaSplice.Import
