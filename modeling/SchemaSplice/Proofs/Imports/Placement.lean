import SchemaSplice.Proofs.Imports.Specifiers
/-!
# Where the import is put

The import goes behind the last statement, or before the first token that is no directive. A directive may end at a line
break instead of a semicolon, and a statement may have attributes behind its module. Neither is looked at: the text is put
before a directive without a semicolon if there are no imports, and in front of the attributes of the last import.
-/

namespace SchemaSplice.Import

open Source

variable {f : File} {i k : Nat}

/-! ### Directives -/

def isLineBreak (c : Char) : Bool := c == '\n' || c == '\r' || c == '\u2028' || c == '\u2029'

/-- Whether there is a line break between a token and the next one, or the end of the text. -/
def breaksAfter (f : File) (i : Nat) : Bool :=
  ((Text.sliceChars? f.text.toList (f.span i).stop (f.span (i + 1)).start).getD []).any isLineBreak

def isDirective (f : File) (i : Nat) : Bool := f.hasKind i .str && (f.hasKind (i + 1) .semi || breaksAfter f i)

/-- The directives of the run that begins with token `i`, each by its string. -/
inductive Directive (f : File) : Nat → Nat → Prop
  | first {i : Nat} : isDirective f i = true → Directive f i i
  | later {i k : Nat} : isDirective f i = true → Directive f (f.skip (i + 1) .semi) k → Directive f i k

theorem Directive.sound (h : Directive f i k) : isDirective f i = true ∧ isDirective f k = true ∧ i ≤ k := by
  induction h with
  | first h => exact ⟨h, h, Nat.le_refl _⟩
  | @later i k h _ ih =>
    have hskip := f.le_skip (i + 1) .semi
    exact ⟨h, ih.2.1, by omega⟩

theorem hasKind_of_isDirective (h : isDirective f i = true) : f.hasKind i .str = true := by
  unfold isDirective at h
  rw [Bool.and_eq_true] at h
  exact h.1

theorem le_directivesEnd (f : File) (i : Nat) : i ≤ directivesEnd f i := by
  fun_induction directivesEnd f i with
  | case1 i h ih => omega
  | case2 i h => exact Nat.le_refl i

/-- A word that does not stand before the run stands behind all of its directives. -/
theorem Directive.lt_of_word {root : Nat} (h : Directive f i k) (hroot : f.hasKind root .ident = true) (hle : i ≤ root) :
    k < root := by
  have hkind : f.kind? root = some .ident := beq_iff_eq.mp hroot
  induction h with
  | @first i hi =>
    have hne := File.ne_of_kind hkind (hasKind_of_isDirective hi) (by decide)
    omega
  | @later i k hi _ ih =>
    have hne := File.ne_of_kind hkind (hasKind_of_isDirective hi) (by decide)
    apply ih
    unfold File.skip
    split
    · next hsemi =>
      have hne' := File.ne_of_kind hkind hsemi (by decide)
      omega
    · omega

/-- All directives are passed over unless one ends at a line break. -/
theorem directives_lt_iff (i : Nat) :
    (∀ k, Directive f i k → k < directivesEnd f i) ↔ isDirective f (directivesEnd f i) = false := by
  fun_induction directivesEnd f i with
  | case1 i h ih =>
    have hi : isDirective f i = true := by simp [isDirective, h.1, h.2]
    have hskip : f.skip (i + 1) .semi = i + 2 := by simp [File.skip, h.2]
    rw [← ih]
    constructor
    · intro hall k hk
      exact hall k (.later hi (hskip ▸ hk))
    · intro hall k hk
      cases hk with
      | first =>
        have hle := le_directivesEnd f (i + 2)
        omega
      | later _ hk => exact hall k (hskip ▸ hk)
  | case2 i h =>
    constructor
    · intro hall
      rw [← Bool.not_eq_true]
      intro hi
      exact Nat.lt_irrefl i (hall i (.first hi))
    · intro hi k hk
      rw [hk.sound.1] at hi
      cases hi

/-! ### Extents of statements -/

/-- The token of the module that a statement imports from. -/
def Statement.moduleToken (f : File) (s : Statement) : Nat := if f.hasKind s.last .semi then s.last - 1 else s.last

/-- The last token of the attributes that follow token `i`: a word `with` or `assert` and braces. -/
def attributesEnd? (f : File) (i : Nat) : Option Nat :=
  if (f.hasWord (i + 1) "with" || f.hasWord (i + 1) "assert") && f.hasKind (i + 2) .lbrace then
    (f.closer? (i + 2)).map (·.1)
  else none

def Statement.extentEnd (f : File) (s : Statement) : Nat :=
  let i := (attributesEnd? f (s.moduleToken f)).getD (s.moduleToken f)
  if f.hasKind (i + 1) .semi then i + 1 else i

/-- A byte is inside a statement that begins with a token, but not at its ends. -/
def Inside (f : File) (p : Nat × Statement) (offset : Nat) : Prop :=
  (f.span p.1).start < offset ∧ offset < (f.span (p.2.extentEnd f)).stop

theorem Statement.extentEnd_lt_size {s : Statement} (hs : s.last < f.size) : s.extentEnd f < f.size := by
  have hmodule : s.moduleToken f < f.size := by
    unfold moduleToken
    split <;> omega
  have hattributes : (attributesEnd? f (s.moduleToken f)).getD (s.moduleToken f) < f.size := by
    unfold attributesEnd?
    split
    · cases f.closer? (s.moduleToken f + 2) with
      | none => exact hmodule
      | some c => exact c.2.2
    · exact hmodule
  unfold extentEnd
  simp only
  split
  · next hsemi => exact File.lt_size_of_hasKind hsemi
  · exact hattributes

theorem lt_last_of_mem_placed {p : Nat × Statement} (h : p ∈ placed f) :
    f.hasKind p.1 .ident = true ∧ p.1 < p.2.last ∧ p.2 ∈ statements f := by
  obtain ⟨hbegins, hs⟩ := statementFrom?_of_mem_placedFrom h
  have hstart := lt_bindingsStart f p.1
  have hlast := le_statementFrom?_last hs
  exact ⟨File.hasKind_of_hasWord (hasWord_of_beginsImport hbegins), by omega, map_placed f ▸ List.mem_map_of_mem h⟩

theorem last_le_of_getLast? {s last : Statement} (h : (statements f).getLast? = some last) (hs : s ∈ statements f) :
    s.last ≤ last.last := by
  obtain ⟨before, heq⟩ := List.getLast?_eq_some_iff.mp h
  have hbefore : ∀ s' ∈ before, s'.last < last.last := (statementsFrom_of_append heq).1
  rw [heq, List.mem_append, List.mem_singleton] at hs
  rcases hs with hs | hs
  · exact Nat.le_of_lt (hbefore s hs)
  · exact hs ▸ Nat.le_refl _

/-! ### The place of the import -/

theorem stop_le_start_iff (hf : f.IsRead) (hk : k < f.size) : (f.span k).stop ≤ (f.span i).start ↔ k < i := by
  have hwidth := hf.start_lt_stop hk
  constructor
  · intro h
    by_contra hle
    rcases Nat.eq_or_lt_of_not_lt hle with heq | hlt
    · subst heq
      omega
    · have hbefore := hf.stop_le_start hlt hk
      have hwidth' := hf.start_lt_stop (Nat.lt_trans hlt hk)
      omega
  · intro hlt
    by_cases hi : i < f.size
    · exact hf.stop_le_start hlt hi
    · have hend : f.span i = f.eof := by
        unfold File.span
        rw [Array.getElem?_eq_none (Nat.le_of_not_lt hi)]
      rw [hend]
      exact (hf.isBoundary_span k).2.le_size

theorem stop_lt_stop_iff (hf : f.IsRead) (hi : i < f.size) (hk : k < f.size) :
    (f.span i).stop < (f.span k).stop ↔ i < k := by
  have hmono : ∀ {i k : Nat}, i < k → k < f.size → (f.span i).stop < (f.span k).stop := by
    intro i k hlt hk
    exact Nat.lt_of_le_of_lt (hf.stop_le_start hlt hk) (hf.start_lt_stop hk)
  constructor
  · intro h
    by_contra hle
    rcases Nat.eq_or_lt_of_not_lt hle with heq | hlt
    · subst heq
      exact Nat.lt_irrefl _ h
    · exact Nat.lt_asymm h (hmono hlt hi)
  · intro hlt
    exact hmono hlt hk

/-- The import is put behind all directives unless there are no imports and a directive ends at a line break, and inside
a statement exactly if the attributes of a statement end behind the last one. -/
theorem import_placed_iff (path text source : String) (e : Edit) (h : ensure (.parse path text) source = .ok (some e)) :
    let f := File.parse path text
    ((∀ k, Directive f 0 k → (f.span k).stop ≤ e.span.start) ↔
        statements f ≠ [] ∨ isDirective f (directivesEnd f 0) = false) ∧
      ((∃ p ∈ placed f, Inside f p e.span.start) ↔
        ∃ p ∈ placed f, ∃ last, (statements f).getLast? = some last ∧ last.last < p.2.extentEnd f) := by
  intro f
  have hf : f.IsRead := File.isRead_parse path text
  have hsize : ∀ s ∈ statements f, s.last < f.size := fun s hs => (mayEnd_last_of_mem_statementsFrom 0 s hs).lt_size
  cases (inserts_of_ensure h).2 with
  | @afterLast last hlast =>
    have hmem : last ∈ statements f := List.mem_of_getLast? hlast
    constructor
    · refine iff_of_true ?_ (Or.inl (List.ne_nil_of_mem hmem))
      intro k hk
      -- The run of directives ends before the word of the statement.
      obtain ⟨p, hp, hlastp⟩ : ∃ p ∈ placed f, p.2 = last := List.mem_map.mp (map_placed f ▸ hmem)
      obtain ⟨hword, hlt, -⟩ := lt_last_of_mem_placed hp
      have hbefore := hk.lt_of_word hword (Nat.zero_le _)
      rw [hlastp] at hlt
      have hend := hsize last hmem
      exact Nat.le_of_lt ((stop_lt_stop_iff hf (by omega) hend).mpr (by omega))
    · constructor
      · intro hinside
        obtain ⟨p, hp, -, hstop⟩ := hinside
        have hend := p.2.extentEnd_lt_size (hsize _ (lt_last_of_mem_placed hp).2.2)
        exact ⟨p, hp, last, hlast, (stop_lt_stop_iff hf (hsize last hmem) hend).mp hstop⟩
      · intro hbehind
        obtain ⟨p, hp, last', hlast', hlt⟩ := hbehind
        rw [hlast, Option.some.injEq] at hlast'
        subst hlast'
        obtain ⟨-, hfirst, hp'⟩ := lt_last_of_mem_placed hp
        have hend := p.2.extentEnd_lt_size (hsize _ hp')
        have hle := last_le_of_getLast? hlast hp'
        have hstart := hf.stop_le_start (i := p.1) (j := last.last) (by omega) (hsize last hmem)
        have hwidth := hf.start_lt_stop (i := p.1) (by omega)
        have hwidth' := hf.start_lt_stop (hsize last hmem)
        refine ⟨p, hp, ?_, (stop_lt_stop_iff hf (hsize last hmem) hend).mpr hlt⟩
        show (f.span p.1).start < (f.span last.last).stop
        omega
  | afterDirectives hnone =>
    have hplaced : placed f = [] := List.map_eq_nil_iff.mp ((map_placed f).trans hnone)
    constructor
    · rw [or_iff_right (not_not_intro hnone), ← directives_lt_iff]
      refine forall_congr' fun k => imp_congr_right fun hk => ?_
      exact stop_le_start_iff hf (File.lt_size_of_hasKind (hasKind_of_isDirective hk.sound.2.1))
    · rw [hplaced]
      simp

/-- A file with a directive and with attributes before its last import. -/
def attributesBefore : File := .parse "a.ts" "'use client';\nimport d from 'd' with \x7b\x7d;\nimport 'e'\nx"

theorem attributesBefore_placed :
    ∃ e, ensure attributesBefore "zod" = .ok (some e) ∧
      (∀ k, Directive attributesBefore 0 k → (attributesBefore.span k).stop ≤ e.span.start) ∧
      ∀ p ∈ placed attributesBefore, ¬ Inside attributesBefore p e.span.start := by
  have hplaced : placed attributesBefore = [(2, ⟨"d", ["d"], 5⟩), (10, ⟨"e", [], 11⟩)] := by decide +kernel
  have hensure : ensure attributesBefore "zod" = .ok (some (.insert 51 "\nimport \x7b z \x7d from 'zod';")) := by
    decide +kernel
  have hends : ∀ p ∈ [(2, ⟨"d", ["d"], 5⟩), (10, ⟨"e", [], 11⟩)], Statement.extentEnd attributesBefore p.2 ≤ 11 := by
    decide +kernel
  have hstatements : statements attributesBefore = [⟨"d", ["d"], 5⟩, ⟨"e", [], 11⟩] := by rw [← map_placed, hplaced]; rfl
  obtain ⟨hdirectives, hinside⟩ := import_placed_iff "a.ts" "'use client';\nimport d from 'd' with \x7b\x7d;\nimport 'e'\nx"
    "zod" _ hensure
  have hne : statements attributesBefore ≠ [] := by rw [hstatements]; simp
  refine ⟨_, hensure, hdirectives.mpr (Or.inl hne), ?_⟩
  intro p hp hp'
  obtain ⟨q, hq, last, hlast, hlt⟩ := hinside.mp ⟨p, hp, hp'⟩
  have hend := hends q (hplaced ▸ hq)
  have hlast' := hlast.symm.trans (congrArg List.getLast? hstatements)
  cases hlast'
  exact Nat.not_lt_of_le hend hlt

/-- A file with a directive that ends at a line break, and a file whose only import has attributes. -/
def bareDirective : File := .parse "a.ts" "'use server'\nconst a = f();"

def lastAttributes : File := .parse "a.ts" "import d from './d.json' with \x7b type: 'json' \x7d;\nconst a = f();"

/-- The import is put before the directive, and inside the statement. -/
theorem import_misplaced :
    (∃ e, ensure bareDirective "zod" = .ok (some e) ∧
      ∃ k, Directive bareDirective 0 k ∧ e.span.start < (bareDirective.span k).stop) ∧
    ∃ e, ensure lastAttributes "zod" = .ok (some e) ∧ ∃ p ∈ placed lastAttributes, Inside lastAttributes p e.span.start := by
  constructor
  · have hensure : ensure bareDirective "zod" = .ok (some (.insert 0 "import \x7b z \x7d from 'zod';\n")) := by decide +kernel
    have hdirective : isDirective bareDirective 0 = true := by decide +kernel
    exact ⟨_, hensure, 0, .first hdirective, by decide +kernel⟩
  · have hensure : ensure lastAttributes "zod" = .ok (some (.insert 24 "\nimport \x7b z \x7d from 'zod';")) := by
      decide +kernel
    have hplaced : placed lastAttributes = [(0, ⟨"./d.json", ["d"], 3⟩)] := by decide +kernel
    refine ⟨_, hensure, (0, ⟨"./d.json", ["d"], 3⟩), by rw [hplaced]; simp, ?_⟩
    unfold Inside
    decide +kernel

end SchemaSplice.Import
