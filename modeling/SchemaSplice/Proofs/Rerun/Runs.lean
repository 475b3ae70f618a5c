import SchemaSplice.Proofs.Brackets.Partners
import SchemaSplice.Proofs.Brackets.Tilings
import SchemaSplice.Proofs.Rerun.Orderly
import SchemaSplice.Proofs.Rerun.Refinding
/-!
# Chains that start in a run

The calls of a chain that starts among orderly tokens before a parenthesis stay there, and none of them ends a procedure. So a
generated validator holds no procedure, whatever its words are.
-/

namespace SchemaSplice.Chain

open Source Annotation

variable {f : File} {front ts back : List Lexeme} {w : Lexeme} {i : Nat} {s : Segment}

/-- Tokens stand between others, before a closing parenthesis. -/
structure RunBefore (f : File) (front ts back : List Lexeme) : Prop where
  read : f.IsRead
  lexemes : f.lexemes = front ++ (ts ++ back)
  rparen : back.head?.map (·.1) = some .rparen
  orderly : Orderly ts

namespace RunBefore

theorem kind?_end (h : RunBefore f front ts back) : f.kind? (front.length + ts.length) = some .rparen := by
  rw [File.kind?_eq_lexeme, h.lexemes, List.getElem?_append_right (by omega), List.getElem?_append_right (by omega),
    show front.length + ts.length - front.length - ts.length = 0 by omega, ← List.head?_eq_getElem?, h.rparen]

theorem lexeme_eq (h : RunBefore f front ts back) {n : Nat} (hn : n < ts.length) :
    f.lexemes[front.length + n]? = ts[n]? := by
  rw [h.lexemes, List.getElem?_append_right (by omega), List.getElem?_append_left (by omega),
    show front.length + n - front.length = n by omega]

/-- A bracket among the tokens is closed among them. -/
theorem closed (h : RunBefore f front ts back) {n c : Nat} (hn : n < ts.length) (hc : f.Matched (front.length + n) c) :
    c < front.length + ts.length := by
  have hkinds : f.tokens.toList.map Token.kind =
      front.map (·.1) ++ ts.map (·.1) ++ back.map (·.1) := by
    rw [List.append_assoc, ← List.map_append, ← List.map_append, ← h.lexemes, File.lexemes, List.map_map]
    rfl
  have hpartner := isPartner_iff.mpr (Or.inl (h.read.matched_iff.mp hc))
  rw [hkinds, show front.length + n = (front.map (·.1)).length + n by rw [List.length_map],
    isPartner_inside h.orderly.balanced (by rwa [List.length_map])] at hpartner
  obtain ⟨m, hm, heq⟩ := hpartner
  have hlt := hm.lt_length.2
  rw [List.length_map] at heq hlt
  omega

/-- The token after a dot, and the one after that. -/
theorem after_dot (h : RunBefore f front ts back) {n : Nat}
    (hdot : f.hasKind (front.length + n) .dot = true ∨ f.hasKind (front.length + n) .questionDot = true) (hn : n ≤ ts.length) :
    ∃ name, n + 1 < ts.length ∧ f.word? (front.length + n + 1) = some name ∧ name ≠ "query" ∧ name ≠ "mutation" ∧
      f.anglesFrom? (front.length + n + 2) = some (front.length + n + 2) := by
  have hlt : n < ts.length := by
    apply Nat.lt_of_le_of_ne hn
    rintro rfl
    unfold File.hasKind at hdot
    rw [h.kind?_end] at hdot
    simp at hdot
  have hkind : ts[n].1 = .dot := by
    have heq := h.lexeme_eq hlt
    rw [List.getElem?_eq_getElem hlt] at heq
    unfold File.hasKind at hdot
    rw [File.kind?_eq_lexeme, heq] at hdot
    have hruly := h.orderly.ruly ts[n] (List.getElem_mem hlt)
    rcases hdot with hk | hk
    · simpa using hk
    · rw [Option.map_some, beq_iff_eq, Option.some.injEq] at hk
      rw [hk] at hruly
      cases hruly
  have hnext : n + 1 < ts.length := by
    by_contra hlast
    refine h.orderly.last ts[n] ?_ hkind
    rw [List.getLast?_eq_getElem?, show ts.length - 1 = n by omega, List.getElem?_eq_getElem hlt]
    rfl
  obtain ⟨hident, hname⟩ := ((List.isChain_iff_getElem.mp h.orderly.chain) n hnext).dot hkind
  have heq := h.lexeme_eq hnext
  rw [List.getElem?_eq_getElem hnext, ← Nat.add_assoc] at heq
  refine ⟨ts[n + 1].2, hnext, ?_, hname.1, hname.2, ?_⟩
  · rw [File.word?, File.hasKind, File.kind?_eq_lexeme, File.tokenText_eq_lexeme, heq, Option.map_some, hident]
    rfl
  · have hlt' : f.hasKind (front.length + n + 2) .lt = false := by
      rw [File.hasKind, Nat.add_assoc]
      rcases Nat.lt_or_ge (n + 2) ts.length with hin | hout
      · have hruly := h.orderly.ruly ts[n + 2] (List.getElem_mem hin)
        rw [File.kind?_eq_lexeme, h.lexeme_eq hin, List.getElem?_eq_getElem hin, Option.map_some, beq_eq_false_iff_ne]
        intro hk
        rw [Option.some.inj hk] at hruly
        cases hruly
      · rw [show n + 2 = ts.length by omega, h.kind?_end]
        rfl
    rw [File.anglesFrom?, if_neg (by rw [hlt']; exact Bool.false_ne_true)]

/-- No two words stand side by side. -/
theorem word_after_word (h : RunBefore f front ts back) {n : Nat} {v : String} (hn : n < ts.length)
    (hword : f.word? (front.length + n) = some v) : f.word? (front.length + n + 1) = none := by
  have hident : ts[n].1 = .ident := by
    have hkind := hasKind_of_word? hword
    rw [File.hasKind, File.kind?_eq_lexeme, h.lexeme_eq hn, List.getElem?_eq_getElem hn] at hkind
    simpa using hkind
  have hnext : f.hasKind (front.length + n + 1) .ident = false := by
    rw [File.hasKind, Nat.add_assoc]
    rcases Nat.lt_or_ge (n + 1) ts.length with hin | hout
    · rw [File.kind?_eq_lexeme, h.lexeme_eq hin, List.getElem?_eq_getElem hin, Option.map_some, beq_eq_false_iff_ne]
      intro hk
      exact ((List.isChain_iff_getElem.mp h.orderly.chain) n hin).ident hident (Option.some.inj hk)
    · rw [show n + 1 = ts.length by omega, h.kind?_end]
      rfl
  rw [File.word?, hnext]
  rfl

/-- The calls of a chain stay among the tokens. -/
theorem names (h : RunBefore f front ts back) {n : Nat} (hn : n ≤ ts.length) :
    ∀ s ∈ segmentsFrom f (front.length + n), s.name ≠ "query" ∧ s.name ≠ "mutation" := by
  induction hm : ts.length - n using Nat.strongRecOn generalizing n with
  | ind m ih =>
    cases hs : segmentsFrom f (front.length + n) with
    | nil => simp
    | cons s ss =>
      obtain ⟨hcall, hdot, rfl⟩ := callAt_of_segmentsFrom hs
      obtain ⟨name, hnext, hword, hquery, hmutation, hangles⟩ := h.after_dot (by rw [← hdot]; exact hcall.dot) hn
      have hname : name = s.name := by
        have := hcall.word
        rw [hdot, hword] at this
        exact Option.some.inj this
      have hlparen : s.lparen = front.length + n + 2 := by
        have := hcall.angles
        rw [hdot, hangles] at this
        exact (Option.some.inj this).symm
      subst hname
      have hopen := hcall.lparen
      have hmatched : f.Matched s.lparen s.rparen := Option.map_eq_some_iff.mpr hcall.matched
      have hlt : n + 2 < ts.length := by
        apply Nat.lt_of_le_of_ne hnext
        intro heq
        rw [hlparen, Nat.add_assoc, show n + 2 = ts.length from heq, File.hasKind, h.kind?_end] at hopen
        cases hopen
      rw [hlparen, Nat.add_assoc] at hmatched
      have hclosed := h.closed hlt hmatched
      have hge := hcall.lt
      obtain ⟨k, hk⟩ : ∃ k, s.rparen + 1 = front.length + k := ⟨s.rparen + 1 - front.length, by omega⟩
      rw [hk]
      refine List.forall_mem_cons.mpr ⟨⟨hquery, hmutation⟩, ih (ts.length - k) (by omega) (by omega) rfl⟩

end RunBefore

end SchemaSplice.Chain
