import SchemaSplice.Proofs.Brackets.Partners
import SchemaSplice.Proofs.Printing.Tokens
/-!
# Printed validators are self-contained

The tokens of a validator are arranged so that what could be taken for the end of the text, a comma or a closing bracket,
stands inside brackets only, and every bracket has its partner in the text. Together with what the scanner finds, this
says that a printed validator can stand anywhere: it is read as its tree says, between its two comments, and it neither
closes a bracket of its surroundings nor splits an argument.
-/

namespace SchemaSplice

open Source

namespace Source

/-! ### Separators stay inside brackets -/

/-- What ends an argument outside brackets: a closing bracket, a comma, a semicolon or an angle bracket. -/
def isSeparator (k : Kind) : Bool := k.closes || [Kind.comma, .semi, .lt, .gt].contains k

/-- Every bracket has a partner, and every separator stands behind an opening bracket whose partner does not come before
it. -/
structure Sealed (ks : List Kind) : Prop where
  matched : ∀ i k, ks[i]? = some k → k.opens = true ∨ k.closes = true → ∃ j, IsPartner ks i j
  enclosed : ∀ i k, ks[i]? = some k → isSeparator k = true → ∃ o c, IsPartner ks o c ∧ o < i ∧ i ≤ c

/-- Kinds of words and literals, and what stands between or before them outside brackets. -/
def plainKinds : List Kind := [.ident, .str, .number, .bigInt, .dot, .minus]

/-- Kinds in matching brackets, with commas and colons inside brackets only. -/
inductive Arranged : (inside : Bool) → List Kind → Prop
  | nil {inside : Bool} : Arranged inside []
  | plain {inside : Bool} {k : Kind} {ks : List Kind} (hk : k ∈ plainKinds) (h : Arranged inside ks) :
      Arranged inside (k :: ks)
  | separator {k : Kind} {ks : List Kind} (hk : k ∈ [Kind.comma, .colon]) (h : Arranged true ks) :
      Arranged true (k :: ks)
  | between {inside : Bool} {o c : Kind} {ks ks' : List Kind} (hoc : o.closer? = some c) (h : Arranged true ks)
      (h' : Arranged inside ks') : Arranged inside (o :: (ks ++ c :: ks'))

namespace Arranged

variable {inside : Bool} {ks ks' : List Kind}

theorem append (h : Arranged inside ks) (h' : Arranged inside ks') : Arranged inside (ks ++ ks') := by
  induction h with
  | nil => exact h'
  | plain hk _ ih => exact .plain hk (ih h')
  | separator hk _ ih => exact .separator hk (ih h')
  | between hoc h _ _ ih =>
    rw [List.cons_append, List.append_assoc, List.cons_append]
    exact .between hoc h (ih h')

/-- What may stand outside brackets may stand inside. -/
theorem enter (h : Arranged inside ks) : Arranged true ks := by
  induction h with
  | nil => exact .nil
  | plain hk _ ih => exact .plain hk ih
  | separator hk h _ => exact .separator hk h
  | between hoc h _ _ ih => exact .between hoc h ih

theorem bracketed {o c : Kind} (hoc : o.closer? = some c) (h : Arranged true ks) :
    Arranged inside (o :: (ks ++ [c])) := .between hoc h .nil

theorem balanced (h : Arranged inside ks) : Balanced ks := by
  have hplain : ∀ k ∈ plainKinds ++ [Kind.comma, .colon], k.opens = false ∧ k.closes = false := by decide
  induction h with
  | nil => exact .nil
  | plain hk _ ih =>
    obtain ⟨hopens, hcloses⟩ := hplain _ (List.mem_append_left _ hk)
    exact .plain hopens hcloses ih
  | separator hk _ ih =>
    obtain ⟨hopens, hcloses⟩ := hplain _ (List.mem_append_right _ hk)
    exact .plain hopens hcloses ih
  | between hoc _ _ ih ih' => exact .between hoc ih ih'

/-- There are no comments and no unknown tokens. -/
theorem known (h : Arranged inside ks) : ∀ k ∈ ks, k ≠ .unknown ∧ k.isComment = false := by
  have hplain : ∀ k ∈ plainKinds ++ [Kind.comma, .colon], k ≠ .unknown ∧ k.isComment = false := by decide
  induction h with
  | nil => simp
  | plain hk _ ih => exact List.forall_mem_cons.mpr ⟨hplain _ (List.mem_append_left _ hk), ih⟩
  | separator hk _ ih => exact List.forall_mem_cons.mpr ⟨hplain _ (List.mem_append_right _ hk), ih⟩
  | @between _ o c ks ks' hoc _ _ ih ih' =>
    have hbrackets : (o ≠ .unknown ∧ o.isComment = false) ∧ c ≠ .unknown ∧ c.isComment = false := by
      unfold Kind.closer? at hoc
      split at hoc <;> cases hoc <;> decide
    exact List.forall_mem_cons.mpr ⟨hbrackets.1,
      List.forall_mem_append.mpr ⟨ih, List.forall_mem_cons.mpr ⟨hbrackets.2, ih'⟩⟩⟩

/-- Outside brackets no separator stands. -/
theorem enclosed (h : Arranged false ks) {i : Nat} {k : Kind} (hk : ks[i]? = some k) (hsep : isSeparator k = true) :
    ∃ o c, IsPartner ks o c ∧ o < i ∧ i ≤ c := by
  have hplain : ∀ k ∈ plainKinds, isSeparator k = false := by decide
  generalize houtside : false = inside at h
  induction h generalizing i with
  | nil => cases hk
  | separator => cases houtside
  | @plain _ k' ks hk' _ ih =>
    cases i with
    | zero =>
      obtain rfl := Option.some.inj hk
      rw [hplain _ hk'] at hsep
      cases hsep
    | succ i =>
      obtain ⟨o, c, hpartner, hoi, hic⟩ := ih hk houtside
      exact ⟨_, _, hpartner.append_left [k'], by simpa [Nat.add_comm 1] using hoi, by simpa [Nat.add_comm 1] using hic⟩
  | @between _ o c ks ks' hoc h _ _ ih =>
    have houter := isPartner_between hoc h.balanced ks'
    rcases getElem?_between hk with ⟨rfl, rfl⟩ | ⟨n, rfl, hn⟩ | ⟨rfl, -⟩ | ⟨n, rfl, hn⟩
    · have hopener : isSeparator k = false := by
        unfold Kind.closer? at hoc
        split at hoc <;> cases hoc <;> rfl
      rw [hopener] at hsep
      cases hsep
    · have hlt := (List.getElem?_eq_some_iff.mp hn).1
      exact ⟨_, _, houter, by omega, by omega⟩
    · exact ⟨_, _, houter, by omega, Nat.le_refl _⟩
    · obtain ⟨p, q, hpartner, hpn, hnq⟩ := ih hn houtside
      exact ⟨_, _, hpartner.after_between o c ks, by omega, by omega⟩

/-- Between two comments, every bracket has a partner and separators stay inside brackets. -/
theorem between_comments (h : Arranged false ks) : Sealed (.blockComment :: (ks ++ [.blockComment])) where
  matched _ _ := by
    have hend : Balanced (ks ++ [.blockComment]) := h.balanced.append (.plain rfl rfl .nil)
    exact (Balanced.plain rfl rfl hend).isPartner
  enclosed i k hk hsep := by
    have hne : k ≠ .blockComment := by
      rintro rfl
      cases hsep
    cases i with
    | zero => exact absurd (Option.some.inj hk).symm hne
    | succ i =>
      rw [List.getElem?_cons_succ] at hk
      by_cases hi : i < ks.length
      · rw [List.getElem?_append_left hi] at hk
        obtain ⟨o, c, hpartner, hoi, hic⟩ := h.enclosed hk hsep
        exact ⟨_, _, (hpartner.append_right [.blockComment]).append_left [.blockComment],
          by simpa [Nat.add_comm 1] using hoi, by simpa [Nat.add_comm 1] using hic⟩
      · rw [List.getElem?_append_right (Nat.le_of_not_lt hi)] at hk
        exact absurd (List.mem_singleton.mp (List.mem_of_getElem? hk)) hne

end Arranged

end Source

/-! ### Tokens of trees are arranged -/

/-- The kinds of tokens. -/
def kinds (ts : List Lexeme) : List Kind := ts.map (·.1)

theorem kinds_append (ts us : List Lexeme) : kinds (ts ++ us) = kinds ts ++ kinds us := List.map_append

theorem arranged_single {k : Kind} (hk : k ∈ plainKinds) (text : String) : Arranged false (kinds [(k, text)]) :=
  .plain hk .nil

theorem arranged_numberTokens (x : Binary64) : Arranged false (kinds (numberTokens x)) := by
  unfold numberTokens
  split
  · exact arranged_single (by decide) _
  · have hunsigned : Arranged false
        (kinds [if x.isInfinite then (.ident, "Infinity") else (.number, String.ofList x.magnitude)]) := by
      split
      · exact arranged_single (by decide) _
      · exact arranged_single (by decide) _
    split
    · exact .plain (by decide) hunsigned
    · exact hunsigned

theorem arranged_keyToken (key : String) : Arranged false (kinds [keyToken key]) := by
  unfold keyToken
  split
  · exact arranged_single (by decide) _
  · exact arranged_single (by decide) _

theorem arranged_commaSeparated {items : List (List Lexeme)} (h : ∀ ts ∈ items, Arranged true (kinds ts)) :
    Arranged true (kinds (commaSeparated items)) := by
  unfold commaSeparated
  induction items with
  | nil => exact .nil
  | cons ts items ih =>
    obtain ⟨hts, hrest⟩ := List.forall_mem_cons.mp h
    cases items with
    | nil =>
      rw [List.intercalate_singleton]
      exact hts
    | cons us items =>
      rw [List.intercalate_cons_cons, List.append_assoc, kinds_append]
      exact hts.append (.separator (by decide) (ih hrest))

theorem arranged_bracketed {o c : Kind} (hoc : o.closer? = some c) {items : List (List Lexeme)}
    (h : ∀ ts ∈ items, Arranged true (kinds ts)) : Arranged false (kinds (bracketed o c (commaSeparated items))) := by
  have hbracketed : Arranged false (o :: (kinds (commaSeparated items) ++ [c])) :=
    .bracketed hoc (arranged_commaSeparated h)
  rw [bracketed, kinds, List.map_cons, List.map_append]
  exact hbracketed

theorem arranged_callTokens (name : String) {args : List (List Lexeme)}
    (h : ∀ ts ∈ args, Arranged true (kinds ts)) : Arranged false (kinds (callTokens name args)) :=
  .plain (by decide) ((arranged_single (by decide) name).append (arranged_bracketed rfl h))

mutual

theorem arranged_validator : ∀ v : Validator, Arranged false (kinds v.tokens)
  | .call name args => .plain (by decide) (arranged_callTokens name (arranged_arguments args))
  | .method receiver name args => by
    rw [Validator.tokens, kinds_append]
    exact (arranged_validator receiver).append (arranged_callTokens name (arranged_arguments args))

theorem arranged_argument : ∀ a : Argument, Arranged false (kinds a.tokens)
  | .validator v => arranged_validator v
  | .list items => arranged_bracketed rfl (arranged_arguments items)
  | .fields entries => arranged_bracketed rfl (arranged_entries entries)
  | .text _ => arranged_single (by decide) _
  | .number x => arranged_numberTokens x
  | .flag _ => arranged_single (by decide) _
  | .bigInt _ => arranged_single (by decide) _
  | .name _ => arranged_single (by decide) _

theorem arranged_arguments : ∀ args : List Argument, ∀ ts ∈ argumentsTokens args, Arranged true (kinds ts)
  | [] => by simp [argumentsTokens]
  | a :: args => List.forall_mem_cons.mpr ⟨(arranged_argument a).enter, arranged_arguments args⟩

theorem arranged_entries : ∀ entries : List (String × Validator), ∀ ts ∈ entriesTokens entries,
    Arranged true (kinds ts)
  | [] => by simp [entriesTokens]
  | (key, v) :: entries => by
    have hvalue : Arranged true (kinds (sign .colon :: v.tokens)) :=
      .separator (by decide) (arranged_validator v).enter
    exact List.forall_mem_cons.mpr ⟨(arranged_keyToken key).enter.append hvalue, arranged_entries entries⟩

end

/-! ### Marked texts -/

open Validator

/-- A printed validator is scanned as the comment before it, the tokens of its tree and the comment after it. -/
theorem Validator.WellNamed.lexemes_printMarked {v : Validator} (h : v.WellNamed) :
    lexemes v.printMarked = (.blockComment, beginMarker) :: (v.tokens ++ [(.blockComment, endMarker)]) := by
  have hend := scans_comment endMarker_toList (by decide) []
  rw [List.append_nil] at hend
  have hafter : Scans (' ' :: endMarker.toList) [(.blockComment, endMarker)] [] := .space rfl hend
  have hvalidator : Scans (' ' :: (v.chars ++ ' ' :: endMarker.toList)) (v.tokens ++ [(.blockComment, endMarker)]) [] :=
    .space rfl ((h.scans _).trans hafter)
  have hrun := (scans_comment beginMarker_toList (by decide) _).trans hvalidator
  apply lexemes_of_scans
  rw [printMarked_toList, List.append_assoc, List.cons_append, List.append_assoc, List.singleton_append]
  exact hrun

/-- A printed validator is read as its tree says: its tokens are those of the tree between two comments, none of them is a
comment or unknown, every bracket has its partner in the text, and no separator stands outside brackets. -/
theorem printMarked_self_contained {v : Validator} (h : v.WellNamed) :
    lexemes v.printMarked = (.blockComment, beginMarker) :: (v.tokens ++ [(.blockComment, endMarker)]) ∧
      (∀ t ∈ v.tokens, t.1 ≠ .unknown ∧ t.1.isComment = false) ∧ Sealed (kinds (lexemes v.printMarked)) := by
  have harranged := arranged_validator v
  refine ⟨h.lexemes_printMarked, ?_, ?_⟩
  · intro t ht
    exact harranged.known t.1 (List.mem_map_of_mem ht)
  · rw [h.lexemes_printMarked, kinds, List.map_cons, List.map_append]
    exact harranged.between_comments

/-- An object with a key that is no identifier, a text that looks like the end of a comment, and a negative number. -/
def awkwardObject : Validator :=
  .method (.call "object" [.fields
    [("a-b", .call "literal" [.text "*/ \"(["]), ("c", .call "literal" [.number ⟨0xBFE0000000000000⟩])]]) "nullable" []

theorem awkwardObject_wellNamed : awkwardObject.WellNamed := by
  refine .method (.call (by decide) ?_) (by decide) (by simp)
  simp only [List.mem_singleton, forall_eq]
  refine .fields ?_
  simp only [List.forall_mem_cons, List.not_mem_nil, false_implies, implies_true, and_true]
  refine ⟨.call (by decide) ?_, .call (by decide) ?_⟩
  · simp only [List.mem_singleton, forall_eq]
    exact .text _
  · simp only [List.mem_singleton, forall_eq]
    exact .number _

theorem awkwardObject_self_contained :
    awkwardObject.WellNamed ∧
      lexemes awkwardObject.printMarked =
        (.blockComment, beginMarker) :: (awkwardObject.tokens ++ [(.blockComment, endMarker)]) ∧
      awkwardObject.tokens.map (·.2) =
        ["z", ".", "object", "(", "\x7b", "\"a-b\"", ":", "z", ".", "literal", "(", "\"*/ \\\"([\"", ")", ",",
          "c", ":", "z", ".", "literal", "(", "-", "0.5", ")", "\x7d", ")", ".", "nullable", "(", ")"] ∧
      Sealed (kinds (lexemes awkwardObject.printMarked)) := by
  obtain ⟨hlexemes, -, hsealed⟩ := printMarked_self_contained awkwardObject_wellNamed
  exact ⟨awkwardObject_wellNamed, hlexemes, by decide +kernel, hsealed⟩

end SchemaSplice
