import SchemaSplice.Proofs.Grammar.Spelling
/-!
# Files that spell tokens

Where a file spells a phrase, each of its opening brackets is matched with the bracket that closes it in the phrase. A text that
begins with the spelling of a type makes a file that spells the tokens of the type.
-/

namespace SchemaSplice.Source

open Annotation

/-! ### Pairs of a phrase -/

theorem Phrase.balanced {ws : List Lexeme} (h : Phrase ws) : Balanced (ws.map (·.1)) := by
  induction h with
  | nil => exact .nil
  | plain _ hopens hcloses _ ih => exact .plain hopens hcloses ih
  | between hoc _ _ ih ih' =>
    rw [List.cons_append, List.map_cons, List.map_append, List.map_cons]
    exact .between hoc ih ih'

/-! ### Spelled tokens -/

namespace File

/-- The tokens of a file from token `q` on begin with given ones. -/
def Spells (f : File) (q : Nat) (ws : List Lexeme) : Prop := ws <+: (f.tokens.toList.map Token.lexeme).drop q

variable {f : File} {q : Nat} {w : Lexeme} {ws vs : List Lexeme}

theorem Spells.left (h : f.Spells q (ws ++ vs)) : f.Spells q ws := (List.prefix_append ws vs).trans h

theorem Spells.right (h : f.Spells q (ws ++ vs)) : f.Spells (q + ws.length) vs := by
  obtain ⟨rest, hrest⟩ := h
  refine ⟨rest, ?_⟩
  rw [← List.drop_drop, ← hrest, List.append_assoc, List.drop_left]

theorem Spells.head (h : f.Spells q (w :: ws)) : f.tokens[q]?.map Token.lexeme = some w := by
  obtain ⟨rest, hrest⟩ := h
  have hget : ((f.tokens.toList.map Token.lexeme).drop q)[0]? = some w := by
    rw [← hrest]
    rfl
  rw [List.getElem?_drop, Nat.add_zero, List.getElem?_map, Array.getElem?_toList] at hget
  exact hget

theorem Spells.tail (h : f.Spells q (w :: ws)) : f.Spells (q + 1) ws :=
  Spells.right (show f.Spells q ([w] ++ ws) from h)

theorem Spells.kind? (h : f.Spells q (w :: ws)) : f.kind? q = some w.1 := by
  obtain ⟨t, ht, rfl⟩ := Option.map_eq_some_iff.mp h.head
  rw [File.kind?, ht]
  rfl

theorem Spells.hasKind (h : f.Spells q (w :: ws)) (k : Kind) : f.hasKind q k = (w.1 == k) := by
  rw [File.hasKind, h.kind?]
  exact Bool.eq_iff_iff.mpr (by simp)

theorem Spells.tokenText (h : f.Spells q (w :: ws)) : f.tokenText q = w.2 := by
  obtain ⟨t, ht, rfl⟩ := Option.map_eq_some_iff.mp h.head
  rw [File.tokenText, ht]
  rfl

theorem Spells.length_le (h : f.Spells q ws) (hne : ws ≠ []) : q + ws.length ≤ f.size := by
  have hle := List.IsPrefix.length_le h
  have hpos := List.length_pos_iff.mpr hne
  have hsize : f.tokens.toList.length = f.tokens.size := Array.length_toList
  rw [List.length_drop, List.length_map, hsize] at hle
  unfold File.size
  omega

/-- A spelled bracket is closed where the balanced tokens after it end. -/
theorem IsRead.closer?_of_balanced (hf : f.IsRead) {o c : Kind} (hoc : o.closer? = some c)
    (h : f.Spells q (sign o :: ws ++ sign c :: vs)) (hws : Balanced (ws.map (·.1))) :
    ∃ hc, f.closer? q = some ⟨q + 1 + ws.length, hc⟩ := by
  have hbound := h.length_le (by simp)
  simp only [List.length_append, List.length_cons] at hbound
  have hq : q ≤ (f.tokens.toList.map Token.lexeme).length := by
    rw [List.length_map, Array.length_toList]
    unfold File.size at hbound
    omega
  obtain ⟨rest, hrest⟩ := h
  have hkinds : f.tokens.toList.map Token.kind =
      ((f.tokens.toList.map Token.lexeme).take q).map (·.1) ++
        (o :: (ws.map (·.1) ++ c :: (vs ++ rest).map (·.1))) := by
    have hsplit := congrArg (List.map (·.1)) (List.take_append_drop q (f.tokens.toList.map Token.lexeme))
    rw [← hrest, List.map_map] at hsplit
    rw [show Token.kind = (fun w : Lexeme => w.1) ∘ Token.lexeme from rfl, ← hsplit]
    simp [sign]
  have hpair := mem_pairs_of_balanced (((f.tokens.toList.map Token.lexeme).take q).map (·.1)) ((vs ++ rest).map (·.1))
    hoc hws
  rw [← hkinds, List.length_map, List.length_map, List.length_take_of_le hq] at hpair
  exact hf.closer?_of_mem_pairs hpair

theorem IsRead.closer?_of_spells (hf : f.IsRead) {o c : Kind} (hoc : o.closer? = some c) (hws : Phrase ws)
    (h : f.Spells q (sign o :: ws ++ sign c :: vs)) : ∃ hc, f.closer? q = some ⟨q + 1 + ws.length, hc⟩ :=
  hf.closer?_of_balanced hoc h hws.balanced

end File

/-! ### Spelled files -/

/-- What may follow a type: spaces, and then nothing or a semicolon and anything. -/
def ending (spaces : Nat) (rest? : Option String) : String :=
  String.ofList (List.replicate spaces ' ' ++ (rest?.map fun rest => ';' :: rest.toList).getD [])

theorem stops_ending (spaces : Nat) (rest? : Option String) : Stops (ending spaces rest?).toList := by
  rw [ending, String.toList_ofList]
  cases spaces with
  | zero =>
    cases rest? with
    | none => exact .nil
    | some rest => exact .semi _
  | succ n => exact .space _

/-- The first significant token of what follows a type is a semicolon, if there is one. -/
theorem scanFrom_ending (start spaces : Nat) (rest? : Option String) :
    (((scanFrom start (ending spaces rest?).toList).filter (!·.kind.isComment)).head?.map Token.kind) =
      rest?.map fun _ => .semi := by
  rw [ending, String.toList_ofList]
  induction spaces generalizing start with
  | zero =>
    cases rest? with
    | none =>
      rw [scanFrom.eq_def]
      rfl
    | some rest =>
      show ((List.filter _ (scanFrom start (';' :: rest.toList))).head?.map Token.kind) = some .semi
      rw [scanFrom_cons_of_not_space rfl, List.filter_cons_of_pos rfl]
      rfl
  | succ n ih =>
    rw [List.replicate_succ, List.cons_append, scanFrom_cons_space rfl]
    exact ih _

/-- A text that begins with spelled tokens makes a file that spells them. -/
theorem spells_of_written {ws : List Lexeme} (h : Phrase ws) (path : String) (spaces : Nat) (rest? : Option String) :
    (File.parse path (" ".intercalate (ws.map (·.2)) ++ ending spaces rest?)).Spells 0 ws ∧
      (File.parse path (" ".intercalate (ws.map (·.2)) ++ ending spaces rest?)).kind? ws.length =
        rest?.map fun _ => .semi := by
  have hstops := stops_ending spaces rest?
  obtain ⟨front, hscan, hfront, -⟩ := scanFrom_of_scans (scans_spelled h.steady hstops) 0
  have hsignificant : front.filter (!·.kind.isComment) = front := by
    apply List.filter_eq_self.mpr
    intro t ht
    have hsteady := h.steady t.lexeme (by rw [← hfront]; exact List.mem_map_of_mem ht)
    rw [Bool.not_eq_true']
    exact hsteady.significant
  generalize hstart : 0 + Text.byteCount (" ".intercalate (ws.map (·.2))).toList = start at hscan
  have htokens : (File.parse path (" ".intercalate (ws.map (·.2)) ++ ending spaces rest?)).tokens.toList =
      front ++ (scanFrom start (ending spaces rest?).toList).filter (!·.kind.isComment) := by
    rw [parse_tokens, scan, String.toList_append, hscan, List.filter_append, hsignificant]
  constructor
  · rw [File.Spells, htokens, List.map_append, hfront]
    exact List.prefix_append _ _
  · have hlength : front.length = ws.length := by rw [← hfront, List.length_map]
    rw [File.kind?, ← Array.getElem?_toList, htokens, ← hlength, List.getElem?_append_right (Nat.le_refl _),
      Nat.sub_self, ← List.head?_eq_getElem?, scanFrom_ending]

end SchemaSplice.Source
