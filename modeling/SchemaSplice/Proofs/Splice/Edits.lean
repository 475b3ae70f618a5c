import SchemaSplice.Proofs.Splice.Printed
import SchemaSplice.Source.Edit
/-!
# Tokens after edits

An edit is anchored in a text if both ends of its span are stops of the scanner, its own text is scanned on its own
and the last token before it stays as it is. Making anchored edits splices their tokens into those of the text: each
edit's tokens take the place of the tokens inside its span, and every other token is kept.
-/

namespace SchemaSplice.Source

/-- The tokens after edits: those of each edit's text instead of those inside its span. -/
def spliced : List Token → List Edit → List (Kind × String)
  | ts, [] => ts.map Token.lexeme
  | ts, e :: es =>
    let before := ts.takeWhile (·.start < e.span.start)
    let after := ts.dropWhile (·.start < e.span.start)
    before.map Token.lexeme ++ lexemes e.text ++ spliced (after.dropWhile (·.stop ≤ e.span.stop)) es

theorem spliced_cons (ts : List Token) (e : Edit) (es : List Edit) :
    spliced ts (e :: es) =
      (ts.takeWhile (·.start < e.span.start)).map Token.lexeme ++ lexemes e.text ++
        spliced ((ts.dropWhile (·.start < e.span.start)).dropWhile (·.stop ≤ e.span.stop)) es := rfl

/-- An edit whose place in a text is marked by tokens. -/
structure Anchored (text : String) (e : Edit) : Prop where
  selfContained : SelfContained e.text.toList
  cuts : ∃ (x d rest : List Char) (before inside : List (Kind × String)),
    text.toList = x ++ (d ++ rest) ∧ Text.byteCount x = e.span.start ∧
      Text.byteCount (x ++ d) = e.span.stop ∧ Scans text.toList before (d ++ rest) ∧
      Scans (d ++ rest) inside rest ∧
      ∀ t, before.getLast? = some t → ∀ r, Seam (d ++ rest) (e.text.toList ++ r) t.1

/-! ### Cutting texts -/

theorem append_inj_of_byteCount {x x' rest rest' : List Char} (h : x ++ rest = x' ++ rest')
    (hcount : Text.byteCount x = Text.byteCount x') : x = x' ∧ rest = rest' := by
  have hcut := Text.splitAt?_byteCount x rest
  rw [h, hcount, Text.splitAt?_byteCount x' rest'] at hcut
  simp only [Option.some.injEq, Prod.mk.injEq] at hcut
  exact ⟨hcut.1.symm, hcut.2.symm⟩

theorem sliceChars?_eq_some {x rest k : List Char} {stop : Nat}
    (h : Text.sliceChars? (x ++ rest) (Text.byteCount x) stop = some k) :
    ∃ rest', rest = k ++ rest' ∧ Text.byteCount (x ++ k) = stop := by
  unfold Text.sliceChars? at h
  split at h
  · next hle =>
    rw [Text.splitAt?_byteCount] at h
    obtain ⟨⟨a, b⟩, hsplit, rfl⟩ := Option.map_eq_some_iff.mp h
    obtain ⟨happ, hcount⟩ := Text.splitAt?_eq_some hsplit
    refine ⟨b, happ.symm, ?_⟩
    rw [Text.byteCount_append, hcount]
    omega
  · cases h

/-- The rest of a text, read off as a slice. -/
theorem sliceChars?_rest (x rest : List Char) :
    Text.sliceChars? (x ++ rest) (Text.byteCount x) (Text.byteCount (x ++ rest)) = some rest := by
  have hsplit := Text.splitAt?_byteCount rest []
  rw [List.append_nil] at hsplit
  unfold Text.sliceChars?
  rw [Text.byteCount_append, if_pos (Nat.le_add_right _ _), Text.splitAt?_byteCount]
  simp only [Nat.add_sub_cancel_left, hsplit, Option.map_some]

/-! ### Tokens by position -/

theorem takeWhile_scanFrom {k rest : List Char} {ts : List (Kind × String)} (start : Nat)
    (h : Scans (k ++ rest) ts rest) :
    ((scanFrom start (k ++ rest)).takeWhile (·.start < start + Text.byteCount k)).map Token.lexeme = ts ∧
      (scanFrom start (k ++ rest)).dropWhile (·.start < start + Text.byteCount k) =
        scanFrom (start + Text.byteCount k) rest := by
  obtain ⟨front, hscan, hlexemes, hstop⟩ := scanFrom_of_scans h start
  have hfront : ∀ t ∈ front, decide (t.start < start + Text.byteCount k) = true := by
    intro t ht
    have hmem : t ∈ scanFrom start (k ++ rest) := by
      rw [hscan]
      exact List.mem_append_left _ ht
    have hpos := (le_start_of_mem_scanFrom hmem).2
    have hle := hstop t ht
    rw [decide_eq_true_eq]
    omega
  have hback : ∀ t ∈ scanFrom (start + Text.byteCount k) rest,
      decide (t.start < start + Text.byteCount k) = false := by
    intro t ht
    have hle := (le_start_of_mem_scanFrom ht).1
    rw [decide_eq_false_iff_not]
    omega
  rw [hscan, List.takeWhile_append_of_pos hfront, List.dropWhile_append_of_pos hfront]
  generalize scanFrom (start + Text.byteCount k) rest = back at hback ⊢
  cases back with
  | nil => exact ⟨by simpa using hlexemes, rfl⟩
  | cons t back =>
    have ht := hback t List.mem_cons_self
    simp only [List.takeWhile_cons, List.dropWhile_cons, ht, Bool.false_eq_true, if_false, List.append_nil]
    exact ⟨hlexemes, trivial⟩

theorem dropWhile_stop_scanFrom {d rest : List Char} {ts : List (Kind × String)} (start : Nat)
    (h : Scans (d ++ rest) ts rest) :
    (scanFrom start (d ++ rest)).dropWhile (·.stop ≤ start + Text.byteCount d) =
      scanFrom (start + Text.byteCount d) rest := by
  obtain ⟨front, hscan, -, hstop⟩ := scanFrom_of_scans h start
  have hfront : ∀ t ∈ front, decide (t.stop ≤ start + Text.byteCount d) = true := by
    intro t ht
    rw [decide_eq_true_eq]
    exact hstop t ht
  have hback : ∀ t ∈ scanFrom (start + Text.byteCount d) rest,
      decide (t.stop ≤ start + Text.byteCount d) = false := by
    intro t ht
    have hpos := le_start_of_mem_scanFrom ht
    rw [decide_eq_false_iff_not]
    omega
  rw [hscan, List.dropWhile_append_of_pos hfront]
  generalize scanFrom (start + Text.byteCount d) rest = back at hback ⊢
  cases back with
  | nil => rfl
  | cons t back =>
    have ht := hback t List.mem_cons_self
    simp only [List.dropWhile_cons, ht, Bool.false_eq_true, if_false]

/-! ### Making edits -/

/-- Copying a text with anchored edits from a stop of the scanner on. -/
theorem scans_copyFrom {text : String} {edits : List Edit} (hedits : ∀ e ∈ edits, Anchored text e)
    {x rest : List Char} {front : List (Kind × String)} (htext : text.toList = x ++ rest)
    (hstop : Scans text.toList front rest) {out : List Char}
    (h : copyFrom text.toList (Text.byteCount x) edits = some out) :
    Scans out (spliced (scanFrom (Text.byteCount x) rest) edits) [] := by
  induction edits generalizing x rest front out with
  | nil =>
    unfold copyFrom at h
    rw [htext, sliceChars?_rest, Option.some.injEq] at h
    subst h
    exact scans_scanFrom _ _
  | cons e es ih =>
    unfold copyFrom at h
    obtain ⟨kept, hkept, h⟩ := Option.bind_eq_some_iff.mp h
    obtain ⟨tail, htail, h⟩ := Option.bind_eq_some_iff.mp h
    simp only [Option.pure_def, Option.some.injEq] at h
    subst h
    obtain ⟨hself, xe, d, reste, before, inside, hcut, hstart, hend, hbefore, hinside, hseam⟩ :=
      hedits e List.mem_cons_self
    rw [htext] at hkept
    obtain ⟨rest', rfl, hcount⟩ := sliceChars?_eq_some hkept
    -- The kept piece ends where the edit begins.
    obtain ⟨rfl, rfl⟩ : x ++ kept = xe ∧ rest' = d ++ reste := by
      apply append_inj_of_byteCount
      · rw [List.append_assoc, ← htext, hcut]
      · rw [hcount, hstart]
    obtain ⟨vs, hpiece, rfl⟩ := hstop.between hbefore
    have hafter : text.toList = (x ++ kept ++ d) ++ reste := by
      rw [hcut]
      simp only [List.append_assoc]
    rw [← hend] at htail
    have htail' := ih (fun e' he' => hedits e' (List.mem_cons_of_mem _ he')) hafter
      (hbefore.trans hinside) htail
    have hpiece' : Scans (kept ++ (e.text.toList ++ tail)) vs (e.text.toList ++ tail) := by
      apply hpiece.replace
      intro t ht
      apply hseam
      rw [List.getLast?_append, ht]
      rfl
    have htokens := takeWhile_scanFrom (Text.byteCount x) hpiece
    rw [← Text.byteCount_append, hcount] at htokens
    have hdropped := dropWhile_stop_scanFrom (e.span.start) hinside
    rw [← hstart, ← Text.byteCount_append, hend, hstart] at hdropped
    have hspliced : spliced (scanFrom (Text.byteCount x) (kept ++ (d ++ reste))) (e :: es) =
        vs ++ lexemes e.text ++ spliced (scanFrom e.span.stop reste) es := by
      rw [spliced_cons, htokens.1, htokens.2, hdropped]
    rw [hend] at htail'
    rw [hspliced, List.append_assoc, List.append_assoc]
    exact hpiece'.trans ((hself.scans_lexemes tail).trans htail')

/-- Making anchored edits splices tokens. -/
theorem lexemes_applyEdits {text out : String} {edits : List Edit}
    (hedits : ∀ e ∈ edits, Anchored text e) (h : applyEdits text edits = .ok out) :
    lexemes out = spliced (scan text) (edits.mergeSort Edit.le) := by
  unfold applyEdits at h
  simp only at h
  split at h
  · cases h
  split at h
  · next cs hcopy =>
    cases h
    have hanchored : ∀ e ∈ edits.mergeSort Edit.le, Anchored text e := by
      intro e he
      exact hedits e (List.mem_mergeSort.mp he)
    have hrun : Scans cs (spliced (scan text) (edits.mergeSort Edit.le)) [] :=
      scans_copyFrom (x := []) hanchored rfl (.stop _) hcopy
    rw [← @String.toList_ofList cs] at hrun
    exact lexemes_of_scans hrun
  · cases h

end SchemaSplice.Source
