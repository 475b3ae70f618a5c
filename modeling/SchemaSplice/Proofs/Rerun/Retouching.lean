import SchemaSplice.Proofs.Rerun.Orderly
import SchemaSplice.Proofs.Rerun.Reindexing
import SchemaSplice.Proofs.Rerun.Spots
/-!
# A file that a pass edits

The text that a pass gives a file is cut into pieces, and each edit stands at the spot of a finding or is the import. There is a token
between any two of them.
-/

namespace SchemaSplice.Import

open Source

/-- The token before which an import is added. -/
def place (f : File) : Nat :=
  match (statements f).getLast? with
  | some last => last.last + 1
  | none => directivesEnd f 0

variable {f : File} {source : String} {e : Edit} {n : Nat}

theorem place_le_of_directives (hnone : statements f = []) : place f = directivesEnd f 0 := by
  rw [place, hnone]
  rfl

/-- The position of an import tells how many tokens stand before it. -/
theorem Inserts.cutsAt (hf : f.IsRead) (h : Inserts f source e) (hword : ∃ root, f.hasKind root .ident = true)
    (hn : f.CutsAt n e.span.start) : n = place f := by
  cases h with
  | @afterLast last hlast =>
    rw [place, hlast]
    exact hn.of_stop hf (mayEnd_last_of_mem_statementsFrom 0 last (List.mem_of_getLast? hlast)).lt_size
  | afterDirectives hnone =>
    obtain ⟨root, hroot⟩ := hword
    rw [place_le_of_directives hnone]
    exact hn.of_start hf (Nat.lt_of_le_of_lt (directivesEnd_le hroot (Nat.zero_le root)) (File.lt_size_of_hasKind hroot))

theorem Inserts.span (h : Inserts f source e) : e.span.stop = e.span.start := by
  cases h <;> rfl

/-- A semicolon or a string stands before the import, if anything does. -/
theorem place_before (f : File) : place f = 0 ∨ ∃ j, place f = j + 1 ∧ (f.hasKind j .semi = true ∨ f.hasKind j .str = true) := by
  unfold place
  split
  · next last hlast =>
    refine Or.inr ⟨last.last, rfl, ?_⟩
    exact (mayEnd_last_of_mem_statementsFrom 0 last (List.mem_of_getLast? hlast)).imp id And.left
  · exact (semi_before_directivesEnd (f := f) 0).imp id fun ⟨j, hj, hsemi⟩ => ⟨j, hj, Or.inl hsemi⟩

end SchemaSplice.Import

namespace SchemaSplice.Pass

open Source SchemaSplice.Types Annotation Declaration Chain

/-- What holds of the findings of a file that a pass edits, and of the import that it adds. -/
structure Touched (f : File) (words : List String) (source : String) (xs : List Finding) (imported : Option Edit) : Prop where
  read : f.IsRead
  plain : PlainSource source
  located : ∀ x ∈ xs, Located f x
  roots : xs.Pairwise fun x y => x.procedure.root < y.procedure.root
  named : ∀ x ∈ xs, ∃ w ∈ words, f.word? x.procedure.root = some w
  terminals : ∀ x ∈ xs, x.procedure.terminal.name = "query" ∨ x.procedure.terminal.name = "mutation"
  unentangled : ∀ c ∈ chains f words, ∀ s ∈ c.2, ¬s.Overruns f
  dots : ∀ x ∈ xs, ∀ d, x.strategy.insertsAt? = some d → f.hasKind d .dot = true
  arguments : ∀ x ∈ xs, x.changes f = true → ∀ o, x.strategy = .replaceOutput o → ∀ i w, o.Holds i → f.word? i = some w →
    w ∉ words ∧ w ∉ declarers
  validators : ∀ x ∈ xs, ClosedOrderly x.validator.chars
  tame : ∀ x ∈ xs, Tame x.validator.chars
  inserts : ∀ e, imported = some e → Import.Inserts f source e ∧ xs ≠ []
  before : imported.isSome = true → ∀ i < Import.place f, ∀ w ∈ words, f.word? i = some w →
    f.hasKind (i + 1) .dot = false ∧ f.hasKind (i + 1) .questionDot = false

def editsOf (f : File) (xs : List Finding) (imported : Option Edit) : List Edit :=
  (Progress.of f xs).edits ++ imported.toList

/-- The spot of an edit, from one token to another. -/
inductive Spot (f : File) (xs : List Finding) (imported : Option Edit) (e : Edit) : Nat → Nat → Prop
  | replaced {x : Finding} {o : Segment} (hx : x ∈ xs) (hchanges : x.changes f = true)
    (hs : x.strategy = .replaceOutput o) (he : (x.splice f).edit = e) : Spot f xs imported e (o.lparen + 1) o.rparen
  | inserted {x : Finding} {d : Nat} (hx : x ∈ xs) (hat : x.strategy.insertsAt? = some d) (he : (x.splice f).edit = e) :
    Spot f xs imported e d d
  | added (he : imported = some e) : Spot f xs imported e (Import.place f) (Import.place f)

variable {f : File} {words : List String} {source out : String} {xs : List Finding} {imported : Option Edit}
  {x y : Finding} {o s t : Segment} {d n : Nat} {e : Edit} {front back : List Piece} {p : Piece} {ps : List Piece}
  {last : List Glyph}

namespace Touched

theorem mem_chains (h : Touched f words source xs imported) (hx : x ∈ xs) :
    (x.procedure.root, x.procedure.segments) ∈ chains f words := by
  have hlocated := h.located x hx
  rw [mem_chains_iff, chainFrom?_eq_some_iff]
  refine ⟨h.named x hx, ?_, by rw [hlocated.segments]⟩
  rw [← hlocated.segments]
  exact List.ne_nil_of_mem hlocated.terminal

theorem unentangled_finding (h : Touched f words source xs imported) (hx : x ∈ xs) : Unentangled x f :=
  h.unentangled _ (h.mem_chains hx)

theorem root_lt_cutFrom (h : Touched f words source xs imported) (hx : x ∈ xs) :
    x.procedure.root < x.strategy.cutFrom ∧ x.strategy.cutFrom ≤ x.strategy.cutTo := by
  have hlocated := h.located x hx
  have hmem := hlocated.call_mem
  rw [hlocated.segments] at hmem
  obtain ⟨hmatched, hle, hlt⟩ := matched_of_mem_segmentsFrom _ hmem
  have hbounds := (hlocated.callAt hlocated.call_mem).lt
  cases hs : x.strategy with
  | insertAfterInput input =>
    rw [hs] at hle hlt hbounds
    simp only [Strategy.call, Strategy.cutFrom, Strategy.cutTo] at *
    omega
  | replaceOutput output =>
    rw [hs] at hle hlt hbounds
    simp only [Strategy.call, Strategy.cutFrom, Strategy.cutTo] at *
    omega
  | insertBeforeTerminal terminal =>
    rw [hs] at hle hlt hbounds
    simp only [Strategy.call, Strategy.cutFrom, Strategy.cutTo] at *
    omega

/-- The procedures stand behind the import. -/
theorem place_le_root (h : Touched f words source xs imported) (himport : imported.isSome = true) (hx : x ∈ xs) :
    Import.place f ≤ x.procedure.root := by
  apply Nat.le_of_not_lt
  intro hlt
  obtain ⟨w, hw, hroot⟩ := h.named x hx
  obtain ⟨hdot, hquestion⟩ := h.before himport _ hlt w hw hroot
  have hlocated := h.located x hx
  have hterminal := hlocated.terminal
  rw [hlocated.segments, segmentsFrom_of_not_dot (by rw [hdot, hquestion]; rfl)] at hterminal
  cases hterminal

theorem exists_word (h : Touched f words source xs imported) (himport : imported = some e) :
    ∃ root, f.hasKind root .ident = true := by
  obtain ⟨-, hne⟩ := h.inserts e himport
  obtain ⟨x, hx⟩ := List.exists_mem_of_ne_nil xs hne
  exact ⟨_, (h.located x hx).root⟩

theorem anchored (h : Touched f words source xs imported) : ∀ e ∈ editsOf f xs imported, Anchored f.text e := by
  intro e he
  rcases List.mem_append.mp he with he | he
  · obtain ⟨x, hx, -, rfl⟩ := mem_edits he
    have hlocated := h.located x hx
    exact anchored_splice h.read (fun s hs => hlocated.isCall h.read hs) hlocated.terminal (h.tame x hx)
  · cases himport : imported with
    | none => rw [himport] at he; cases he
    | some e' =>
      rw [himport, Option.toList_some, List.mem_singleton] at he
      subst he
      obtain ⟨root, hroot⟩ := h.exists_word himport
      have hlt := Nat.lt_of_le_of_lt (directivesEnd_le hroot (Nat.zero_le root)) (File.lt_size_of_hasKind hroot)
      exact anchored_import h.read h.plain (Or.inr hlt) (h.inserts _ himport).1

/-! ### Spots -/

theorem exists_spot (h : Touched f words source xs imported) (he : e ∈ editsOf f xs imported) :
    ∃ a b, Spot f xs imported e a b ∧ (∀ n, f.CutsAt n e.span.start → n = a) ∧ ∀ n, f.CutsAt n e.span.stop → n = b := by
  rcases List.mem_append.mp he with he | he
  · obtain ⟨x, hx, hchanges, rfl⟩ := mem_edits he
    have hcuts := fun n => (h.located x hx).cuts (n := n) h.read
    cases hat : x.strategy.insertsAt? with
    | some d =>
      obtain ⟨hfrom, hto⟩ := Strategy.cuts_of_insertsAt? hat
      rw [hfrom, hto] at hcuts
      exact ⟨d, d, .inserted hx hat rfl, fun n => (hcuts n).1, fun n => (hcuts n).2⟩
    | none =>
      obtain ⟨o, ho⟩ := Strategy.eq_replaceOutput hat
      rw [ho] at hcuts
      exact ⟨_, _, .replaced hx hchanges ho rfl, fun n => (hcuts n).1, fun n => (hcuts n).2⟩
  · cases himport : imported with
    | none => rw [himport] at he; cases he
    | some e' =>
      rw [himport, Option.toList_some, List.mem_singleton] at he
      subst he
      obtain ⟨hinserts, -⟩ := h.inserts e himport
      have hcuts := fun n => hinserts.cutsAt (n := n) h.read (h.exists_word himport)
      exact ⟨_, _, .added rfl, hcuts, fun n hn => hcuts n (hinserts.span ▸ hn)⟩

def SetApart (f : File) (e e' : Edit) : Prop :=
  ∀ n, ¬(f.CutsAt n e.span.stop ∧ f.CutsAt n e'.span.start) ∧ ¬(f.CutsAt n e'.span.stop ∧ f.CutsAt n e.span.start)

theorem setApart (h : Touched f words source xs imported) : (editsOf f xs imported).Pairwise (SetApart f) := by
  refine List.pairwise_append.mpr ⟨?_, ?_, ?_⟩
  · rw [edits_of, List.pairwise_map]
    refine (h.roots.sublist List.filter_sublist).imp_of_mem fun {x y} hx hy hlt => ?_
    have hx := List.mem_of_mem_filter hx
    have hy := List.mem_of_mem_filter hy
    have hne : ∀ {x y : Finding}, x ∈ xs → y ∈ xs → x.procedure.root ≠ y.procedure.root →
        x.strategy.cutTo ≠ y.strategy.cutFrom := fun hx hy hne =>
      cutTo_ne_cutFrom h.read (h.located _ hx) (h.located _ hy) (h.unentangled_finding hx) (h.unentangled_finding hy) hne
        (h.dots _ hy)
    intro n
    have hcutsx := (h.located x hx).cuts (n := n) h.read
    have hcutsy := (h.located y hy).cuts (n := n) h.read
    constructor
    · rintro ⟨hstop, hstart⟩
      exact hne hx hy (Nat.ne_of_lt hlt) ((hcutsx.2 hstop).symm.trans (hcutsy.1 hstart))
    · rintro ⟨hstop, hstart⟩
      exact hne hy hx (Nat.ne_of_gt hlt) ((hcutsy.2 hstop).symm.trans (hcutsx.1 hstart))
  · cases imported <;> simp
  · intro e he e' he'
    obtain ⟨x, hx, -, rfl⟩ := mem_edits he
    have himport : imported = some e' := by simpa using he'
    obtain ⟨hinserts, -⟩ := h.inserts e' himport
    have hle := h.place_le_root (by rw [himport]; rfl) hx
    have hlt := h.root_lt_cutFrom hx
    intro n
    have hcuts := (h.located x hx).cuts (n := n) h.read
    have hcuts' := hinserts.cutsAt (n := n) h.read (h.exists_word himport)
    constructor
    · rintro ⟨hstop, hstart⟩
      have := hcuts.2 hstop
      have := hcuts' hstart
      omega
    · rintro ⟨hstop, hstart⟩
      have := hcuts.1 hstart
      have := hcuts' (hinserts.span ▸ hstop)
      omega

end Touched

/-! ### Pieces -/

/-- How many tokens stand before the end of an edit. -/
theorem length_wordsOf_old (front : List Piece) (p : Piece) :
    (wordsOf (glue Piece.old front p.kept ++ p.old)).length =
      (wordsOf (glue Piece.old front p.kept)).length + (wordsOf p.old).length := by
  rw [wordsOf_append, List.length_append]

/-- A text that is cut into pieces by the edits of a pass. -/
structure Retouched (f : File) (xs : List Finding) (imported : Option Edit) (out : String) (ps : List Piece)
    (last : List Glyph) : Prop where
  cut : CutUp 0 f.text.toList out.toList ((editsOf f xs imported).mergeSort Edit.le) ps last
  apart : Apart ps
  spot : ∀ front p back, ps = front ++ p :: back →
    Spot f xs imported p.edit (wordsOf (glue Piece.old front p.kept)).length
      (wordsOf (glue Piece.old front p.kept ++ p.old)).length

/-- The tokens before the ends of an edit. -/
theorem cutsAt_of_cutUp {edits : List Edit} (h : CutUp 0 f.text.toList out.toList edits ps last) (hps : ps = front ++ p :: back) :
    f.CutsAt (wordsOf (glue Piece.old front p.kept)).length p.edit.span.start ∧
      f.CutsAt (wordsOf (glue Piece.old front p.kept ++ p.old)).length p.edit.span.stop := by
  have hspan := h.span front p back hps
  have hold := h.old
  rw [hps, glue_append] at hold
  rw [hspan]
  refine ⟨⟨_, _, hold, (Nat.zero_add _).symm, rfl⟩, ⟨_, glue Piece.old back last, ?_, (Nat.zero_add _).symm, rfl⟩⟩
  rw [hold, List.append_assoc]

theorem Touched.exists_retouched (h : Touched f words source xs imported)
    (happlied : applyEdits f.text (editsOf f xs imported) = .ok out) :
    ∃ ps last, Retouched f xs imported out ps last := by
  obtain ⟨ps, last, hcut⟩ := exists_cutUp h.anchored happlied
  have hsymm : ∀ {e e' : Edit}, Touched.SetApart f e e' → Touched.SetApart f e' e := fun h n => (h n).symm
  have hapart : (ps.map Piece.edit).Pairwise (Touched.SetApart f) := by
    rw [hcut.edits]
    exact (List.mergeSort_perm _ _).pairwise_iff (fun {_ _} => hsymm) |>.mpr h.setApart
  refine ⟨ps, last, hcut, ?_, ?_⟩
  · intro q hq
    obtain ⟨front, p, back, hps⟩ : ∃ front p back, ps = front ++ p :: q :: back := by
      cases ps with
      | nil => cases hq
      | cons p ps =>
        obtain ⟨front, back, hps⟩ := List.append_of_mem hq
        rw [List.tail_cons] at hps
        rcases List.eq_nil_or_concat front with rfl | ⟨front, p', rfl⟩
        · exact ⟨[], p, back, by rw [hps]; rfl⟩
        · exact ⟨p :: front, p', back, by rw [hps]; simp⟩
    intro hnone
    obtain ⟨-, hstop⟩ := cutsAt_of_cutUp hcut hps
    have hps' : ps = front ++ [p] ++ q :: back := by rw [hps, List.append_assoc, List.singleton_append]
    obtain ⟨hstart, -⟩ := cutsAt_of_cutUp hcut hps'
    have hlength : (wordsOf (glue Piece.old (front ++ [p]) q.kept)).length =
        (wordsOf (glue Piece.old front p.kept ++ p.old)).length := by
      rw [glue_append, wordsOf_append, wordsOf_append, glue, hnone, List.append_nil, wordsOf_append]
    rw [hlength] at hstart
    rw [hps, List.map_append, List.map_cons, List.map_cons, List.pairwise_append] at hapart
    have hpq := List.rel_of_pairwise_cons hapart.2.1 List.mem_cons_self
    exact (hpq _).1 ⟨hstop, hstart⟩
  · intro front p back hps
    have hmem : p.edit ∈ editsOf f xs imported := by
      have hmem : p.edit ∈ ps.map Piece.edit := List.mem_map_of_mem (by rw [hps]; simp)
      rw [hcut.edits] at hmem
      exact List.mem_mergeSort.mp hmem
    obtain ⟨a, b, hspot, hstart, hstop⟩ := h.exists_spot hmem
    obtain ⟨hcutStart, hcutStop⟩ := cutsAt_of_cutUp hcut hps
    rw [hstart _ hcutStart, hstop _ hcutStop]
    exact hspot

end SchemaSplice.Pass
