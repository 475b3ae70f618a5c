import SchemaSplice.Proofs.Splice.Neat
import SchemaSplice.Proofs.Splice.Sequence
import SchemaSplice.Proofs.Splice.Settled
import SchemaSplice.Proofs.Splice.Walks
/-!
# Rewriting one chain

The edit of a procedure leaves a chain with the same calls and the same texts between their parentheses, but for one
`output` call that has the printed validator between its own. That call is the last `output` of the new chain, so
the edit that the new chain asks for puts the validator where it stands already.
-/

namespace SchemaSplice.Source

/-! ### One edit -/

theorem applyEdits_singleton {text : String} {e : Edit} {x d rest : List Char} (htext : text.toList = x ++ (d ++ rest))
    (hstart : Text.byteCount x = e.span.start) (hstop : Text.byteCount (x ++ d) = e.span.stop) :
    applyEdits text [e] = .ok (String.ofList (x ++ (e.text.toList ++ rest))) := by
  have hkept := sliceChars?_zero x (d ++ rest)
  have hrest := sliceChars?_rest (x ++ d) rest
  rw [List.append_assoc, ← htext, hstop] at hrest
  rw [← htext, hstart] at hkept
  have htail : copyFrom text.toList e.span.stop [] = some rest := hrest
  apply applyEdits_of_ordered (List.pairwise_singleton _ _) rfl
  rw [copyFrom_cons hkept htail, String.toList_ofList, List.append_assoc]

theorem applyEdits_of_keepsText {text : String} {e : Edit} (h : e.keepsText text = true) :
    applyEdits text [e] = .ok text := by
  obtain ⟨k, hslice, hk⟩ := Option.map_eq_some_iff.mp (beq_iff_eq.mp h)
  obtain ⟨u, v, htext, hcount⟩ := exists_prefix_of_sliceChars? hslice
  rw [htext, ← hcount] at hslice
  obtain ⟨w, rfl, hstop⟩ := sliceChars?_eq_some hslice
  rw [applyEdits_singleton htext hcount hstop, ← hk, String.toList_ofList, ← htext, String.ofList_toList]

namespace File

/-- A file and the file after an anchored edit, cut before the edit, and cut after what it replaces. -/
structure Edited (f f' : File) (e : Edit) (x d rest : List Char) (front inside : List Token) : Prop where
  read' : f'.IsRead
  start : Text.byteCount x = e.span.start
  stop : Text.byteCount (x ++ d) = e.span.stop
  cut : f.CutAt x front (d ++ rest)
  cut' : f'.CutAt x front (e.text.toList ++ rest)
  after : f.CutAt (x ++ d) (front ++ inside) rest

theorem IsRead.exists_edited {f : File} (hf : f.IsRead) {e : Edit} (he : Anchored f.text e) :
    ∃ out x d rest front inside, applyEdits f.text [e] = .ok out ∧
      Edited f (File.parse f.path out) e x d rest front inside := by
  obtain ⟨hself, x, d, rest, before, inside, htext, hstart, hstop, hbefore, hinside, hseam⟩ := he
  rw [htext] at hbefore
  have hbefore' : Scans (x ++ (e.text.toList ++ rest)) before (e.text.toList ++ rest) :=
    hbefore.replace fun t ht => hseam t ht rest
  obtain ⟨front, hcut, hcut'⟩ := hf.exists_cuts
    (File.isRead_parse f.path (String.ofList (x ++ (e.text.toList ++ rest)))) htext String.toList_ofList hbefore hbefore'
  obtain ⟨tokens, hafter, -⟩ := hcut.extend hinside
  exact ⟨_, x, d, rest, front, tokens, applyEdits_singleton htext hstart hstop,
    File.isRead_parse _ _, hstart, hstop, hcut, hcut', hafter⟩

end File

end SchemaSplice.Source

namespace SchemaSplice.Chain

open Source Declaration Pass

/-! ### Last calls of a name -/

theorem lastNamed?_eq_some_iff {segments : List Segment} {name : String} {s : Segment} :
    lastNamed? segments name = some s ↔
      ∃ front back, segments = front ++ s :: back ∧ s.name = name ∧ ∀ t ∈ back, t.name ≠ name := by
  unfold lastNamed?
  rw [List.find?_eq_some_iff_append]
  constructor
  · rintro ⟨hname, back, front, hsplit, hback⟩
    refine ⟨front.reverse, back.reverse, ?_, beq_iff_eq.mp hname, ?_⟩
    · rw [← List.reverse_reverse segments, hsplit]
      simp
    · intro t ht
      simpa using hback t (List.mem_reverse.mp ht)
  · rintro ⟨front, back, rfl, rfl, hback⟩
    refine ⟨beq_self_eq_true _, back.reverse, front.reverse, by simp, ?_⟩
    intro t ht
    simpa using hback t (List.mem_reverse.mp ht)

theorem lastNamed?_eq_none_iff {segments : List Segment} {name : String} :
    lastNamed? segments name = none ↔ ∀ s ∈ segments, s.name ≠ name := by
  unfold lastNamed?
  simp

/-! ### The calls around the place of the output -/

/-- The calls of a procedure before and after the place of its `output` call. -/
inductive Around (m : Procedure) : List Segment → List Segment → Prop
  | replaced {front back : List Segment} {o : Segment} (h : m.segments = front ++ o :: back) (ho : o.name = "output")
      (hback : ∀ s ∈ back, s.name ≠ "output") : Around m front back
  | afterInput {front back : List Segment} {i : Segment} (h : m.segments = front ++ i :: back) (hi : i.name = "input")
      (hback : ∀ s ∈ back, s.name ≠ "input") (hnone : ∀ s ∈ m.segments, s.name ≠ "output") :
      Around m (front ++ [i]) back
  | beforeTerminal {front back : List Segment} (h : m.segments = front ++ m.terminal :: back)
      (hnone : ∀ s ∈ m.segments, s.name ≠ "output" ∧ s.name ≠ "input") : Around m front (m.terminal :: back)

theorem Around.name_ne {m : Procedure} {front back : List Segment} (h : Around m front back) :
    ∀ s ∈ back, s.name ≠ "output" := by
  cases h with
  | replaced _ _ hback => exact hback
  | afterInput h _ _ hnone =>
    intro s hs
    exact hnone s (by rw [h]; simp [hs])
  | beforeTerminal h hnone =>
    intro s hs
    exact (hnone s (by rw [h]; exact List.mem_append_right _ hs)).1

def Segment.call (f : File) (s : Segment) : String × Option String := (s.name, s.arguments f)

/-- The validator stands in the last `output` call of a procedure already, so that its edit changes nothing and no text written
by hand is replaced. -/
structure UpToDate (f : File) (m : Procedure) (v : Validator) (o : Segment) : Prop where
  strategy : Strategy.choose m = .replaceOutput o
  keepsText : ((Strategy.choose m).splice f v).edit.keepsText f.text = true
  unchanged : applyEdits f.text [((Strategy.choose m).splice f v).edit] = .ok f.text
  replacedHandwritten : ((Strategy.choose m).splice f v).replacedHandwritten = false

/-- The chain of a procedure after its edit: the same calls, and at its place an `output` call with the printed validator. For
every procedure with this chain the validator is up to date. -/
structure Rewritten (f f' : File) (m : Procedure) (v : Validator) (front back : List Segment) (o : Segment) : Prop where
  root : f'.tokens[m.root]? = f.tokens[m.root]?
  calls : (segmentsFrom f' (m.root + 1)).map (·.call f') =
    front.map (·.call f) ++ ("output", some v.printMarked) :: back.map (·.call f)
  output : (segmentsFrom f' (m.root + 1))[front.length]? = some o
  upToDate : ∀ m' : Procedure, m'.segments = segmentsFrom f' (m.root + 1) → UpToDate f' m' v o

/-! ### A call around the printed validator -/

variable {f f' g : File} {u r r' : List Char} {tokens : List Token} {i j : Nat} {s o : Segment} {v : Validator}
  {m : Procedure} {front back : List Segment}

/-- Two parentheses with a printed validator between them: the file is cut after the first and before the second. -/
structure Filled (f : File) (v : Validator) (u r : List Char) (tokens inside : List Token) (o c : Token) : Prop where
  opened : f.CutAt u (tokens ++ [o]) (v.printMarked.toList ++ r)
  closed : f.CutAt (u ++ v.printMarked.toList) (tokens ++ [o] ++ inside) r
  lexemes : inside.map Token.lexeme = (lexemes v.printMarked).filter (!·.1.isComment)
  lparen : o.kind = .lparen
  stop : o.stop = Text.byteCount u
  next : f.tokens[(tokens ++ [o] ++ inside).length]? = some c
  rparen : c.kind = .rparen
  start : c.start = Text.byteCount (u ++ v.printMarked.toList)

theorem Filled.matched {o c : Token} {inside : List Token} (hf : f.IsRead) (hv : Neat v.chars)
    (h : Filled f v u r tokens inside o c) (hlparen : s.lparen = tokens.length)
    (hrparen : s.rparen = (tokens ++ [o] ++ inside).length) : s.Matched f := by
  obtain ⟨rest, hrest⟩ : ∃ rest, f.tokens.toList = tokens ++ [o] ++ inside ++ c :: rest := by
    have htokens := h.closed.tokens
    have hnext := h.next
    rw [← Array.getElem?_toList, htokens, List.getElem?_append_right (Nat.le_refl _), Nat.sub_self,
      ← List.head?_eq_getElem?] at hnext
    obtain ⟨rest, hrest⟩ := List.head?_eq_some_iff.mp hnext
    exact ⟨rest, by rw [htokens, hrest]⟩
  have hkinds : f.tokens.toList.map Token.kind =
      tokens.map Token.kind ++ .lparen :: (inside.map Token.kind ++ .rparen :: rest.map Token.kind) := by
    rw [hrest]
    simp [h.lparen, h.rparen]
  -- Scanning leaves the comments in, the tokens of a file are without them.
  have hbalanced : Balanced (inside.map Token.kind) := by
    have hsignificant := (balanced_printMarked hv).significant
    have hsame := congrArg (List.map (·.1)) h.lexemes
    rw [List.filter_map] at hsignificant
    rw [List.map_map] at hsame
    exact hsame ▸ hsignificant
  have hpair := mem_pairs_of_balanced (tokens.map Token.kind) (rest.map Token.kind) (o := .lparen) (c := .rparen) rfl
    hbalanced
  have hlength : tokens.length + 1 + inside.length = s.rparen := by
    rw [hrparen]
    simp only [List.length_append, List.length_singleton]
  rw [← hkinds, List.length_map, List.length_map, hlength, ← hlparen] at hpair
  obtain ⟨hlt, hcloser⟩ := hf.closer?_of_mem_pairs hpair
  exact ⟨_, hcloser, rfl⟩

theorem Filled.arguments {o c : Token} {inside : List Token} (h : Filled f v u r tokens inside o c)
    (hlparen : s.lparen = tokens.length) (hrparen : s.rparen = (tokens ++ [o] ++ inside).length) :
    s.arguments f = some v.printMarked := by
  have ho := h.opened.getElem?_eq
  have hc := h.next
  rw [← hlparen] at ho
  rw [← hrparen] at hc
  have hslice := sliceChars?_append_right u (v.printMarked.toList ++ r) 0 (Text.byteCount v.printMarked.toList)
  rw [Nat.add_zero, ← Text.byteCount_append, sliceChars?_zero, ← h.opened.text] at hslice
  unfold Segment.arguments Segment.argumentsSpan Text.slice?
  rw [span_of_token ho, span_of_token hc]
  simp only [h.stop, h.start, hslice, Option.map_some, String.ofList_toList]

/-! ### Chains around one call -/

theorem upToDate_of_arguments (hs : segmentsFrom f i = front ++ o :: back) (ho : o.name = "output")
    (hback : ∀ s ∈ back, s.name ≠ "output") (harguments : o.arguments f = some v.printMarked) {m : Procedure}
    (hm : m.segments = segmentsFrom f i) : UpToDate f m v o := by
  have hlast : lastNamed? m.segments "output" = some o :=
    lastNamed?_eq_some_iff.mpr ⟨front, back, hm.trans hs, ho, hback⟩
  have hchoose : Strategy.choose m = .replaceOutput o := by
    unfold Strategy.choose
    rw [hlast]
  have hsettled : Settled f ⟨m, v⟩ := ⟨o, hchoose, harguments⟩
  have hkeeps : ((Strategy.choose m).splice f v).edit.keepsText f.text = true := by
    have hchanges := (changes_eq_false_iff f ⟨m, v⟩).mpr hsettled
    rwa [Finding.changes, Bool.not_eq_false'] at hchanges
  exact ⟨hchoose, hkeeps, applyEdits_of_keepsText hkeeps, hsettled.replacedHandwritten⟩

/-- Calls before a cut, one call, and the calls of the same rest make a rewritten chain. -/
theorem rewritten_of_call (hf : f.IsRead) (hf' : f'.IsRead) (hg : g.IsRead) (hcut : f.CutAt u tokens r)
    (hcut' : f'.CutAt u tokens r') (hwalk : Walk f (m.root + 1) front j) (hj : j ≤ tokens.length)
    (hcall : CallAt f' o) (hdot : o.dot = j) (hname : o.name = "output") (harguments : o.arguments f' = some v.printMarked)
    {x x' : List Char} {before before' : List Token} (hends : f.Ends g x before) (hends' : f'.Ends g x' before')
    (hback : segmentsFrom f (before.length + i) = back) (hrparen : o.rparen + 1 = before'.length + i)
    (hnone : ∀ s ∈ back, s.name ≠ "output") : Rewritten f f' m v front back o := by
  have hbegin := hcut.begin hf hf' hcut'
  have hwalk' := hwalk.before hbegin hj
  subst hdot
  -- Both files end with `g`, so the calls after the new one are those of `g` in both, at other tokens.
  have hchain : segmentsFrom f' (m.root + 1) =
      front ++ o :: (segmentsFrom g i).map (Segment.later before'.length) := by
    rw [hwalk'.segmentsFrom_eq, hcall.segmentsFrom_eq, hrparen, segmentsFrom_later hf' hg hends']
  rw [segmentsFrom_later hf hg hends] at hback
  subst hback
  obtain ⟨k, hrest, -⟩ := exists_walk (List.append_nil (segmentsFrom g i)).symm
  have hlater : ∀ s ∈ segmentsFrom g i, (s.later before'.length).call f' = (s.later before.length).call f := by
    intro s hs
    have hs := (hrest.mem s hs).1
    unfold Segment.call
    rw [arguments_later hends hs, arguments_later hends' hs]
    rfl
  refine ⟨hbegin.getElem?_eq ?_, ?_, ?_, ?_⟩
  · have := hwalk.le
    omega
  · have hfront : ∀ s ∈ front, s.call f' = s.call f := by
      intro s hs
      obtain ⟨hs, hlt⟩ := hwalk.mem s hs
      unfold Segment.call
      rw [arguments_before hf hf' hcut hcut' hs (by omega)]
    rw [hchain, List.map_append, List.map_cons, List.map_map, List.map_map, List.map_congr_left hfront]
    congr 1
    rw [Segment.call, hname, harguments]
    congr 1
    exact List.map_congr_left hlater
  · rw [hchain]
    simp
  · intro m' hm'
    refine upToDate_of_arguments hchain hname ?_ harguments hm'
    intro s hs
    obtain ⟨s', hs', rfl⟩ := List.mem_map.mp hs
    exact hnone (s'.later before.length) (List.mem_map_of_mem hs')

/-! ### The two kinds of edits -/

theorem rewritten_of_replaced (hf : f.IsRead) (hv : Neat v.chars) (hchain : segmentsFrom f (m.root + 1) = front ++ o :: back)
    (ho : o.name = "output") (hback : ∀ s ∈ back, s.name ≠ "output")
    {x d rest : List Char} {before inside : List Token}
    (he : File.Edited f f' ⟨o.argumentsSpan f, v.printMarked⟩ x d rest before inside) :
    ∃ o', Rewritten f f' m v front back o' := by
  obtain ⟨j, hwalk, hj⟩ := exists_walk hchain
  obtain ⟨hcall, rfl, hrest⟩ := callAt_of_segmentsFrom hj
  have hlt := hcall.lt
  obtain ⟨t, ht, htkind⟩ := exists_token_of_hasKind hcall.lparen
  obtain ⟨c, hcloser, hc⟩ := hcall.matched
  obtain ⟨w, hw, hwkind⟩ := exists_token_of_hasKind (hf.rparen_of_closer? hcall.lparen hcloser)
  rw [hc] at hw
  -- The edit begins after the opening parenthesis and ends before the closing one.
  have hstart : t.stop = Text.byteCount x := by
    rw [he.start, Segment.argumentsSpan, span_of_token ht]
  have hstop : w.start = Text.byteCount (x ++ d) := by
    rw [he.stop, Segment.argumentsSpan, span_of_token hw]
  have hbefore := he.cut.length_of_stop hf ht hstart
  have hafter := he.after.length_of_start hf hw hstop
  obtain ⟨tokens, rfl⟩ := he.cut.exists_concat ht hbefore
  obtain ⟨inside', hcut', hinside⟩ :=
    he.cut'.extend ((selfContained_printMarked hv.tame).scans_lexemes rest)
  have hends := he.after.ends f.path
  have hends' := hcut'.ends f.path
  rw [← hafter] at hw
  obtain ⟨w', hw', hkind, hstart'⟩ := hends.first hends' hw hstop
  have hfilled : Filled f' v x rest tokens inside' t w' :=
    ⟨he.cut', hcut', hinside, htkind, hstart, hw', hkind.trans hwkind, hstart'⟩
  rw [List.length_append, List.length_singleton, Nat.add_right_cancel_iff] at hbefore
  have hopen : o.lparen < (tokens ++ [t]).length := by
    rw [List.length_append, hbefore]
    exact Nat.lt_succ_self _
  -- The new file has its own closing parenthesis; all that comes before it is as in the old one.
  have hcall' : CallAt f' { o with rparen := (tokens ++ [t] ++ inside').length } :=
    hcall.reopened (he.cut.begin hf he.read' he.cut') hopen (hfilled.matched he.read' hv hbefore.symm rfl)
  refine ⟨_, rewritten_of_call (i := 1) hf he.read' (File.isRead_parse _ _) he.cut he.cut' hwalk ?_ hcall' rfl ho
    (hfilled.arguments hbefore.symm rfl) hends hends' ?_ rfl hback⟩
  · omega
  · rw [hafter]
    exact hrest

theorem scans_output (rest : List Char) :
    Scans (".output".toList ++ '(' :: rest) [(.dot, "."), (.ident, "output")] ('(' :: rest) := by
  have hword : Scans ('o' :: ("utput".toList ++ '(' :: rest)) [(.ident, "output")] ('(' :: rest) :=
    .of_lexeme rfl rfl (.stop _)
  exact .of_char rfl rfl hword

/-- The text of an inserted call is read as a call with the printed validator between its parentheses. -/
theorem exists_insertedCall (hf : f.IsRead) (hv : Neat v.chars)
    (hcut : f.CutAt u tokens ((insertedCall v).toList ++ r)) :
    ∃ o u' tokens', f.CutAt u' tokens' r ∧ CallAt f o ∧ o.dot = tokens.length ∧ o.name = "output" ∧
      o.arguments f = some v.printMarked ∧ o.rparen + 1 = tokens'.length := by
  have htext : (insertedCall v).toList ++ r = ".output".toList ++ '(' :: (v.printMarked.toList ++ ')' :: r) := by
    rw [insertedCall_toList]
    simp
  rw [htext] at hcut
  -- The file is cut after each part of the call.
  obtain ⟨name, hcut₁, hlexemes⟩ := hcut.extend (scans_output _)
  obtain ⟨lparen, hcut₂, hlparen, -, hstop⟩ := hcut₁.next rfl rfl rfl
  obtain ⟨inside, hcut₃, hinside⟩ :=
    hcut₂.extend ((selfContained_printMarked hv.tame).scans_lexemes (')' :: r))
  obtain ⟨rparen, hcut₄, hrparen, hstart, -⟩ := hcut₃.next rfl rfl rfl
  have hlength := congrArg List.length hlexemes
  rw [List.length_map] at hlength
  obtain ⟨dot, word, rfl⟩ := List.length_eq_two.mp hlength
  obtain ⟨hdot, hrest⟩ := List.cons.inj hlexemes
  obtain ⟨hword, houtput⟩ := Prod.mk.inj (List.cons.inj hrest).1
  have hfilled : Filled f v _ (')' :: r) (tokens ++ [dot, word]) inside lparen rparen :=
    ⟨hcut₂, hcut₃, hinside, hlparen, hstop, hcut₄.getElem?_eq, hrparen, hstart⟩
  have hlparenAt := hcut₂.getElem?_eq
  have hdotAt := hcut₁.getElem?_eq
  have hwordAt : f.tokens[tokens.length + 1]? = some word := by
    rw [List.append_cons] at hcut₁
    have hlast := hcut₁.getElem?_eq
    rwa [List.length_append] at hlast
  have hnext : (tokens ++ [dot, word]).length = tokens.length + 2 := List.length_append
  have hcall : CallAt f ⟨"output", tokens.length, (tokens ++ [dot, word]).length,
      (tokens ++ [dot, word] ++ [lparen] ++ inside).length⟩ := by
    refine ⟨Or.inl (File.hasKind_of_token hdotAt (Prod.mk.inj hdot).1), ?_, ?_, File.hasKind_of_token hlparenAt hlparen,
      hfilled.matched hf hv rfl rfl⟩
    · rw [File.word?, if_pos (File.hasKind_of_token hwordAt hword), File.tokenText, hwordAt]
      exact congrArg some houtput
    · have hangles : f.hasKind (tokens ++ [dot, word]).length .lt = false := by
        rw [File.hasKind, File.kind?_of_token hlparenAt, hlparen]
        rfl
      show f.anglesFrom? (tokens.length + 2) = _
      rw [File.anglesFrom?, ← hnext, hangles]
      rfl
  refine ⟨_, _, _, hcut₄, hcall, rfl, rfl, hfilled.arguments rfl rfl, ?_⟩
  simp only [List.length_append, List.length_singleton]

theorem rewritten_of_inserted (hf : f.IsRead) (hv : Neat v.chars) (hwalk : Walk f (m.root + 1) front j)
    (hback : segmentsFrom f j = back) (hnone : ∀ s ∈ back, s.name ≠ "output") {position : Nat}
    {x d rest : List Char} {before inside : List Token}
    (he : File.Edited f f' (.insert position (insertedCall v)) x d rest before inside)
    (hbefore : before.length = j) (hafter : (before ++ inside).length = j) :
    ∃ o', Rewritten f f' m v front back o' := by
  obtain ⟨o', x', before', hcut', hcall, hdot, hname, harguments, hrparen⟩ := exists_insertedCall he.read' hv he.cut'
  have hends := he.after.ends f.path
  have hends' := hcut'.ends f.path
  refine ⟨o', rewritten_of_call (i := 0) hf he.read' (File.isRead_parse _ _) he.cut he.cut' hwalk
    (Nat.le_of_eq hbefore.symm) hcall (hdot.trans hbefore) hname harguments hends hends' ?_ hrparen hnone⟩
  rw [Nat.add_zero, hafter]
  exact hback

/-! ### Rewriting -/

/-- The way for a procedure puts the `output` call at its place. -/
theorem exists_rewritten (hf : f.IsRead) (hm : Located f ⟨m, v⟩) (hv : v.WellNamed) :
    ∃ out front back o, applyEdits f.text [((Strategy.choose m).splice f v).edit] = .ok out ∧ Around m front back ∧
      Rewritten f (File.parse f.path out) m v front back o := by
  have hneat := hv.neat
  have hanchored := anchored_splice hf (fun s => hm.isCall hf) hm.terminal hneat.tame
  obtain ⟨out, x, d, rest, before, inside, hout, he⟩ := hf.exists_edited hanchored
  -- In each of the three ways the edit begins and ends at a token of the chain, which says where the walk is cut.
  have hsegments : m.segments = segmentsFrom f (m.root + 1) := hm.segments
  unfold Strategy.choose at he hout ⊢
  split at he
  · next o houtput =>
    obtain ⟨front, back, hsplit, ho, hback⟩ := lastNamed?_eq_some_iff.mp houtput
    obtain ⟨o', h⟩ := rewritten_of_replaced hf hneat (hsegments.symm.trans hsplit) ho hback he
    exact ⟨out, front, back, o', hout, .replaced hsplit ho hback, h⟩
  · next input hnone hinput =>
    obtain ⟨front, back, hsplit, hi, hback⟩ := lastNamed?_eq_some_iff.mp hinput
    have haround : Around m (front ++ [input]) back := .afterInput hsplit hi hback (lastNamed?_eq_none_iff.mp hnone)
    obtain ⟨j, hwalk, hj⟩ := exists_walk (hsegments.symm.trans hsplit)
    obtain ⟨hcall, rfl, hrest⟩ := callAt_of_segmentsFrom hj
    obtain ⟨t, ht, -⟩ := exists_token_of_hasKind (hm.isCall hf (mem_of_lastNamed? hinput)).rparen
    have hspan : (f.span input.rparen).stop = t.stop := by rw [span_of_token ht]
    obtain ⟨o', h⟩ := rewritten_of_inserted hf hneat (hwalk.trans (.call hcall (.stop _))) hrest haround.name_ne he
      (he.cut.length_of_stop hf ht (hspan.symm.trans he.start.symm))
      (he.after.length_of_stop hf ht (hspan.symm.trans he.stop.symm))
    exact ⟨out, _, back, o', hout, haround, h⟩
  · next houtput hinput =>
    obtain ⟨front, back, hsplit⟩ := List.append_of_mem hm.terminal
    have haround : Around m front (m.terminal :: back) :=
      .beforeTerminal hsplit fun s hs => ⟨lastNamed?_eq_none_iff.mp houtput s hs, lastNamed?_eq_none_iff.mp hinput s hs⟩
    obtain ⟨j, hwalk, hj⟩ := exists_walk (hsegments.symm.trans hsplit)
    have hdot := (callAt_of_segmentsFrom hj).2.1
    obtain ⟨t, ht⟩ : ∃ t, f.tokens[m.terminal.dot]? = some t := by
      rcases (hm.isCall hf hm.terminal).dot with h | h
      · exact ⟨_, (exists_token_of_hasKind h).choose_spec.1⟩
      · exact ⟨_, (exists_token_of_hasKind h).choose_spec.1⟩
    have hspan : (f.span m.terminal.dot).start = t.start := by rw [span_of_token ht]
    rw [hdot] at ht
    obtain ⟨o', h⟩ := rewritten_of_inserted hf hneat hwalk hj haround.name_ne he
      (he.cut.length_of_start hf ht (hspan.symm.trans he.start.symm))
      (he.after.length_of_start hf ht (hspan.symm.trans he.stop.symm))
    exact ⟨out, front, _, o', hout, haround, h⟩

/-- Rewriting one chain of a file settles it: the edit of a procedure can be made, the chain at the same root has the same calls
with the same texts between their parentheses but for the `output` call, which has the printed validator, and what the new
chain asks for is to put the same text there. -/
theorem rewriting_settles_chain (sources : List (String × String)) (index : Nat) {factories : List String}
    {c : Nat × List Segment} (hc : c ∈ chains ((Project.read sources).file index) factories) {s s' : Inquiry}
    {m : Procedure} (hm : procedureAt (Project.read sources) s index c.1 c.2 = (some m, s')) {v : Validator}
    (hv : v.WellNamed) :
    ∃ out front back o,
      applyEdits ((Project.read sources).file index).text
        [((Strategy.choose m).splice ((Project.read sources).file index) v).edit] = .ok out ∧
      Around m front back ∧
      Rewritten ((Project.read sources).file index) (File.parse ((Project.read sources).file index).path out) m v front back
        o := by
  obtain ⟨hsegments, hterminal⟩ := terminal_mem_of_procedureAt hm
  have hroot := root_of_procedureAt hm
  have hlocated : Located ((Project.read sources).file index) ⟨m, v⟩ := by
    refine ⟨?_, ?_, ?_⟩
    · rw [hroot]
      exact (isCall_of_mem_chains (isRead_file sources index) hc).1
    · rw [hroot, hsegments]
      exact segments_of_mem_chains hc
    · rw [hsegments]
      exact hterminal
  exact exists_rewritten (isRead_file sources index) hlocated hv

/-- A file with stray brackets and comments around the calls of a chain. -/
def strayBrackets : List (String × String) :=
  [("a.ts", "] ( p /* ( */ ?.input(x /* ) */) // )\n .query<string>((): string => '') \x7d")]

/-- A validator that prints brackets inside a string and a name between quotes. -/
def bracketValidator : Validator :=
  .call "object" [.fields [("a(b", .method (.call "literal" [.text "\")]"]) "or" [.list [.bigInt "10", .name "E"]])]]

theorem bracketValidator_wellNamed : bracketValidator.WellNamed := by
  refine .call rfl fun a ha => ?_
  rw [List.mem_singleton.mp ha]
  refine .fields fun e he => ?_
  rw [List.mem_singleton.mp he]
  refine .method (.call rfl fun a ha => ?_) rfl fun a ha => ?_
  · rw [List.mem_singleton.mp ha]
    exact .text _
  · rw [List.mem_singleton.mp ha]
    refine .list fun a ha => ?_
    rcases List.mem_cons.mp ha with rfl | ha
    · exact .bigInt (by decide) (List.all_eq_true.mp rfl)
    · rw [List.mem_singleton.mp ha]
      exact .name rfl

theorem strayBrackets_settled :
    ∃ c ∈ chains ((Project.read strayBrackets).file 0) ["p"], ∃ m s',
      procedureAt (Project.read strayBrackets) {} 0 c.1 c.2 = (some m, s') ∧
      ∃ out front back o,
        applyEdits ((Project.read strayBrackets).file 0).text
          [((Strategy.choose m).splice ((Project.read strayBrackets).file 0) bracketValidator).edit] = .ok out ∧
        Around m front back ∧
        Rewritten ((Project.read strayBrackets).file 0) (File.parse ((Project.read strayBrackets).file 0).path out) m
          bracketValidator front back o := by
  have hfound : (chains ((Project.read strayBrackets).file 0) ["p"]).any
      (fun c => (procedureAt (Project.read strayBrackets) {} 0 c.1 c.2).1.isSome) = true := by
    decide +kernel
  obtain ⟨c, hc, hsome⟩ := List.any_eq_true.mp hfound
  obtain ⟨m, hm⟩ := Option.isSome_iff_exists.mp hsome
  have hprocedure : procedureAt (Project.read strayBrackets) {} 0 c.1 c.2 =
      (some m, (procedureAt (Project.read strayBrackets) {} 0 c.1 c.2).2) := Prod.ext hm rfl
  exact ⟨c, hc, m, _, hprocedure, rewriting_settles_chain strayBrackets 0 hc hprocedure bracketValidator_wellNamed⟩

end SchemaSplice.Chain
