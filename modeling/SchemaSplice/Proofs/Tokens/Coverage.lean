import SchemaSplice.Proofs.Splice.Overlaps
import SchemaSplice.Proofs.Splice.Splicing
/-!
# Nothing of a text is lost

The tokens of a text stand one after the other, each of them holds at least one character, and what stands between them is
blank. A file keeps all of them: the significant tokens in their order, and with each of them the comments since the
significant token before it, so a comment with a significant token somewhere behind it leads exactly one token.
-/

namespace SchemaSplice.Source

structure Covers (text : String) (ts : List Token) : Prop where
  nonempty : ∀ t ∈ ts, t.start < t.stop
  boundaries : ∀ t ∈ ts, IsBoundary text t.start ∧ IsBoundary text t.stop
  slices : ∀ t ∈ ts, Text.slice? text t.start t.stop = some t.text
  ordered : ts.Pairwise fun a b => a.stop ≤ b.start
  /-- A character that begins inside no token is a blank. -/
  blanks : ∀ pre c post, text.toList = pre ++ c :: post →
    (∀ t ∈ ts, ¬(t.start ≤ Text.byteCount pre ∧ Text.byteCount pre < t.stop)) →
      c = ' ' ∨ c = '\t' ∨ c = '\r' ∨ c = '\n' ∨ c = '\x0c'

/-- Whether a token of the text stands after the significant token before `i`, if there is one, and before the one at `i`. -/
def File.precedes (f : File) (i : Nat) (t : Token) : Bool :=
  (i == 0 || decide ((f.span (i - 1)).stop ≤ t.start)) && decide (t.stop ≤ (f.span i).start)

structure File.Keeps (text : String) (f : File) : Prop where
  tokens : f.tokens.toList = (scan text).filter (!·.kind.isComment)
  /-- The significant tokens, each after its comments, and then the last comments are the tokens of the text in order. -/
  order : ∃ after, scan text = ((f.leading.toList.zip f.tokens.toList).flatMap fun p => p.1 ++ [p.2]) ++ after ∧
    ∀ t ∈ after, t.kind.isComment = true
  comments : ∀ i < f.size, f.comments i = (scan text).filter fun t => t.kind.isComment && f.precedes i t
  comments_past : ∀ i, f.size ≤ i → f.comments i = []
  /-- A comment before the last significant token leads exactly one token. -/
  once : ∀ c ∈ scan text, c.kind.isComment = true → 0 < f.size → c.stop ≤ (f.span (f.size - 1)).start →
    ∃! i, c ∈ f.comments i

/-! ### Characters -/

theorem eq_blank_of_isSpace {c : Char} (h : isSpace c = true) :
    c = ' ' ∨ c = '\t' ∨ c = '\r' ∨ c = '\n' ∨ c = '\x0c' := by
  simp only [isSpace, Bool.or_eq_true, beq_iff_eq, or_assoc] at h
  have hfeed : c.toNat = 0x0c → c = '\x0c' := fun h => Char.toNat_inj.mp h
  exact h.imp_right (Or.imp_right (Or.imp_right (Or.imp_right hfeed)))

theorem pairwise_scanFrom (start : Nat) (cs : List Char) :
    (scanFrom start cs).Pairwise fun a b => a.stop ≤ b.start := by
  fun_induction scanFrom start cs with
  | case1 => exact .nil
  | case2 start c rest hc ih => exact ih
  | case3 start c rest hc n body ih =>
    refine ih.cons fun t ht => ?_
    have hstart := (le_start_of_mem_scanFrom ht).1
    rwa [Token.stop, Text.size, String.toList_ofList]

/-- A token is what its text has between its two bytes. -/
theorem exists_cut_of_mem_scan {text : String} {t : Token} (h : t ∈ scan text) :
    ∃ x rest, text.toList = x ++ (t.text.toList ++ rest) ∧ Text.byteCount x = t.start := by
  obtain ⟨front, back, hscan⟩ := List.append_of_mem h
  obtain ⟨x, rest, hcut, hstart, -, -⟩ := scans_of_scanFrom_eq front back hscan
  exact ⟨x, rest, hcut, by rw [hstart, Nat.zero_add]⟩

/-- What begins inside no token is blank: the scanner passes a blank or a whole token at a time. -/
theorem isSpace_of_outside {start : Nat} {cs pre post : List Char} {c : Char} (hcut : cs = pre ++ c :: post)
    (hout : ∀ t ∈ scanFrom start cs, ¬(t.start ≤ start + Text.byteCount pre ∧ start + Text.byteCount pre < t.stop)) :
    isSpace c = true := by
  fun_induction scanFrom start cs generalizing pre with
  | case1 => exact absurd hcut.symm (by simp)
  | case2 start d rest hd ih =>
    cases pre with
    | nil =>
      obtain ⟨rfl, -⟩ := List.cons.inj hcut
      exact hd
    | cons d' pre =>
      obtain ⟨rfl, hrest⟩ := List.cons.inj hcut
      refine ih hrest fun t ht => ?_
      rw [Nat.add_assoc]
      exact hout t ht
  | case3 start d rest hd n body =>
    rename_i ih
    have hbody : body ++ rest.drop n = pre ++ c :: post := by
      rw [← hcut, List.cons_append, List.take_append_drop]
    have hlong : Text.byteCount body ≤ Text.byteCount pre := by
      have htoken := hout _ List.mem_cons_self
      rw [Token.stop, Text.size, String.toList_ofList] at htoken
      by_contra hshort
      exact htoken ⟨Nat.le_add_right _ _, Nat.add_lt_add_left (Nat.lt_of_not_le hshort) start⟩
    rcases List.append_eq_append_iff.mp hbody with ⟨d', rfl, hrest⟩ | ⟨d', hd', hrest⟩
    · refine ih hrest fun t ht => ?_
      rw [Nat.add_assoc, ← Text.byteCount_append]
      exact hout t (List.mem_cons_of_mem _ ht)
    · -- The token would reach past the character.
      cases d' with
      | nil =>
        rw [List.append_nil] at hd'
        have hnext : rest.drop n = [] ++ c :: post := hrest.symm
        refine ih hnext fun t ht => ?_
        rw [Text.byteCount_nil, Nat.add_zero, hd']
        exact hout t (List.mem_cons_of_mem _ ht)
      | cons e d' =>
        rw [hd', Text.byteCount_append, Text.byteCount_cons] at hlong
        have hpos := Char.utf8Size_pos e
        omega

theorem covers_scan (text : String) : Covers text (scan text) where
  nonempty t ht := (le_start_of_mem_scanFrom ht).2
  boundaries t ht := by
    obtain ⟨x, rest, hcut, hstart⟩ := exists_cut_of_mem_scan ht
    refine ⟨⟨x, _, hcut, hstart⟩, x ++ t.text.toList, rest, by rw [hcut, List.append_assoc], ?_⟩
    rw [Text.byteCount_append, hstart]
    rfl
  slices t ht := by
    obtain ⟨x, rest, hcut, hstart⟩ := exists_cut_of_mem_scan ht
    have hlength : t.stop - t.start = Text.byteCount t.text.toList := Nat.add_sub_cancel_left ..
    rw [Text.slice?, Text.sliceChars?, if_pos (Nat.le_of_lt (le_start_of_mem_scanFrom ht).2), hcut, ← hstart,
      Text.splitAt?_byteCount]
    simp only [hstart, hlength, Text.splitAt?_byteCount, Option.map_some, String.ofList_toList]
  ordered := pairwise_scanFrom 0 text.toList
  blanks pre c post hcut hout := by
    have hout' : ∀ t ∈ scanFrom 0 text.toList,
        ¬(t.start ≤ 0 + Text.byteCount pre ∧ 0 + Text.byteCount pre < t.stop) := by
      rw [Nat.zero_add]
      exact hout
    exact eq_blank_of_isSpace (isSpace_of_outside hcut hout')

/-! ### Comments -/

/-- The tokens of a text in order: significant ones, each after its comments, and the comments after the last one. -/
theorem exists_after_attachComments (pending ts : List Token) (hpending : ∀ t ∈ pending, t.kind.isComment = true) :
    ∃ after, pending ++ ts = ((attachComments pending ts).flatMap fun p => p.1 ++ [p.2]) ++ after ∧
      ∀ t ∈ after, t.kind.isComment = true := by
  induction ts generalizing pending with
  | nil => exact ⟨pending, by simp [attachComments], hpending⟩
  | cons t ts ih =>
    unfold attachComments
    by_cases ht : t.kind.isComment = true
    · rw [if_pos ht, List.append_cons]
      apply ih
      intro u hu
      rcases List.mem_append.mp hu with hu | hu
      · exact hpending u hu
      · rwa [List.mem_singleton.mp hu]
    · rw [if_neg ht]
      obtain ⟨after, hafter, hcomments⟩ := ih [] (by simp)
      refine ⟨after, ?_, hcomments⟩
      rw [List.flatMap_cons, List.append_assoc, ← hafter]
      simp

/-- The comments of a significant token stand between it and the significant token of the index before. -/
theorem exists_split_of_attachComments {pending ts cs : List Token} {t : Token} {i : Nat}
    (hpending : ∀ u ∈ pending, u.kind.isComment = true) (h : (attachComments pending ts)[i]? = some (cs, t)) :
    ∃ front back, pending ++ ts = front ++ (cs ++ t :: back) ∧ (∀ u ∈ cs, u.kind.isComment = true) ∧
      (i = 0 → front = []) ∧
        ∀ j, i = j + 1 → ∃ front' u, front = front' ++ [u] ∧ ((attachComments pending ts).map Prod.snd)[j]? = some u := by
  induction ts generalizing pending i with
  | nil => cases h
  | cons s ts ih =>
    unfold attachComments at h ⊢
    by_cases hs : s.kind.isComment = true
    · rw [if_pos hs] at h ⊢
      rw [List.append_cons]
      refine ih ?_ h
      intro u hu
      rcases List.mem_append.mp hu with hu | hu
      · exact hpending u hu
      · rwa [List.mem_singleton.mp hu]
    · rw [if_neg hs] at h ⊢
      cases i with
      | zero =>
        rw [List.getElem?_cons_zero, Option.some.injEq, Prod.mk.injEq] at h
        obtain ⟨rfl, rfl⟩ := h
        exact ⟨[], ts, rfl, hpending, fun _ => rfl, fun j hj => absurd hj.symm (Nat.succ_ne_zero j)⟩
      | succ i =>
        rw [List.getElem?_cons_succ] at h
        obtain ⟨front, back, hsplit, hcs, hfirst, hlater⟩ := ih (by simp) h
        rw [List.nil_append] at hsplit
        have hall : pending ++ s :: ts = (pending ++ s :: front) ++ (cs ++ t :: back) := by
          rw [hsplit]
          simp
        refine ⟨pending ++ s :: front, back, hall, hcs, fun hi => absurd hi (Nat.succ_ne_zero i), fun j hj => ?_⟩
        obtain rfl := Nat.succ.inj hj
        cases i with
        | zero => exact ⟨pending, s, by rw [hfirst rfl], rfl⟩
        | succ i =>
          obtain ⟨front', u, rfl, hu⟩ := hlater i rfl
          exact ⟨pending ++ s :: front', u, by simp, hu⟩

namespace File

variable {path text : String} {i : Nat} {t : Token}

theorem exists_token {f : File} (h : i < f.size) : ∃ t, f.tokens[i]? = some t := ⟨f.tokens[i], Array.getElem?_eq_getElem h⟩

theorem precedes_iff {f : File} {c : Token} (ht : f.tokens[i]? = some t) :
    f.precedes i c = true ↔ (∀ j u, i = j + 1 → f.tokens[j]? = some u → u.stop ≤ c.start) ∧ c.stop ≤ t.start := by
  rw [precedes, span_of_token ht, Bool.and_eq_true, Bool.or_eq_true, beq_iff_eq, decide_eq_true_iff, decide_eq_true_iff]
  refine and_congr_left' ⟨?_, fun h => ?_⟩
  · rintro h j u rfl hu
    rcases h with h | h
    · cases h
    · rwa [Nat.add_sub_cancel, span_of_token hu] at h
  · cases i with
    | zero => exact Or.inl rfl
    | succ j =>
      have hj : j < f.size := Nat.lt_of_succ_lt (Array.getElem?_eq_some_iff.mp ht).1
      obtain ⟨u, hu⟩ := exists_token hj
      rw [Nat.add_sub_cancel, span_of_token hu]
      exact Or.inr (h j u rfl hu)

theorem isComment_of_token (ht : (parse path text).tokens[i]? = some t) : t.kind.isComment = false := by
  have hmem : t ∈ (scan text).filter (!·.kind.isComment) := by
    rw [← parse_tokens path]
    exact List.mem_of_getElem? (by rwa [Array.getElem?_toList])
  rw [List.mem_filter, Bool.not_eq_eq_eq_not, Bool.not_true] at hmem
  exact hmem.2

theorem start_lt_stop_of_token (ht : (parse path text).tokens[i]? = some t) : t.start < t.stop :=
  (covers_scan text).nonempty t (mem_scan_of_token (isRead_parse path text) ht)

/-- The comments of a significant token among all tokens of the text. -/
theorem exists_split_comments (h : (parse path text).tokens[i]? = some t) :
    ∃ front back, scan text = front ++ ((parse path text).comments i ++ t :: back) ∧
      (∀ u ∈ (parse path text).comments i, u.kind.isComment = true) ∧
        (i = 0 → front = []) ∧
          ∀ j, i = j + 1 → ∃ front' u, front = front' ++ [u] ∧ (parse path text).tokens[j]? = some u := by
  obtain ⟨cs, hentry⟩ : ∃ cs, (attachComments [] (scan text))[i]? = some (cs, t) := by
    have htoken : ((attachComments [] (scan text)).map Prod.snd)[i]? = some t := by
      rwa [← Array.getElem?_toList] at h
    rw [List.getElem?_map, Option.map_eq_some_iff] at htoken
    obtain ⟨⟨cs, t'⟩, hentry, rfl⟩ := htoken
    exact ⟨cs, hentry⟩
  have hcomments : (parse path text).comments i = cs := by
    rw [comments, parse, List.getElem?_toArray, List.getElem?_map, hentry]
    rfl
  rw [hcomments]
  obtain ⟨front, back, hsplit, hcs, hfirst, hlater⟩ := exists_split_of_attachComments (by simp) hentry
  refine ⟨front, back, hsplit, hcs, hfirst, fun j hj => ?_⟩
  obtain ⟨front', u, hfront, hu⟩ := hlater j hj
  exact ⟨front', u, hfront, by rw [← Array.getElem?_toList]; exact hu⟩

/-- The comments of a significant token are those that precede it and follow the significant token before. -/
theorem comments_eq_filter (hi : i < (parse path text).size) :
    (parse path text).comments i = (scan text).filter fun t => t.kind.isComment && (parse path text).precedes i t := by
  obtain ⟨t, ht⟩ := exists_token hi
  obtain ⟨front, back, hscan, hcs, hfirst, hlater⟩ := exists_split_comments ht
  have hordered := (covers_scan text).ordered
  have hnonempty := (covers_scan text).nonempty
  rw [hscan] at hordered hnonempty ⊢
  obtain ⟨-, hrest, hfront⟩ := List.pairwise_append.mp hordered
  obtain ⟨-, htoken, hled⟩ := List.pairwise_append.mp hrest
  have hbefore : ∀ u ∈ front, ¬(u.kind.isComment && (parse path text).precedes i u) = true := by
    intro u hu hmem
    obtain ⟨hafter, -⟩ := (precedes_iff ht).mp (Bool.and_eq_true_iff.mp hmem).2
    cases i with
    | zero =>
      rw [hfirst rfl] at hu
      cases hu
    | succ j =>
      obtain ⟨front', v, rfl, hv⟩ := hlater j rfl
      have hstart := hafter j v rfl hv
      have hu' := hnonempty u (List.mem_append_left _ hu)
      have hv' := hnonempty v (by simp)
      rcases List.mem_append.mp hu with hu | hu
      · have := (List.pairwise_append.mp (List.pairwise_append.mp hordered).1).2.2 u hu v List.mem_cons_self
        omega
      · rw [List.mem_singleton.mp hu] at hstart
        omega
  have hled' : ∀ u ∈ (parse path text).comments i, (u.kind.isComment && (parse path text).precedes i u) = true := by
    intro u hu
    refine Bool.and_eq_true_iff.mpr ⟨hcs u hu, (precedes_iff ht).mpr ⟨?_, hled u hu t List.mem_cons_self⟩⟩
    rintro j v rfl hv
    obtain ⟨front', v', rfl, hv'⟩ := hlater j rfl
    rw [hv', Option.some.injEq] at hv
    rw [← hv]
    exact hfront v' (by simp) u (List.mem_append_left _ hu)
  have hbehind : ∀ u ∈ t :: back, ¬(u.kind.isComment && (parse path text).precedes i u) = true := by
    intro u hu hmem
    obtain ⟨-, hstop⟩ := (precedes_iff ht).mp (Bool.and_eq_true_iff.mp hmem).2
    have hu' := hnonempty u (List.mem_append_right _ (List.mem_append_right _ hu))
    have ht' := hnonempty t (by simp)
    rcases List.mem_cons.mp hu with rfl | hu
    · omega
    · have := List.rel_of_pairwise_cons htoken hu
      omega
  rw [List.filter_append, List.filter_append, List.filter_eq_nil_iff.mpr hbefore, List.filter_eq_self.mpr hled',
    List.filter_eq_nil_iff.mpr hbehind, List.nil_append, List.append_nil]

theorem mem_comments_iff {c : Token} (ht : (parse path text).tokens[i]? = some t) :
    c ∈ (parse path text).comments i ↔ (c ∈ scan text ∧ c.kind.isComment = true) ∧
      (∀ j u, i = j + 1 → (parse path text).tokens[j]? = some u → u.stop ≤ c.start) ∧ c.stop ≤ t.start := by
  rw [comments_eq_filter (Array.getElem?_eq_some_iff.mp ht).1, List.mem_filter, Bool.and_eq_true, precedes_iff ht, and_assoc]

theorem leading_zip_tokens (path text : String) :
    (parse path text).leading.toList.zip (parse path text).tokens.toList = attachComments [] (scan text) := by
  rw [parse, List.zip_map', List.map_id']

theorem comments_eq_nil (h : (parse path text).size ≤ i) : (parse path text).comments i = [] := by
  have hsize : (parse path text).leading.size = (parse path text).size := by
    simp [parse, size]
  rw [comments, Array.getElem?_eq_none (by omega)]
  rfl

theorem exists_token_of_mem_comments {c : Token} (hc : c ∈ (parse path text).comments i) :
    ∃ t, (parse path text).tokens[i]? = some t := by
  refine exists_token (Nat.lt_of_not_le fun hi => ?_)
  rw [comments_eq_nil hi] at hc
  cases hc

/-- A comment stands on one side of a significant token. -/
theorem stop_le_start_or_of_comment {c : Token} (hc : c ∈ scan text) (hcomment : c.kind.isComment = true)
    (ht : (parse path text).tokens[i]? = some t) : c.stop ≤ t.start ∨ t.stop ≤ c.start := by
  have ht' : t ∈ scan text := mem_scan_of_token (isRead_parse path text) ht
  have hkind := isComment_of_token ht
  have hne : c ≠ t := by
    rintro rfl
    rw [hcomment] at hkind
    cases hkind
  obtain ⟨front, back, hscan⟩ := List.append_of_mem hc
  have hordered := (covers_scan text).ordered
  rw [hscan] at ht' hordered
  obtain ⟨-, hback, hfront⟩ := List.pairwise_append.mp hordered
  rcases List.mem_append.mp ht' with ht' | ht'
  · exact Or.inr (hfront t ht' c List.mem_cons_self)
  · rcases List.mem_cons.mp ht' with rfl | ht'
    · exact absurd rfl hne
    · exact Or.inl (List.rel_of_pairwise_cons hback ht')

/-- A comment stands before the token that it leads and before all later ones, and behind the earlier ones. -/
theorem stop_le_start_iff_of_mem_comments {c u : Token} {j : Nat} (hc : c ∈ (parse path text).comments i)
    (hu : (parse path text).tokens[j]? = some u) : c.stop ≤ u.start ↔ i ≤ j := by
  obtain ⟨t, ht⟩ := exists_token_of_mem_comments hc
  obtain ⟨⟨hscan, -⟩, hbefore, hafter⟩ := (mem_comments_iff ht).mp hc
  have hc' := (covers_scan text).nonempty c hscan
  have hu' := start_lt_stop_of_token hu
  have hf := isRead_parse path text
  constructor
  · intro hle
    by_contra hji
    obtain ⟨k, rfl⟩ : ∃ k, i = k + 1 := ⟨i - 1, by omega⟩
    obtain ⟨v, hv⟩ := exists_token (Nat.lt_of_succ_lt (Array.getElem?_eq_some_iff.mp ht).1)
    have hvc := hbefore k v rfl hv
    rcases Nat.lt_or_eq_of_le (Nat.le_of_lt_succ (Nat.lt_of_not_le hji)) with hlt | rfl
    · have huv := hf.stop_le_start_of_lt hlt hu hv
      have hv' := start_lt_stop_of_token hv
      omega
    · rw [hu, Option.some.injEq] at hv
      rw [← hv] at hvc
      omega
  · intro hij
    rcases Nat.lt_or_eq_of_le hij with hlt | rfl
    · have htu := hf.stop_le_start_of_lt hlt ht hu
      have ht' := start_lt_stop_of_token ht
      omega
    · rw [ht, Option.some.injEq] at hu
      rwa [← hu]

/-- Of the significant tokens that a comment precedes, it leads the first one. -/
theorem existsUnique_comments {c : Token} (hc : c ∈ scan text) (hcomment : c.kind.isComment = true)
    (hsize : 0 < (parse path text).size)
    (hlast : c.stop ≤ ((parse path text).span ((parse path text).size - 1)).start) :
    ∃! i, c ∈ (parse path text).comments i := by
  classical
  have hbehind : ∃ i : Nat, ∃ t : Token, (parse path text).tokens[i]? = some t ∧ c.stop ≤ t.start := by
    obtain ⟨t, ht⟩ := exists_token (Nat.sub_one_lt_of_lt hsize)
    rw [span_of_token ht] at hlast
    exact ⟨_, t, ht, hlast⟩
  obtain ⟨t, ht, hstop⟩ := Nat.find_spec hbehind
  have hmem : c ∈ (parse path text).comments (Nat.find hbehind) := by
    refine (mem_comments_iff ht).mpr ⟨⟨hc, hcomment⟩, fun j u hj hu => ?_, hstop⟩
    refine (stop_le_start_or_of_comment hc hcomment hu).resolve_left fun hle => ?_
    exact Nat.find_min hbehind (Nat.lt_of_succ_le (Nat.le_of_eq hj.symm)) ⟨u, hu, hle⟩
  refine ⟨Nat.find hbehind, hmem, fun k hk => ?_⟩
  obtain ⟨u, hu⟩ := exists_token_of_mem_comments hk
  have hle : k ≤ Nat.find hbehind := (stop_le_start_iff_of_mem_comments hk ht).mp hstop
  have hkstop : c.stop ≤ u.start := (stop_le_start_iff_of_mem_comments hk hu).mpr (Nat.le_refl k)
  exact Nat.le_antisymm hle ((stop_le_start_iff_of_mem_comments hmem hu).mp hkstop)

/-- Nothing of a text is lost: its tokens and the blanks between them are all of it, a file has its significant tokens in
order, and the comments of a token are those between it and the significant token before. -/
theorem parse_loses_nothing (path text : String) : Covers text (scan text) ∧ (parse path text).Keeps text := by
  refine ⟨covers_scan text, parse_tokens path text, ?_, fun _ => comments_eq_filter, fun _ => comments_eq_nil,
    fun _ => existsUnique_comments⟩
  obtain ⟨after, hscan, hafter⟩ := exists_after_attachComments [] (scan text) (by simp)
  exact ⟨after, by rwa [leading_zip_tokens], hafter⟩

/-- The comments between two tokens lead the second one, and the last comment leads none. -/
example : (List.range 4).map (fun i => ((parse "a" "a /* b */ // c\n.d // e").comments i).map Token.text) =
    [[], ["/* b */", "// c"], [], []] := by
  decide +kernel

end File

end SchemaSplice.Source
