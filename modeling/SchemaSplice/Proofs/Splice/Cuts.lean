import SchemaSplice.Proofs.Splice.Splicing
/-!
# Cuts of a file

A file is cut at a stop of the scanner: its significant tokens are those before the cut and then those of the rest of its
text. The tokens before the cut are the same in every file that begins with the same text and is cut there, and those after
it are the tokens of the rest, read as a file of its own, at later positions.
-/

namespace SchemaSplice.Source

/-! ### Slices of joined texts -/

section

variable {x r : List Char} {n start stop : Nat}

theorem splitAt?_append_left (h : n ≤ Text.byteCount x) :
    Text.splitAt? n (x ++ r) = (Text.splitAt? n x).map fun (a, b) => (a, b ++ r) := by
  induction x generalizing n with
  | nil =>
    obtain rfl : n = 0 := Nat.le_zero.mp h
    simp [Text.splitAt?]
  | cons c x ih =>
    cases n with
    | zero => simp [Text.splitAt?]
    | succ n =>
      rw [Text.byteCount_cons] at h
      rw [List.cons_append, Text.splitAt?, Text.splitAt?]
      split
      · rw [ih (by omega), Option.map_map, Option.map_map]
        rfl
      · rfl

theorem splitAt?_append_right (x r : List Char) (n : Nat) :
    Text.splitAt? (Text.byteCount x + n) (x ++ r) = (Text.splitAt? n r).map fun (a, b) => (x ++ a, b) := by
  induction x with
  | nil => simp
  | cons c x ih =>
    have hpos := Char.utf8Size_pos c
    obtain ⟨m, hm⟩ : ∃ m, Text.byteCount (c :: x) + n = m + 1 :=
      ⟨Text.byteCount (c :: x) + n - 1, by rw [Text.byteCount_cons]; omega⟩
    have hrest : m + 1 - c.utf8Size = Text.byteCount x + n := by
      rw [Text.byteCount_cons] at hm
      omega
    rw [hm, List.cons_append, Text.splitAt?, if_pos (by rw [Text.byteCount_cons] at hm; omega), hrest, ih,
      Option.map_map]
    rfl

/-- A slice that ends in the first part of a text does not depend on the second. -/
theorem sliceChars?_append_left (h : stop ≤ Text.byteCount x) :
    Text.sliceChars? (x ++ r) start stop = Text.sliceChars? x start stop := by
  unfold Text.sliceChars?
  split
  · next hle =>
    rw [splitAt?_append_left (Nat.le_trans hle h)]
    cases hsplit : Text.splitAt? start x with
    | none => rfl
    | some cut =>
      obtain ⟨a, b⟩ := cut
      obtain ⟨rfl, hcount⟩ := Text.splitAt?_eq_some hsplit
      rw [Text.byteCount_append] at h
      simp only [Option.map_some]
      rw [splitAt?_append_left (by omega), Option.map_map]
      rfl
  · rfl

theorem sliceChars?_append_right (x r : List Char) (start stop : Nat) :
    Text.sliceChars? (x ++ r) (Text.byteCount x + start) (Text.byteCount x + stop) =
      Text.sliceChars? r start stop := by
  unfold Text.sliceChars?
  by_cases hle : start ≤ stop
  · rw [if_pos hle, if_pos (Nat.add_le_add_left hle _), splitAt?_append_right, Nat.add_sub_add_left]
    cases Text.splitAt? start r with
    | none => rfl
    | some cut => rfl
  · rw [if_neg hle, if_neg (by omega)]

end

/-! ### Later tokens -/

/-- A token, counted from an earlier byte on. -/
def Token.later (n : Nat) (t : Token) : Token := { t with start := n + t.start }

theorem Token.later_stop (n : Nat) (t : Token) : (t.later n).stop = n + t.stop := Nat.add_assoc n t.start _

theorem scanFrom_later (n start : Nat) (cs : List Char) :
    scanFrom (n + start) cs = (scanFrom start cs).map (Token.later n) := by
  fun_induction scanFrom start cs with
  | case1 => rw [scanFrom_nil, List.map_nil]
  | case2 start c rest hc ih => rw [scanFrom_cons_space hc, Nat.add_assoc, ih]
  | case3 start c rest hc k body ih =>
    rw [Bool.not_eq_true] at hc
    rw [scanFrom_cons_of_not_space hc, Nat.add_assoc, ih, List.map_cons]
    rfl

/-! ### The same beginning -/

section

variable {x rest rest' : List Char} {ts : List (Kind × String)}

theorem Scans.of_space {c : Char} (hc : isSpace c = true) (h : Scans (c :: (x ++ rest)) ts rest) :
    Scans (x ++ rest) ts rest := by
  generalize hcs : c :: (x ++ rest) = cs at h
  cases h with
  | stop =>
    have hlength := congrArg List.length hcs
    rw [List.length_cons, List.length_append] at hlength
    omega
  | space _ h =>
    cases hcs
    exact h
  | token hc' _ =>
    cases hcs
    rw [hc] at hc'
    cases hc'

theorem Scans.of_token {c : Char} {t : Kind × String} (hc : isSpace c = false)
    (h : Scans (c :: (x ++ rest)) (t :: ts) rest) :
    t = ((lexeme c (x ++ rest)).1, String.ofList (c :: (x ++ rest).take (lexeme c (x ++ rest)).2)) ∧
      Scans ((x ++ rest).drop (lexeme c (x ++ rest)).2) ts rest := by
  generalize hcs : c :: (x ++ rest) = cs at h
  cases h with
  | space hc' _ =>
    cases hcs
    rw [hc] at hc'
    cases hc'
  | token _ h =>
    cases hcs
    exact ⟨rfl, h⟩

/-- Texts with the same beginning that are scanned alike have the same tokens there, at the same places. -/
theorem scanFrom_congr (h : Scans (x ++ rest) ts rest) (h' : Scans (x ++ rest') ts rest') (start : Nat) :
    ∃ front, scanFrom start (x ++ rest) = front ++ scanFrom (start + Text.byteCount x) rest ∧
      scanFrom start (x ++ rest') = front ++ scanFrom (start + Text.byteCount x) rest' ∧
      ∀ t ∈ front, t.stop ≤ start + Text.byteCount x := by
  generalize hcs : x ++ rest = cs at h
  induction h generalizing x start with
  | stop cs =>
    obtain rfl : x = [] := by simpa using hcs
    exact ⟨[], rfl, rfl, by simp⟩
  | @space c cs rest ts hc h ih =>
    obtain ⟨y, rfl⟩ := h.suffix
    obtain rfl : x = c :: y := List.append_cancel_right hcs
    obtain ⟨front, hfront, hfront', hstop⟩ := ih (Scans.of_space hc h') (start + c.utf8Size) rfl
    refine ⟨front, ?_, ?_, ?_⟩
    · rw [scanFrom_cons_space hc, hfront, Text.byteCount_cons, Nat.add_assoc]
    · rw [List.cons_append, scanFrom_cons_space hc, hfront', Text.byteCount_cons, Nat.add_assoc]
    · intro t ht
      have := hstop t ht
      rw [Text.byteCount_cons]
      omega
  | @token c cs rest ts hc h ih =>
    obtain ⟨y, hy⟩ := h.suffix
    obtain rfl : x = c :: (cs.take (lexeme c cs).2 ++ y) := by
      apply (List.append_left_inj rest).mp
      rw [hcs, List.cons_append, List.append_assoc, ← hy, List.take_append_drop]
    obtain ⟨hsame, hrest⟩ := Scans.of_token hc h'
    obtain ⟨hkind, htext⟩ := Prod.mk.inj hsame
    -- Both texts go on with the token and then with the same characters.
    have htake : cs.take (lexeme c cs).2 = (cs.take (lexeme c cs).2 ++ y ++ rest').take
        (lexeme c (cs.take (lexeme c cs).2 ++ y ++ rest')).2 := by
      have hchars := congrArg String.toList htext
      rw [String.toList_ofList, String.toList_ofList] at hchars
      exact (List.cons.inj hchars).2
    have hdrop : (cs.take (lexeme c cs).2 ++ y ++ rest').drop
        (lexeme c (cs.take (lexeme c cs).2 ++ y ++ rest')).2 = y ++ rest' := by
      have hsplit := List.take_append_drop (lexeme c (cs.take (lexeme c cs).2 ++ y ++ rest')).2
        (cs.take (lexeme c cs).2 ++ y ++ rest')
      rw [← htake] at hsplit
      rw [List.append_assoc] at hsplit ⊢
      exact List.append_cancel_left hsplit
    rw [hdrop] at hrest
    obtain ⟨front, hfront, hfront', hstop⟩ :=
      ih hrest (start + Text.byteCount (c :: cs.take (lexeme c cs).2)) hy.symm
    have hcount : start + Text.byteCount (c :: cs.take (lexeme c cs).2) + Text.byteCount y =
        start + Text.byteCount (c :: (cs.take (lexeme c cs).2 ++ y)) := by
      simp only [Text.byteCount_cons, Text.byteCount_append]
      omega
    rw [hcount] at hfront hfront' hstop
    refine ⟨⟨(lexeme c cs).1, String.ofList (c :: cs.take (lexeme c cs).2), start⟩ :: front, ?_, ?_, ?_⟩
    · rw [scanFrom_cons_of_not_space hc, hfront]
      rfl
    · rw [List.cons_append, scanFrom_cons_of_not_space hc, hdrop, ← htake, ← hkind, hfront']
      rfl
    · intro t ht
      rcases List.mem_cons.mp ht with rfl | ht
      · simp only [Token.stop, Text.size, String.toList_ofList, Text.byteCount_cons, Text.byteCount_append]
        omega
      · exact hstop t ht

end

/-! ### Cuts -/

/-- The tokens that are no comments. -/
def significant (ts : List Token) : List Token := ts.filter (!·.kind.isComment)

theorem significant_append (ts us : List Token) : significant (ts ++ us) = significant ts ++ significant us :=
  List.filter_append ts us

theorem significant_later (n : Nat) (ts : List Token) :
    significant (ts.map (Token.later n)) = (significant ts).map (Token.later n) := List.filter_map ..

namespace File

/-- A stop of the scanner in a file: the text before it with its significant tokens, and the rest of the text. -/
structure CutAt (f : File) (x : List Char) (front : List Token) (rest : List Char) : Prop where
  text : f.text.toList = x ++ rest
  tokens : f.tokens.toList = front ++ significant (scanFrom (Text.byteCount x) rest)
  before : ∀ t ∈ front, t.stop ≤ Text.byteCount x

variable {f f' : File} {x y rest rest' : List Char} {front : List Token} {ts : List (Kind × String)} {i : Nat} {t : Token}

/-- Files with the same beginning are cut alike. -/
theorem IsRead.exists_cuts (hf : f.IsRead) (hf' : f'.IsRead) (htext : f.text.toList = x ++ rest)
    (htext' : f'.text.toList = x ++ rest') (h : Scans (x ++ rest) ts rest) (h' : Scans (x ++ rest') ts rest') :
    ∃ front, f.CutAt x front rest ∧ f'.CutAt x front rest' := by
  obtain ⟨front, hfront, hfront', hstop⟩ := scanFrom_congr h h' 0
  rw [Nat.zero_add] at hfront hfront' hstop
  refine ⟨significant front, ⟨htext, ?_, ?_⟩, ⟨htext', ?_, ?_⟩⟩
  · rw [hf.tokens_toList, scan, htext, hfront]
    exact significant_append _ _
  · exact fun t ht => hstop t (List.mem_of_mem_filter ht)
  · rw [hf'.tokens_toList, scan, htext', hfront']
    exact significant_append _ _
  · exact fun t ht => hstop t (List.mem_of_mem_filter ht)

namespace CutAt

theorem extend (h : f.CutAt x front (y ++ rest)) (hrun : Scans (y ++ rest) ts rest) :
    ∃ inside, f.CutAt (x ++ y) (front ++ inside) rest ∧ inside.map Token.lexeme = ts.filter (!·.1.isComment) := by
  obtain ⟨inside, hinside, rfl, hstop⟩ := scanFrom_of_scans hrun (Text.byteCount x)
  rw [← Text.byteCount_append] at hinside hstop
  refine ⟨significant inside, ⟨?_, ?_, ?_⟩, ?_⟩
  · rw [h.text, List.append_assoc]
  · rw [h.tokens, hinside, significant_append, List.append_assoc]
  · intro t ht
    rcases List.mem_append.mp ht with ht | ht
    · have := h.before t ht
      rw [Text.byteCount_append]
      omega
    · exact hstop t (List.mem_of_mem_filter ht)
  · rw [List.filter_map]
    rfl

/-- A cut after the next token, when that is a single character. -/
theorem next {c : Char} {k : Kind} (h : f.CutAt x front (c :: rest)) (hspace : isSpace c = false)
    (hlexeme : lexeme c rest = (k, 0)) (hk : k.isComment = false) :
    ∃ t, f.CutAt (x ++ [c]) (front ++ [t]) rest ∧ t.kind = k ∧ t.start = Text.byteCount x ∧
      t.stop = Text.byteCount (x ++ [c]) := by
  have hscan := scanFrom_cons_of_not_space hspace (Text.byteCount x) rest
  rw [hlexeme, List.take_zero, List.drop_zero, ← Text.byteCount_append] at hscan
  have hstop : Token.stop ⟨k, String.ofList [c], Text.byteCount x⟩ = Text.byteCount (x ++ [c]) := by
    rw [Token.stop, Text.size, String.toList_ofList, Text.byteCount_append]
  refine ⟨⟨k, String.ofList [c], Text.byteCount x⟩, ⟨?_, ?_, ?_⟩, rfl, rfl, hstop⟩
  · rw [h.text, List.append_assoc]
    rfl
  · rw [h.tokens, hscan, significant, List.filter_cons_of_pos (by simp [hk]), List.append_assoc]
    rfl
  · intro t ht
    rcases List.mem_append.mp ht with ht | ht
    · have := h.before t ht
      rw [Text.byteCount_append]
      omega
    · rw [List.mem_singleton.mp ht]
      exact Nat.le_of_eq hstop

/-! ### Where a cut lies -/

theorem getElem?_eq {back : List Token} (h : f.CutAt x (front ++ t :: back) rest) : f.tokens[front.length]? = some t := by
  rw [← Array.getElem?_toList, h.tokens]
  simp

theorem stop_le_iff (h : f.CutAt x front rest) (ht : f.tokens[i]? = some t) :
    (i < front.length → t.stop ≤ Text.byteCount x) ∧
      (front.length ≤ i → Text.byteCount x ≤ t.start ∧ t.start < t.stop) := by
  rw [← Array.getElem?_toList, h.tokens] at ht
  constructor
  · intro hi
    rw [List.getElem?_append_left hi] at ht
    exact h.before t (List.mem_of_getElem? ht)
  · intro hi
    rw [List.getElem?_append_right hi] at ht
    exact le_start_of_mem_scanFrom (List.mem_of_mem_filter (List.mem_of_getElem? ht))

theorem length_le (h : f.CutAt x front rest) : front.length ≤ f.size := by
  rw [File.size, ← Array.length_toList, h.tokens, List.length_append]
  exact Nat.le_add_right _ _

theorem length_of_stop (hf : f.IsRead) (h : f.CutAt x front rest) (ht : f.tokens[i]? = some t)
    (hstop : t.stop = Text.byteCount x) : front.length = i + 1 := by
  have hfront := h.stop_le_iff ht
  have hlt : i < front.length := by
    apply Nat.lt_of_not_le
    intro hle
    have := hfront.2 hle
    omega
  apply Nat.le_antisymm ?_ hlt
  apply Nat.le_of_not_lt
  intro hnext
  have hsize : i + 1 < f.tokens.size := Nat.lt_of_lt_of_le hnext h.length_le
  have hu := Array.getElem?_eq_getElem hsize
  have hafter := hf.stop_le_start_of_lt (Nat.lt_succ_self i) ht hu
  have := (h.stop_le_iff hu).1 hnext
  have hpos := (le_start_of_mem_scanFrom (mem_scan_of_token hf hu)).2
  omega

theorem exists_concat (h : f.CutAt x front rest) (ht : f.tokens[i]? = some t) (hlength : front.length = i + 1) :
    ∃ tokens, front = tokens ++ [t] := by
  rcases List.eq_nil_or_concat front with rfl | ⟨tokens, u, rfl⟩
  · cases hlength
  · rw [List.concat_eq_append] at h hlength ⊢
    rw [List.length_append, List.length_singleton, Nat.add_right_cancel_iff] at hlength
    have hu := h.getElem?_eq
    rw [hlength, ht, Option.some.injEq] at hu
    exact ⟨tokens, by rw [hu]⟩

theorem length_of_start (hf : f.IsRead) (h : f.CutAt x front rest) (ht : f.tokens[i]? = some t)
    (hstart : t.start = Text.byteCount x) : front.length = i := by
  have hpos := (le_start_of_mem_scanFrom (mem_scan_of_token hf ht)).2
  have hle : front.length ≤ i := by
    apply Nat.le_of_not_lt
    intro hlt
    have := (h.stop_le_iff ht).1 hlt
    omega
  apply Nat.le_antisymm hle
  apply Nat.le_of_not_lt
  intro hlt
  have hsize : front.length < f.tokens.size :=
    Nat.lt_trans hlt (Array.getElem?_eq_some_iff.mp ht).1
  have hu := Array.getElem?_eq_getElem hsize
  have hafter := hf.stop_le_start_of_lt hlt hu ht
  have := (h.stop_le_iff hu).2 (Nat.le_refl _)
  omega

end CutAt

/-! ### The rest of a file -/

/-- The file `g` is what follows some text and tokens in the file `f`. -/
structure Ends (f g : File) (x : List Char) (front : List Token) : Prop where
  text : f.text.toList = x ++ g.text.toList
  tokens : f.tokens.toList = front ++ g.tokens.toList.map (Token.later (Text.byteCount x))

/-- The rest of a text, read as a file of its own. -/
theorem CutAt.ends (h : f.CutAt x front rest) (path : String) : f.Ends (File.parse path (String.ofList rest)) x front := by
  have htext : (File.parse path (String.ofList rest)).text.toList = rest := String.toList_ofList
  refine ⟨by rw [htext]; exact h.text, ?_⟩
  have hlater := scanFrom_later (Text.byteCount x) 0 rest
  rw [Nat.add_zero] at hlater
  rw [h.tokens, hlater, significant_later, parse_tokens, scan, String.toList_ofList]
  rfl

end File

end SchemaSplice.Source
