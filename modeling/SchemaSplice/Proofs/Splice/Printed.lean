import SchemaSplice.Chain.Strategy
import SchemaSplice.Import.Insert
import SchemaSplice.Proofs.Printing.Decimals
import SchemaSplice.Proofs.Splice.Tame
/-!
# Printed texts

Printed validators are tame when their names are, and so the texts that edits put into a file are scanned on their own: their
tokens are the same whatever follows.
-/

namespace SchemaSplice

open Source Validator

/-! ### Parts of validators -/

def QuietText (s : String) : Prop := ∀ c ∈ s.toList, isQuiet c = true

instance (s : String) : Decidable (QuietText s) :=
  decidable_of_iff (s.toList.all isQuiet = true) List.all_eq_true

theorem QuietText.tame {s : String} (h : QuietText s) : Tame s.toList := .of_quiet h

theorem isQuiet_of_isIdentPart {c : Char} (h : isIdentPart c = true) : isQuiet c = true := by
  have hne : ∀ d, isIdentPart d = false → c ≠ d := by
    rintro d hd rfl
    rw [h] at hd
    cases hd
  simp only [isQuiet, Bool.and_eq_true, bne_iff_ne]
  exact ⟨⟨⟨hne _ rfl, hne _ rfl⟩, hne _ rfl⟩, hne _ rfl⟩

theorem isIdentPart_of_isIdentifier {s : String} (h : isIdentifier s = true) : ∀ c ∈ s.toList, isIdentPart c = true := by
  intro c hc
  unfold isIdentifier at h
  split at h
  · next hs =>
    rw [hs] at hc
    cases hc
  · next a as hs =>
    rw [Bool.and_eq_true, List.all_eq_true] at h
    rw [hs] at hc
    rcases List.mem_cons.mp hc with rfl | hc
    · rw [isIdentPart, h.1, Bool.true_or]
    · exact h.2 c hc

theorem quietText_of_isIdentifier {s : String} (h : isIdentifier s = true) : QuietText s :=
  fun c hc => isQuiet_of_isIdentPart (isIdentPart_of_isIdentifier h c hc)

theorem tame_joinChars {separator : List Char} (hsep : Tame separator) {items : List (List Char)}
    (h : ∀ x ∈ items, Tame x) : Tame (joinChars separator items) := by
  fun_induction joinChars separator items with
  | case1 => exact .nil
  | case2 a => exact h a List.mem_cons_self
  | case3 a b rest ih =>
    refine .append (.append (h a List.mem_cons_self) hsep) (ih ?_)
    intro x hx
    exact h x (List.mem_cons_of_mem _ hx)

theorem mem_argumentsChars {args : List Argument} {x : List Char} (h : x ∈ argumentsChars args) :
    ∃ a ∈ args, a.chars = x := by
  induction args with
  | nil => cases h
  | cons a args ih =>
    rcases List.mem_cons.mp h with rfl | h
    · exact ⟨a, List.mem_cons_self, rfl⟩
    · obtain ⟨b, hb, rfl⟩ := ih h
      exact ⟨b, List.mem_cons_of_mem _ hb, rfl⟩

theorem mem_entriesChars {entries : List (String × Validator)} {x : List Char}
    (h : x ∈ entriesChars entries) : ∃ e ∈ entries, entryChars e = x := by
  induction entries with
  | nil => cases h
  | cons e entries ih =>
    rcases List.mem_cons.mp h with rfl | h
    · exact ⟨e, List.mem_cons_self, rfl⟩
    · obtain ⟨b, hb, rfl⟩ := ih h
      exact ⟨b, List.mem_cons_of_mem _ hb, rfl⟩

theorem tame_arguments {args : List Argument} (h : ∀ a ∈ args, Tame a.chars) :
    Tame (joinChars [',', ' '] (argumentsChars args)) := by
  apply tame_joinChars (.of_all (by decide))
  intro x hx
  obtain ⟨a, ha, rfl⟩ := mem_argumentsChars hx
  exact h a ha

theorem tame_keyChars (key : String) : Tame (keyChars key) := by
  unfold keyChars
  split
  · next hkey => exact (quietText_of_isIdentifier hkey).tame
  · exact tame_quoteJson _

theorem isQuiet_of_isDigit {c : Char} (h : c.isDigit = true) : isQuiet c = true :=
  isQuiet_of_isIdentPart (isIdentPart_of_isDigit h)

theorem isQuiet_of_isInner {c : Char} (h : isInner c = true) : isQuiet c = true := by
  have hne : ∀ d, isInner d = false → c ≠ d := by
    rintro d hd rfl
    rw [h] at hd
    cases hd
  simp only [isQuiet, Bool.and_eq_true, bne_iff_ne]
  exact ⟨⟨⟨hne _ rfl, hne _ rfl⟩, hne _ rfl⟩, hne _ rfl⟩

/-! ### Numbers -/

theorem IsDecimal.inner {ds : List Char} (h : IsDecimal ds) : ∀ c ∈ ds, isInner c = true := by
  have hdigits : ∀ {fs : List Char}, (∀ c ∈ fs, c.isDigit = true) → ∀ c ∈ fs, isInner c = true :=
    fun hfs c hc => isInner_of_isIdentPart (isIdentPart_of_isDigit (hfs c hc))
  cases h with
  | whole _ hds => exact hdigits hds
  | pointed _ hds _ hfs =>
    intro c hc
    rcases List.mem_append.mp hc with hc | hc
    · exact hdigits hds c hc
    · rcases List.mem_cons.mp hc with rfl | hc
      · rfl
      · exact hdigits hfs c hc

/-- A printed number consists of digits, a point, a sign or the letters of a name. -/
theorem isInner_numberChars (x : Binary64) : ∀ c ∈ numberChars x, isInner c = true := by
  have hnames : ∀ s ∈ ["-Infinity", "Infinity", "NaN"], s.toList.all isInner = true := by decide
  unfold numberChars
  split
  · split
    · exact List.all_eq_true.mp (hnames _ (by decide))
    · exact List.all_eq_true.mp (hnames _ (by decide))
  unfold Binary64.display
  split
  · exact List.all_eq_true.mp (hnames _ (by decide))
  rw [String.toList_ofList]
  intro c hc
  rcases List.mem_append.mp hc with hc | hc
  · unfold Binary64.sign at hc
    split at hc
    · rw [List.mem_singleton.mp hc]
      rfl
    · cases hc
  · exact x.isDecimal_magnitude.inner c hc

theorem tame_numberChars (x : Binary64) : Tame (numberChars x) :=
  .of_quiet fun c hc => isQuiet_of_isInner (isInner_numberChars x c hc)

/-! ### Validators -/

theorem tame_call {name : String} (hname : QuietText name) {args : List Argument}
    (hargs : ∀ a ∈ args, Tame a.chars) : Tame (Validator.call name args).chars := by
  unfold Validator.chars
  refine .append (.append (.append (.of_all (by decide)) hname.tame) ?_) (.of_all (by decide))
  exact .quiet rfl (tame_arguments hargs)

theorem tame_method {receiver : Validator} (hreceiver : Tame receiver.chars) {name : String}
    (hname : QuietText name) {args : List Argument} (hargs : ∀ a ∈ args, Tame a.chars) :
    Tame (Validator.method receiver name args).chars := by
  unfold Validator.chars
  refine .append (.append (.append hreceiver (.quiet rfl hname.tame)) ?_) (.of_all (by decide))
  exact .quiet rfl (tame_arguments hargs)

theorem tame_list {items : List Argument} (h : ∀ a ∈ items, Tame a.chars) :
    Tame (Argument.list items).chars := by
  unfold Argument.chars
  exact .append (.quiet rfl (tame_arguments h)) (.of_all (by decide))

theorem tame_fields {entries : List (String × Validator)} (h : ∀ e ∈ entries, Tame e.2.chars) :
    Tame (Argument.fields entries).chars := by
  cases entries with
  | nil => exact .of_all (by decide)
  | cons e es =>
    unfold Argument.chars
    refine .append (.append (.of_all (by decide)) ?_) (.of_all (by decide))
    apply tame_joinChars (.of_all (by decide))
    intro x hx
    obtain ⟨⟨key, v⟩, hmem, rfl⟩ := mem_entriesChars hx
    exact .append (.append (tame_keyChars key) (.of_all (by decide))) (h _ hmem)

/-! ### Texts that are scanned on their own -/

/-- A text whose tokens are the same whatever follows it. -/
def SelfContained (x : List Char) : Prop := ∃ ts, ∀ r, Scans (x ++ r) ts r

/-- The tokens of a self-contained text, wherever it stands. -/
theorem SelfContained.scans_lexemes {text : String} (h : SelfContained text.toList) (r : List Char) :
    Scans (text.toList ++ r) (lexemes text) r := by
  obtain ⟨ts, hrun⟩ := h
  have hwhole := hrun []
  rw [List.append_nil] at hwhole
  rw [lexemes_of_scans hwhole]
  exact hrun r

theorem SelfContained.append_space {x : List Char} (h : SelfContained x) {c : Char}
    (hc : isSpace c = true) : SelfContained (x ++ [c]) := by
  obtain ⟨ts, hrun⟩ := h
  refine ⟨ts, fun r => ?_⟩
  rw [List.append_assoc, ← List.append_nil ts]
  exact (hrun ([c] ++ r)).trans (.space hc (.stop r))

/-- A tame text with a last token that nothing after it can change. -/
theorem selfContained_of_tame {x : List Char} (hx : Tame x) {c : Char} {body : List Char} {kind : Kind}
    (hspace : isSpace c = false) (hinner : isInner c = false) (hlexeme : lexeme c body = (kind, body.length))
    (hseam : ∀ r, Seam [] r kind) : SelfContained (x ++ c :: body) := by
  obtain ⟨ts, hfront⟩ := hx.scans hinner body
  have hlast : Scans (c :: body) [(kind, String.ofList (c :: body))] [] := by
    have htoken : Scans (c :: (body ++ [])) [(kind, String.ofList (c :: body))] [] :=
      .of_lexeme hspace (by rw [List.append_nil, hlexeme]) (.stop [])
    rw [List.append_nil] at htoken
    exact htoken
  have hrun : Scans ((x ++ c :: body) ++ []) (ts ++ [(kind, String.ofList (c :: body))]) [] := by
    rw [List.append_nil]
    exact hfront.trans hlast
  refine ⟨_, fun r => hrun.replace ?_⟩
  intro t ht
  rw [List.getLast?_concat, Option.some.injEq] at ht
  rw [← ht]
  exact hseam r

/-! ### The texts of edits -/

theorem beginMarker_toList :
    beginMarker.toList = '/' :: '*' :: (" BEGIN GENERATED CONTENT ".toList ++ ['*', '/']) := rfl

theorem endMarker_toList :
    endMarker.toList = '/' :: '*' :: (" END GENERATED CONTENT ".toList ++ ['*', '/']) := rfl

theorem tame_beginMarker : Tame beginMarker.toList := by
  rw [beginMarker_toList]
  exact tame_comment (by decide)

theorem tame_endMarker : Tame endMarker.toList := by
  rw [endMarker_toList]
  exact tame_comment (by decide)

theorem printMarked_toList (v : Validator) :
    v.printMarked.toList = beginMarker.toList ++ ' ' :: (v.chars ++ [' ']) ++ endMarker.toList := by
  show (beginMarker ++ " " ++ v.print ++ " " ++ endMarker).toList = _
  simp [Validator.print]

theorem insertedCall_toList (v : Validator) :
    (Chain.insertedCall v).toList = ".output(".toList ++ v.printMarked.toList ++ [')'] := by
  show (".output(" ++ v.printMarked ++ ")").toList = _
  simp

theorem statementText_toList (source : String) :
    (Import.statementText source).toList =
      "import \x7b z \x7d from ".toList ++ ('\x27' :: (source.toList ++ ['\x27'])) ++ [';'] := by
  show ("import \x7b z \x7d from '" ++ source ++ "';").toList = _
  simp

/-- A module name that can stand between single quotes as it is. -/
def PlainSource (source : String) : Prop := ∀ c ∈ source.toList, c ≠ '\x27' ∧ c ≠ '\\' ∧ c ≠ '\n'

instance (source : String) : Decidable (PlainSource source) :=
  decidable_of_iff (source.toList.all (fun c => c != '\x27' && c != '\\' && c != '\n') = true)
    (by simp [PlainSource, and_assoc])

variable {v : Validator} {source : String}

theorem tame_before_endMarker (hv : Tame v.chars) : Tame (beginMarker.toList ++ ' ' :: (v.chars ++ [' '])) :=
  .append tame_beginMarker (.quiet rfl (.append hv (.of_all (by decide))))

theorem selfContained_printMarked (hv : Tame v.chars) : SelfContained v.printMarked.toList := by
  rw [printMarked_toList, endMarker_toList]
  have hbody : '*' ∉ " END GENERATED CONTENT ".toList := by decide
  have hlexeme := lexeme_comment hbody []
  rw [List.append_nil] at hlexeme
  exact selfContained_of_tame (tame_before_endMarker hv) rfl rfl hlexeme (fun _ => trivial)

theorem selfContained_insertedCall (hv : Tame v.chars) : SelfContained (Chain.insertedCall v).toList := by
  rw [insertedCall_toList, printMarked_toList]
  have htame : Tame (".output(".toList ++ (beginMarker.toList ++ ' ' :: (v.chars ++ [' ']) ++ endMarker.toList)) :=
    .append (.of_all (by decide)) (.append (tame_before_endMarker hv) tame_endMarker)
  exact selfContained_of_tame htame rfl rfl rfl (fun _ => trivial)

theorem selfContained_statementText (h : PlainSource source) (front : List Char)
    (hfront : front.all isQuiet = true) :
    SelfContained (front ++ (Import.statementText source).toList) := by
  rw [statementText_toList, ← List.append_assoc]
  have htame : Tame (front ++ ("import \x7b z \x7d from ".toList ++ ('\x27' :: (source.toList ++ ['\x27'])))) :=
    .append (.of_all hfront) (.append (.of_all (by decide)) (tame_quoted h))
  exact selfContained_of_tame htame rfl rfl rfl (fun _ => trivial)

end SchemaSplice
