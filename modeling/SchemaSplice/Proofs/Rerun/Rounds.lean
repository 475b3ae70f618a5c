import SchemaSplice.Proofs.Rerun.Resettling
import SchemaSplice.Proofs.Splice.Rerun
/-!
# A second round over all files

The files before and after a run are the same files with different runs of tokens. So the second run finds the procedures of the
first one, with the same validators, and they are settled.
-/

namespace SchemaSplice

open Source SchemaSplice.Types Declaration Chain Pass
open Source.File (Widened Seen AfterDot InParens)

/-! ### A file as it was -/

section

variable {f : File} {words : List String}

theorem seen_id (f : File) (words : List String) (i : Nat) : Seen f f id words i := fun _ _ => Or.inl rfl

theorem reindexed_id (hf : f.IsRead) : Reindexed f f id where
  widened := hf.widened
  next _ _ _ := rfl
  afterDot _ _ _ := rfl
  runs j hj := absurd ⟨j, rfl⟩ hj

theorem undisturbed_id (hf : f.IsRead) : Undisturbed f f id words where
  widened := hf.widened
  seen i _ _ _ := Or.inl (seen_id f words i)
  runs j hj := absurd ⟨j, rfl⟩ hj
  terminals _ _ _ _ _ h := h.gap rfl
  ignored _ _ _ := rfl

end

/-! ### Projects -/

/-- The imports of a file come before its declarations and its chains. -/
structure ImportsFirst (p : Project) (settings : Settings) (index : Nat) : Prop where
  factories : ∀ i < Import.place (p.file index), ∀ w ∈ settings.factories, (p.file index).word? i = some w →
    (p.file index).hasKind (i + 1) .dot = false ∧ (p.file index).hasKind (i + 1) .questionDot = false
  types : ∀ d ∈ p.types, d.file = index → Import.place (p.file index) ≤ d.token
  values : ∀ d ∈ p.values, d.file = index → Import.place (p.file index) ≤ d.token

/-- A procedure that is edited where nothing is declared and no other chain starts. -/
structure EditedApart (f : File) (factories : List String) (x : Finding) : Prop where
  /-- Arguments that are replaced hold no factory word and no word that declares something. -/
  arguments : x.changes f = true → ∀ o, x.strategy = .replaceOutput o → ∀ i w, o.Holds i → f.word? i = some w →
    w ∉ factories ∧ w ∉ declarers
  /-- A call is inserted at a dot that is not the one of an optional chain. -/
  dot : ∀ d, x.strategy.insertsAt? = some d → f.hasKind d .dot = true

/-- A file whose chains keep to themselves. Where an import is added to it, everything else comes behind. -/
structure FileRerunnable (p : Project) (settings : Settings) (index : Nat) : Prop where
  chains : ∀ c ∈ chains (p.file index) settings.factories, ∀ s ∈ c.2, ¬s.Overruns (p.file index)
  findings : ∀ xs, found p index settings = .ok xs → ∀ x ∈ xs, EditedApart (p.file index) settings.factories x
  imports : ∀ e, Import.ensure (p.file index) settings.source = .ok (some e) → ImportsFirst p settings index

/-- A project whose files keep to themselves, with factory words that name no enum. -/
structure Rerunnable (p : Project) (settings : Settings) : Prop where
  source : PlainSource settings.source
  enums : ∀ d ∈ p.types, d.form = .enum → d.name ∉ settings.factories
  files : ∀ index < p.files.size, FileRerunnable p settings index

variable {sources : List (String × String)} {settings : Settings} {index : Nat} {xs : List Finding} {x : Finding} {files : List File}
  {old new : Nat → Nat → Nat}

theorem size_read (sources : List (String × String)) : (Project.read sources).files.size = sources.length := by
  simp [Project.read, Project.ofFiles]

theorem file_read {path text : String} (h : sources[index]? = some (path, text)) :
    (Project.read sources).file index = File.parse path text := by
  simp [Project.file, Project.read, Project.ofFiles, h]

theorem file_past (h : (Project.read sources).files.size ≤ index) : (Project.read sources).file index = File.parse "" "" := by
  simp [Project.file, Array.getElem?_eq_none h]

theorem size_rewritten (sources : List (String × String)) (settings : Settings) :
    (Project.read (rewritten sources settings)).files.size = (Project.read sources).files.size := by
  simp [size_read, rewritten]

theorem file_rewritten (settings : Settings) (hindex : index < (Project.read sources).files.size) :
    (Project.read (rewritten sources settings)).file index =
      File.parse ((Project.read sources).file index).path
        (textAfter (Project.read sources) settings index ((Project.read sources).file index).text) := by
  rw [size_read] at hindex
  rcases hsource : sources[index] with ⟨path, text⟩
  have hget : sources[index]? = some (path, text) := by rw [List.getElem?_eq_getElem hindex, hsource]
  rw [file_read hget]
  exact file_read (by simp [rewritten, hget]; exact ⟨rfl, rfl⟩)

/-! ### What a run knows of a file -/

theorem applyEdits_nil (text : String) : applyEdits text [] = .ok text := by
  have hslice := sliceChars?_zero text.toList []
  rw [List.append_nil] at hslice
  simp [applyEdits, firstOverlap?, copyFrom, hslice]

section

variable {p : Project} {report : FileReport}

theorem terminal_of_found (h : found p index settings = .ok xs) (hx : x ∈ xs) :
    ∃ kind, terminal? x.procedure.segments = .ok (kind, x.procedure.terminal) := by
  obtain ⟨s, s', hprocedure, -, -⟩ := (foundIn_of_found (extends_maintained p {}) (fun _ _ => rfl) h).1 x hx
  unfold procedureAt at hprocedure
  simp only at hprocedure
  split at hprocedure
  · cases hprocedure
  next kind terminal hterminal =>
  split at hprocedure
  · cases hprocedure
  split at hprocedure
  · cases hprocedure
  · rw [Prod.mk.injEq, Option.some.injEq] at hprocedure
    rw [← hprocedure.1]
    exact ⟨kind, hterminal⟩

/-- The edits that give a file its text. -/
theorem exists_edits (hreport : (reportOnFile p index settings).1 = .ok report) :
    ∃ xs imported, found p index settings = .ok xs ∧
      (∀ e, imported = some e → Import.ensure (p.file index) settings.source = .ok (some e) ∧ xs ≠ []) ∧
      applyEdits (p.file index).text (editsOf (p.file index) xs imported) = .ok (report.output.getD (p.file index).text) := by
  rw [reportOnFile_eq_found] at hreport
  obtain ⟨xs, hxs, hreport⟩ := Synthesis.exists_of_bind_eq_ok hreport
  obtain ⟨output, houtput, hreport⟩ := Synthesis.exists_of_bind_eq_ok hreport
  cases hreport
  by_cases hnil : (Progress.of (p.file index) xs).edits = []
  · rw [hnil] at houtput
    cases houtput
    refine ⟨xs, none, hxs, nofun, ?_⟩
    rw [editsOf, hnil]
    exact applyEdits_nil _
  cases himport : Import.ensure (p.file index) settings.source with
  | error e =>
    unfold outputOf at houtput
    rw [if_neg (by simpa using hnil), himport] at houtput
    cases houtput
  | ok imported =>
    refine ⟨xs, imported, hxs, ?_, ?_⟩
    · rintro e rfl
      refine ⟨rfl, ?_⟩
      rintro rfl
      exact hnil rfl
    · rw [outputOf_of_import hnil himport] at houtput
      rw [editsOf]
      cases happly : applyEdits (p.file index).text ((Progress.of (p.file index) xs).edits ++ imported.toList) with
      | error e =>
        rw [happly] at houtput
        cases houtput
      | ok out =>
        rw [happly] at houtput
        cases houtput
        congr 1
        change out = (if out == (p.file index).text then none else some out).getD _
        split
        · next heq => exact beq_iff_eq.mp heq
        · rfl

end

theorem touched_of_found (h : Rerunnable (Project.read sources) settings) (hindex : index < (Project.read sources).files.size)
    (hxs : found (Project.read sources) index settings = .ok xs) {imported : Option Edit}
    (himported : ∀ e, imported = some e →
      Import.ensure ((Project.read sources).file index) settings.source = .ok (some e) ∧ xs ≠ []) :
    Touched ((Project.read sources).file index) settings.factories settings.source xs imported where
  read := isRead_file sources index
  plain := h.source
  located := located_of_found (isRead_file sources index) hxs
  roots := roots_of_found hxs
  named x hx := by
    obtain ⟨-, hsublist⟩ := foundIn_of_found (extends_maintained _ {}) (fun _ _ => rfl) hxs
    exact (chainFrom?_eq_some_iff.mp (mem_chains_iff.mp (hsublist.mem (List.mem_map_of_mem hx)))).1
  terminals x hx := by
    obtain ⟨kind, hkind⟩ := terminal_of_found hxs hx
    rw [(terminal_mem_of_terminal? hkind).2]
    cases kind
    · exact Or.inl rfl
    · exact Or.inr rfl
  unentangled := (h.files index hindex).chains
  dots x hx := ((h.files index hindex).findings xs hxs x hx).dot
  arguments x hx := ((h.files index hindex).findings xs hxs x hx).arguments
  validators := closedOrderly_of_found hxs
  tame x hx := by
    have hnames : ∀ d ∈ (Project.read sources).types, isIdentifier d.name = true := fun _ => isIdentifier_of_mem_types
    obtain ⟨-, s', -, htable, hv⟩ := (foundIn_of_found (maintained_wellSpelled hnames) (fun _ _ hk => nomatch hk) hxs).1 x hx
    exact tame_validatorOfResult (fun i k hk => (htable i k hk).printable) hv
  inserts e he := ⟨(inserts_of_ensure (himported e he).1).2, (himported e he).2⟩
  before himport := by
    obtain ⟨e, he⟩ := Option.isSome_iff_exists.mp himport
    exact ((h.files index hindex).imports e (himported e he).1).factories

/-! ### What is common to a file and its new text -/

/-- Tokens that a file of a project has before and after a run. -/
structure Renewed (p p' : Project) (settings : Settings) (index : Nat) (f₀ : File) (old new : Nat → Nat) : Prop where
  reindexed : Reindexed f₀ (p.file index) old
  reindexed' : Reindexed f₀ (p'.file index) new
  undisturbed : Undisturbed f₀ (p.file index) old settings.factories
  undisturbed' : Undisturbed f₀ (p'.file index) new settings.factories
  seen : ∀ i, Seen f₀ (p.file index) old settings.factories i
  seen' : ∀ i, (∀ e, Import.ensure (p.file index) settings.source = .ok (some e) → Import.place (p.file index) ≤ old i) →
    Seen f₀ (p'.file index) new settings.factories i
  settled : ∀ report, (reportOnFile p index settings).1 = .ok report → ∀ xs, found p index settings = .ok xs →
    ∀ x₀ x y, x ∈ xs → FindingMoved f₀ (p.file index) old settings.factories x₀ x →
      FindingMoved f₀ (p'.file index) new settings.factories x₀ y → Settled (p'.file index) y
  failed : ∀ e, (reportOnFile p index settings).1 = .error e → p'.file index = p.file index ∧ f₀ = p.file index ∧ old = id ∧ new = id

theorem renewed_id {p p' : Project} (hf : (p.file index).IsRead) (hfile : p'.file index = p.file index)
    (hnone : ∀ report xs, (reportOnFile p index settings).1 = .ok report → found p index settings = .ok xs → xs = []) :
    Renewed p p' settings index (p.file index) id id where
  reindexed := reindexed_id hf
  reindexed' := by rw [hfile]; exact reindexed_id hf
  undisturbed := undisturbed_id hf
  undisturbed' := by rw [hfile]; exact undisturbed_id hf
  seen := seen_id _ _
  seen' i _ := by rw [hfile]; exact seen_id _ _ i
  settled report hreport xs hxs x₀ x y hx := by
    rw [hnone report xs hreport hxs] at hx
    cases hx
  failed _ _ := ⟨hfile, rfl, rfl, rfl⟩

theorem exists_renewed (h : Rerunnable (Project.read sources) settings) (index : Nat) :
    ∃ f₀ old new, Renewed (Project.read sources) (Project.read (rewritten sources settings)) settings index f₀ old new ∧
      ((Project.read sources).files.size ≤ index → f₀ = File.parse "" "") := by
  have hf := isRead_file sources index
  rcases Nat.lt_or_ge index (Project.read sources).files.size with hindex | hpast
  swap
  · have hfile := file_past hpast
    refine ⟨_, id, id, renewed_id hf ?_ ?_, fun _ => hfile⟩
    · rw [file_past (by rwa [size_rewritten]), hfile]
    · intro report xs _ hxs
      rw [List.eq_nil_iff_forall_not_mem]
      intro x hx
      have hlt := File.lt_size_of_hasKind (located_of_found hf hxs x hx).root
      rw [hfile, ← File.length_lexemes, (File.isRead_parse "" "").lexemes_eq] at hlt
      change x.procedure.root < (wordsOf (glyphs [])).length at hlt
      rw [glyphs_nil] at hlt
      exact Nat.not_lt_zero _ hlt
  have hfile := file_rewritten settings hindex
  cases hreport : (reportOnFile (Project.read sources) index settings).1 with
  | error e =>
    have hsame : (Project.read (rewritten sources settings)).file index = (Project.read sources).file index := by
      rw [hfile, textAfter, hreport]
      exact hf.symm
    refine ⟨_, id, id, renewed_id hf hsame ?_, fun hle => absurd hindex (Nat.not_lt_of_le hle)⟩
    intro report xs hok
    rw [hreport] at hok
    cases hok
  | ok report =>
    obtain ⟨xs, imported, hxs, himported, hout⟩ := exists_edits hreport
    have htouched := touched_of_found h hindex hxs himported
    obtain ⟨ps, last, hr⟩ := htouched.exists_retouched hout
    have hf' := isRead_file (rewritten sources settings) index
    have htext : ((Project.read (rewritten sources settings)).file index).text =
        report.output.getD ((Project.read sources).file index).text := by
      rw [hfile, textAfter, hreport]
      rfl
    refine ⟨skeleton ((Project.read sources).file index) ps last, woven (oldRun ps), newPlace ps last, ?_,
      fun hle => absurd hindex (Nat.not_lt_of_le hle)⟩
    refine ⟨hr.reindexed_old htouched, hr.reindexed_new htouched hf' htext, hr.undisturbed_old htouched,
      hr.undisturbed_new htouched hf' htext, hr.seen_old htouched, ?seen, ?settled, ?failed⟩
    case seen =>
      intro i hi
      refine hr.seen_new htouched hf' htext fun himport => ?_
      obtain ⟨e, he⟩ := Option.isSome_iff_exists.mp himport
      exact hi e (himported e he).1
    case settled =>
      intro _ _ xs' hxs' x₀ x y hx hm hm'
      cases hxs.symm.trans hxs'
      exact hr.settled_new htouched hf' htext hx hm hm'
    case failed =>
      intro e he
      rw [hreport] at he
      cases he

/-! ### All files -/

structure Common (sources : List (String × String)) (settings : Settings) (files : List File) (old new : Nat → Nat → Nat) : Prop where
  before : ReindexedFiles files (sources.map fun (path, text) => File.parse path text) old settings.factories
  after : ReindexedFiles files ((rewritten sources settings).map fun (path, text) => File.parse path text) new settings.factories
  renewed : ∀ index, Renewed (Project.read sources) (Project.read (rewritten sources settings)) settings index
    ((Project.ofFiles files).file index) (old index) (new index)

theorem exists_common (h : Rerunnable (Project.read sources) settings) :
    ∃ files old new, Common sources settings files old new := by
  choose f₀ old new hrenewed hpast using exists_renewed h
  have hfile : ∀ index, (Project.ofFiles ((List.range sources.length).map f₀)).file index = f₀ index := by
    intro index
    rcases Nat.lt_or_ge index sources.length with hlt | hge
    · simp [Project.file, Project.ofFiles, hlt]
    · rw [hpast index (by rwa [size_read])]
      simp [Project.file, Project.ofFiles, hge]
  have hbefore : ∀ j, Reindexed ((Project.ofFiles ((List.range sources.length).map f₀)).file j)
      ((Project.read sources).file j) (old j) := fun j => by rw [hfile]; exact (hrenewed j).reindexed
  have htypes := declsIn_ofFiles_moved (by simp) hbefore tests_typeForm?
  have hvalues := declsIn_ofFiles_moved (by simp) hbefore tests_valueForm?
  -- A declaration is the same one in the file as it was.
  have htype : ∀ d ∈ (Project.ofFiles ((List.range sources.length).map f₀)).types,
      moved old d ∈ (Project.read sources).types ∧ d.file < (Project.read sources).files.size := fun d hd =>
    ⟨by rw [show (Project.read sources).types = _ from htypes]; exact List.mem_map_of_mem hd,
      by simpa [size_read] using (exists_declAt hd).1⟩
  have hvalue : ∀ d ∈ (Project.ofFiles ((List.range sources.length).map f₀)).values,
      moved old d ∈ (Project.read sources).values ∧ d.file < (Project.read sources).files.size := fun d hd =>
    ⟨by rw [show (Project.read sources).values = _ from hvalues]; exact List.mem_map_of_mem hd,
      by simpa [size_read] using (exists_declAt hd).1⟩
  have henum : ∀ d ∈ (Project.ofFiles ((List.range sources.length).map f₀)).types, d.form = .enum → d.name ∉ settings.factories :=
    fun d hd => h.enums (moved old d) (htype d hd).1
  refine ⟨(List.range sources.length).map f₀, old, new, ⟨by simp, hbefore, ?_, ?_, henum⟩,
    ⟨by simp [rewritten], ?_, ?_, ?_, henum⟩, ?_⟩
  · intro d _
    rw [hfile]
    exact (hrenewed d.file).seen d.token
  · intro d _
    rw [hfile]
    exact (hrenewed d.file).seen d.token
  · intro j
    rw [hfile]
    exact (hrenewed j).reindexed'
  · intro d hd
    rw [hfile]
    exact (hrenewed d.file).seen' d.token fun e he => ((h.files d.file (htype d hd).2).imports e he).types _ (htype d hd).1 rfl
  · intro d hd
    rw [hfile]
    exact (hrenewed d.file).seen' d.token fun e he => ((h.files d.file (hvalue d hd).2).imports e he).values _ (hvalue d hd).1 rfl
  · intro index
    rw [hfile]
    exact hrenewed index

/-- The second run finds what the first one has found. -/
theorem found_again (h : Common sources settings files old new) (index : Nat) :
    SameFound ((Project.ofFiles files).file index) ((Project.read sources).file index) (old index) settings.factories
        (found (Project.ofFiles files) index settings) (found (Project.read sources) index settings) ∧
      SameFound ((Project.ofFiles files).file index) ((Project.read (rewritten sources settings)).file index) (new index)
        settings.factories (found (Project.ofFiles files) index settings)
        (found (Project.read (rewritten sources settings)) index settings) :=
  ⟨found_moved h.before.widened (h.renewed index).undisturbed, found_moved h.after.widened (h.renewed index).undisturbed'⟩

theorem forall₂_of_common {α β γ : Type} {R : α → β → Prop} {S : α → γ → Prop} {T : β → γ → Prop} {zs : List α} {xs : List β}
    {ys : List γ} (hx : List.Forall₂ R zs xs) (hy : List.Forall₂ S zs ys)
    (h : ∀ z, ∀ x ∈ xs, ∀ y ∈ ys, R z x → S z y → T x y) : List.Forall₂ T xs ys := by
  induction hx generalizing ys with
  | nil =>
    cases hy
    exact .nil
  | cons hxz _ ih =>
    cases hy with
    | cons hyz hrest =>
      refine .cons (h _ _ List.mem_cons_self _ List.mem_cons_self hxz hyz) (ih hrest ?_)
      exact fun z x hx y hy => h z x (List.mem_cons_of_mem _ hx) y (List.mem_cons_of_mem _ hy)

/-- All procedures of a file that the first run has dealt with are settled. -/
theorem settled_again (h : Common sources settings files old new) {report : FileReport}
    (hreport : (reportOnFile (Project.read sources) index settings).1 = .ok report) :
    ∃ ys, found (Project.read (rewritten sources settings)) index settings = .ok ys ∧
      ∀ y ∈ ys, Settled ((Project.read (rewritten sources settings)).file index) y := by
  obtain ⟨xs, hxs, -⟩ := unchanged_iff_settled hreport
  obtain ⟨hbefore, hafter⟩ := found_again h index
  rw [hxs] at hbefore
  generalize found (Project.ofFiles files) index settings = zs at hbefore hafter
  cases hbefore with
  | ok hmoved =>
    generalize hys : found (Project.read (rewritten sources settings)) index settings = ys at hafter
    cases hafter with
    | @ok _ ys hmoved' =>
      refine ⟨ys, rfl, ?_⟩
      have hsettled := (h.renewed index).settled report hreport xs hxs
      have hall : List.Forall₂ (fun y _ => Settled ((Project.read (rewritten sources settings)).file index) y ∧ True) ys xs :=
        forall₂_of_common hmoved' hmoved fun z y _ x hx hm' hm => ⟨hsettled z x y hx hm hm', trivial⟩
      exact ((List.forall₂_and_left _ _).mp hall).1

/-- Procedures that are spliced alike have the same edits. -/
theorem edits_congr {f : File} {xs ys : List Finding} (h : List.Forall₂ (fun x y => x.splice f = y.splice f) xs ys) :
    (Progress.of f xs).edits = (Progress.of f ys).edits := by
  have hmap : xs.map (Finding.splice f) = ys.map (Finding.splice f) := by
    rw [← List.forall₂_eq_eq_eq, List.forall₂_map_left_iff, List.forall₂_map_right_iff]
    exact h
  have hedits : ∀ zs : List Finding, (Progress.of f zs).edits =
      ((zs.map (Finding.splice f)).filter fun s => !s.edit.keepsText f.text).map (·.edit) := by
    intro zs
    rw [edits_of, List.filter_map, List.map_map]
    rfl
  rw [hedits, hedits, hmap]

theorem splice_eq {f : File} {x y : Finding} (hsegments : x.procedure.segments = y.procedure.segments)
    (hterminal : x.procedure.terminal = y.procedure.terminal) (hvalidator : x.validator = y.validator) :
    x.splice f = y.splice f := by
  unfold Finding.splice Finding.strategy Strategy.choose
  rw [hsegments, hterminal, hvalidator]

/-- A file that fails is left as it is, and fails again. -/
theorem failed_again (h : Common sources settings files old new) {e : Failure}
    (he : (reportOnFile (Project.read sources) index settings).1 = .error e) :
    ∃ e', (reportOnFile (Project.read (rewritten sources settings)) index settings).1 = .error e' := by
  obtain ⟨hfile, hcommon, hold, hnew⟩ := (h.renewed index).failed e he
  obtain ⟨hbefore, hafter⟩ := found_again h index
  rw [hcommon, hold] at hbefore
  rw [hcommon, hnew, hfile] at hafter
  generalize found (Project.ofFiles files) index settings = zs at hbefore hafter
  generalize hxs : found (Project.read sources) index settings = xs at hbefore
  generalize hys : found (Project.read (rewritten sources settings)) index settings = ys at hafter
  cases hbefore with
  | error =>
    cases hafter
    rw [reportOnFile_eq_found, hys]
    exact ⟨_, rfl⟩
  | @ok _ xs hmoved =>
    cases hafter with
    | @ok _ ys hmoved' =>
      have hsplices : List.Forall₂ (fun x y => x.splice ((Project.read sources).file index) =
          y.splice ((Project.read sources).file index)) xs ys := by
        refine forall₂_of_common hmoved hmoved' fun z x hx y hy hm hm' => ?_
        have hroot : x.procedure.root = y.procedure.root := hm.chain.root.trans hm'.chain.root.symm
        have hsegments : x.procedure.segments = y.procedure.segments :=
          hm.chain.segments'.trans ((congrArg (segmentsFrom _ <| · + 1) hroot).trans hm'.chain.segments'.symm)
        obtain ⟨kind, hkind⟩ := terminal_of_found hxs hx
        obtain ⟨kind', hkind'⟩ := terminal_of_found hys hy
        rw [hsegments, hkind', Except.ok.injEq, Prod.mk.injEq] at hkind
        exact splice_eq hsegments hkind.2.symm (hm.validator.trans hm'.validator.symm)
      rw [reportOnFile_of_found hxs, edits_congr hsplices] at he
      rw [reportOnFile_of_found hys, hfile]
      cases houtput : outputOf ((Project.read sources).file index) settings
          (Progress.of ((Project.read sources).file index) ys).edits with
      | error e' => exact ⟨e', rfl⟩
      | ok output =>
        rw [houtput] at he
        cases he

/-- A file whose procedures are settled has a report. -/
theorem exists_report {p : Project} {ys : List Finding} (hys : found p index settings = .ok ys)
    (hsettled : ∀ y ∈ ys, Settled (p.file index) y) : ∃ report, (reportOnFile p index settings).1 = .ok report := by
  rw [reportOnFile_of_found hys, edits_of_settled hsettled]
  exact ⟨_, rfl⟩

end SchemaSplice
