import SchemaSplice.Proofs.Enums.Whole
import SchemaSplice.Proofs.Reading.Invariant
/-!
# How enums number their members

What is written for the members of an enum determines their values: a text and a number that can be read are values
themselves, and any other member takes the running number. So a member whose initializer is computed takes a number that nobody
wrote. A member without initializer counts on from the last number as it should if numbers are whole and not too large,
unless a text stands in between, since texts are not counted.
-/

namespace SchemaSplice.Declaration

open Annotation Source SchemaSplice.Types

/-! ### What is written -/

inductive Initializer where
  | missing
  | text (s : String)
  | number (x : Binary64)
  /-- A numeric token that cannot be read, and the number that it stands for, if any. -/
  | unread (x? : Option Binary64)
  /-- Any other expression. -/
  | computed
deriving DecidableEq, Repr

namespace Initializer

/-- The number that is written. -/
def number? : Initializer → Option Binary64
  | number x => some x
  | unread x? => x?
  | _ => none

def isText : Initializer → Bool
  | text _ => true
  | _ => false

def ofNumber (read? meant? : Option Binary64) : Initializer :=
  match read? with
  | some x => number x
  | none => unread meant?

/-- The value of a member, given the running number. -/
def value (running : Binary64) : Initializer → Literal
  | missing => .number ((running.add .one).sub .one)
  | text s => .text s
  | number x => .number x
  | unread _ => .number running
  | computed => .number ((running.add .one).sub .one)

def next (running : Binary64) : Initializer → Binary64
  | text _ => running
  | number x => x.add .one
  | _ => running.add .one

end Initializer

def running (before : List Initializer) : Binary64 := before.foldl Initializer.next .zero

def hexNumber? (token : String) : Option Binary64 :=
  match token.toList.filter (· != '_') with
  | '0' :: c :: d :: ds =>
    if c == 'x' || c == 'X' then
      ((d :: ds).mapM Binary64.hexValue?).map fun values => .ofNat (values.foldl (fun n d => 16 * n + d) 0)
    else none
  | _ => none

def initializerOf (f : File) (start stop : Nat) : Initializer :=
  match f.kind? start, stop - start with
  | some .str, 1 => .text (Text.unquote (f.tokenText start))
  | some .number, 1 => .ofNumber (Binary64.ofToken? (f.tokenText start)) (hexNumber? (f.tokenText start))
  | some .minus, 2 =>
    if f.hasKind (start + 1) .number then
      .ofNumber ((Binary64.ofToken? (f.tokenText (start + 1))).map .neg) ((hexNumber? (f.tokenText (start + 1))).map .neg)
    else .computed
  | _, _ => .computed

def initializer (f : File) (i : Nat) : Initializer :=
  if f.hasKind i .eq then initializerOf f (i + 1) (f.expressionEnd (i + 1)) else .missing

/-- The token after the member whose name stands before token `i`, and after its comma. -/
def memberEnd (f : File) (i : Nat) : Nat := f.skip (if f.hasKind i .eq then f.expressionEnd (i + 1) else i) .comma

theorem initializerValue_eq (f : File) (start stop : Nat) (r : Binary64) :
    initializerValue f start stop r = ((initializerOf f start stop).value r, (initializerOf f start stop).next r) := by
  fun_cases initializerValue f start stop r with
  | case1 hlength hkind =>
    rw [initializerOf, hkind, hlength]
    rfl
  | case2 numbered hkind hlength =>
    rw [initializerOf, hkind, hlength]
    cases Binary64.ofToken? (f.tokenText start) <;> rfl
  | case3 numbered hkind hlength hnumber =>
    simp only [initializerOf, hkind, hlength, if_pos hnumber]
    cases Binary64.ofToken? (f.tokenText (start + 1)) with
    | none =>
      simp only [Option.getD_none, Binary64.neg_neg]
      rfl
    | some x => rfl
  | case4 hkind hlength hnumber =>
    simp only [initializerOf, hkind, hlength, if_neg hnumber]
    rfl
  | case5 hstr hnumber hminus =>
    have hcomputed : initializerOf f start stop = .computed := by
      unfold initializerOf
      split
      · next hkind hlength => exact absurd hlength (hstr hkind)
      · next hkind hlength => exact absurd hlength (hnumber hkind)
      · next hkind hlength => exact absurd hlength (hminus hkind)
      · rfl
    rw [hcomputed]
    rfl

theorem enumValue_eq (f : File) (i : Nat) (r : Binary64) :
    enumValue f i r = ⟨(initializer f i).value r, (initializer f i).next r, memberEnd f i⟩ := by
  unfold enumValue initializer memberEnd
  split
  · simp only [initializerValue_eq]
  · rfl

/-- The members from token `i` up to `close` with their initializers, up to the first that has no name. -/
def writtenMembers (f : File) (close i : Nat) : List (String × Initializer) :=
  if close ≤ i then []
  else
    match memberName? f i with
    | none => []
    | some name => (name, initializer f (i + 1)) :: writtenMembers f close (memberEnd f (i + 1))
termination_by close - i
decreasing_by
  have h := le_enumValue_next f (i + 1) .zero
  rw [enumValue_eq] at h
  simp only at h
  omega

/-! ### Values of members -/

def valued (r : Binary64) : List (String × Initializer) → List (String × Literal)
  | [] => []
  | (name, w) :: rest => (name, w.value r) :: valued (w.next r) rest

theorem enumEntries_eq (f : File) (close i : Nat) (r : Binary64) :
    (enumEntries f close i r).1 = valued r (writtenMembers f close i) := by
  fun_induction enumEntries f close i r with
  | case1 i r hle =>
    rw [writtenMembers, if_pos hle]
    rfl
  | case2 i r hlt hname =>
    rw [writtenMembers, if_neg hlt, hname]
    rfl
  | case3 i r hlt name hname v rest error hrest ih =>
    have hv : v = _ := enumValue_eq f (i + 1) r
    rw [hrest, hv] at ih
    rw [writtenMembers, if_neg hlt, hname, hv]
    exact congrArg _ ih

theorem mem_valued {ms : List (String × Initializer)} {r : Binary64} {name : String} {l : Literal}
    (h : (name, l) ∈ valued r ms) :
    ∃ before w after, ms = before ++ (name, w) :: after ∧ l = w.value ((before.map (·.2)).foldl Initializer.next r) := by
  induction ms generalizing r with
  | nil => cases h
  | cons m rest ih =>
    obtain ⟨name', w⟩ := m
    rcases List.mem_cons.mp h with h | h
    · cases h
      exact ⟨[], w, rest, rfl, rfl⟩
    · obtain ⟨before, w', after, rfl, hl⟩ := ih h
      exact ⟨(name', w) :: before, w', after, rfl, hl⟩

def IsMember (p : Project) (e : String) (before : List Initializer) (m : String) (w : Initializer) : Prop :=
  ∃ d ∈ p.types, d.name = e ∧ d.form = .enum ∧ ∃ close, (p.file d.file).closer? (d.token + 1) = some close ∧
    ∃ earlier later, writtenMembers (p.file d.file) close.1 (d.token + 1 + 1) = earlier ++ (m, w) :: later ∧
      earlier.map (·.2) = before

/-- An entry of an enum has the value that its member takes. -/
theorem IsEntry.isMember {p : Project} {e m : String} {l : Literal} (h : IsEntry p e m l) :
    ∃ before w, IsMember p e before m w ∧ l = w.value (running before) := by
  obtain ⟨d, hd, hname, hform, close, hclose, hmem⟩ := h
  rw [enumEntries_eq] at hmem
  obtain ⟨earlier, w, later, hwritten, hl⟩ := mem_valued hmem
  refine ⟨earlier.map (·.2), w, ⟨d, hd, hname, hform, close, hclose, earlier, later, hwritten, rfl⟩, ?_⟩
  rw [running]
  exact hl

/-! ### Values that are written or counted -/

/-- The number of a member without initializer: the last number that is written before it and its distance from there, or its
place if nothing is written before it. -/
inductive Awaits : List Initializer → Binary64 → Prop where
  | after {before since : List Initializer} {w : Initializer} {x : Binary64} (hw : w.number? = some x)
    (hsince : ∀ w' ∈ since, w'.number? = none) : Awaits (before ++ w :: since) (x.add (.ofNat (since.length + 1)))
  | first (n : Nat) : Awaits (.replicate n .missing) (.ofNat n)

/-- A value that is written for a member, or counted on from a number that is. -/
inductive Warranted (before : List Initializer) : Initializer → Literal → Prop where
  | text (s : String) : Warranted before (.text s) (.text s)
  | number {w : Initializer} {x : Binary64} (h : w.number? = some x) : Warranted before w (.number x)
  | missing {x : Binary64} (h : Awaits before x) : Warranted before .missing (.number x)

theorem Warranted.number?_eq {before : List Initializer} {w : Initializer} {x : Binary64}
    (h : Warranted before w (.number x)) (hw : w ≠ .missing) : w.number? = some x := by
  cases h with
  | number h => exact h
  | missing => exact absurd rfl hw

/-- No text stands between the last number and what follows, or nothing at all is written. -/
inductive Unbroken : List Initializer → Prop where
  | after (before : List Initializer) (x : Binary64) {since : List Initializer}
    (h : ∀ w ∈ since, w.number? = none ∧ w.isText = false) : Unbroken (before ++ .number x :: since)
  | first (n : Nat) : Unbroken (.replicate n .missing)

/-- A member that takes the value it should. -/
inductive Regular (before : List Initializer) : Initializer → Prop where
  | text (s : String) : Regular before (.text s)
  | number (x : Binary64) : Regular before (.number x)
  | unread : Regular before (.unread (some (running before)))
  | missing (h : Unbroken before) : Regular before .missing

/-- All numbers are read and whole, and too small to be rounded when they are counted on. -/
structure Whole (before : List Initializer) : Prop where
  length : before.length + 1 < 2 ^ 53
  read : ∀ x?, .unread x? ∉ before
  number : ∀ x, .number x ∈ before → ∃ n, x.IsWhole n ∧ n.natAbs + before.length + 1 < 2 ^ 53

def counted (ws : List Initializer) : Nat := ws.countP fun w => !w.isText

theorem counted_cons (w : Initializer) (ws : List Initializer) :
    counted (w :: ws) = counted ws + if w.isText then 0 else 1 := by
  rw [counted, List.countP_cons]
  cases w.isText <;> rfl

theorem counted_le (ws : List Initializer) : counted ws ≤ ws.length := List.countP_le_length

theorem counted_eq_length {ws : List Initializer} : counted ws = ws.length ↔ ∀ w ∈ ws, w.isText = false := by
  rw [counted, List.countP_eq_length]
  simp only [Bool.not_eq_true']

/-- Where no number is written, the running number counts the members without a text. -/
theorem foldl_next {n : Int} {ws : List Initializer} (hws : ∀ w ∈ ws, w.number? = none)
    (hbound : n.natAbs + ws.length < 2 ^ 53) : ws.foldl Initializer.next (.ofInt n) = .ofInt (n + counted ws) := by
  induction ws generalizing n with
  | nil => simp [counted]
  | cons w ws ih =>
    have hrest := fun w' hw' => hws w' (List.mem_cons_of_mem _ hw')
    rw [List.length_cons] at hbound
    have hstep : w.isText = false → w.next (.ofInt n) = .ofInt (n + 1) := by
      intro htext
      have hone := (Binary64.isWhole_ofInt (n := n) (by omega)).add_one
      have hnumber := hws w List.mem_cons_self
      cases w with
      | text s => cases htext
      | number x => cases hnumber
      | _ => exact hone
    rw [List.foldl_cons, counted_cons]
    cases htext : w.isText with
    | true =>
      cases w with
      | text s =>
        rw [show Initializer.next (.ofInt n) (.text s) = .ofInt n from rfl, ih hrest (by omega)]
        rfl
      | _ => cases htext
    | false =>
      rw [hstep htext, ih hrest (by omega)]
      congr 1
      simp only [Bool.false_eq_true, if_false]
      omega

/-- The running number after a whole number and members without one. -/
theorem running_after (before : List Initializer) {since : List Initializer} {x : Binary64} {n : Int} (hx : x.IsWhole n)
    (hsince : ∀ w ∈ since, w.number? = none) (hbound : n.natAbs + since.length + 1 < 2 ^ 53) :
    running (before ++ .number x :: since) = .ofInt (n + counted since + 1) := by
  rw [running, List.foldl_append, List.foldl_cons]
  show since.foldl Initializer.next (x.add .one) = _
  rw [hx.add_one, foldl_next hsince (by omega)]
  congr 1
  omega

/-- The running number after members for which nothing is written. -/
theorem running_first {n : Nat} (h : n < 2 ^ 53) : running (.replicate n .missing) = .ofInt n := by
  have hnone : ∀ w ∈ List.replicate n Initializer.missing, w.number? = none := by
    intro w hw
    rw [List.eq_of_mem_replicate hw]
    rfl
  have hcounted : counted (List.replicate n Initializer.missing) = n := by
    rw [counted_eq_length.mpr, List.length_replicate]
    intro w hw
    rw [List.eq_of_mem_replicate hw]
    rfl
  have hzero : Binary64.zero = .ofInt 0 := by decide +kernel
  rw [running, hzero, foldl_next hnone (by simpa using h), hcounted, Int.zero_add]

/-- The value of a member without initializer is the running number while that is small. -/
theorem value_missing {before : List Initializer} {n : Int} (hrunning : running before = .ofInt n)
    (hbound : n.natAbs + 1 < 2 ^ 53) : Initializer.missing.value (running before) = .number (.ofInt n) := by
  rw [Initializer.value, hrunning, Binary64.sub_one_add_one hbound]

section

variable {before : List Initializer} {w : Initializer}

theorem warranted_of_unbroken (hwhole : Whole before) (h : Unbroken before) :
    Warranted before .missing (Initializer.missing.value (running before)) := by
  cases h with
  | after before x hsince =>
    rename_i since
    obtain ⟨n, hx, hbound⟩ := hwhole.number x (by simp)
    rw [List.length_append, List.length_cons] at hbound
    have hnone := fun w hw => (hsince w hw).1
    have hcounted : counted since = since.length := counted_eq_length.mpr fun w hw => (hsince w hw).2
    have hrunning := running_after before hx hnone (by omega)
    rw [value_missing hrunning (by omega), hcounted, Int.add_assoc, ← Int.natCast_succ, ← hx.add_ofNat (by omega)]
    exact .missing (.after rfl hnone)
  | first n =>
    have hlength := hwhole.length
    rw [List.length_replicate] at hlength
    rw [value_missing (running_first (by omega)) (by omega), ← Binary64.ofNat_eq_ofInt]
    exact .missing (.first n)

theorem unbroken_of_warranted (hwhole : Whole before)
    (h : Warranted before .missing (Initializer.missing.value (running before))) : Unbroken before := by
  obtain ⟨x, hvalue, h⟩ : ∃ x, Initializer.missing.value (running before) = .number x ∧ Awaits before x := by
    cases h with
    | number h => cases h
    | missing h => exact ⟨_, rfl, h⟩
  cases h with
  | @after before since w y hw hsince =>
    cases w with
    | number x =>
      cases hw
      obtain ⟨n, hx, hbound⟩ := hwhole.number y (by simp)
      rw [List.length_append, List.length_cons] at hbound
      have hle := counted_le since
      have hrunning := running_after before hx hsince (by omega)
      rw [value_missing hrunning (by omega), hx.add_ofNat (by omega), Literal.number.injEq] at hvalue
      have heq := Binary64.ofInt_inj (by omega) (by omega) hvalue
      have hcounted : counted since = since.length := by omega
      exact .after before y fun w hw => ⟨hsince w hw, counted_eq_length.mp hcounted w hw⟩
    | unread x? => exact absurd (by simp) (hwhole.read x?)
    | missing | text | computed => cases hw
  | first n => exact .first n

/-- A member takes a value that is written or counted exactly if it is a regular one. -/
theorem warranted_iff_regular (hwhole : w = .missing → Whole before) :
    Warranted before w (w.value (running before)) ↔ Regular before w := by
  cases w with
  | missing =>
    refine ⟨fun h => .missing (unbroken_of_warranted (hwhole rfl) h), fun h => ?_⟩
    cases h with
    | missing h => exact warranted_of_unbroken (hwhole rfl) h
  | text s => exact ⟨fun _ => .text s, fun _ => .text s⟩
  | number x => exact ⟨fun _ => .number x, fun _ => .number rfl⟩
  | unread x? =>
    constructor
    · intro h
      cases h with
      | number h =>
        rw [show x? = some (running before) from h]
        exact .unread
    · intro h
      cases h with
      | unread => exact .number rfl
  | computed =>
    constructor
    · intro h
      cases h with
      | number h => cases h
    · intro h
      cases h

end

end SchemaSplice.Declaration
