/-!
# Byte positions in text

Positions in a text are counted in bytes of its UTF-8 form. A position is usable only where a character
begins, so cutting a text is partial: `splitAt?` refuses a position inside a character or past the end.
The lemmas say that a cut loses nothing and that its first part has the length asked for.
-/

namespace SchemaSplice.Text

/-! ### Lengths -/

def byteCount : List Char → Nat
  | [] => 0
  | c :: cs => c.utf8Size + byteCount cs

@[simp] theorem byteCount_nil : byteCount [] = 0 := rfl

@[simp] theorem byteCount_cons (c : Char) (cs : List Char) :
    byteCount (c :: cs) = c.utf8Size + byteCount cs := rfl

@[simp] theorem byteCount_append (a b : List Char) :
    byteCount (a ++ b) = byteCount a + byteCount b := by
  induction a with
  | nil => simp
  | cons c cs ih => simp [ih, Nat.add_assoc]

def size (text : String) : Nat := byteCount text.toList

/-! ### Cuts -/

/-- The characters before and after byte `n`, if `n` is a character boundary of the run. -/
def splitAt? : Nat → List Char → Option (List Char × List Char)
  | 0, cs => some ([], cs)
  | _ + 1, [] => none
  | n + 1, c :: cs =>
    if c.utf8Size ≤ n + 1 then
      (splitAt? (n + 1 - c.utf8Size) cs).map fun (a, b) => (c :: a, b)
    else
      none

theorem splitAt?_eq_some {n : Nat} {cs a b : List Char} (h : splitAt? n cs = some (a, b)) :
    a ++ b = cs ∧ byteCount a = n := by
  induction cs generalizing n a b with
  | nil =>
    cases n with
    | zero =>
      simp only [splitAt?, Option.some.injEq, Prod.mk.injEq] at h
      obtain ⟨rfl, rfl⟩ := h
      exact ⟨rfl, rfl⟩
    | succ n => simp [splitAt?] at h
  | cons c cs ih =>
    cases n with
    | zero =>
      simp only [splitAt?, Option.some.injEq, Prod.mk.injEq] at h
      obtain ⟨rfl, rfl⟩ := h
      exact ⟨rfl, rfl⟩
    | succ n =>
      simp only [splitAt?] at h
      split at h
      · rename_i hc
        obtain ⟨⟨a', b'⟩, hs, he⟩ := Option.map_eq_some_iff.1 h
        simp only [Prod.mk.injEq] at he
        obtain ⟨rfl, rfl⟩ := he
        obtain ⟨happ, hcount⟩ := ih hs
        refine ⟨by simp [happ], ?_⟩
        simp only [byteCount_cons, hcount]
        omega
      · simp at h

theorem splitAt?_byteCount (a b : List Char) : splitAt? (byteCount a) (a ++ b) = some (a, b) := by
  induction a with
  | nil => cases b <;> rfl
  | cons c cs ih =>
    have hpos : 0 < c.utf8Size := Char.utf8Size_pos c
    obtain ⟨m, hm⟩ : ∃ m, c.utf8Size + byteCount cs = m + 1 :=
      ⟨c.utf8Size + byteCount cs - 1, by omega⟩
    have hrest : m + 1 - c.utf8Size = byteCount cs := by omega
    have hle : c.utf8Size ≤ m + 1 := by omega
    simp only [byteCount_cons, List.cons_append, hm, splitAt?, hle, if_true, hrest, ih,
      Option.map_some]

def sliceChars? (cs : List Char) (start stop : Nat) : Option (List Char) :=
  if start ≤ stop then
    match splitAt? start cs with
    | some (_, rest) => (splitAt? (stop - start) rest).map Prod.fst
    | none => none
  else
    none

def slice? (text : String) (start stop : Nat) : Option String :=
  (sliceChars? text.toList start stop).map String.ofList

/-! ### Lines -/

def before : Nat → List Char → List Char
  | 0, _ => []
  | _ + 1, [] => []
  | n + 1, c :: cs => c :: before (n + 1 - c.utf8Size) cs

def lineOf (text : String) (offset : Nat) : Nat :=
  (before offset text.toList).count '\n' + 1

end SchemaSplice.Text
