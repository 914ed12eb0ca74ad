import FrontEnd.Proofs.Regex.Steps

/-!
# Offsets do not matter

Offsets are only reported.  A text whose characters are moved to other offsets is read as before,
and its errors are moved in the same way.

## Main Definitions

* `PatternError.moved`, `Lexeme.moved` — an error and a lexeme with other offsets
* `movedText`, `movedLexemes` — characters and lexemes with other offsets

## Main Statements

* `lexemesAfter_moved` — the lexemes of a text that is moved
* `assemble_moved` — the tree of lexemes that are moved
* `movedText_patternCharsFrom` — the characters of a text, wherever it begins

## Design Notes

A move is any function on offsets.  Each reader of a pattern commutes with it: its result is the
same, and its errors are moved.  There is one lemma for each reader, by its own recursion, and none
of them looks into another reader.
-/

namespace FrontEnd

/-- The error with its offset moved. -/
def PatternError.moved (move : Nat → Nat) (e : PatternError) : PatternError :=
  ⟨move e.position, e.fault⟩

/-- The lexeme with the offset of its error moved. -/
def Lexeme.moved (move : Nat → Nat) : Lexeme → Lexeme
  | .malformed e => .malformed (e.moved move)
  | lexeme => lexeme

/-- The characters with their offsets moved. -/
def movedText (move : Nat → Nat) (text : PatternText) : PatternText := text.map (Prod.map move id)

/-- The lexemes with their offsets moved. -/
def movedLexemes (move : Nat → Nat) (lexemes : List (Nat × Lexeme)) : List (Nat × Lexeme) :=
  lexemes.map (Prod.map move (Lexeme.moved move))

/-! ### Readers

The readers take characters from a text and report offsets only.  A text that is moved has the same
characters, so that every test gives the same answer. -/

section Readers

variable {move : Nat → Nat} {f : Flags} {position start : Nat} {text : PatternText}

@[simp] theorem movedText_cons {c : PatternChar} :
    movedText move ((position, c) :: text) = (move position, c) :: movedText move text := rfl

@[simp] theorem drop_movedText (n : Nat) :
    (movedText move text).drop n = movedText move (text.drop n) := List.map_drop.symm

theorem exists_of_movedText_eq_cons {c : PatternChar} {rest : PatternText}
    (h : movedText move text = (position, c) :: rest) :
    ∃ other tail, text = (other, c) :: tail ∧ movedText move tail = rest := by
  obtain ⟨⟨other, d⟩, tail, rfl, hc, hrest⟩ := List.map_eq_cons_iff.1 h
  obtain ⟨-, rfl⟩ := Prod.mk.inj hc
  exact ⟨other, tail, rfl, hrest⟩

/-- A run has the same bytes at other offsets. -/
@[simp] theorem plainRun_movedText (p : UInt8 → Bool) :
    plainRun p (movedText move text) = plainRun p text := by
  fun_induction plainRun p text with
  | case1 position rest b hb ih => simp [plainRun, hb, ih]
  | case2 position rest b hb => simp [plainRun, hb]
  | case3 text hplain =>
    rw [plainRun]
    intro position b rest heq
    obtain ⟨other, tail, rfl, -⟩ := exists_of_movedText_eq_cons heq
    exact hplain other b tail rfl

@[simp] theorem startsWith_movedText (b : UInt8) :
    startsWith b (movedText move text) = startsWith b text := by
  cases text <;> rfl

theorem orderedRange_moved (low high : UInt8) :
    orderedRange (move position) low high =
      (orderedRange position low high).mapError (PatternError.moved move) := by
  unfold orderedRange
  split <;> rfl

theorem classRange_moved (low : UInt8) :
    classRange (move position) low (movedText move text) =
      (classRange position low text).mapError (PatternError.moved move) := by
  fun_cases classRange position low text with
  | case1 => rfl
  | case2 => rfl
  | case3 => exact orderedRange_moved _ _
  | case4 => rfl
  | case5 dash position high rest hbracket hascii =>
    simp only [movedText_cons, classRange, hbracket, hascii, if_false, if_true]
    exact orderedRange_moved _ _
  | case6 dash position high rest hbracket hascii =>
    simp only [movedText_cons, classRange, hbracket, hascii, if_false]
    rfl
  | case7 text hnone =>
    rw [classRange]
    · rfl
    · intro dash position high rest heq
      obtain ⟨otherDash, tail, rfl, htail⟩ := exists_of_movedText_eq_cons heq
      obtain ⟨other, tail, rfl, -⟩ := exists_of_movedText_eq_cons htail
      exact hnone otherDash other high tail rfl

theorem className_moved :
    className (move position) (movedText move text) =
      (className position text).mapError (PatternError.moved move) := by
  unfold className
  simp only [drop_movedText, plainRun_movedText, startsWith_movedText]
  split
  · split <;> rfl
  · rfl

theorem classItem_moved (c : PatternChar) :
    classItem (move position) c (movedText move text) =
      (classItem position c text).mapError (PatternError.moved move) := by
  unfold classItem
  split
  · rfl
  · rfl
  · exact classRange_moved _
  · rw [startsWith_movedText]
    split
    · exact className_moved
    · split
      · exact classRange_moved _
      · rfl

theorem classItems_moved (skip : Nat) (first : Bool) (s : ByteSet) (taken : Nat) :
    classItems (move start) skip first s taken (movedText move text) =
      (classItems start skip first s taken text).mapError (PatternError.moved move) := by
  induction text generalizing skip first s taken with
  | nil => rfl
  | cons c rest ih =>
    obtain ⟨position, c⟩ := c
    rw [movedText_cons]
    cases skip with
    | succ skip => exact ih skip first s (taken + 1)
    | zero =>
      simp only [classItems, classItem_moved]
      split
      · rfl
      · cases classItem position c rest with
        | error e => rfl
        | ok r => exact ih r.2 false (s.union r.1) (taken + 1)

theorem classAt_moved :
    classAt f (move start) (movedText move text) =
      (classAt f start text).mapError (PatternError.moved move) := by
  unfold classAt
  simp only [startsWith_movedText, classItems_moved]
  cases classItems start _ true ByteSet.empty 0 text with
  | error e => rfl
  | ok r =>
    obtain ⟨s, taken⟩ := r
    simp only [Except.mapError]
    generalize (if startsWith 0x5e text then _ else _ : ByteSet) = read
    split <;> rfl

theorem textAt_moved :
    textAt f (move start) (movedText move text) =
      (textAt f start text).mapError (PatternError.moved move) := by
  induction text with
  | nil => rfl
  | cons c rest ih =>
    obtain ⟨position, c⟩ := c
    have hmap (b : UInt8) :
        (textAt f (move start) (movedText move rest)).map (fun r => (f.literal b :: r.1, r.2 + 1)) =
          ((textAt f start rest).map fun r => (f.literal b :: r.1, r.2 + 1)).mapError
            (PatternError.moved move) := by
      rw [ih]
      cases textAt f start rest <;> rfl
    rw [movedText_cons]
    unfold textAt
    split
    · rfl
    · rfl
    · exact hmap _
    · split
      · rfl
      · exact hmap _

theorem boundsAt_moved : boundsAt (movedText move text) = boundsAt text := by
  simp only [boundsAt, drop_movedText, plainRun_movedText, startsWith_movedText]

theorem braceAt_moved :
    braceAt (move start) (movedText move text) =
      Prod.map (Lexeme.moved move) id (braceAt start text) := by
  unfold braceAt
  cases text with
  | nil => rfl
  | cons c rest =>
    obtain ⟨position, c⟩ := c
    have hbounds : boundsAt (movedText move ((position, c) :: rest)) =
        boundsAt ((position, c) :: rest) := boundsAt_moved
    have hreference :
        referenceAt (move start) (movedText move ((position, c) :: rest)) =
          Prod.map (Lexeme.moved move) id (referenceAt start ((position, c) :: rest)) := by
      simp only [referenceAt, plainRun_movedText, drop_movedText, startsWith_movedText]
      split <;> rfl
    simp only [movedText_cons] at hbounds hreference ⊢
    rw [hbounds, hreference]
    split
    · rfl
    · split <;> rfl

/-- What a reader has found or refused is the lexeme that it was, at another offset. -/
theorem ofResult_moved {α : Type} {make : α → Lexeme} (hmake : ∀ a, (make a).moved move = make a)
    (result : Except PatternError (α × Nat)) :
    Lexeme.ofResult make (result.mapError (PatternError.moved move)) =
      Prod.map (Lexeme.moved move) id (Lexeme.ofResult make result) := by
  cases result with
  | error e => rfl
  | ok r => exact congrArg (·, r.2) (hmake r.1).symm

theorem ofPlain_moved (b : UInt8) :
    Lexeme.ofPlain f (move start) b (movedText move text) =
      Prod.map (Lexeme.moved move) id (Lexeme.ofPlain f start b text) := by
  have hite : ∀ {c : Prop} [Decidable c] {l m l' m' : Lexeme × Nat},
      l' = Prod.map (Lexeme.moved move) id l → m' = Prod.map (Lexeme.moved move) id m →
        (if c then l' else m') = Prod.map (Lexeme.moved move) id (if c then l else m) := by
    intro c _ l m l' m' hl hm
    split <;> assumption
  have hopening :
      startsWith 0x3a ((movedText move text).drop 1) = startsWith 0x3a (text.drop 1) := by
    rw [drop_movedText, startsWith_movedText]
  unfold Lexeme.ofPlain
  rw [startsWith_movedText, hopening, classAt_moved, textAt_moved, braceAt_moved,
    ofResult_moved fun _ => rfl, ofResult_moved fun _ => rfl]
  -- the signs that structure a pattern, the quantifiers of one sign, and the dot
  iterate 9 refine hite rfl ?_
  exact hite rfl (hite rfl (hite rfl rfl))

theorem read_moved (c : PatternChar) :
    Lexeme.read f (move start) c (movedText move text) =
      Prod.map (Lexeme.moved move) id (Lexeme.read f start c text) := by
  unfold Lexeme.read
  split
  · rfl
  · rfl
  · rfl
  · exact ofPlain_moved _

/-- A text has the same lexemes at other offsets. -/
theorem lexemesAfter_moved (skip : Nat) :
    lexemesAfter f skip (movedText move text) = movedLexemes move (lexemesAfter f skip text) := by
  induction text generalizing skip with
  | nil => rfl
  | cons c rest ih =>
    obtain ⟨position, c⟩ := c
    rw [movedText_cons]
    cases skip with
    | succ skip => exact ih skip
    | zero =>
      simp only [lexemesAfter, read_moved]
      rcases Lexeme.read f position c rest with ⟨lexeme, n⟩
      cases lexeme with
      | malformed e => rfl
      | _ => exact congrArg (_ :: ·) (ih n)

/-- The characters of a text are the same wherever it begins. -/
theorem movedText_patternCharsFrom (bytes : List UInt8) (other : Nat) :
    movedText (fun _ => 0) (patternCharsFrom position bytes) =
      movedText (fun _ => 0) (patternCharsFrom other bytes) := by
  fun_induction patternCharsFrom position bytes generalizing other <;>
    simp_all [patternCharsFrom] <;> apply_assumption

end Readers

/-! ### Trees

Groups remember the offsets at which they were opened, and they are moved, too. -/

section Trees

variable {move : Nat → Nat} {top : Bool} {expand : String → Except PatternFault Node}
  {position : Nat} {rest lexemes : List (Nat × Lexeme)} {g : OpenGroups}

/-- The open groups with their offsets moved. -/
def OpenGroups.moved (move : Nat → Nat) (g : OpenGroups) : OpenGroups :=
  ⟨g.outer.map (Prod.map move id), g.current⟩

/-- A lexeme does the same to groups that are moved. -/
theorem Lexeme.apply_moved (lexeme : Lexeme) :
    (lexeme.moved move).apply expand (move position) (g.moved move) =
      ((lexeme.apply expand position g).map (OpenGroups.moved move)).mapError
        (PatternError.moved move) := by
  have hrepeat : ∀ bounds, (g.moved move).repeatLast (move position) bounds =
      ((g.repeatLast position bounds).map (OpenGroups.moved move)).mapError
        (PatternError.moved move) := by
    intro bounds
    have hcurrent : (g.moved move).current = g.current := rfl
    unfold OpenGroups.repeatLast
    rw [hcurrent]
    cases g.current.repeatLast bounds <;> rfl
  obtain ⟨outer, current⟩ := g
  cases lexeme with
  | reference name =>
    unfold moved apply
    dsimp only
    cases expand name <;> rfl
  | closing => cases outer <;> rfl
  | question => exact hrepeat _
  | quantifier bounds => exact hrepeat bounds
  | _ => rfl

/-- What is looked at behind a lexeme does not depend on offsets. -/
theorem Lexeme.check_moved (lexeme : Lexeme) :
    (lexeme.moved move).check (movedLexemes move rest) =
      (lexeme.check rest).mapError (PatternError.moved move) := by
  have hgreedy : checkGreedy (movedLexemes move rest) =
      (checkGreedy rest).mapError (PatternError.moved move) := by
    match rest with
    | [] => rfl
    | (position, lexeme) :: rest => cases lexeme <;> rfl
  cases lexeme with
  | question => exact hgreedy
  | quantifier bounds => exact hgreedy
  | _ => rfl

theorem Lexeme.endsPattern_moved (lexeme : Lexeme) :
    (lexeme.moved move).endsPattern top (movedLexemes move rest) (g.moved move) =
      lexeme.endsPattern top rest g := by
  cases lexeme with
  | dollar => simp [endsPattern, moved, OpenGroups.moved, movedLexemes]
  | _ => rfl

/-- **The tree of lexemes does not depend on their offsets.** -/
theorem assemble_moved :
    assemble top expand (movedLexemes move lexemes) (g.moved move).outer (g.moved move).current =
      (assemble top expand lexemes g.outer g.current).mapError (PatternError.moved move) := by
  induction lexemes generalizing g with
  | nil =>
    obtain ⟨outer, current⟩ := g
    cases outer <;> rfl
  | cons l rest ih =>
    obtain ⟨position, lexeme⟩ := l
    show assemble top expand ((move position, lexeme.moved move) :: movedLexemes move rest) _ _ = _
    rw [assemble_cons, assemble_cons, Lexeme.endsPattern_moved, Lexeme.apply_moved,
      Lexeme.check_moved]
    split
    · rfl
    · cases lexeme.apply expand position g with
      | error e => rfl
      | ok next =>
        cases lexeme.check rest with
        | error e => rfl
        | ok u => exact ih

end Trees

end FrontEnd
