import FrontEnd.Proofs.Regex.Steps

/-!
# Where the faults of a pattern are

A fault is reported at the offset of a character that has been read.  What the reading of a pattern
refuses by itself is told apart from what it takes over from the patterns that it refers to.

## Main Definitions

* `PatternFault.IsOwn` — the faults that need no other pattern
* `PatternError.Within` — such a fault at an offset in a text of some length
* `PatternChar.Within`, `Lexeme.Within` — a character and a lexeme of such a text

## Main Statements

* `within_lexemes` — the lexemes of a pattern are in the pattern, and so are their faults
* `Regex.cases_of_readWith_eq_error` — an error is a fault of the pattern, or the fault of a
  reference

## Design Notes

Each reader gets one lemma, which says that its faults are its own and that they are reported at a
character of the text.  `PatternError.Within` holds for the whole text, so that it is handed on from
a reader to those that use it without a change.  References are left out: what they hand on is a
fault of another pattern, and the last lemma says that an error is one or the other.
-/

namespace FrontEnd

/-- A fault that the pattern has by itself, whatever other patterns there are. -/
def PatternFault.IsOwn : PatternFault → Prop
  | .unknownReference _ => False
  | .recursiveReference _ => False
  | .inBody .. => False
  | _ => True

/-- The error is a fault of a text of `n` bytes. -/
def PatternError.Within (n : Nat) (e : PatternError) : Prop := e.position ≤ n ∧ e.fault.IsOwn

/-- A character stands in a text of `n` bytes, and a faulty one is a fault of this text. -/
def PatternChar.Within (n position : Nat) (c : PatternChar) : Prop :=
  position ≤ n ∧ ∀ fault, c = .faulty fault → fault.IsOwn

/-- A lexeme stands in a text of `n` bytes, and the error of a malformed one is a fault of this
text. -/
def Lexeme.Within (n position : Nat) (lexeme : Lexeme) : Prop :=
  position ≤ n ∧ ∀ e, lexeme = .malformed e → e.Within n

section Characters

variable {n position : Nat}

/-! ### Characters

A character is faulty because of an escape, which is a fault of the pattern itself.  Its offset is
that of the backslash. -/

/-- A faulty escape needs no other pattern to be faulty. -/
theorem isOwn_of_escapeOf {b : UInt8} {fault : PatternFault} (h : escapeOf b = .faulty fault) :
    fault.IsOwn := by
  unfold escapeOf at h
  split at h
  · cases h
  · split at h
    · cases h
    · split at h <;> cases h
      trivial

theorem within_faulty {fault : PatternFault} (hle : position ≤ n) (hown : fault.IsOwn) :
    (PatternChar.faulty fault).Within n position := by
  refine ⟨hle, fun other hother => ?_⟩
  cases hother
  exact hown

/-- The characters of a text are in the text. -/
theorem within_patternCharsFrom {bytes : List UInt8} (h : position + bytes.length ≤ n) :
    ∀ c ∈ patternCharsFrom position bytes, c.2.Within n c.1 := by
  have hle : position ≤ n := Nat.le_of_add_right_le h
  fun_induction patternCharsFrom position bytes
  case case1 => exact List.forall_mem_nil _
  -- a character that ends the text, or one in front of others
  all_goals simp only [List.length_cons, List.length_nil] at *
  all_goals first
    | refine List.forall_mem_singleton.2 ?_
    | refine List.forall_mem_cons.2 ⟨?_, by apply_assumption <;> omega⟩
  -- it is faulty, an escape of one letter, or read
  all_goals first
    | exact within_faulty hle trivial
    | exact ⟨hle, fun _ => isOwn_of_escapeOf⟩
    | exact ⟨hle, fun _ h => by cases h⟩

/-! ### Readers

The readers of ranges, classes and quoted strings.  Each of them reports at the start of what it
reads or at one of its characters. -/

variable {f : Flags} {start : Nat} {text : PatternText} {e : PatternError}

theorem within_orderedRange {low high : UInt8} (hle : position ≤ n)
    (h : orderedRange position low high = .error e) : e.Within n := by
  unfold orderedRange at h
  split at h <;> cases h
  exact ⟨hle, trivial⟩

/-- A range is at fault itself, or one of its characters is. -/
theorem within_classRange {low : UInt8} (hle : position ≤ n)
    (htext : ∀ c ∈ text, c.2.Within n c.1) (h : classRange position low text = .error e) :
    e.Within n := by
  unfold classRange at h
  split at h
  · next dash highPosition high rest =>
    have hhigh := htext (highPosition, high) (by simp)
    split at h
    · cases h
      exact ⟨hhigh.1, hhigh.2 _ rfl⟩
    · cases h
      exact ⟨hle, trivial⟩
    · exact within_orderedRange hle h
    · split at h
      · cases h
      · split at h
        · exact within_orderedRange hle h
        · cases h
          exact ⟨hhigh.1, trivial⟩
  · cases h

/-- The name of a class is reported where it stands. -/
theorem within_className (hle : position ≤ n) (h : className position text = .error e) :
    e.Within n := by
  unfold className at h
  dsimp only at h
  split at h
  · split at h <;> cases h
    exact ⟨hle, trivial⟩
  · cases h
    exact ⟨hle, trivial⟩

/-- An item of a class is at fault itself, or one of its characters is. -/
theorem within_classItem {c : PatternChar} (hc : c.Within n position)
    (htext : ∀ c ∈ text, c.2.Within n c.1) (h : classItem position c text = .error e) :
    e.Within n := by
  unfold classItem at h
  split at h
  · cases h
    exact ⟨hc.1, hc.2 _ rfl⟩
  · cases h
  · exact within_classRange hc.1 htext h
  · split at h
    · exact within_className hc.1 h
    · split at h
      · exact within_classRange hc.1 htext h
      · cases h
        exact ⟨hc.1, trivial⟩

/-- The items of a class report faults in the text. -/
theorem within_classItems {skip taken : Nat} {first : Bool} {s : ByteSet} (hstart : start ≤ n)
    (htext : ∀ c ∈ text, c.2.Within n c.1)
    (h : classItems start skip first s taken text = .error e) : e.Within n := by
  induction text generalizing skip first s taken with
  | nil =>
    cases h
    exact ⟨hstart, trivial⟩
  | cons c rest ih =>
    obtain ⟨hc, hrest⟩ := List.forall_mem_cons.1 htext
    unfold classItems at h
    split at h
    · exact ih hrest h
    · split at h
      · cases h
      · split at h
        · next hitem =>
          cases h
          exact within_classItem hc hrest hitem
        · exact ih hrest h

/-- A class reports faults in the text, at its start when it is not closed or empty. -/
theorem within_classAt (hstart : start ≤ n) (htext : ∀ c ∈ text, c.2.Within n c.1)
    (h : classAt f start text = .error e) : e.Within n := by
  unfold classAt at h
  dsimp only at h
  split at h
  · next hitems =>
    cases h
    exact within_classItems hstart htext hitems
  · generalize (if startsWith 0x5e text then _ else _ : ByteSet) = read at h
    split at h <;> cases h
    exact ⟨hstart, trivial⟩

/-- A quoted string reports faults in the text, at its start when it is not closed. -/
theorem within_textAt (hstart : start ≤ n) (htext : ∀ c ∈ text, c.2.Within n c.1)
    (h : textAt f start text = .error e) : e.Within n := by
  induction text with
  | nil =>
    cases h
    exact ⟨hstart, trivial⟩
  | cons c rest ih =>
    obtain ⟨position, c⟩ := c
    obtain ⟨hc, hrest⟩ := List.forall_mem_cons.1 htext
    unfold textAt at h
    split at h
    · cases h
      exact ⟨hc.1, hc.2 _ rfl⟩
    · cases h
      exact ⟨hc.1, trivial⟩
    · exact ih hrest (error_of_map_eq_error h)
    · split at h
      · cases h
      · exact ih hrest (error_of_map_eq_error h)

/-! ### Lexemes

What a reader refuses becomes a malformed lexeme with the fault. -/

theorem within_malformed {e : PatternError} (hle : position ≤ n) (he : e.Within n) :
    (Lexeme.malformed e).Within n position := by
  refine ⟨hle, fun other hother => ?_⟩
  cases hother
  exact he

/-- What a reader has found or refused is a lexeme of the text. -/
theorem within_ofResult {α : Type} {make : α → Lexeme} {result : Except PatternError (α × Nat)}
    (hle : position ≤ n) (hmake : ∀ a e, make a ≠ .malformed e)
    (h : ∀ e, result = .error e → e.Within n) :
    (Lexeme.ofResult make result).1.Within n position := by
  cases result with
  | error e => exact within_malformed hle (h e rfl)
  | ok r => exact ⟨hle, fun e he => (hmake _ _ he).elim⟩

/-- A brace is read to a lexeme of the text. -/
theorem within_braceAt (hle : position ≤ n) : (braceAt position text).1.Within n position := by
  unfold braceAt
  split
  · split
    · exact ⟨hle, fun _ h => by cases h⟩
    · split
      · unfold referenceAt
        dsimp only
        split
        · exact ⟨hle, fun _ h => by cases h⟩
        · exact within_malformed hle ⟨hle, trivial⟩
      · exact within_malformed hle ⟨hle, trivial⟩
  · exact within_malformed hle ⟨hle, trivial⟩

/-- A plain byte begins a lexeme of the text. -/
theorem within_ofPlain {b : UInt8} (hle : position ≤ n) (htext : ∀ c ∈ text, c.2.Within n c.1) :
    (Lexeme.ofPlain f position b text).1.Within n position := by
  have hite : ∀ {c : Prop} [Decidable c] {l m : Lexeme × Nat},
      l.1.Within n position → m.1.Within n position → (if c then l else m).1.Within n position := by
    intro c _ l m hl hm
    split <;> assumption
  have hclass : (Lexeme.ofResult .set (classAt f position text)).1.Within n position :=
    within_ofResult hle (fun _ _ h => by cases h) fun _ => within_classAt hle htext
  have htext : (Lexeme.ofResult .text (textAt f position text)).1.Within n position :=
    within_ofResult hle (fun _ _ h => by cases h) fun _ => within_textAt hle htext
  have hset : ∀ s, (Lexeme.set s).Within n position := fun _ => ⟨hle, fun _ h => by cases h⟩
  unfold Lexeme.ofPlain
  -- the signs that structure a pattern, and the quantifiers of one sign
  iterate 8 refine hite ⟨hle, fun _ h => by cases h⟩ ?_
  exact hite (hset _) (hite hclass (hite htext (hite (within_braceAt hle) (hset _))))

/-- A character begins a lexeme of the text. -/
theorem within_read {c : PatternChar} (hc : c.Within n position)
    (htext : ∀ c ∈ text, c.2.Within n c.1) :
    (Lexeme.read f position c text).1.Within n position := by
  unfold Lexeme.read
  split
  · exact within_malformed hc.1 ⟨hc.1, hc.2 _ rfl⟩
  · exact ⟨hc.1, fun _ h => by cases h⟩
  · exact ⟨hc.1, fun _ h => by cases h⟩
  · exact within_ofPlain hc.1 htext

/-- All lexemes of a text are in the text. -/
theorem within_lexemesAfter {skip : Nat} (htext : ∀ c ∈ text, c.2.Within n c.1) :
    ∀ l ∈ lexemesAfter f skip text, l.2.Within n l.1 := by
  induction text generalizing skip with
  | nil => simp [lexemesAfter]
  | cons c rest ih =>
    obtain ⟨hc, hrest⟩ := List.forall_mem_cons.1 htext
    unfold lexemesAfter
    split
    · exact ih hrest
    · have hread := within_read (f := f) hc hrest
      split
      · next hlexeme =>
        rw [hlexeme] at hread
        exact List.forall_mem_singleton.2 hread
      · next hlexeme =>
        rw [hlexeme] at hread
        exact List.forall_mem_cons.2 ⟨hread, ih hrest⟩

/-- **The lexemes of a pattern are in the pattern, and so are their faults.** -/
theorem within_lexemes (pattern : List UInt8) :
    ∀ l ∈ lexemes f pattern, l.2.Within pattern.length l.1 :=
  within_lexemesAfter (within_patternCharsFrom (Nat.le_of_eq (Nat.zero_add _)))

end Characters

/-! ### Trees

Faults of the assembly are about parentheses and repetitions, and they are reported at the offset of
a lexeme. -/

section Trees

variable {top : Bool} {expand : String → Except PatternFault Node} {n position : Nat}
  {g next : OpenGroups} {e : PatternError}

/-- A repetition is refused at the offset of its quantifier. -/
theorem OpenGroups.within_repeatLast {bounds : Option (Nat × Option Nat)} (hle : position ≤ n)
    (h : g.repeatLast position bounds = .error e) : e.Within n := by
  unfold OpenGroups.repeatLast OpenGroup.repeatLast at h
  split at h
  · next hfault =>
    cases h
    split at hfault <;> cases hfault
    · exact ⟨hle, trivial⟩
    · exact ⟨hle, trivial⟩
  · cases h

theorem within_checkGreedy {rest : List (Nat × Lexeme)} (hrest : ∀ l ∈ rest, l.2.Within n l.1)
    (h : checkGreedy rest = .error e) : e.Within n := by
  unfold checkGreedy at h
  split at h <;> cases h
  exact ⟨(hrest _ (List.mem_cons_self ..)).1, trivial⟩

/-- What a lexeme refuses is a fault of the pattern, or the fault of a reference. -/
theorem Lexeme.cases_of_apply_eq_error {lexeme : Lexeme} (hlexeme : lexeme.Within n position)
    (h : lexeme.apply expand position g = .error e) :
    e.Within n ∨ e.position ≤ n ∧
      ∃ name, lexeme.reference? = some name ∧ expand name = .error e.fault := by
  unfold apply at h
  split at h
  · cases h
    exact .inl (hlexeme.2 _ rfl)
  · cases h
  · cases h
  · next name =>
    split at h
    · next hfault =>
      cases h
      exact .inr ⟨hlexeme.1, name, rfl, hfault⟩
    · cases h
  · cases h
  · unfold OpenGroups.close at h
    split at h <;> cases h
    exact .inl ⟨hlexeme.1, trivial⟩
  · cases h
  · cases h
    exact .inl ⟨hlexeme.1, trivial⟩
  · cases h
    exact .inl ⟨hlexeme.1, trivial⟩
  · exact .inl (OpenGroups.within_repeatLast hlexeme.1 h)
  · exact .inl (OpenGroups.within_repeatLast hlexeme.1 h)

/-- A lexeme opens groups only where it stands. -/
theorem Lexeme.outer_le_of_apply {lexeme : Lexeme} (hle : position ≤ n)
    (houter : ∀ group ∈ g.outer, group.1 ≤ n) (h : lexeme.apply expand position g = .ok next) :
    ∀ group ∈ next.outer, group.1 ≤ n := by
  have hrepeat : ∀ {bounds}, g.repeatLast position bounds = .ok next →
      ∀ group ∈ next.outer, group.1 ≤ n := by
    intro bounds hbounds
    unfold OpenGroups.repeatLast at hbounds
    split at hbounds <;> cases hbounds
    exact houter
  unfold apply at h
  split at h
  case h_5 =>
    cases h
    exact List.forall_mem_cons.2 ⟨hle, houter⟩
  case h_6 =>
    unfold OpenGroups.close at h
    split at h
    · cases h
    · next hsome =>
      cases h
      rw [hsome] at houter
      exact (List.forall_mem_cons.1 houter).2
  case h_4 =>
    split at h <;> cases h
    exact houter
  case h_10 => exact hrepeat h
  case h_11 => exact hrepeat h
  all_goals cases h <;> exact houter

/-- **An error is a fault of the pattern, or the fault of a reference.** -/
theorem cases_of_assemble_eq_error {lexemes : List (Nat × Lexeme)}
    (hlexemes : ∀ l ∈ lexemes, l.2.Within n l.1) (houter : ∀ group ∈ g.outer, group.1 ≤ n)
    (h : assemble top expand lexemes g.outer g.current = .error e) :
    e.Within n ∨ e.position ≤ n ∧ ∃ name ∈ referencesOf lexemes, expand name = .error e.fault := by
  induction lexemes generalizing g with
  | nil =>
    obtain ⟨outer, current⟩ := g
    match outer, houter, h with
    | [], _, h => cases h
    | group :: _, houter, h =>
      cases h
      exact .inl ⟨houter group (List.mem_cons_self ..), trivial⟩
  | cons l rest ih =>
    obtain ⟨position, lexeme⟩ := l
    obtain ⟨hlexeme, hrest⟩ := List.forall_mem_cons.1 hlexemes
    rw [assemble_cons] at h
    split at h
    · cases h
    · cases happly : lexeme.apply expand position g with
      | error e' =>
        rw [happly] at h
        cases h
        rcases Lexeme.cases_of_apply_eq_error hlexeme happly with hown | ⟨hle, name, hname, hfault⟩
        · exact .inl hown
        · exact .inr ⟨hle, name, mem_referencesOf_cons.2 (.inl hname), hfault⟩
      | ok next =>
        rw [happly] at h
        cases hcheck : lexeme.check rest with
        | error e' =>
          rw [hcheck] at h
          cases h
          refine .inl (within_checkGreedy hrest (?_ : checkGreedy rest = .error e))
          cases lexeme <;> first | exact hcheck | cases hcheck
        | ok u =>
          rw [hcheck] at h
          rcases ih hrest (Lexeme.outer_le_of_apply hlexeme.1 houter happly) h with
            hown | ⟨hle, name, hname, hfault⟩
          · exact .inl hown
          · exact .inr ⟨hle, name, mem_referencesOf_cons.2 (.inr hname), hfault⟩

/-- An error of a pattern is a fault of the pattern, or the fault of a reference. -/
theorem Regex.cases_of_readWith_eq_error {f : Flags} {pattern : String}
    (h : Regex.readWith f expand pattern = .error e) :
    e.Within (bytesOf pattern).length ∨ e.position ≤ (bytesOf pattern).length ∧
      ∃ name ∈ Regex.references f pattern, expand name = .error e.fault := by
  obtain ⟨atStart, rest, hsuffix, hreferences, hread⟩ :=
    Regex.exists_readLexemes (lexemes f (bytesOf pattern))
  unfold Regex.readWith at h
  split at h
  · cases h
    exact .inl ⟨Nat.zero_le _, trivial⟩
  · rw [hread] at h
    have hrest : ∀ l ∈ rest, l.2.Within (bytesOf pattern).length l.1 :=
      fun l hl => within_lexemes _ l (hsuffix.subset hl)
    have herror := cases_of_assemble_eq_error (g := ⟨[], OpenGroup.start⟩) hrest
      (List.forall_mem_nil _) (error_of_map_eq_error h)
    rwa [hreferences] at herror

end Trees

end FrontEnd
