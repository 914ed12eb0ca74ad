import FrontEnd.Proofs.Regex.Canonical
import FrontEnd.Proofs.Regex.Offsets

/-!
# Lexemes up to a seam

A pattern can be cut in front of a parenthesis and of an opening brace.  What stands in front is
read in the same way whatever stands behind the cut, unless a lexeme reaches beyond it.

## Main Definitions

* `isSeam` — the bytes that a text can be cut in front of
* `AtSeam` — texts that are empty or begin with such a byte
* `EndsPlain` — a reader that takes nothing, or a plain byte at last
* `Separates` — a byte that the characters in front of it do not depend on

## Main Statements

* `endsPlain_read` — what a lexeme takes ends with a plain byte
* `read_seam` — a lexeme that does not reach beyond a seam does not depend on what is behind
* `separates_of_isSeam` — the characters in front of a seam are read by themselves
* `lexemesFrom_seam` — so are the lexemes in front of it, when none of them is malformed
* `isRead_of_mem_lexemesFrom` — where a lexeme begins at a seam, none in front of it is malformed

## Design Notes

A reader may look at more characters than it takes.  What it looks at behind a seam is one of three
bytes, and all tests give the same answer for them as at the end of the text; so it is enough to
know that the reader does not take anything from behind.  That it does not is a matter of the last
character that it takes: a lexeme of several characters ends with a plain byte of its own.

Each reader has one lemma for what it takes and one for what it reads in front of a seam.
-/

namespace FrontEnd

/-- The bytes that a text can be cut in front of: parentheses and the opening brace. -/
def isSeam (b : UInt8) : Bool := b == 0x28 || b == 0x29 || b == 0x7b

/-- The text is empty, or it begins with a byte that it can be cut in front of. -/
def AtSeam (text : PatternText) : Prop := ∀ c ∈ text.head?, ∃ b, c.2 = .plain b ∧ isSeam b = true

/-- Of the characters, the last one of the first `n` is a plain byte. -/
def EndsPlain (n : Nat) (text : PatternText) : Prop :=
  ∀ i, n = i + 1 → ∃ position b, text[i]? = some (position, .plain b)

section Readers

variable {f : Flags} {position start n : Nat} {b : UInt8} {front behind other : PatternText}

/-! ### What is taken

A lexeme that takes more than one character ends with a plain byte: a closing quote, bracket or
brace, a question mark, or the last byte of the opening of a group. -/

theorem endsPlain_zero (text : PatternText) : EndsPlain 0 text := fun _ h => nomatch h

/-- No more is taken than there is. -/
theorem EndsPlain.le (h : EndsPlain n front) : n ≤ front.length := by
  cases n with
  | zero => exact Nat.zero_le _
  | succ i =>
    obtain ⟨position, b, hi⟩ := h i rfl
    exact (List.getElem?_eq_some_iff.1 hi).1

/-- A text that starts with a byte has this byte in front. -/
theorem exists_of_startsWith (h : startsWith b front = true) :
    ∃ position rest, front = (position, .plain b) :: rest := by
  match front, h with
  | (position, .plain c) :: rest, h =>
    obtain rfl : c = b := by simpa [startsWith, PatternChar.isPlain] using h
    exact ⟨position, rest, rfl⟩

/-- A reader that ends with a test for a byte takes this byte last. -/
theorem endsPlain_of_startsWith (h : startsWith b (front.drop n) = true) :
    EndsPlain (n + 1) front := by
  rintro i ⟨rfl⟩
  obtain ⟨position, rest, hrest⟩ := exists_of_startsWith h
  refine ⟨position, b, ?_⟩
  rw [← List.head?_drop, hrest]
  rfl

/-- Bounds end with their brace. -/
theorem endsPlain_boundsAt : EndsPlain (boundsAt front).2 front := by
  unfold boundsAt
  dsimp only
  split
  · next hclose => exact endsPlain_of_startsWith hclose
  · split
    · split
      · next hclose =>
        rw [List.drop_drop] at hclose
        exact endsPlain_of_startsWith hclose
      · exact endsPlain_zero _
    · exact endsPlain_zero _

/-- A reference and bounds end with their brace. -/
theorem endsPlain_braceAt : EndsPlain (braceAt start front).2 front := by
  unfold braceAt
  split
  · split
    · exact endsPlain_boundsAt
    · split
      · unfold referenceAt
        dsimp only
        split
        · next hclose => exact endsPlain_of_startsWith hclose
        · exact endsPlain_zero _
      · exact endsPlain_zero _
  · exact endsPlain_zero _

/-- A class ends with a closing bracket. -/
theorem getElem?_of_classItems {skip taken : Nat} {first : Bool} {s r : ByteSet}
    (h : classItems start skip first s taken front = .ok (r, n)) :
    taken < n ∧ ∃ position, front[n - taken - 1]? = some (position, .plain 0x5d) := by
  induction front generalizing skip first s taken with
  | nil => cases h
  | cons c rest ih =>
    -- the bracket is found one place further in the rest
    have hrest : taken + 1 < n ∧ (∃ position, rest[n - (taken + 1) - 1]? =
        some (position, .plain 0x5d)) →
          taken < n ∧ ∃ position, (c :: rest)[n - taken - 1]? = some (position, .plain 0x5d) := by
      rintro ⟨hlt, position, hposition⟩
      refine ⟨by omega, position, ?_⟩
      obtain ⟨i, hi⟩ : ∃ i, n - taken - 1 = i + 1 := ⟨n - taken - 2, by omega⟩
      rw [hi, List.getElem?_cons_succ, ← hposition]
      congr 1
      omega
    unfold classItems at h
    split at h
    · exact hrest (ih h)
    · split at h
      · next hclosing =>
        obtain ⟨rfl, rfl⟩ := Prod.mk.inj (Except.ok.inj h)
        obtain ⟨-, hbracket⟩ := Bool.and_eq_true_iff.1 hclosing
        have hstarts : startsWith 0x5d (c :: rest) = true := hbracket
        obtain ⟨position, tail, htail⟩ := exists_of_startsWith hstarts
        obtain ⟨rfl, -⟩ := List.cons.inj htail
        refine ⟨Nat.lt_succ_self taken, position, ?_⟩
        rw [Nat.add_sub_cancel_left]
        rfl
      · split at h
        · cases h
        · exact hrest (ih h)

/-- A class ends with its bracket. -/
theorem endsPlain_classAt {s : ByteSet} (h : classAt f start front = .ok (s, n)) :
    EndsPlain n front := by
  unfold classAt at h
  dsimp only at h
  split at h
  · cases h
  · next r taken hitems =>
    generalize (if startsWith 0x5e front then _ else _ : ByteSet) = read at h
    split at h
    · cases h
    · obtain ⟨-, rfl⟩ := Prod.mk.inj (Except.ok.inj h)
      obtain ⟨-, position, hposition⟩ := getElem?_of_classItems hitems
      rintro i rfl
      exact ⟨position, _, hposition⟩

/-- A quoted string ends with a closing quote. -/
theorem getElem?_of_textAt {items : List ByteSet} (h : textAt f start front = .ok (items, n)) :
    ∃ i, n = i + 1 ∧ ∃ position, front[i]? = some (position, .plain 0x22) := by
  induction front generalizing items n with
  | nil => cases h
  | cons c rest ih =>
    obtain ⟨position, c⟩ := c
    have hmap : ∀ b : UInt8, ((textAt f start rest).map fun r => (f.literal b :: r.1, r.2 + 1)) =
        .ok (items, n) →
          ∃ i, n = i + 1 ∧ ∃ other, ((position, c) :: rest)[i]? = some (other, .plain 0x22) := by
      intro b hb
      obtain ⟨⟨others, m⟩, hrest, hr⟩ := exists_of_map_eq_ok hb
      obtain ⟨-, rfl⟩ := Prod.mk.inj hr
      obtain ⟨i, rfl, hquote⟩ := ih hrest
      exact ⟨i + 1, rfl, hquote⟩
    unfold textAt at h
    split at h
    · cases h
    · cases h
    · exact hmap _ h
    · split at h
      · next hquote =>
        obtain ⟨-, rfl⟩ := Prod.mk.inj (Except.ok.inj h)
        exact ⟨0, rfl, position, by rw [hquote]; rfl⟩
      · exact hmap _ h

/-- A lexeme of a reader ends as the reader does. -/
theorem endsPlain_ofResult {α : Type} {make : α → Lexeme} {result : Except PatternError (α × Nat)}
    (h : ∀ a n, result = .ok (a, n) → EndsPlain n front) :
    EndsPlain (Lexeme.ofResult make result).2 front := by
  cases result with
  | error e => exact endsPlain_zero front
  | ok r => exact h r.1 r.2 rfl

/-- A lexeme that begins with a plain byte ends with a plain byte. -/
theorem endsPlain_ofPlain : EndsPlain (Lexeme.ofPlain f start b front).2 front := by
  have hite : ∀ {c : Prop} [Decidable c] {l m : Lexeme × Nat},
      EndsPlain l.2 front → EndsPlain m.2 front → EndsPlain (if c then l else m).2 front := by
    intro c _ l m hl hm
    split <;> assumption
  have hzero : EndsPlain 0 front := endsPlain_zero front
  have hopening : EndsPlain (if startsWith 0x3f front && startsWith 0x3a (front.drop 1) then 2
      else 0) front := by
    split
    · next hgroup => exact endsPlain_of_startsWith (Bool.and_eq_true_iff.1 hgroup).2
    · exact hzero
  have hclass : EndsPlain (Lexeme.ofResult .set (classAt f start front)).2 front :=
    endsPlain_ofResult fun _ _ => endsPlain_classAt
  have htext : EndsPlain (Lexeme.ofResult .text (textAt f start front)).2 front := by
    refine endsPlain_ofResult fun items n h => ?_
    obtain ⟨i, rfl, position, hquote⟩ := getElem?_of_textAt h
    rintro i ⟨rfl⟩
    exact ⟨position, _, hquote⟩
  unfold Lexeme.ofPlain
  refine hite hopening ?_
  -- the other signs that structure a pattern, the quantifiers of one sign, and the dot
  iterate 8 refine hite hzero ?_
  exact hite hclass (hite htext (hite endsPlain_braceAt hzero))

/-- **What a lexeme takes ends with a plain byte.** -/
theorem endsPlain_read {c : PatternChar} : EndsPlain (Lexeme.read f start c front).2 front := by
  unfold Lexeme.read
  split
  · exact endsPlain_zero front
  · exact endsPlain_zero front
  · exact endsPlain_zero front
  · exact endsPlain_ofPlain

/-! ### What stands behind a seam

Every test that looks at the first character of the text gives the same answer with any seam behind
it. -/

/-- Behind a seam is nothing, or a plain byte of a seam. -/
theorem AtSeam.cases (h : AtSeam behind) :
    behind = [] ∨
      ∃ position b rest, behind = (position, .plain b) :: rest ∧ isSeam b = true := by
  match behind, h with
  | [], _ => exact .inl rfl
  | (position, c) :: rest, h =>
    obtain ⟨b, rfl, hb⟩ := h _ rfl
    exact .inr ⟨position, b, rest, rfl, hb⟩

/-- A byte of a seam differs from one that is none. -/
theorem ne_of_isSeam {c : UInt8} (hb : isSeam b = false) (hc : isSeam c = true) : c ≠ b := by
  rintro rfl
  exact Bool.noConfusion (hb.symm.trans hc)

/-- What holds of the two parentheses and of the opening brace holds of each byte of a seam. -/
theorem forall_isSeam {p : UInt8 → Prop} (hopening : p 0x28) (hclosing : p 0x29)
    (hbrace : p 0x7b) : ∀ b, isSeam b = true → p b := by
  intro b hb
  simp only [isSeam, Bool.or_eq_true, beq_iff_eq] at hb
  rcases hb with (rfl | rfl) | rfl <;> assumption

theorem length_plainRun_le (p : UInt8 → Bool) : (plainRun p front).length ≤ front.length := by
  fun_induction plainRun p front with
  | case1 position rest b hb ih => exact Nat.succ_le_succ ih
  | _ => exact Nat.zero_le _

/-- What stands behind a run of the front part stands behind it in the whole text. -/
theorem drop_length_plainRun (p : UInt8 → Bool) :
    (front ++ behind).drop (plainRun p front).length =
      front.drop (plainRun p front).length ++ behind :=
  List.drop_append_of_le_length (length_plainRun_le p)

/-- Without a dash and another character behind it, a byte stands for itself. -/
theorem classRange_of_ne {low : UInt8}
    (h : ∀ dash high rest, front ≠ (dash, .plain 0x2d) :: high :: rest) :
    classRange position low front = .ok (ByteSet.singleton low, 0) := by
  rw [classRange]
  exact fun dash highPosition high rest => h dash (highPosition, high) rest

/-- A string that is closed in front does not depend on what is behind. -/
theorem textAt_append {items : List ByteSet} (h : textAt f start (front ++ behind) = .ok (items, n))
    (hn : n ≤ front.length) : textAt f start (front ++ other) = .ok (items, n) := by
  induction front generalizing items n with
  | nil =>
    obtain ⟨i, rfl, -⟩ := getElem?_of_textAt h
    exact absurd hn (Nat.not_succ_le_zero i)
  | cons c front ih =>
    obtain ⟨position, c⟩ := c
    have hmap : ∀ b : UInt8, ((textAt f start (front ++ behind)).map fun r =>
          (f.literal b :: r.1, r.2 + 1)) = .ok (items, n) →
        ((textAt f start (front ++ other)).map fun r => (f.literal b :: r.1, r.2 + 1)) =
          .ok (items, n) := by
      intro b hb
      obtain ⟨⟨others, m⟩, hrest, hr⟩ := exists_of_map_eq_ok hb
      obtain ⟨rfl, rfl⟩ := Prod.mk.inj hr
      rw [ih hrest (Nat.le_of_succ_le_succ hn)]
      rfl
    rw [List.cons_append] at h ⊢
    unfold textAt at h ⊢
    split at h
    · cases h
    · cases h
    · exact hmap _ h
    · split at h
      · next hquote =>
        dsimp only
        rw [if_pos hquote]
        exact h
      · next hquote =>
        dsimp only
        rw [if_neg hquote]
        exact hmap _ h

/-- Whether a lexeme has been read, and is not malformed. -/
def Lexeme.IsRead (lexeme : Lexeme) : Prop := ∀ e, lexeme ≠ .malformed e

/-- A reader whose result does not change gives the same lexeme. -/
theorem ofResult_front {α : Type} {make : α → Lexeme}
    {result result' : Except PatternError (α × Nat)}
    (hresult : ∀ a n, result = .ok (a, n) → n ≤ front.length → result' = .ok (a, n))
    (hread : (Lexeme.ofResult make result).1.IsRead)
    (hn : (Lexeme.ofResult make result).2 ≤ front.length) :
    Lexeme.ofResult make result' = Lexeme.ofResult make result := by
  cases result with
  | error e => exact absurd rfl (hread e)
  | ok r => rw [hresult r.1 r.2 rfl hn]

variable (hbehind : AtSeam behind)

include hbehind

/-- The first byte is the same, or it is a seam. -/
theorem startsWith_seam (hb : isSeam b = false) :
    startsWith b (front ++ behind) = startsWith b front := by
  cases front with
  | cons c front => rfl
  | nil =>
    rcases hbehind.cases with rfl | ⟨position, c, rest, rfl, hc⟩
    · rfl
    · exact beq_eq_false_iff_ne.2 (ne_of_isSeam hb hc)

/-- A run of bytes that are no seams ends at a seam. -/
theorem plainRun_seam {p : UInt8 → Bool} (hp : ∀ b, isSeam b = true → p b = false) :
    plainRun p (front ++ behind) = plainRun p front := by
  induction front with
  | nil =>
    rcases hbehind.cases with rfl | ⟨position, c, rest, rfl, hc⟩
    · rfl
    · exact if_neg (Bool.eq_false_iff.1 (hp c hc))
  | cons c front ih =>
    obtain ⟨position, c⟩ := c
    cases c with
    | plain b => simp only [List.cons_append, plainRun, ih]
    | _ => rfl

/-- Bounds do not depend on what is behind a seam. -/
theorem boundsAt_seam : boundsAt (front ++ behind) = boundsAt front := by
  have hdigit : ∀ b, isSeam b = true → Ascii.isDigit b = false := forall_isSeam rfl rfl rfl
  have hlow : plainRun Ascii.isDigit (front ++ behind) = plainRun Ascii.isDigit front :=
    plainRun_seam hbehind hdigit
  unfold boundsAt
  dsimp only
  rw [hlow, drop_length_plainRun]
  generalize front.drop (plainRun Ascii.isDigit front).length = rest
  cases rest with
  | nil =>
    have hnone : ∀ b, isSeam b = false → startsWith b ([] ++ behind) = false :=
      fun _ => startsWith_seam hbehind
    rw [hnone _ rfl, hnone _ rfl]
    rfl
  | cons c rest =>
    have hhigh : plainRun Ascii.isDigit (rest ++ behind) = plainRun Ascii.isDigit rest :=
      plainRun_seam hbehind hdigit
    rw [startsWith_seam hbehind rfl, startsWith_seam hbehind rfl]
    simp only [List.cons_append, List.drop_succ_cons, List.drop_zero, hhigh,
      drop_length_plainRun, startsWith_seam hbehind (b := 0x7d) rfl]

theorem referenceAt_seam : referenceAt start (front ++ behind) = referenceAt start front := by
  have hname : ∀ b, isSeam b = true → isNamePart b = false := forall_isSeam rfl rfl rfl
  unfold referenceAt
  rw [plainRun_seam hbehind hname]
  dsimp only
  rw [drop_length_plainRun, startsWith_seam hbehind rfl]

/-- What begins with a brace does not depend on what is behind a seam. -/
theorem braceAt_seam : braceAt start (front ++ behind) = braceAt start front := by
  cases front with
  | nil =>
    rcases hbehind.cases with rfl | ⟨position, b, rest, rfl, hb⟩
    · rfl
    · have hdigit : ∀ b, isSeam b = true → Ascii.isDigit b = false := forall_isSeam rfl rfl rfl
      have hname : ∀ b, isSeam b = true → isNameStart b = false := forall_isSeam rfl rfl rfl
      show (if Ascii.isDigit b = true then _ else if isNameStart b = true then _ else _) = _
      rw [hdigit b hb, hname b hb]
      rfl
  | cons c front =>
    have hbounds : boundsAt (c :: front ++ behind) = boundsAt (c :: front) :=
      boundsAt_seam hbehind
    have hreference : referenceAt start (c :: front ++ behind) = referenceAt start (c :: front) :=
      referenceAt_seam hbehind
    unfold braceAt
    rw [List.cons_append] at *
    dsimp only
    rw [hbounds, hreference]

/-- Two bytes in a row do not begin in front of a seam and end behind it. -/
theorem startsWith_pair_seam {c : UInt8} (hb : isSeam b = false) (hc : isSeam c = false) :
    (startsWith b (front ++ behind) && startsWith c ((front ++ behind).drop 1)) =
      (startsWith b front && startsWith c (front.drop 1)) := by
  cases front with
  | nil =>
    rw [startsWith_seam hbehind hb]
    rfl
  | cons d front =>
    rw [startsWith_seam hbehind hb, List.cons_append, List.drop_succ_cons, List.drop_zero,
      startsWith_seam hbehind hc]
    rfl

/-- The name of a class does not depend on what is behind a seam. -/
theorem className_seam (hfront : front ≠ []) :
    className position (front ++ behind) = className position front := by
  have hletter : ∀ b, isSeam b = true → Ascii.isAlpha b = false := forall_isSeam rfl rfl rfl
  cases front with
  | nil => exact absurd rfl hfront
  | cons c front =>
    have hname : plainRun Ascii.isAlpha (front ++ behind) = plainRun Ascii.isAlpha front :=
      plainRun_seam hbehind hletter
    unfold className
    simp only [List.cons_append, List.drop_succ_cons, List.drop_zero, hname, drop_length_plainRun,
      startsWith_pair_seam hbehind (b := 0x3a) (c := 0x5d) rfl rfl]

/-- A range in a class does not depend on what is behind a seam, unless the seam stands behind its
dash. -/
theorem classRange_seam {low : UInt8} (hfront : ∀ dash, front ≠ [(dash, .plain 0x2d)]) :
    classRange position low (front ++ behind) = classRange position low front := by
  match front, hfront with
  | [], _ =>
    refine classRange_of_ne fun dash high rest heq => ?_
    have hhead : (dash, .plain 0x2d) ∈ behind.head? := by
      rw [← List.nil_append behind, heq]
      rfl
    obtain ⟨b, hb, hseam⟩ := hbehind _ hhead
    obtain rfl := PatternChar.plain.inj hb
    cases hseam
  | [c], hfront =>
    have hne : ∀ dash high rest, [c] ++ behind ≠ (dash, .plain 0x2d) :: high :: rest := by
      intro dash high rest heq
      exact hfront dash (congrArg (· :: []) (List.cons.inj heq).1)
    rw [classRange_of_ne hne, classRange_of_ne fun _ _ _ => by simp]
  | (dash, c) :: high :: front, _ =>
    by_cases hc : c = .plain 0x2d
    · subst hc
      rfl
    · rw [classRange_of_ne, classRange_of_ne] <;>
        exact fun _ _ _ heq => hc (Prod.mk.inj (List.cons.inj heq).1).2

/-- An item of a class does not depend on what is behind a seam, unless the seam stands behind its
dash. -/
theorem classItem_seam {c : PatternChar} (hfront : ∀ dash, front ≠ [(dash, .plain 0x2d)]) :
    classItem position c (front ++ behind) = classItem position c front := by
  have hrange : ∀ low, classRange position low (front ++ behind) = classRange position low front :=
    fun _ => classRange_seam hbehind hfront
  unfold classItem
  split
  · rfl
  · rfl
  · exact hrange _
  · next b =>
    rw [startsWith_seam hbehind rfl, hrange]
    by_cases hname : (b = 0x5b && startsWith 0x3a front) = true
    · have hne : front ≠ [] := by
        rintro rfl
        simp [startsWith] at hname
      rw [className_seam hbehind hne]
    · rw [if_neg hname, if_neg hname]

variable (hother : AtSeam other)

include hother

/-- The items of a class that is closed in front of a seam do not depend on what is behind. -/
theorem classItems_seam {skip taken : Nat} {first : Bool} {s r : ByteSet}
    (h : classItems start skip first s taken (front ++ behind) = .ok (r, n))
    (hn : n ≤ taken + front.length) :
    classItems start skip first s taken (front ++ other) = .ok (r, n) := by
  induction front generalizing skip first s taken with
  | nil =>
    have hlt := (getElem?_of_classItems h).1
    rw [List.length_nil] at hn
    omega
  | cons c front ih =>
    obtain ⟨position, c⟩ := c
    rw [List.length_cons] at hn
    have hrest : n ≤ taken + 1 + front.length := by omega
    rw [List.cons_append] at h ⊢
    cases skip with
    | succ skip => exact ih h hrest
    | zero =>
      simp only [classItems] at h ⊢
      split at h
      · next hclosing =>
        rw [if_pos hclosing]
        exact h
      · next hclosing =>
        rw [if_neg hclosing]
        by_cases hdash : ∃ dash, front = [(dash, .plain 0x2d)]
        · -- the class would end with the dash, or reach beyond the seam
          obtain ⟨dash, rfl⟩ := hdash
          split at h
          · cases h
          · obtain ⟨hlt, bracket, hbracket⟩ := getElem?_of_classItems h
            have hzero : n - (taken + 1) - 1 = 0 := by
              rw [List.length_singleton] at hrest
              omega
            rw [hzero] at hbracket
            cases hbracket
        · have hfront : ∀ dash, front ≠ [(dash, .plain 0x2d)] := not_exists.1 hdash
          rw [classItem_seam hbehind hfront] at h
          rw [classItem_seam hother hfront]
          split at h
          · cases h
          · exact ih h hrest

/-- A class that is closed in front of a seam does not depend on what is behind. -/
theorem classAt_seam {s : ByteSet} (h : classAt f start (front ++ behind) = .ok (s, n))
    (hn : n ≤ front.length) : classAt f start (front ++ other) = .ok (s, n) := by
  unfold classAt at h ⊢
  dsimp only at h ⊢
  rw [startsWith_seam hbehind rfl] at h
  rw [startsWith_seam hother rfl]
  generalize (if startsWith 0x5e front then _ else _ : Nat) = skip at h ⊢
  cases hitems : classItems start skip true ByteSet.empty 0 (front ++ behind) with
  | error e =>
    rw [hitems] at h
    cases h
  | ok result =>
    obtain ⟨items, taken⟩ := result
    rw [hitems] at h
    have htaken : taken = n := by
      dsimp only at h
      generalize (if startsWith 0x5e front then _ else _ : ByteSet) = read at h
      split at h
      · cases h
      · exact (Prod.mk.inj (Except.ok.inj h)).2
    subst htaken
    rw [classItems_seam hbehind hother hitems (by omega)]
    exact h

/-- A lexeme that begins with a plain byte and ends in front of a seam does not depend on what is
behind. -/
theorem ofPlain_seam (hread : (Lexeme.ofPlain f start b (front ++ behind)).1.IsRead)
    (hn : (Lexeme.ofPlain f start b (front ++ behind)).2 ≤ front.length) :
    Lexeme.ofPlain f start b (front ++ other) = Lexeme.ofPlain f start b (front ++ behind) := by
  by_cases hclass : b = 0x5b
  · subst hclass
    exact ofResult_front (fun _ _ hresult => classAt_seam hbehind hother hresult) hread hn
  · by_cases htext : b = 0x22
    · subst htext
      exact ofResult_front (fun _ _ hresult => textAt_append hresult) hread hn
    · unfold Lexeme.ofPlain
      rw [startsWith_pair_seam hbehind rfl rfl, startsWith_pair_seam hother rfl rfl,
        braceAt_seam hbehind, braceAt_seam hother]
      simp only [hclass, htext, if_false]

/-- **A lexeme that does not reach beyond a seam does not depend on what is behind.** -/
theorem read_seam {c : PatternChar} (hread : (Lexeme.read f start c (front ++ behind)).1.IsRead)
    (hn : (Lexeme.read f start c (front ++ behind)).2 ≤ front.length) :
    Lexeme.read f start c (front ++ other) = Lexeme.read f start c (front ++ behind) := by
  match c with
  | .faulty fault => rfl
  | .escape (.bytes _ s) => rfl
  | .escape (.byte b) => rfl
  | .plain b => exact ofPlain_seam hbehind hother hread hn

omit hother in
/-- What is read up to the end of a text is read in front of a seam. -/
theorem read_append {c : PatternChar} (hread : (Lexeme.read f start c front).1.IsRead) :
    Lexeme.read f start c (front ++ behind) = Lexeme.read f start c front := by
  have hnone : AtSeam [] := fun _ h => nomatch h
  have hsame : (Lexeme.read f start c (front ++ [])).1.IsRead →
      (Lexeme.read f start c (front ++ [])).2 ≤ front.length →
        Lexeme.read f start c (front ++ behind) = Lexeme.read f start c (front ++ []) :=
    read_seam hnone hbehind
  rw [List.append_nil] at hsame
  exact hsame hread endsPlain_read.le

omit hother in
/-- What is read in front of a seam is read without what is behind it. -/
theorem read_of_append {c : PatternChar}
    (hread : (Lexeme.read f start c (front ++ behind)).1.IsRead)
    (hn : (Lexeme.read f start c (front ++ behind)).2 ≤ front.length) :
    Lexeme.read f start c front = Lexeme.read f start c (front ++ behind) := by
  have hnone : AtSeam [] := fun _ h => nomatch h
  have hsame := read_seam hbehind hnone hread hn
  rwa [List.append_nil] at hsame

end Readers

/-! ### Characters

A backslash takes bytes behind it, and one in front of a seam could take the byte of the seam.  The
front part then ends with a fault, but no character begins at the seam, either.  This is the second
case of `Separates`, and it is why a seam at which a character begins is enough. -/

section Characters

variable {position q : Nat} {b : UInt8} {c : PatternChar} {bytes behind : List UInt8}

/-- A backslash takes one byte behind it, unless that begins hexadecimal digits. -/
theorem patternCharsFrom_escape (hb : b ≠ 0x78) :
    patternCharsFrom position (0x5c :: b :: behind) =
      (position, escapeOf b) :: patternCharsFrom (position + 2) behind := by
  rw [patternCharsFrom] <;> simp [hb]

/-- Hexadecimal digits that are none are faulty, and the byte in their place is not taken. -/
theorem patternCharsFrom_invalidHex (hb : Ascii.hexValue? b = none) :
    patternCharsFrom position (0x5c :: 0x78 :: b :: behind) =
      (position, .faulty .invalidHex) :: patternCharsFrom (position + 2) (b :: behind) := by
  cases behind <;> simp [patternCharsFrom, hb]

/-- The characters of a text stand at offsets of this text. -/
theorem bounds_of_mem_patternCharsFrom (h : (q, c) ∈ patternCharsFrom position bytes) :
    position ≤ q ∧ q < position + bytes.length := by
  fun_induction patternCharsFrom position bytes
  all_goals simp only [List.mem_cons, List.not_mem_nil, Prod.mk.injEq, or_false] at h
  all_goals simp only [List.length_cons, List.length_nil] at *
  all_goals grind

/-- Either the characters in front of a byte are read by themselves, or a backslash stands in front
of it, and no character begins with it. -/
def Separates (position : Nat) (bytes : List UInt8) (b : UInt8) (behind : List UInt8) : Prop :=
  patternCharsFrom position (bytes ++ b :: behind) =
      patternCharsFrom position bytes ++ patternCharsFrom (position + bytes.length) (b :: behind) ∨
    (∃ q fault, (patternCharsFrom position bytes).getLast? = some (q, .faulty fault)) ∧
      ∀ c ∈ patternCharsFrom position (bytes ++ b :: behind), c.1 ≠ position + bytes.length

/-- One more character in front, of `k` bytes. -/
theorem Separates.cons {k : Nat} {rest : List UInt8}
    (h : Separates (position + k) rest b behind) (hk : 0 < k)
    (hlength : bytes.length = rest.length + k)
    (hbytes : patternCharsFrom position bytes =
      (position, c) :: patternCharsFrom (position + k) rest)
    (hall : patternCharsFrom position (bytes ++ b :: behind) =
      (position, c) :: patternCharsFrom (position + k) (rest ++ b :: behind)) :
    Separates position bytes b behind := by
  have hend : position + bytes.length = position + k + rest.length := by omega
  unfold Separates
  rw [hall, hbytes, hend]
  rcases h with h | ⟨⟨q, fault, hlast⟩, hne⟩
  · exact .inl (by rw [h, List.cons_append])
  · refine .inr ⟨⟨q, fault, by rw [List.getLast?_cons, hlast]; rfl⟩, ?_⟩
    exact List.forall_mem_cons.2 ⟨by dsimp only; omega, hne⟩

/-- **The characters in front of a seam are read by themselves**, unless a backslash stands in front
of it. -/
theorem separates_of_isSeam (position : Nat) (bytes : List UInt8) (hb : isSeam b = true) :
    Separates position bytes b behind := by
  have hhex : Ascii.hexValue? b = none :=
    forall_isSeam (p := fun b => Ascii.hexValue? b = none) rfl rfl rfl b hb
  have hx : b ≠ 0x78 := ne_of_isSeam rfl hb
  have hplain : b ≠ 0x5c := ne_of_isSeam rfl hb
  fun_induction patternCharsFrom position bytes with
  | case1 => exact .inl rfl
  | case2 position =>
    -- the backslash escapes the byte
    refine .inr ⟨⟨position, .trailingBackslash, rfl⟩, ?_⟩
    show ∀ c ∈ patternCharsFrom position (0x5c :: b :: behind), c.1 ≠ position + 1
    rw [patternCharsFrom_escape hx]
    refine List.forall_mem_cons.2 ⟨by dsimp only; omega, fun c hc => ?_⟩
    have hle := (bounds_of_mem_patternCharsFrom hc).1
    omega
  | case3 position => exact .inl (patternCharsFrom_invalidHex hhex)
  | case4 position h x hh =>
    refine .inl ?_
    show patternCharsFrom position (0x5c :: 0x78 :: h :: b :: behind) = _
    simp [patternCharsFrom, hh, hhex]
  | case5 position h hh ih =>
    exact ih.cons (Nat.zero_lt_succ 1) rfl (patternCharsFrom_invalidHex hh)
      (patternCharsFrom_invalidHex hh)
  | case6 position h l rest x y hl hh ih =>
    exact ih.cons (c := .escape (.byte (UInt8.ofNat (16 * x + y)))) (Nat.zero_lt_succ 3) rfl
      (by simp [patternCharsFrom, hh, hl]) (by simp [patternCharsFrom, hh, hl])
  | case7 position h l rest x hl hh ih =>
    exact ih.cons (c := .escape (.byte (UInt8.ofNat x))) (Nat.zero_lt_succ 2) rfl
      (by simp [patternCharsFrom, hh, hl]) (by simp [patternCharsFrom, hh, hl])
  | case8 position h l rest hh ih =>
    exact ih.cons (Nat.zero_lt_succ 1) rfl (patternCharsFrom_invalidHex hh)
      (patternCharsFrom_invalidHex hh)
  | case9 position d rest hempty hone hmore ih =>
    have hd : d ≠ 0x78 := by
      intro hd
      rcases rest with _ | ⟨h, _ | ⟨l, rest⟩⟩
      · exact hempty hd rfl
      · exact hone h hd rfl
      · exact hmore h l rest hd rfl
    exact ih.cons (Nat.zero_lt_succ 1) rfl (patternCharsFrom_escape hd) (patternCharsFrom_escape hd)
  | case10 position d rest hempty _ _ _ hmore ih =>
    have hd : d ≠ 0x5c := by
      intro hd
      cases rest with
      | nil => exact hempty hd rfl
      | cons h rest => exact hmore h rest hd rfl
    exact ih.cons Nat.one_pos rfl (patternCharsFrom_plain position hd rest)
      (patternCharsFrom_plain position hd _)

end Characters

/-! ### Lexemes

The lexemes of a text are cut at a seam lexeme by lexeme.  A malformed lexeme ends the list, so that
nothing can be said about what is behind it. -/

section Lexemes

variable {f : Flags} {position skip q : Nat} {c : PatternChar} {lexeme : Lexeme}
  {front behind text : PatternText}

/-- Behind a lexeme that is read are the others. -/
theorem lexemesAfter_of_isRead (h : (Lexeme.read f position c text).1.IsRead) :
    lexemesAfter f 0 ((position, c) :: text) =
      (position, (Lexeme.read f position c text).1) ::
        lexemesAfter f (Lexeme.read f position c text).2 text := by
  rw [lexemesAfter]
  generalize Lexeme.read f position c text = result at h ⊢
  obtain ⟨lexeme, n⟩ := result
  cases lexeme with
  | malformed e => exact absurd rfl (h e)
  | _ => rfl

/-- A malformed lexeme is the last one. -/
theorem lexemesAfter_of_malformed {e : PatternError}
    (h : (Lexeme.read f position c text).1 = .malformed e) :
    lexemesAfter f 0 ((position, c) :: text) = [(position, .malformed e)] := by
  rw [lexemesAfter]
  generalize Lexeme.read f position c text = result at h ⊢
  obtain ⟨lexeme, n⟩ := result
  obtain rfl : lexeme = .malformed e := h
  rfl

/-- When no lexeme is malformed, the first one is not. -/
theorem isRead_of_forall (h : ∀ l ∈ lexemesAfter f 0 ((position, c) :: text), l.2.IsRead) :
    (Lexeme.read f position c text).1.IsRead := by
  intro e he
  rw [lexemesAfter_of_malformed he] at h
  exact h _ (List.mem_singleton_self _) e rfl

/-- A lexeme begins with a character. -/
theorem exists_char_of_mem_lexemesAfter (h : (q, lexeme) ∈ lexemesAfter f skip text) :
    ∃ c, (q, c) ∈ text := by
  induction text generalizing skip with
  | nil => cases h
  | cons d text ih =>
    obtain ⟨position, c⟩ := d
    have hlater : ∀ {skip}, (q, lexeme) ∈ lexemesAfter f skip text →
        ∃ d, (q, d) ∈ (position, c) :: text := by
      intro skip hmem
      obtain ⟨d, hd⟩ := ih hmem
      exact ⟨d, List.mem_cons_of_mem _ hd⟩
    have hfirst : ∀ {first : Lexeme}, (q, lexeme) = (position, first) →
        ∃ d, (q, d) ∈ (position, c) :: text := by
      intro first heq
      obtain ⟨rfl, -⟩ := Prod.mk.inj heq
      exact ⟨c, List.mem_cons_self ..⟩
    unfold lexemesAfter at h
    split at h
    · exact hlater h
    · split at h
      · exact hfirst (List.mem_singleton.1 h)
      · exact (List.mem_cons.1 h).elim hfirst hlater

/-- The last character of a text is not faulty when no lexeme is. -/
theorem getLast?_ne_of_isRead (hread : ∀ l ∈ lexemesAfter f skip text, l.2.IsRead)
    (hskip : EndsPlain skip text) (q : Nat) (fault : PatternFault) :
    text.getLast? ≠ some (q, .faulty fault) := by
  induction text generalizing skip with
  | nil => exact fun h => nomatch h
  | cons d text ih =>
    obtain ⟨position, c⟩ := d
    -- what remains to be skipped ends with a plain character too
    obtain ⟨n, hread', hends⟩ : ∃ n, (∀ l ∈ lexemesAfter f n text, l.2.IsRead) ∧
        EndsPlain n text := by
      cases skip with
      | succ n => exact ⟨n, hread, fun i hi => hskip (i + 1) (congrArg (· + 1) hi)⟩
      | zero =>
        rw [lexemesAfter_of_isRead (isRead_of_forall hread)] at hread
        exact ⟨_, (List.forall_mem_cons.1 hread).2, endsPlain_read⟩
    cases text with
    | cons e text =>
      rw [List.getLast?_cons_cons]
      exact ih hread' hends
    | nil =>
      rintro ⟨⟩
      cases skip with
      | zero => exact isRead_of_forall hread _ rfl
      | succ i =>
        obtain ⟨other, b, hplain⟩ := hskip i rfl
        cases i <;> cases hplain

/-- **Lexemes in front of a seam are read by themselves.** -/
theorem lexemesAfter_seam (hbehind : AtSeam behind)
    (hread : ∀ l ∈ lexemesAfter f skip front, l.2.IsRead) (hskip : skip ≤ front.length) :
    lexemesAfter f skip (front ++ behind) =
      lexemesAfter f skip front ++ lexemesAfter f 0 behind := by
  induction front generalizing skip with
  | nil =>
    obtain rfl : skip = 0 := Nat.le_zero.1 hskip
    rfl
  | cons d front ih =>
    obtain ⟨position, c⟩ := d
    cases skip with
    | succ skip => exact ih hread (Nat.le_of_succ_le_succ hskip)
    | zero =>
      have hfirst := isRead_of_forall hread
      have hsame := read_append hbehind hfirst
      rw [lexemesAfter_of_isRead hfirst] at hread ⊢
      rw [List.cons_append, List.cons_append, lexemesAfter_of_isRead (hsame ▸ hfirst), hsame,
        ih (List.forall_mem_cons.1 hread).2 endsPlain_read.le]

/-- When a lexeme begins at a seam, the lexemes of the text in front of it are read. -/
theorem isRead_of_mem_seam (hbehind : AtSeam ((q, c) :: behind)) (hfront : ∀ d ∈ front, d.1 ≠ q)
    (hother : ∀ d ∈ behind, d.1 ≠ q) (hskip : skip ≤ front.length)
    (h : (q, lexeme) ∈ lexemesAfter f skip (front ++ (q, c) :: behind)) :
    ∀ l ∈ lexemesAfter f skip front, l.2.IsRead := by
  induction front generalizing skip with
  | nil => simp [lexemesAfter]
  | cons d front ih =>
    obtain ⟨position, d⟩ := d
    obtain ⟨hposition, hfront⟩ := List.forall_mem_cons.1 hfront
    cases skip with
    | succ skip => exact ih hfront (Nat.le_of_succ_le_succ hskip) h
    | zero =>
      rw [List.cons_append] at h
      by_cases hfirst : (Lexeme.read f position d (front ++ (q, c) :: behind)).1.IsRead
      · rw [lexemesAfter_of_isRead hfirst] at h
        have hmem := (List.mem_cons.1 h).resolve_left fun heq => hposition (Prod.mk.inj heq).1.symm
        have hn : (Lexeme.read f position d (front ++ (q, c) :: behind)).2 ≤ front.length := by
          -- behind a lexeme that reaches beyond the seam, none begins at it
          by_contra hbeyond
          rw [lexemesAfter_eq_drop] at hmem
          obtain ⟨e, he⟩ := exists_char_of_mem_lexemesAfter hmem
          obtain ⟨i, hi⟩ := Nat.exists_eq_add_of_lt (Nat.lt_of_not_le hbeyond)
          rw [hi, Nat.add_assoc, List.drop_append, List.drop_eq_nil_of_le (Nat.le_add_right _ _),
            Nat.add_sub_cancel_left, List.nil_append, List.drop_succ_cons] at he
          exact hother _ (List.mem_of_mem_drop he) rfl
        have hsame := read_of_append hbehind hfirst hn
        rw [lexemesAfter_of_isRead (hsame ▸ hfirst), hsame]
        exact List.forall_mem_cons.2 ⟨hfirst, ih hfront hn hmem⟩
      · obtain ⟨e, he⟩ := not_forall_not.1 hfirst
        rw [lexemesAfter_of_malformed he] at h
        exact absurd (Prod.mk.inj (List.mem_singleton.1 h)).1.symm hposition

end Lexemes

/-! ### Texts

The same for texts of bytes. -/

section Texts

variable {f : Flags} {position : Nat} {b : UInt8} {lexeme : Lexeme} {bytes behind : List UInt8}

/-- A byte of a seam is a character by itself. -/
theorem patternCharsFrom_of_isSeam (position : Nat) (behind : List UInt8) (hb : isSeam b = true) :
    patternCharsFrom position (b :: behind) =
      (position, .plain b) :: patternCharsFrom (position + 1) behind :=
  patternCharsFrom_plain position (ne_of_isSeam rfl hb) behind

theorem atSeam_cons (position : Nat) (text : PatternText) (hb : isSeam b = true) :
    AtSeam ((position, .plain b) :: text) := by
  rintro c ⟨⟩
  exact ⟨b, rfl, hb⟩

/-- **A text without malformed lexemes is read by itself in front of a seam.** -/
theorem lexemesFrom_seam (hb : isSeam b = true)
    (hread : ∀ l ∈ lexemesFrom f position bytes, l.2.IsRead) :
    lexemesFrom f position (bytes ++ b :: behind) =
      lexemesFrom f position bytes ++ lexemesFrom f (position + bytes.length) (b :: behind) := by
  unfold lexemesFrom at hread ⊢
  rcases separates_of_isSeam position bytes hb with hchars | ⟨⟨q, fault, hlast⟩, -⟩
  · rw [hchars, patternCharsFrom_of_isSeam _ _ hb]
    exact lexemesAfter_seam (atSeam_cons _ _ hb) hread (Nat.zero_le _)
  · exact absurd hlast (getLast?_ne_of_isRead hread (endsPlain_zero _) q fault)

/-- **When a lexeme begins at a seam, no lexeme in front of it is malformed.** -/
theorem isRead_of_mem_lexemesFrom (hb : isSeam b = true)
    (h : (position + bytes.length, lexeme) ∈ lexemesFrom f position (bytes ++ b :: behind)) :
    ∀ l ∈ lexemesFrom f position bytes, l.2.IsRead := by
  unfold lexemesFrom at h ⊢
  rcases separates_of_isSeam position bytes hb with hchars | ⟨-, hnone⟩
  · rw [hchars, patternCharsFrom_of_isSeam _ _ hb] at h
    refine isRead_of_mem_seam (atSeam_cons _ _ hb) (fun d hd => ?_) (fun d hd => ?_)
      (Nat.zero_le _) h
    · exact Nat.ne_of_lt (bounds_of_mem_patternCharsFrom hd).2
    · exact Nat.ne_of_gt (bounds_of_mem_patternCharsFrom hd).1
  · obtain ⟨c, hc⟩ := exists_char_of_mem_lexemesAfter h
    exact absurd rfl (hnone _ hc)

end Texts

end FrontEnd
