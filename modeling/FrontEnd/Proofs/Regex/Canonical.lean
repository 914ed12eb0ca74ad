import FrontEnd.Proofs.ByteSet.Ranges
import FrontEnd.Proofs.Regex.WellFormed
import FrontEnd.Proofs.Text.Bytes

/-!
# Canonical texts

Every expression has a text in which sets are classes of ranges and the parts of an expression are
grouped.  Classes and bounds are read back from such a text.

## Main Definitions

* `Node.canonical`, `Regex.canonical` — the text of an expression, with its anchors
* `lexemesFrom` — the lexemes of a text that stands somewhere in a pattern

## Main Statements

* `lexemesFrom_cons` — a plain byte begins a lexeme, the others are behind it
* `lexemesFrom_set`, `lexemesFrom_bounds` — classes and bounds are read back

## Design Notes

A text is read in front of whatever follows it, so that the texts of parts can be read one after
the other.
-/

namespace FrontEnd

/-! ### The texts

Precedence plays no part in these texts: every part of an expression stands in parentheses that only
group.  A set is a class of its ranges, each of them with two bounds in hexadecimal digits. -/

/-- A range inside a bracket, both ends as hexadecimal escapes. -/
def ByteRange.canonical (r : ByteRange) : String :=
  "\\x" ++ String.ofList (Ascii.hexByte r.first) ++ "-\\x" ++ String.ofList (Ascii.hexByte r.last)

/-- A set as a class of its ranges. -/
def ByteSet.canonical (s : ByteSet) : String :=
  "[" ++ String.join (s.ranges.map ByteRange.canonical) ++ "]"

namespace Node

/-- The bounds of a repetition: one number when they are equal. -/
def canonicalBounds (min : Nat) : Option Nat → String
  | none => "\x7b" ++ toString min ++ ",\x7d"
  | some max =>
    if min = max then "\x7b" ++ toString min ++ "\x7d"
    else "\x7b" ++ toString min ++ "," ++ toString max ++ "\x7d"

/-- A text in parentheses that only group. -/
def grouped (text : String) : String := "(?:" ++ text ++ ")"

mutual

/-- The canonical text of an expression, in which every part of another one is grouped. -/
def canonical : Node → String
  | .empty => "()"
  | .set s => s.canonical
  | .concat items => String.join (canonicalAll items)
  | .alt items => String.intercalate "|" (canonicalAll items)
  | .repeated node min max => grouped (canonical node) ++ canonicalBounds min max

/-- The grouped texts of some expressions. -/
def canonicalAll : List Node → List String
  | [] => []
  | item :: items => grouped (canonical item) :: canonicalAll items

end

end Node

/-- The canonical text of an expression between its anchors. -/
def Regex.canonical (r : Regex) : String :=
  (if r.atLineStart then "^" else "") ++ r.node.canonical ++ (if r.atLineEnd then "$" else "")

/-! ### Characters

What the bytes of a text are as characters of a pattern.  Plain bytes stand for themselves, and a
run of them is followed by what is behind it. -/

/-- The four bytes of a hexadecimal escape. -/
def hexEscape (b : UInt8) : List UInt8 := 0x5c :: 0x78 :: (Ascii.hexByte b).map Ascii.ofChar

/-- A byte other than a backslash is a character by itself. -/
theorem patternCharsFrom_plain (position : Nat) {b : UInt8} (hb : b ≠ 0x5c) (rest : List UInt8) :
    patternCharsFrom position (b :: rest) =
      (position, .plain b) :: patternCharsFrom (position + 1) rest := by
  rw [patternCharsFrom] <;> simp [hb]

/-- A hexadecimal escape is read back. -/
theorem patternCharsFrom_hexEscape (position : Nat) (b : UInt8) (rest : List UInt8) :
    patternCharsFrom position (hexEscape b ++ rest) =
      (position, .escape (.byte b)) :: patternCharsFrom (position + 4) rest := by
  have hb := b.toNat_lt
  have hhigh := (Ascii.hexValue?_ofChar (n := b.toNat / 16) (by omega)).2
  have hlow := (Ascii.hexValue?_ofChar (n := b.toNat % 16) (by omega)).2
  have hvalue : UInt8.ofNat (16 * (b.toNat / 16) + b.toNat % 16) = b := by
    rw [Nat.div_add_mod, UInt8.ofNat_toNat]
  simp [hexEscape, Ascii.hexByte, patternCharsFrom, hhigh, hlow, hvalue]

/-- Plain bytes with their offsets. -/
def plainChars (position : Nat) : List UInt8 → PatternText
  | [] => []
  | b :: bytes => (position, .plain b) :: plainChars (position + 1) bytes

@[simp] theorem length_plainChars (position : Nat) (bytes : List UInt8) :
    (plainChars position bytes).length = bytes.length := by
  induction bytes generalizing position with
  | nil => rfl
  | cons b bytes ih => simp [plainChars, ih]

theorem plainChars_append (position : Nat) (a b : List UInt8) :
    plainChars position (a ++ b) = plainChars position a ++ plainChars (position + a.length) b := by
  induction a generalizing position with
  | nil => rfl
  | cons x a ih => simp [plainChars, ih, Nat.add_assoc, Nat.add_comm 1]

/-- Bytes that are no backslashes stand for themselves. -/
theorem patternCharsFrom_append (position : Nat) {bytes : List UInt8} (h : ∀ b ∈ bytes, b ≠ 0x5c)
    (rest : List UInt8) :
    patternCharsFrom position (bytes ++ rest) =
      plainChars position bytes ++ patternCharsFrom (position + bytes.length) rest := by
  induction bytes generalizing position with
  | nil => rfl
  | cons b bytes ih =>
    obtain ⟨hb, hbytes⟩ := List.forall_mem_cons.1 h
    rw [List.cons_append, patternCharsFrom_plain position hb, ih (position + 1) hbytes,
      List.length_cons, Nat.add_right_comm, Nat.add_assoc]
    rfl

theorem startsWith_plain (b c : UInt8) (position : Nat) (rest : PatternText) :
    startsWith b ((position, .plain c) :: rest) = (c == b) := rfl

/-- A run of plain bytes ends where the bytes behind it are of another kind. -/
theorem plainRun_plainChars {p : UInt8 → Bool} (position : Nat) {bytes : List UInt8}
    (h : ∀ b ∈ bytes, p b = true) {rest : PatternText} (hrest : plainRun p rest = []) :
    plainRun p (plainChars position bytes ++ rest) = bytes := by
  induction bytes generalizing position with
  | nil => exact hrest
  | cons b bytes ih =>
    obtain ⟨hb, hbytes⟩ := List.forall_mem_cons.1 h
    simp [plainChars, plainRun, hb, ih (position + 1) hbytes]

/-! ### Lexemes

Each sign of a canonical text is a lexeme of its own, with the rest of the text behind it.  These
equations are all that reading a canonical text needs. -/

section Lexemes

variable {f : Flags}

/-- The lexemes of a text that begins at a byte offset. -/
def lexemesFrom (f : Flags) (position : Nat) (text : List UInt8) : List (Nat × Lexeme) :=
  lexemesAfter f 0 (patternCharsFrom position text)

/-- Characters that a lexeme has taken are skipped. -/
theorem lexemesAfter_eq_drop (n : Nat) (text : PatternText) :
    lexemesAfter f n text = lexemesAfter f 0 (text.drop n) := by
  induction text generalizing n with
  | nil => simp [lexemesAfter]
  | cons p rest ih =>
    cases n with
    | zero => rfl
    | succ n => exact ih n

/-- A plain byte begins a lexeme, which takes some of the characters behind it. -/
theorem lexemesFrom_cons {position stop : Nat} {b : UInt8} {text rest : List UInt8}
    (chars : PatternText) (lexeme : Lexeme) (hb : b ≠ 0x5c)
    (hchars : patternCharsFrom (position + 1) text = chars ++ patternCharsFrom stop rest)
    (hread : Lexeme.ofPlain f position b (chars ++ patternCharsFrom stop rest) =
      (lexeme, chars.length))
    (hlexeme : ∀ e, lexeme ≠ .malformed e) :
    lexemesFrom f position (b :: text) = (position, lexeme) :: lexemesFrom f stop rest := by
  have hrest : lexemesAfter f chars.length (chars ++ patternCharsFrom stop rest) =
      lexemesFrom f stop rest := by
    rw [lexemesAfter_eq_drop, List.drop_left]
    rfl
  rw [lexemesFrom, patternCharsFrom_plain position hb, lexemesAfter, Lexeme.read, hchars, hread,
    ← hrest]
  cases lexeme with
  | malformed e => exact absurd rfl (hlexeme e)
  | _ => rfl

theorem lexemesFrom_opening (position : Nat) (text : List UInt8) :
    lexemesFrom f position (0x28 :: 0x3f :: 0x3a :: text) =
      (position, .opening) :: lexemesFrom f (position + 3) text := by
  have hplain : ∀ b ∈ [(0x3f : UInt8), 0x3a], b ≠ 0x5c := by simp
  exact lexemesFrom_cons (plainChars (position + 1) [0x3f, 0x3a]) .opening (by decide)
    (patternCharsFrom_append (position + 1) hplain text) rfl (by simp)

theorem lexemesFrom_empty (position : Nat) (text : List UInt8) :
    lexemesFrom f position (0x28 :: 0x29 :: text) =
      (position, .opening) :: lexemesFrom f (position + 1) (0x29 :: text) :=
  lexemesFrom_cons [] .opening (by decide) rfl
    (by rw [patternCharsFrom_plain _ (by decide)]; rfl) (by simp)

theorem lexemesFrom_closing (position : Nat) (text : List UInt8) :
    lexemesFrom f position (0x29 :: text) =
      (position, .closing) :: lexemesFrom f (position + 1) text :=
  lexemesFrom_cons [] .closing (by decide) rfl rfl (by simp)

theorem lexemesFrom_bar (position : Nat) (text : List UInt8) :
    lexemesFrom f position (0x7c :: text) =
      (position, .bar) :: lexemesFrom f (position + 1) text :=
  lexemesFrom_cons [] .bar (by decide) rfl rfl (by simp)

theorem lexemesFrom_caret (position : Nat) (text : List UInt8) :
    lexemesFrom f position (0x5e :: text) =
      (position, .caret) :: lexemesFrom f (position + 1) text :=
  lexemesFrom_cons [] .caret (by decide) rfl rfl (by simp)

/-! ### Classes

A range is written with three characters, two bounds and a dash between them.  A class is read range
by range, and the ranges of a set give the set again. -/

/-- The bytes of a range inside a bracket. -/
def rangeText (r : ByteRange) : List UInt8 := hexEscape r.first ++ 0x2d :: hexEscape r.last

/-- The characters of a range inside a bracket. -/
def rangeChars (position : Nat) (r : ByteRange) : PatternText :=
  [(position, .escape (.byte r.first)), (position + 4, .plain 0x2d),
    (position + 5, .escape (.byte r.last))]

/-- The characters of ranges that stand one behind the other. -/
def rangesChars (position : Nat) : List ByteRange → PatternText
  | [] => []
  | r :: ranges => rangeChars position r ++ rangesChars (position + 9) ranges

/-- There are three characters for each range. -/
@[simp] theorem length_rangesChars (position : Nat) (ranges : List ByteRange) :
    (rangesChars position ranges).length = 3 * ranges.length := by
  induction ranges generalizing position with
  | nil => rfl
  | cons r ranges ih =>
    simp [rangesChars, rangeChars, ih]
    omega

/-- Ranges are written one after the other, and so are their characters. -/
theorem patternCharsFrom_ranges (position : Nat) (ranges : List ByteRange) (rest : List UInt8) :
    patternCharsFrom position (ranges.flatMap rangeText ++ rest) =
      rangesChars position ranges ++
        patternCharsFrom (position + (ranges.flatMap rangeText).length) rest := by
  induction ranges generalizing position with
  | nil => rfl
  | cons r ranges ih =>
    have hlength : position + ((r :: ranges).flatMap rangeText).length =
        position + 9 + (ranges.flatMap rangeText).length := by
      simp [rangeText, hexEscape, Ascii.hexByte]
      omega
    rw [hlength, List.flatMap_cons, rangeText]
    simp only [List.append_assoc, List.cons_append]
    rw [patternCharsFrom_hexEscape, patternCharsFrom_plain _ (by decide),
      patternCharsFrom_hexEscape, ih]
    rfl

/-- A range is read to its bytes. -/
theorem classItems_rangeChars (start : Nat) (first : Bool) (s : ByteSet) (taken position : Nat)
    {r : ByteRange} (hr : r.first ≤ r.last) (rest : PatternText) :
    classItems start 0 first s taken (rangeChars position r ++ rest) =
      classItems start 0 false (s.insertRange r.first r.last) (taken + 3) rest := by
  simp [rangeChars, classItems, classItem, classRange, orderedRange, hr, PatternChar.isPlain,
    ByteSet.insertRange]

/-- The items of a class of ranges are the ranges. -/
theorem classItems_rangesChars (start : Nat) (first : Bool) (s : ByteSet) (taken position : Nat)
    {ranges : List ByteRange} (hranges : ∀ r ∈ ranges, r.first ≤ r.last)
    (hfirst : first = false ∨ ranges ≠ []) (close : Nat) (rest : PatternText) :
    classItems start 0 first s taken (rangesChars position ranges ++ (close, .plain 0x5d) :: rest) =
      .ok (s.insertRanges ranges, taken + 3 * ranges.length + 1) := by
  induction ranges generalizing first s taken position with
  | nil =>
    obtain rfl := hfirst.resolve_right (by simp)
    rfl
  | cons r ranges ih =>
    obtain ⟨hr, hranges⟩ := List.forall_mem_cons.1 hranges
    rw [rangesChars, List.append_assoc, classItems_rangeChars _ _ _ _ _ hr,
      ih _ _ _ _ hranges (.inl rfl), List.length_cons, Nat.mul_succ, Nat.add_assoc taken,
      Nat.add_comm 3]
    rfl

/-- The bytes of a range in canonical form. -/
theorem bytesOf_rangeCanonical (r : ByteRange) : bytesOf r.canonical = rangeText r := by
  have hescape : ∀ b : UInt8, bytesOf (String.ofList (Ascii.hexByte b)) =
      (Ascii.hexByte b).map Ascii.ofChar := by
    intro b
    have hb := b.toNat_lt
    refine bytesOf_ofList ?_
    simp [Ascii.hexByte, (Ascii.hexValue?_ofChar (n := b.toNat / 16) (by omega)).1,
      (Ascii.hexValue?_ofChar (n := b.toNat % 16) (by omega)).1]
  have hfirst : bytesOf "\\x" = [0x5c, 0x78] := rfl
  have hlast : bytesOf "-\\x" = [0x2d, 0x5c, 0x78] := rfl
  simp [ByteRange.canonical, rangeText, hexEscape, bytesOf_append, hescape, hfirst, hlast]

/-- The bytes of a class in canonical form. -/
theorem bytesOf_setCanonical (s : ByteSet) :
    bytesOf s.canonical = 0x5b :: (s.ranges.flatMap rangeText ++ [0x5d]) := by
  have hopen : bytesOf "[" = [0x5b] := rfl
  have hclose : bytesOf "]" = [0x5d] := rfl
  rw [ByteSet.canonical, bytesOf_append, bytesOf_append, bytesOf_join, hopen, hclose,
    List.flatMap_map]
  simp [bytesOf_rangeCanonical]

/-- The class of the ranges of a set is the set. -/
theorem classAt_ranges (hf : f.ignoreCase = false) {s : ByteSet} (hs : s.isEmpty = false)
    (start position close : Nat) (rest : PatternText) :
    classAt f start (rangesChars position s.ranges ++ (close, .plain 0x5d) :: rest) =
      .ok (s, 3 * s.ranges.length + 1) := by
  have hne : s.ranges ≠ [] := by
    intro hnil
    have hempty := s.ofRanges_ranges
    rw [hnil] at hempty
    rw [← hempty] at hs
    cases hs
  have hnotNegated :
      startsWith 0x5e (rangesChars position s.ranges ++ (close, .plain 0x5d) :: rest) = false := by
    obtain ⟨r, ranges, hranges⟩ := List.exists_cons_of_ne_nil hne
    rw [hranges]
    rfl
  have hitems := classItems_rangesChars start true ByteSet.empty 0 position
    ByteRange.first_le_last (.inr hne) close rest
  have hset : ByteSet.empty.insertRanges s.ranges = s := s.ofRanges_ranges
  simp only [ByteSet.ranges] at hset hitems hnotNegated ⊢
  simp [classAt, hnotNegated, hitems, hset, hf, hs]

/-- **A set is read back.** -/
theorem lexemesFrom_set (hf : f.ignoreCase = false) {s : ByteSet} (hs : s.isEmpty = false)
    (position : Nat) (rest : List UInt8) :
    lexemesFrom f position (bytesOf s.canonical ++ rest) =
      (position, .set s) :: lexemesFrom f (position + (bytesOf s.canonical).length) rest := by
  let close := position + 1 + (s.ranges.flatMap rangeText).length
  have hlength : position + (bytesOf s.canonical).length = close + 1 := by
    rw [bytesOf_setCanonical, List.length_cons, List.length_append, List.length_singleton]
    omega
  rw [hlength, bytesOf_setCanonical, List.cons_append, List.append_assoc]
  refine lexemesFrom_cons (rangesChars (position + 1) s.ranges ++ [(close, .plain 0x5d)])
    (.set s) (by decide) ?_ ?_ (by simp)
  · rw [patternCharsFrom_ranges, List.singleton_append, patternCharsFrom_plain _ (by decide),
      List.append_assoc]
    rfl
  · change Lexeme.ofResult .set (classAt f position _) = _
    rw [List.append_assoc, List.singleton_append, classAt_ranges hf hs, List.length_append,
      length_rangesChars]
    rfl

/-! ### Bounds

Bounds are decimal numbers in braces.  A number is read back digit by digit. -/

/-- Decimal digits are read as the number that they write. -/
theorem decimal_map_ofChar {chars : List Char} (h : ∀ c ∈ chars, c.isDigit = true) :
    decimal (chars.map Ascii.ofChar) = Nat.ofDigitChars 10 chars 0 := by
  have hfold : ∀ (chars : List Char) (m : Nat), (∀ c ∈ chars, c.isDigit = true) →
      (chars.map Ascii.ofChar).foldl (fun n d => 10 * n + (d.toNat - 0x30)) m =
        Nat.ofDigitChars 10 chars m := by
    intro chars
    induction chars with
    | nil => intros; rfl
    | cons c chars ih =>
      intro m h
      obtain ⟨hc, hchars⟩ := List.forall_mem_cons.1 h
      rw [List.map_cons, List.foldl_cons, ih _ hchars, (Ascii.isDigit_ofChar hc).2.2,
        Nat.ofDigitChars_cons]
  exact hfold chars 0 h

/-- Decimal digits are read back. -/
theorem decimal_digits (n : Nat) : decimal (digits n) = n := by
  rw [digits,
    decimal_map_ofChar fun c hc => Nat.isDigit_of_mem_toDigits (by decide) (by decide) hc]
  exact Nat.ofDigitChars_ten_toDigits

section Bounds

variable {low high : List UInt8} (hlow : ∀ b ∈ low, Ascii.isDigit b = true)
  (hhigh : ∀ b ∈ high, Ascii.isDigit b = true) (position comma close : Nat) (rest : PatternText)

include hlow

/-- One number between braces is both bounds. -/
theorem boundsAt_close :
    boundsAt (plainChars position low ++ (close, .plain 0x7d) :: rest) =
      (if boundsInOrder (decimal low) (some (decimal low)) then
        some (decimal low, some (decimal low)) else none, low.length + 1) := by
  have hrun : plainRun Ascii.isDigit (plainChars position low ++ (close, .plain 0x7d) :: rest) =
      low := plainRun_plainChars position hlow rfl
  have hdrop : (plainChars position low ++ (close, .plain 0x7d) :: rest).drop low.length =
      (close, .plain 0x7d) :: rest := List.drop_left' (length_plainChars _ _)
  unfold boundsAt
  simp only [hrun, hdrop, startsWith_plain]
  rfl

include hhigh

/-- Two numbers between braces are the bounds, and the upper one may be missing. -/
theorem boundsAt_comma :
    boundsAt (plainChars position low ++ (comma, .plain 0x2c) ::
        (plainChars (comma + 1) high ++ (close, .plain 0x7d) :: rest)) =
      (if boundsInOrder (decimal low) (if high.isEmpty then none else some (decimal high)) then
        some (decimal low, if high.isEmpty then none else some (decimal high)) else none,
        low.length + high.length + 2) := by
  let behind := plainChars (comma + 1) high ++ (close, .plain 0x7d) :: rest
  have hrunLow : plainRun Ascii.isDigit
      (plainChars position low ++ (comma, .plain 0x2c) :: behind) = low :=
    plainRun_plainChars position hlow rfl
  have hdropLow : (plainChars position low ++ (comma, .plain 0x2c) :: behind).drop low.length =
      (comma, .plain 0x2c) :: behind := List.drop_left' (length_plainChars _ _)
  have hrunHigh : plainRun Ascii.isDigit behind = high := plainRun_plainChars _ hhigh rfl
  have hdropHigh : behind.drop high.length = (close, .plain 0x7d) :: rest :=
    List.drop_left' (length_plainChars _ _)
  unfold boundsAt
  simp only [behind] at hrunLow hdropLow hrunHigh hdropHigh
  simp only [hrunLow, hdropLow, startsWith_plain, List.drop_succ_cons, List.drop_zero, hrunHigh,
    hdropHigh]
  rfl

end Bounds

/-- The bytes behind the brace that opens the bounds of a repetition. -/
def boundsBody (min : Nat) : Option Nat → List UInt8
  | none => digits min ++ [0x2c, 0x7d]
  | some max =>
    if min = max then digits min ++ [0x7d] else digits min ++ 0x2c :: (digits max ++ [0x7d])

/-- The bytes of bounds in canonical form. -/
theorem bytesOf_canonicalBounds (min : Nat) (max : Option Nat) :
    bytesOf (Node.canonicalBounds min max) = 0x7b :: boundsBody min max := by
  have hopen : bytesOf "\x7b" = [0x7b] := rfl
  have hclose : bytesOf "\x7d" = [0x7d] := rfl
  have hcomma : bytesOf "," = [0x2c] := rfl
  have hcommaClose : bytesOf ",\x7d" = [0x2c, 0x7d] := rfl
  cases max with
  | none =>
    simp [Node.canonicalBounds, boundsBody, bytesOf_append, bytesOf_repr, hopen, hcommaClose]
  | some max =>
    by_cases heq : min = max
    · simp [Node.canonicalBounds, boundsBody, heq, bytesOf_append, bytesOf_repr, hopen, hclose]
    · simp [Node.canonicalBounds, boundsBody, heq, bytesOf_append, bytesOf_repr, hopen, hclose,
        hcomma]

/-- The bounds of a well-formed repetition are read back. -/
theorem boundsAt_boundsBody {min : Nat} {max : Option Nat} (hmin : min ≤ maxRepeat)
    (hmax : ∀ m ∈ max, min ≤ m ∧ m ≤ maxRepeat) (position : Nat) (rest : PatternText) :
    boundsAt (plainChars position (boundsBody min max) ++ rest) =
      (some (min, max), (boundsBody min max).length) := by
  have horder : boundsInOrder min max = true := boundsInOrder_iff.2 ⟨hmin, hmax⟩
  have hdigits := fun n => isDigit_of_mem_digits (n := n)
  cases max with
  | none =>
    have hnone : ∀ b ∈ ([] : List UInt8), Ascii.isDigit b = true := by simp
    have h := boundsAt_comma (hdigits min) hnone position
      (position + (digits min).length) (position + (digits min).length + 1) rest
    simpa [boundsBody, plainChars_append, plainChars, decimal_digits, horder] using h
  | some max =>
    by_cases heq : min = max
    · subst heq
      have h := boundsAt_close (hdigits min) position (position + (digits min).length) rest
      simpa [boundsBody, plainChars_append, plainChars, decimal_digits, horder] using h
    · have h := boundsAt_comma (hdigits min) (hdigits max) position
        (position + (digits min).length)
        (position + (digits min).length + 1 + (digits max).length) rest
      simpa [boundsBody, heq, plainChars_append, plainChars, decimal_digits, horder, digits_ne_nil,
        Nat.add_assoc, Nat.add_comm 1] using h

/-- A digit is no backslash. -/
theorem ne_backslash_of_isDigit {b : UInt8} (h : Ascii.isDigit b = true) : b ≠ 0x5c := by
  rintro rfl
  exact Bool.false_ne_true h

/-- Bounds begin with a number, and no backslash is behind it. -/
theorem exists_boundsBody_eq (min : Nat) (max : Option Nat) :
    ∃ behind, boundsBody min max = digits min ++ behind ∧ ∀ b ∈ behind, b ≠ 0x5c := by
  cases max with
  | none => exact ⟨_, rfl, by simp⟩
  | some max =>
    by_cases heq : min = max
    · exact ⟨[0x7d], by simp [boundsBody, heq], by simp⟩
    · refine ⟨0x2c :: (digits max ++ [0x7d]), by simp [boundsBody, heq], ?_⟩
      refine List.forall_mem_cons.2 ⟨by decide, fun b hb => ?_⟩
      rcases List.mem_append.1 hb with hb | hb
      · exact ne_backslash_of_isDigit (isDigit_of_mem_digits b hb)
      · rw [List.mem_singleton.1 hb]
        decide

/-- What begins with a digit between braces is a quantifier. -/
theorem lexemesFrom_braces {low behind : List UInt8} {bounds : Option (Nat × Option Nat)}
    (hne : low ≠ []) (hlow : ∀ b ∈ low, Ascii.isDigit b = true) (hbehind : ∀ b ∈ behind, b ≠ 0x5c)
    (position : Nat) (rest : List UInt8)
    (hbounds : ∀ more, boundsAt (plainChars (position + 1) (low ++ behind) ++ more) =
      (bounds, (low ++ behind).length)) :
    lexemesFrom f position (0x7b :: (low ++ behind ++ rest)) =
      (position, .quantifier bounds) ::
        lexemesFrom f (position + 1 + (low ++ behind).length) rest := by
  have hplain : ∀ b ∈ low ++ behind, b ≠ 0x5c :=
    List.forall_mem_append.2 ⟨fun b hb => ne_backslash_of_isDigit (hlow b hb), hbehind⟩
  refine lexemesFrom_cons (plainChars (position + 1) (low ++ behind)) _ (by decide)
    (patternCharsFrom_append _ hplain _) ?_ (by simp)
  change braceAt position _ = _
  generalize patternCharsFrom (position + 1 + (low ++ behind).length) rest = more
  have hread := hbounds more
  obtain ⟨b, low, rfl⟩ := List.exists_cons_of_ne_nil hne
  have hb : Ascii.isDigit b = true := hlow b List.mem_cons_self
  rw [length_plainChars]
  simp only [List.cons_append, plainChars] at hread ⊢
  simp [braceAt, PatternChar.isPlain, hb, hread]

/-- **Bounds are read back.** -/
theorem lexemesFrom_bounds {min : Nat} {max : Option Nat} (hmin : min ≤ maxRepeat)
    (hmax : ∀ m ∈ max, min ≤ m ∧ m ≤ maxRepeat) (position : Nat) (rest : List UInt8) :
    lexemesFrom f position (bytesOf (Node.canonicalBounds min max) ++ rest) =
      (position, .quantifier (some (min, max))) ::
        lexemesFrom f (position + (bytesOf (Node.canonicalBounds min max)).length) rest := by
  obtain ⟨behind, hbody, hbehind⟩ := exists_boundsBody_eq min max
  have hbounds := boundsAt_boundsBody hmin hmax (position + 1)
  rw [hbody] at hbounds
  have hlength : position + (bytesOf (Node.canonicalBounds min max)).length =
      position + 1 + (digits min ++ behind).length := by
    rw [bytesOf_canonicalBounds, hbody, List.length_cons, Nat.add_right_comm, Nat.add_assoc]
  rw [hlength, bytesOf_canonicalBounds, hbody]
  exact lexemesFrom_braces digits_ne_nil isDigit_of_mem_digits hbehind position rest hbounds

end Lexemes

end FrontEnd
