import FrontEnd.Proofs.Regex.Quantifiers
import FrontEnd.Proofs.Regex.Seams

/-!
# Byte strings between quotes

The printable form of a byte string stands between quotes in a pattern, and is read back there byte
for byte.  So different byte strings have different printable forms.

## Main Definitions

* `escapeText` — the bytes of the printable form of a byte
* `PatternChar.StandsFor` — the characters of a quoted string that mean one byte

## Main Statements

* `exists_patternCharsFrom_escapeText` — the printable form of a byte is one such character
* `Regex.parse_quoted` — what a pattern of one quoted string is read to
* `Regex.parse_escapeBytes` — quoted strings undo the printable form

## Design Notes

A byte is printed in one of three ways: as it is, as a backslash and a letter, or with two
hexadecimal digits.  In front of any text each of them is one character of the pattern, and no
digit behind the last one is drawn in.
-/

namespace FrontEnd

/-! ### Printable forms

The printable form is made byte by byte, and so are its bytes. -/

/-- The bytes of the printable form of a byte. -/
def escapeText (b : UInt8) : List UInt8 := (escapeChars b).map Ascii.ofChar

/-- The printable form of a byte is a text of visible characters and spaces. -/
theorem isPrint_of_mem_escapeChars {b : UInt8} :
    ∀ c ∈ escapeChars b, 0x20 ≤ c.toNat ∧ c.toNat ≤ 0x7e := by
  unfold escapeChars
  split_ifs with _ _ _ _ _ hprint
  iterate 5 exact List.forall_mem_cons.2 ⟨by decide, List.forall_mem_singleton.2 (by decide)⟩
  · rw [List.forall_mem_singleton, Ascii.toNat_toChar]
    exact Ascii.isPrint_iff.1 hprint
  · rw [List.forall_mem_cons, List.forall_mem_cons]
    exact ⟨by decide, by decide, Ascii.isPrint_of_mem_hexByte⟩

/-- The bytes of the printable form are those of each byte in turn. -/
theorem bytesOf_escapeBytes (bytes : List UInt8) :
    bytesOf (escapeBytes bytes) = bytes.flatMap escapeText := by
  have hascii : ∀ c ∈ bytes.flatMap escapeChars, c.toNat < 0x80 := by
    intro c hc
    obtain ⟨b, -, hc⟩ := List.mem_flatMap.1 hc
    exact Nat.lt_of_le_of_lt (isPrint_of_mem_escapeChars c hc).2 (by decide)
  rw [escapeBytes, bytesOf_ofList hascii, List.map_flatMap]
  rfl

/-- **The three ways to print a byte.** -/
theorem escapeText_cases (b : UInt8) :
    (escapeText b = [b] ∧ b ≠ 0x5c ∧ b ≠ 0x22) ∨
      (∃ letter, letter ≠ 0x78 ∧ escapeText b = [0x5c, letter] ∧
        escapeOf letter = .escape (.byte b)) ∨
      escapeText b = hexEscape b := by
  by_cases hlf : b = 0x0a
  · subst hlf
    exact .inr (.inl ⟨0x6e, by decide, rfl, rfl⟩)
  by_cases hcr : b = 0x0d
  · subst hcr
    exact .inr (.inl ⟨0x72, by decide, rfl, rfl⟩)
  by_cases htab : b = 0x09
  · subst htab
    exact .inr (.inl ⟨0x74, by decide, rfl, rfl⟩)
  by_cases hbackslash : b = 0x5c
  · subst hbackslash
    exact .inr (.inl ⟨0x5c, by decide, rfl, rfl⟩)
  by_cases hquote : b = 0x22
  · subst hquote
    exact .inr (.inl ⟨0x22, by decide, rfl, rfl⟩)
  unfold escapeText escapeChars
  rw [if_neg hlf, if_neg hcr, if_neg htab, if_neg hbackslash, if_neg hquote]
  split
  · exact .inl ⟨by rw [List.map_singleton, Ascii.ofChar_toChar], hbackslash, hquote⟩
  · exact .inr (.inr rfl)

/-! ### Quoted strings

A quoted string is read character by character up to the closing quote, and each character of the
printable form stands for one byte. -/

/-- The characters that mean the byte inside a quoted string. -/
inductive PatternChar.StandsFor (b : UInt8) : PatternChar → Prop where
  | plain (h : b ≠ 0x22) : StandsFor b (.plain b)
  | escape : StandsFor b (.escape (.byte b))

section Quoted

variable {f : Flags} {position start : Nat} {b : UInt8} {c : PatternChar} {rest : List UInt8}

/-- **The printable form of a byte is one character**, whatever stands behind it. -/
theorem exists_patternCharsFrom_escapeText (position : Nat) (b : UInt8) (rest : List UInt8) :
    ∃ c : PatternChar, c.StandsFor b ∧ patternCharsFrom position (escapeText b ++ rest) =
      (position, c) :: patternCharsFrom (position + (escapeText b).length) rest := by
  rcases escapeText_cases b with ⟨htext, hbackslash, hquote⟩ | ⟨letter, hletter, htext, hescape⟩ |
    htext
  · refine ⟨_, .plain hquote, ?_⟩
    rw [htext]
    exact patternCharsFrom_plain position hbackslash rest
  · refine ⟨_, .escape, ?_⟩
    rw [htext, ← hescape]
    exact patternCharsFrom_escape hletter
  · refine ⟨_, .escape, ?_⟩
    rw [htext]
    exact patternCharsFrom_hexEscape position b rest

/-- A character that stands for a byte gives this byte, and the others are behind it. -/
theorem textAt_of_standsFor (h : c.StandsFor b) (text : PatternText) :
    textAt f start ((position, c) :: text) =
      (textAt f start text).map fun (items, n) => (f.literal b :: items, n + 1) := by
  cases h with
  | plain hquote => rw [textAt, if_neg hquote]
  | escape => rw [textAt]

/-- The printable forms of a byte string up to a quote are characters of which a quoted string takes
all, one for each byte and one for the quote. -/
theorem exists_patternCharsFrom_escapeTexts (position : Nat) (bytes rest : List UInt8) :
    ∃ (chars : PatternText) (stop : Nat), chars.length = bytes.length + 1 ∧
      patternCharsFrom position (bytes.flatMap escapeText ++ 0x22 :: rest) =
        chars ++ patternCharsFrom stop rest ∧
      ∀ (f : Flags) (start : Nat) (behind : PatternText),
        textAt f start (chars ++ behind) = .ok (bytes.map f.literal, bytes.length + 1) := by
  induction bytes generalizing position with
  | nil =>
    exact ⟨[(position, .plain 0x22)], position + 1, rfl,
      patternCharsFrom_plain position (by decide) rest, fun _ _ _ => rfl⟩
  | cons b bytes ih =>
    obtain ⟨c, hc, hchar⟩ := exists_patternCharsFrom_escapeText position b
      (bytes.flatMap escapeText ++ 0x22 :: rest)
    obtain ⟨chars, stop, hlength, hchars, htext⟩ := ih (position + (escapeText b).length)
    refine ⟨(position, c) :: chars, stop, by rw [List.length_cons, hlength, List.length_cons], ?_,
      fun f start behind => ?_⟩
    · rw [List.flatMap_cons, List.append_assoc, hchar, hchars, List.cons_append]
    · rw [List.cons_append, textAt_of_standsFor hc, htext]
      rfl

/-- **A byte string between quotes is one lexeme.** -/
theorem lexemesFrom_quoted (position : Nat) (bytes rest : List UInt8) :
    ∃ stop, lexemesFrom f position (0x22 :: (bytes.flatMap escapeText ++ 0x22 :: rest)) =
      (position, .text (bytes.map f.literal)) :: lexemesFrom f stop rest := by
  obtain ⟨chars, stop, hlength, hchars, htext⟩ :=
    exists_patternCharsFrom_escapeTexts (position + 1) bytes rest
  refine ⟨stop, lexemesFrom_cons chars _ (by decide) hchars ?_ (by simp)⟩
  have hread : Lexeme.ofPlain f position 0x22 (chars ++ patternCharsFrom stop rest) =
      Lexeme.ofResult .text (textAt f position (chars ++ patternCharsFrom stop rest)) := rfl
  rw [hread, htext, hlength]
  rfl

end Quoted

/-! ### Patterns

Between quotes the printable form is the whole pattern. -/

/-- Different byte strings are different expressions. -/
theorem Node.ofBytes_injective : Function.Injective Node.ofBytes := by
  intro u w h
  have hlanguage : ∀ bytes, (Node.ofBytes bytes).language = {bytes} := fun bytes => by
    rw [Node.ofBytes, language_concatOf, languageOfAll_bytes]
  have hsingleton : ({u} : Language UInt8) = {w} := by rw [← hlanguage u, h, hlanguage w]
  exact Set.singleton_injective hsingleton

namespace Regex

variable {f : Flags} {named : NamedPatterns}

/-- A byte string between quotes in its printable form. -/
def quoted (bytes : List UInt8) : String := "\"" ++ escapeBytes bytes ++ "\""

/-- **A quoted string is read to one item for each byte**, in both cases when the options ask for
it. -/
theorem parse_quoted (f : Flags) (named : NamedPatterns) (bytes : List UInt8) :
    Regex.parse f named (quoted bytes) =
      .ok ⟨Node.concatOf ((bytes.map f.literal).map Node.set), false, false⟩ := by
  have hquote : bytesOf "\"" = [0x22] := rfl
  have hbytes : bytesOf (quoted bytes) = 0x22 :: (bytes.flatMap escapeText ++ 0x22 :: []) := by
    rw [quoted, bytesOf_append, bytesOf_append, bytesOf_escapeBytes, hquote, List.append_assoc]
    rfl
  obtain ⟨stop, hlexemes⟩ := lexemesFrom_quoted (f := f) 0 bytes []
  rw [← hbytes] at hlexemes
  refine parse_eq_of_assemble hlexemes (by simp) ?_
  rw [hlexemes]
  rfl

/-- **Quoted strings undo the printable form of byte strings.**  Unless the case of letters is
ignored, whatever byte string is printed between quotes, and whatever patterns have names, the
pattern is read to the expression that matches the bytes, without anchors.  So no two byte strings
have the same printable form.  It consists of visible ASCII characters and spaces. -/
theorem parse_escapeBytes :
    (∀ (f : Flags) (named : NamedPatterns) (bytes : List UInt8), f.ignoreCase = false →
      Regex.parse f named ("\"" ++ escapeBytes bytes ++ "\"") =
        .ok ⟨Node.ofBytes bytes, false, false⟩) ∧
      Function.Injective escapeBytes ∧
      ∀ bytes, ∀ c ∈ (escapeBytes bytes).toList, 0x20 ≤ c.toNat ∧ c.toNat ≤ 0x7e := by
  have hparse : ∀ (f : Flags) (named : NamedPatterns) (bytes : List UInt8), f.ignoreCase = false →
      Regex.parse f named (quoted bytes) = .ok ⟨Node.ofBytes bytes, false, false⟩ := by
    intro f named bytes hf
    have hliteral : f.literal = ByteSet.singleton := by
      funext b
      rw [Flags.literal, hf, if_neg Bool.false_ne_true]
    rw [parse_quoted, hliteral, List.map_map]
    rfl
  refine ⟨hparse, fun u w h => ?_, fun bytes c hc => ?_⟩
  · have hquoted : quoted u = quoted w := by rw [quoted, h, quoted]
    have hread := hparse Flags.none NameTable.empty u rfl
    rw [hquoted, hparse Flags.none NameTable.empty w rfl] at hread
    exact (Node.ofBytes_injective (Regex.mk.inj (Except.ok.inj hread)).1).symm
  · rw [escapeBytes, String.toList_ofList] at hc
    obtain ⟨b, -, hc⟩ := List.mem_flatMap.1 hc
    exact isPrint_of_mem_escapeChars c hc

/-- Quotes, backslashes, a line feed, and a zero byte in front of a letter that is a hexadecimal
digit. -/
def awkwardBytes : List UInt8 := [0x22, 0x5c, 0x0a, 0x00, 0x66, 0xff, 0x5c, 0x22]

/-- Quotes, backslashes, a line end, a zero byte in front of a digit, and a byte outside ASCII, all
in one string. -/
theorem parse_escapeBytes_awkward :
    escapeBytes awkwardBytes = "\\\"\\\\\\n\\x00f\\xff\\\\\\\"" ∧
      Regex.parse Flags.none NameTable.empty ("\"" ++ escapeBytes awkwardBytes ++ "\"") =
        .ok ⟨Node.ofBytes awkwardBytes, false, false⟩ :=
  ⟨by decide +kernel, parse_escapeBytes.1 Flags.none NameTable.empty awkwardBytes rfl⟩

end Regex

end FrontEnd
