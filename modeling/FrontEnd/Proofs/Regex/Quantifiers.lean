import FrontEnd.Proofs.Regex.IgnoreCase
import FrontEnd.Proofs.Regex.RoundTrip

/-!
# Quantifiers and long characters

A pattern is read byte by byte, so a quantifier repeats the byte in front of it.  Behind a character
that is written with several bytes it repeats the last of them only; in parentheses the whole
character is repeated.

## Main Definitions

* `Quantifies` — the texts of quantifiers with their bounds
* `repetitions` — a byte string so many times

## Main Statements

* `Quantifies.assemble` — a quantifier repeats the latest item
* `assemble_bytes` — bytes outside ASCII are items of their own
* `Regex.parse_quantified` — what a quantifier behind a character outside ASCII repeats
* `Regex.parse_quantified_grouped` — a quantifier behind such a character in parentheses repeats it

## Design Notes

What a pattern is read to is computed lexeme by lexeme: the bytes in front, the bytes of the
character, and the quantifier.  The language of the tree that comes out is computed from its items.
A byte outside ASCII has no other case and begins no longer lexeme, which is why each of them is an
item by itself.
-/

namespace FrontEnd

/-! ### Quantifiers

The texts of quantifiers and the bounds that they stand for.  In each form the lexeme is the same as
the bounds, and the assembly repeats the latest item. -/

/-- A number in decimal digits, which may begin with zeros. -/
structure IsNumber (chars : List Char) : Prop where
  ne_nil : chars ≠ []
  isDigit : ∀ c ∈ chars, c.isDigit = true

/-- The number that decimal digits write. -/
def numberOf (chars : List Char) : Nat := Nat.ofDigitChars 10 chars 0

/-- The texts of quantifiers, with the least and the greatest number of repetitions. -/
inductive Quantifies : String → Nat → Option Nat → Prop
  | star : Quantifies "*" 0 none
  | plus : Quantifies "+" 1 none
  | optional : Quantifies "?" 0 (some 1)
  | exactly {low : List Char} : IsNumber low → numberOf low ≤ maxRepeat →
    Quantifies ("\x7b" ++ String.ofList low ++ "\x7d") (numberOf low) (some (numberOf low))
  | atLeast {low : List Char} : IsNumber low → numberOf low ≤ maxRepeat →
    Quantifies ("\x7b" ++ String.ofList low ++ ",\x7d") (numberOf low) none
  | between {low high : List Char} : IsNumber low → IsNumber high →
    numberOf low ≤ numberOf high → numberOf high ≤ maxRepeat →
    Quantifies ("\x7b" ++ String.ofList low ++ "," ++ String.ofList high ++ "\x7d") (numberOf low)
      (some (numberOf high))

section Quantifiers

variable {f : Flags} {q : String} {min : Nat} {max : Option Nat} {low high : List Char}

/-- Bounds are in order. -/
theorem Quantifies.le (h : Quantifies q min max) : ∀ m ∈ max, min ≤ m := by
  cases h with
  | star => simp
  | plus => simp
  | optional => simp
  | exactly => simp
  | atLeast => simp
  | between _ _ hle => simpa using hle

theorem IsNumber.bytesOf_ofList (h : IsNumber low) :
    bytesOf (String.ofList low) = low.map Ascii.ofChar :=
  FrontEnd.bytesOf_ofList fun c hc => (Ascii.isDigit_ofChar (h.isDigit c hc)).1

/-- The bytes of a number are digits. -/
theorem IsNumber.isDigit_bytes (h : IsNumber low) :
    ∀ b ∈ low.map Ascii.ofChar, Ascii.isDigit b = true := by
  intro b hb
  obtain ⟨c, hc, rfl⟩ := List.mem_map.1 hb
  exact (Ascii.isDigit_ofChar (h.isDigit c hc)).2.1

/-- The bytes of a number are read to the number. -/
theorem IsNumber.decimal_eq (h : IsNumber low) : decimal (low.map Ascii.ofChar) = numberOf low :=
  decimal_map_ofChar h.isDigit

/-- Behind a number, what stands between braces is read as bounds. -/
theorem IsNumber.lexemesFrom_braces (h : IsNumber low) {behind : List UInt8}
    {bounds : Option (Nat × Option Nat)} (hbehind : ∀ b ∈ behind, b ≠ 0x5c) (position : Nat)
    (hbounds : ∀ more,
      boundsAt (plainChars (position + 1) (low.map Ascii.ofChar ++ behind) ++ more) =
        (bounds, (low.map Ascii.ofChar ++ behind).length)) :
    lexemesFrom f position (0x7b :: (low.map Ascii.ofChar ++ behind)) =
      [(position, .quantifier bounds)] := by
  have hread := FrontEnd.lexemesFrom_braces (f := f) (List.map_eq_nil_iff.not.2 h.ne_nil)
    h.isDigit_bytes hbehind position [] hbounds
  rwa [List.append_nil] at hread

/-- A quantifier at the end of a pattern is one lexeme. -/
theorem Quantifies.lexemesFrom (h : Quantifies q min max) (position : Nat) :
    ∃ lexeme, lexemesFrom f position (bytesOf q) = [(position, lexeme)] ∧
      (lexeme = .quantifier (some (min, max)) ∨ lexeme = .question ∧ min = 0 ∧ max = some 1) := by
  have hopen : bytesOf "\x7b" = [0x7b] := rfl
  have hclose : bytesOf "\x7d" = [0x7d] := rfl
  have hcomma : bytesOf "," = [0x2c] := rfl
  have hcommaClose : bytesOf ",\x7d" = [0x2c, 0x7d] := rfl
  cases h with
  | star =>
    exact ⟨_, lexemesFrom_cons [] (.quantifier (some (0, none))) (by decide) rfl rfl (by simp),
      .inl rfl⟩
  | plus =>
    exact ⟨_, lexemesFrom_cons [] (.quantifier (some (1, none))) (by decide) rfl rfl (by simp),
      .inl rfl⟩
  | optional =>
    exact ⟨_, lexemesFrom_cons [] .question (by decide) rfl rfl (by simp), .inr ⟨rfl, rfl, rfl⟩⟩
  -- in braces the digits are read up to the comma or the closing brace, which are no digits
  | @exactly low hlow hmax =>
    have horder : boundsInOrder (numberOf low) (some (numberOf low)) = true :=
      boundsInOrder_iff.2 ⟨hmax, by simpa using hmax⟩
    refine ⟨_, ?_, .inl rfl⟩
    rw [bytesOf_append, bytesOf_append, hopen, hclose, hlow.bytesOf_ofList]
    refine hlow.lexemesFrom_braces (by simp) position fun more => ?_
    have hread := boundsAt_close hlow.isDigit_bytes (position + 1) (position + 1 + low.length) more
    simpa [plainChars_append, plainChars, hlow.decimal_eq, horder] using hread
  | @atLeast low hlow hmax =>
    have horder : boundsInOrder (numberOf low) none = true := boundsInOrder_iff.2 ⟨hmax, by simp⟩
    have hnone : ∀ b ∈ ([] : List UInt8), Ascii.isDigit b = true := by simp
    refine ⟨_, ?_, .inl rfl⟩
    rw [bytesOf_append, bytesOf_append, hopen, hcommaClose, hlow.bytesOf_ofList]
    refine hlow.lexemesFrom_braces (by simp) position fun more => ?_
    have hread := boundsAt_comma hlow.isDigit_bytes hnone (position + 1)
      (position + 1 + low.length) (position + 1 + low.length + 1) more
    simpa [plainChars_append, plainChars, hlow.decimal_eq, horder] using hread
  | @between low high hlow hhigh hle hmax =>
    have horder : boundsInOrder (numberOf low) (some (numberOf high)) = true :=
      boundsInOrder_iff.2 ⟨hle.trans hmax, by simpa using ⟨hle, hmax⟩⟩
    have hbehind : ∀ b ∈ 0x2c :: (high.map Ascii.ofChar ++ [0x7d]), b ≠ 0x5c := by
      refine List.forall_mem_cons.2 ⟨by decide, List.forall_mem_append.2 ⟨fun b hb => ?_, by simp⟩⟩
      exact ne_backslash_of_isDigit (hhigh.isDigit_bytes b hb)
    refine ⟨_, ?_, .inl rfl⟩
    rw [bytesOf_append, bytesOf_append, bytesOf_append, bytesOf_append, hopen, hcomma, hclose,
      hlow.bytesOf_ofList, hhigh.bytesOf_ofList, List.append_assoc, List.append_assoc]
    refine hlow.lexemesFrom_braces hbehind position fun more => ?_
    have hread := boundsAt_comma hlow.isDigit_bytes hhigh.isDigit_bytes (position + 1)
      (position + 1 + low.length) (position + 1 + low.length + 1 + high.length) more
    simpa [plainChars_append, plainChars, hlow.decimal_eq, hhigh.decimal_eq, horder, hhigh.ne_nil,
      Nat.add_assoc, Nat.add_comm 1] using hread

/-- **A quantifier repeats the latest item.** -/
theorem Quantifies.assemble (h : Quantifies q min max) (top : Bool)
    (expand : String → Except PatternFault Node) (position : Nat) (group : OpenGroup)
    (item : Node) :
    assemble top expand (FrontEnd.lexemesFrom f position (bytesOf q)) [] (group.push item) =
      .ok ((group.push (.repeated item min max)).close, false) := by
  obtain ⟨lexeme, hlexemes, hbounds⟩ := h.lexemesFrom (f := f) position
  rw [hlexemes]
  rcases hbounds with rfl | ⟨rfl, rfl, rfl⟩ <;> rfl

end Quantifiers

/-! ### Characters outside ASCII

Bytes from 0x80 on are not signs of patterns. -/

section Bytes

variable {f : Flags}

/-- A byte outside ASCII is no letter. -/
theorem otherCase_of_le {b : UInt8} (hb : 0x80 ≤ b) : Ascii.otherCase b = b := by
  have hnot : ∀ c : UInt8, c < 0x80 → ¬ b ≤ c := fun c hc hle =>
    absurd (UInt8.lt_of_le_of_lt (UInt8.le_trans hb hle) hc) (UInt8.lt_irrefl _)
  simp [Ascii.otherCase, Ascii.isLower, Ascii.isUpper, hnot 0x7a (by decide),
    hnot 0x5a (by decide)]

/-- The case of letters does not matter outside ASCII. -/
theorem literal_of_le {b : UInt8} (hb : 0x80 ≤ b) : f.literal b = ByteSet.singleton b := by
  have hcase : (ByteSet.singleton b).addAsciiCase = ByteSet.singleton b := ByteSet.ext fun c => by
    have hiff := Ascii.otherCase_eq_iff (b := c) (otherCase_of_le hb)
    simp [ByteSet.contains_addAsciiCase, eq_comm (a := b), hiff]
  unfold Flags.literal
  rw [hcase, ite_self]

/-- A byte outside ASCII is a set with this byte only. -/
theorem ofPlain_of_le {b : UInt8} (hb : 0x80 ≤ b) (start : Nat) (rest : PatternText) :
    Lexeme.ofPlain f start b rest = (.set (ByteSet.singleton b), 0) := by
  have hne : ∀ c : UInt8, c < 0x80 → b ≠ c := by
    rintro c hc rfl
    exact absurd (UInt8.lt_of_lt_of_le hc hb) (UInt8.lt_irrefl _)
  unfold Lexeme.ofPlain
  rw [if_neg (hne _ (by decide)), if_neg (hne _ (by decide)), if_neg (hne _ (by decide)),
    if_neg (hne _ (by decide)), if_neg (hne _ (by decide)), if_neg (hne _ (by decide)),
    if_neg (hne _ (by decide)), if_neg (hne _ (by decide)), if_neg (hne _ (by decide)),
    if_neg (hne _ (by decide)), if_neg (hne _ (by decide)), if_neg (hne _ (by decide)),
    literal_of_le hb]

theorem lexemesFrom_of_le {b : UInt8} (hb : 0x80 ≤ b) (position : Nat) (text : List UInt8) :
    lexemesFrom f position (b :: text) =
      (position, .set (ByteSet.singleton b)) :: lexemesFrom f (position + 1) text := by
  refine lexemesFrom_cons [] _ ?_ rfl (ofPlain_of_le hb _ _) (by simp)
  rintro rfl
  exact absurd hb (by decide)

/-- **Bytes outside ASCII are items of their own**, whatever stands behind them. -/
theorem assemble_bytes {bytes : List UInt8} (h : ∀ b ∈ bytes, 0x80 ≤ b) (top : Bool)
    (expand : String → Except PatternFault Node) (position : Nat) (rest : List UInt8)
    (outer : List (Nat × OpenGroup)) (group : OpenGroup) :
    assemble top expand (lexemesFrom f position (bytes ++ rest)) outer group =
      assemble top expand (lexemesFrom f (position + bytes.length) rest) outer
        { group with items := (bytes.map Node.byte).reverse ++ group.items } := by
  induction bytes generalizing position group with
  | nil => rfl
  | cons b bytes ih =>
    obtain ⟨hb, hbytes⟩ := List.forall_mem_cons.1 h
    rw [List.cons_append, lexemesFrom_of_le hb, assemble, ih hbytes, List.length_cons,
      Nat.add_right_comm, Nat.add_assoc, List.map_cons, List.reverse_cons, List.append_assoc]
    rfl

end Bytes

/-! ### Languages

Languages of one string, and of items one after the other. -/

/-- A byte string at least `min` and at most `max` times. -/
def repetitions (u : List UInt8) (min : Nat) (max : Option Nat) : Language UInt8 :=
  {w | ∃ k, min ≤ k ∧ (∀ m ∈ max, k ≤ m) ∧ w = (List.replicate k u).flatten}

section Languages

variable {u w : List UInt8} {min k : Nat} {max : Option Nat}

/-- A power of one string is the string so many times. -/
theorem mem_singleton_pow_iff :
    w ∈ ({u} : Language UInt8) ^ k ↔ w = (List.replicate k u).flatten := by
  rw [Language.mem_pow]
  constructor
  · rintro ⟨parts, rfl, rfl, hparts⟩
    rw [List.eq_replicate_of_mem hparts]
    simp
  · rintro rfl
    exact ⟨_, rfl, List.length_replicate, fun y hy => (List.mem_replicate.1 hy).2⟩

/-- Repetitions of one string have it so many times. -/
theorem copiesOf_singleton (h : ∀ m ∈ max, min ≤ m) :
    copiesOf {u} min max = repetitions u min max := by
  ext w
  refine exists_congr fun k => and_congr_right fun _ => and_congr ?_ mem_singleton_pow_iff
  refine forall₂_congr fun m hm => ?_
  have hmax : Nat.max min m = m := Nat.max_eq_right (h m hm)
  rw [hmax]

/-- A byte matches itself only. -/
theorem language_byte (b : UInt8) : (Node.byte b).language = {[b]} := by
  ext w
  constructor
  · rintro ⟨c, hc, rfl⟩
    rw [ByteSet.contains_singleton, decide_eq_true_eq] at hc
    rw [hc]
    rfl
  · rintro rfl
    exact ⟨b, by simp, rfl⟩

theorem languageOfAll_append (items more : List Node) :
    Node.languageOfAll (items ++ more) = Node.languageOfAll items * Node.languageOfAll more := by
  induction items with
  | nil => rw [List.nil_append, Node.languageOfAll, one_mul]
  | cons item items ih =>
    rw [List.cons_append, Node.languageOfAll, Node.languageOfAll, ih, mul_assoc]

/-- A sequence of items matches what they do one after the other, also when it is a single item or
none. -/
theorem language_concatOf (items : List Node) :
    (Node.concatOf items).language = Node.languageOfAll items := by
  match items with
  | [] => rfl
  | [item] => rw [Node.concatOf, Node.languageOfAll, Node.languageOfAll, mul_one]
  | _ :: _ :: _ => rfl

/-- Bytes one after the other match one string. -/
theorem languageOfAll_bytes (bytes : List UInt8) :
    Node.languageOfAll (bytes.map Node.byte) = {bytes} := by
  induction bytes with
  | nil => rfl
  | cons b bytes ih =>
    rw [List.map_cons, Node.languageOfAll, ih, language_byte]
    exact Set.image2_singleton

/-- A byte string in front of so many copies of one byte. -/
theorem mem_languageOfAll_repeated (h : ∀ m ∈ max, min ≤ m) (u : List UInt8) (b : UInt8) :
    w ∈ Node.languageOfAll (u.map Node.byte ++ [.repeated (.byte b) min max]) ↔
      ∃ k, min ≤ k ∧ (∀ m ∈ max, k ≤ m) ∧ w = u ++ List.replicate k b := by
  rw [languageOfAll_append, languageOfAll_bytes, Node.languageOfAll, Node.languageOfAll, mul_one,
    Node.language, language_byte, copiesOf_singleton h, Language.mem_mul]
  have hflatten : ∀ k, (List.replicate k [b]).flatten = List.replicate k b := by
    intro k
    rw [List.flatten_replicate_singleton]
  constructor
  · rintro ⟨_, rfl, _, ⟨k, hmin, hmax, rfl⟩, rfl⟩
    exact ⟨k, hmin, hmax, by rw [hflatten]⟩
  · rintro ⟨k, hmin, hmax, rfl⟩
    exact ⟨u, rfl, _, ⟨k, hmin, hmax, rfl⟩, by rw [hflatten]⟩

/-- **Copies of the last byte are copies of the whole string** only when there is one, unless the
string is that byte: their lengths differ otherwise. -/
theorem eq_repetitions_iff (h : ∀ m ∈ max, min ≤ m) {b : UInt8} (hu : u ≠ []) :
    (∀ w, (∃ k, min ≤ k ∧ (∀ m ∈ max, k ≤ m) ∧ w = u ++ List.replicate k b) ↔
      w ∈ repetitions (u ++ [b]) min max) ↔ min = 1 ∧ max = some 1 := by
  have hlength : 0 < u.length := List.length_pos_iff.2 hu
  constructor
  · intro heq
    -- each number of copies of the byte is the length of some copies of the string
    have hcopies : ∀ k, min ≤ k → (∀ m ∈ max, k ≤ m) →
        ∃ n, min ≤ n ∧ u.length + k = n * (u.length + 1) := by
      intro k hmin hmax
      obtain ⟨n, hn, -, hflat⟩ := (heq _).1 ⟨k, hmin, hmax, rfl⟩
      have hlengths := congrArg List.length hflat
      simp only [List.length_append, List.length_replicate, List.length_flatten, List.map_replicate,
        List.sum_replicate_nat, List.length_singleton] at hlengths
      exact ⟨n, hn, hlengths⟩
    have hmin : min = 1 := by
      obtain ⟨n, hn, hlengths⟩ := hcopies min le_rfl h
      have hle := Nat.mul_le_mul_right (u.length + 1) hn
      rw [← hlengths, Nat.mul_succ, Nat.add_le_add_iff_right] at hle
      have hle_one : min ≤ 1 := Nat.le_of_mul_le_mul_right (by rwa [Nat.one_mul]) hlength
      have hpos : min ≠ 0 := by
        rintro rfl
        rcases n with _ | n
        · omega
        · rw [Nat.succ_mul] at hlengths
          omega
      omega
    refine ⟨hmin, ?_⟩
    by_contra hmax
    have htwo : ∀ m ∈ max, 2 ≤ m := by
      intro m hm
      have hle := h m hm
      have hne : m ≠ 1 := fun hone => hmax (hone ▸ hm)
      omega
    obtain ⟨n, hn, hlengths⟩ := hcopies 2 (by omega) htwo
    rcases n with _ | _ | n
    · omega
    · omega
    · rw [Nat.succ_mul, Nat.succ_mul] at hlengths
      omega
  · rintro ⟨rfl, rfl⟩ w
    constructor
    · rintro ⟨k, hmin, hmax, rfl⟩
      obtain rfl : k = 1 := Nat.le_antisymm (hmax 1 rfl) hmin
      exact ⟨1, le_rfl, by simp, by simp⟩
    · rintro ⟨k, hmin, hmax, rfl⟩
      obtain rfl : k = 1 := Nat.le_antisymm (hmax 1 rfl) hmin
      exact ⟨1, le_rfl, by simp, by simp⟩

end Languages

/-! ### Patterns

The text of a character, a quantifier and what may stand in front and behind, put together. -/

namespace Regex

variable {f : Flags} {named : NamedPatterns} {c : Char} {q : String} {min : Nat}
  {max : Option Nat} {init : List UInt8} {last : UInt8}

/-- A pattern that does not begin with an anchor is read to what its lexemes are assembled to. -/
theorem parse_eq_of_assemble {pattern : String} {lexeme : Lexeme} {rest : List (Nat × Lexeme)}
    {t : Node} {atEnd : Bool} (hlexemes : lexemesFrom f 0 (bytesOf pattern) = (0, lexeme) :: rest)
    (hne : lexeme ≠ .caret)
    (h : assemble true (expandReference f named named.size [])
      (lexemesFrom f 0 (bytesOf pattern)) [] OpenGroup.start = .ok (t, atEnd)) :
    Regex.parse f named pattern = .ok ⟨t, false, atEnd⟩ := by
  have hnonempty : (bytesOf pattern).isEmpty = false := by
    cases hbytes : bytesOf pattern with
    | nil =>
      rw [hbytes] at hlexemes
      cases hlexemes
    | cons => rfl
  have heq : lexemes f (bytesOf pattern) = lexemesFrom f 0 (bytesOf pattern) := rfl
  unfold Regex.parse parseBytes
  dsimp only
  rw [hnonempty, if_neg Bool.false_ne_true, heq]
  split
  · next hcaret =>
    rw [hlexemes] at hcaret
    obtain ⟨hcaret, -⟩ := List.cons.inj hcaret
    exact absurd (Prod.mk.inj hcaret).2 hne
  · rw [h]
    rfl

/-- A character outside ASCII is written with bytes outside ASCII. -/
theorem le_of_mem_bytesOf (hc : 0x80 ≤ c.toNat) :
    ∀ b ∈ bytesOf (String.singleton c), 0x80 ≤ b := by
  rw [bytesOf_singleton]
  exact (utf8EncodeChar_of_le hc).2

/-- Such a character has a last byte and others in front of it. -/
theorem exists_bytesOf_eq_append (hc : 0x80 ≤ c.toNat) :
    ∃ init last, init ≠ [] ∧ bytesOf (String.singleton c) = init ++ [last] := by
  have hlength := (utf8EncodeChar_of_le hc).1
  rw [← bytesOf_singleton] at hlength
  rcases List.eq_nil_or_concat (bytesOf (String.singleton c)) with hnil | ⟨init, last, hbytes⟩
  · rw [hnil] at hlength
    cases hlength
  · rw [List.concat_eq_append] at hbytes
    refine ⟨init, last, ?_, hbytes⟩
    rintro rfl
    rw [hbytes, List.nil_append, List.length_singleton] at hlength
    omega

/-- Behind a character outside ASCII a quantifier repeats the last byte. -/
theorem parse_eq_of_quantified (hc : 0x80 ≤ c.toNat) (hq : Quantifies q min max)
    (hbytes : bytesOf (String.singleton c) = init ++ [last]) :
    Regex.parse f named (String.singleton c ++ q) = .ok
      ⟨Node.concatOf (init.map Node.byte ++ [.repeated (.byte last) min max]), false, false⟩ := by
  have hhigh : ∀ b ∈ init ++ [last], 0x80 ≤ b := hbytes ▸ le_of_mem_bytesOf hc
  have hpattern : bytesOf (String.singleton c ++ q) = init ++ [last] ++ bytesOf q := by
    rw [bytesOf_append, hbytes]
  obtain ⟨b, more, hmore⟩ := List.exists_cons_of_ne_nil (List.concat_ne_nil last init)
  have hlexemes : lexemesFrom f 0 (bytesOf (String.singleton c ++ q)) =
      (0, .set (ByteSet.singleton b)) :: lexemesFrom f 1 (more ++ bytesOf q) := by
    rw [hpattern, hmore, List.cons_append]
    exact lexemesFrom_of_le (hhigh b (hmore ▸ List.mem_cons_self)) 0 _
  refine parse_eq_of_assemble hlexemes (by simp) ?_
  have hgroup : { OpenGroup.start with items :=
        ((init ++ [last]).map Node.byte).reverse ++ OpenGroup.start.items } =
      OpenGroup.push ⟨[], (init.map Node.byte).reverse⟩ (.byte last) := by
    simp [OpenGroup.start, OpenGroup.push]
  rw [hpattern, assemble_bytes hhigh, hgroup, hq.assemble]
  simp [OpenGroup.push, OpenGroup.close, OpenGroup.nextAlternative, Node.altOf]

/-- **A quantifier behind a character outside ASCII** repeats its last byte, behind the others.  So
the whole character is repeated only by a quantifier that asks for exactly one. -/
theorem parse_quantified (f : Flags) (named : NamedPatterns) (hc : 0x80 ≤ c.toNat)
    (hq : Quantifies q min max) :
    ∃ r init last, Regex.parse f named (String.singleton c ++ q) = .ok r ∧
      r.atLineStart = false ∧ r.atLineEnd = false ∧
      bytesOf (String.singleton c) = init ++ [last] ∧
      (∀ w, w ∈ r.node.language ↔
        ∃ k, min ≤ k ∧ (∀ m ∈ max, k ≤ m) ∧ w = init ++ List.replicate k last) ∧
      (r.node.language = repetitions (bytesOf (String.singleton c)) min max ↔
        min = 1 ∧ max = some 1) := by
  obtain ⟨init, last, hinit, hbytes⟩ := exists_bytesOf_eq_append hc
  have hlanguage : ∀ w, w ∈ (Node.concatOf (init.map Node.byte ++
        [.repeated (.byte last) min max])).language ↔
      ∃ k, min ≤ k ∧ (∀ m ∈ max, k ≤ m) ∧ w = init ++ List.replicate k last := by
    intro w
    rw [language_concatOf, mem_languageOfAll_repeated hq.le]
  refine ⟨_, init, last, parse_eq_of_quantified hc hq hbytes, rfl, rfl, hbytes, hlanguage, ?_⟩
  rw [hbytes, ← eq_repetitions_iff hq.le hinit, Language.ext_iff]
  exact forall_congr' fun w => by rw [hlanguage]

/-- **In parentheses the whole character is repeated.** -/
theorem parse_quantified_grouped (f : Flags) (named : NamedPatterns) (hc : 0x80 ≤ c.toNat)
    (hq : Quantifies q min max) :
    ∃ r, Regex.parse f named (Node.grouped (String.singleton c) ++ q) = .ok r ∧
      r.atLineStart = false ∧ r.atLineEnd = false ∧
      r.node.language = repetitions (bytesOf (String.singleton c)) min max := by
  have hhigh := le_of_mem_bytesOf hc
  have hpattern : bytesOf (Node.grouped (String.singleton c) ++ q) =
      0x28 :: 0x3f :: 0x3a :: (bytesOf (String.singleton c) ++ 0x29 :: bytesOf q) := by
    rw [bytesOf_append, bytesOf_grouped]
    simp
  let inner : OpenGroup := { OpenGroup.start with items :=
    ((bytesOf (String.singleton c)).map Node.byte).reverse ++ OpenGroup.start.items }
  have hreads : Reads f (bytesOf (String.singleton c)) OpenGroup.start inner :=
    fun top expand position rest outer _ =>
      assemble_bytes hhigh top expand position rest outer OpenGroup.start
  have hclose : inner.close = Node.ofBytes (bytesOf (String.singleton c)) := by
    simp [inner, OpenGroup.close, OpenGroup.nextAlternative, OpenGroup.start, Node.altOf,
      Node.ofBytes]
  have hlexemes :=
    lexemesFrom_opening (f := f) 0 (bytesOf (String.singleton c) ++ 0x29 :: bytesOf q)
  have hassemble := hreads.group OpenGroup.start true (expandReference f named named.size []) 0
    (bytesOf q) []
  rw [← hpattern] at hlexemes hassemble
  rw [hq.assemble, hclose] at hassemble
  refine ⟨_, parse_eq_of_assemble hlexemes (by simp) hassemble, rfl, rfl, ?_⟩
  change copiesOf (Node.ofBytes (bytesOf (String.singleton c))).language min max = _
  rw [Node.ofBytes, language_concatOf, languageOfAll_bytes, copiesOf_singleton hq.le]

/-- An accented letter at least once: the whole letter, then any number of its last byte. -/
theorem parse_quantified_accented :
    ∃ r, Regex.parse Flags.none NameTable.empty "é+" = .ok r ∧
      bytesOf "é" ++ [0xa9] ∈ r.node.language ∧
      r.node.language ≠ repetitions (bytesOf "é") 1 none := by
  obtain ⟨r, init, last, hparse, -, -, hbytes, hlanguage, hexact⟩ :=
    parse_quantified (c := 'é') Flags.none NameTable.empty (by decide) .plus
  have hknown : bytesOf (String.singleton 'é') = [0xc3] ++ [0xa9] := by decide +kernel
  obtain ⟨rfl, hlast⟩ := List.append_inj' (hbytes.symm.trans hknown) rfl
  obtain rfl := List.singleton_inj.1 hlast
  refine ⟨r, hparse, ?_, fun heq => ?_⟩
  · exact (hlanguage _).2 ⟨2, by decide, by simp, by decide +kernel⟩
  · exact absurd (hexact.1 heq).2 (by simp)

/-- Two accented letters are not read by the pattern that asks for one at least. -/
theorem not_mem_language_accented :
    ∃ r, Regex.parse Flags.none NameTable.empty "é+" = .ok r ∧
      bytesOf "éé" ∈ repetitions (bytesOf "é") 1 none ∧ bytesOf "éé" ∉ r.node.language := by
  have hbytes : bytesOf (String.singleton 'é') = [0xc3] ++ [0xa9] := by decide +kernel
  refine ⟨_, parse_eq_of_quantified (c := 'é') (by decide) .plus hbytes, ?_, ?_⟩
  · exact ⟨2, by decide, by simp, by decide +kernel⟩
  · rw [language_concatOf, mem_languageOfAll_repeated (by simp)]
    rintro ⟨k, -, -, hcopies⟩
    have hknown : bytesOf "éé" = [0xc3] ++ [0xa9, 0xc3, 0xa9] := by decide +kernel
    have htail := List.append_cancel_left (hknown.symm.trans hcopies)
    have hmem : (0xc3 : UInt8) ∈ List.replicate k 0xa9 := htail ▸ by decide
    exact absurd (List.eq_of_mem_replicate hmem) (by decide)

end Regex

end FrontEnd
