import FrontEnd.Proofs.Regex.References
import FrontEnd.Proofs.Regex.RoundTrip
import FrontEnd.Proofs.Regex.Seams

/-!
# References and groups

A reference stands for the body of a named pattern in parentheses that only group.  The body is
read by itself when it is referred to, and between the other characters of the pattern when it is
written there.

## Main Definitions

* `OpenGroups.above` — open groups with others around them

## Main Statements

* `assemble_group` — what is assembled by itself is one item when it stands in a group
* `toOption_assemble_append` — lexemes in front do not tell apart what is behind them
* `Regex.parse_inline` — a reference can be replaced by the body that it stands for

## Design Notes

Errors are reported at other offsets when a body is written in place of its name, and a fault in the
body is reported as a fault of the pattern itself.  So only the results are compared.

The two ways of reading are compared piece by piece.  In front of the reference both are the same.
The body is read by itself, and this gives one item; in parentheses it is read between the groups
that are open, and the same steps give the same item on top of them.  Behind it the offsets are
others, which does not matter.  Seams make this possible: a parenthesis is a place where a text can
be cut without changing its lexemes.
-/

namespace FrontEnd

/-! ### Groups

The assembly of a body by itself and inside a group take the same steps, as long as nothing looks
beyond the closing parenthesis.  Only a lazy quantifier would, and a closing parenthesis is no
question mark. -/

/-- The groups with others around them. -/
def OpenGroups.above (around : List (Nat × OpenGroup)) (g : OpenGroups) : OpenGroups :=
  ⟨g.outer ++ around, g.current⟩

section Groups

variable {top : Bool} {expand expand' : String → Except PatternFault Node} {position : Nat}
  {lexeme : Lexeme} {rest lexemes : List (Nat × Lexeme)} {g next : OpenGroups}
  {around : List (Nat × OpenGroup)} {result : Node × Bool}

/-- A lexeme does the same with groups when there are others around them. -/
theorem Lexeme.apply_above (h : lexeme.apply expand position g = .ok next)
    (hexpand : ∀ name node, lexeme.reference? = some name → expand name = .ok node →
      expand' name = .ok node) :
    lexeme.apply expand' position (g.above around) = .ok (next.above around) := by
  have hrepeat : ∀ bounds, g.repeatLast position bounds = .ok next →
      (g.above around).repeatLast position bounds = .ok (next.above around) := by
    intro bounds hbounds
    have hcurrent : (g.above around).current = g.current := rfl
    unfold OpenGroups.repeatLast at hbounds ⊢
    rw [hcurrent]
    split at hbounds <;> cases hbounds
    rfl
  obtain ⟨outer, current⟩ := g
  cases lexeme with
  | reference name =>
    unfold apply at h ⊢
    dsimp only at h ⊢
    split at h
    · cases h
    · next node hnode =>
      cases h
      rw [hexpand name node rfl hnode]
      rfl
  | closing =>
    cases outer with
    | nil => cases h
    | cons group outer =>
      cases h
      rfl
  | question => exact hrepeat _ h
  | quantifier bounds => exact hrepeat bounds h
  | _ => cases h <;> rfl

/-- Nothing is refused in front of a lexeme other than a question mark. -/
theorem checkGreedy_of_ne {l : Nat × Lexeme} (hl : l.2 ≠ .question)
    (rest : List (Nat × Lexeme)) : checkGreedy (l :: rest) = .ok () := by
  obtain ⟨position, lexeme⟩ := l
  cases lexeme <;> first | rfl | exact absurd rfl hl

/-- What need not be refused at the end of a text need not be refused in front of a lexeme other
than a question mark. -/
theorem Lexeme.check_append {last : Nat × Lexeme} (hlast : last.2 ≠ .question)
    (h : lexeme.check rest = .ok ()) (more : List (Nat × Lexeme)) :
    lexeme.check (rest ++ last :: more) = .ok () := by
  have hgreedy : checkGreedy rest = .ok () → checkGreedy (rest ++ last :: more) = .ok () := by
    intro hrest
    match rest, hrest with
    | [], _ => exact checkGreedy_of_ne hlast more
    | (position, lexeme) :: rest, hrest => cases lexeme <;> first | rfl | exact hrest
  cases lexeme <;> first | exact h | exact hgreedy h

/-- A lexeme that does not end a text by itself does not end it at all. -/
theorem Lexeme.endsPattern_of_apply (h : lexeme.apply expand position g = .ok next) (top : Bool)
    (rest : List (Nat × Lexeme)) (g : OpenGroups) : lexeme.endsPattern top rest g = false := by
  cases lexeme <;> first | rfl | cases h

/-- **What is assembled by itself is one item when it stands in a group.** -/
theorem assemble_group {node : Node} {atEnd : Bool} {opening closing : Nat} {outside : OpenGroup}
    (h : assemble false expand lexemes g.outer g.current = .ok (node, atEnd))
    (hexpand : ∀ name ∈ referencesOf lexemes, ∀ node, expand name = .ok node →
      expand' name = .ok node) :
    assemble top expand' (lexemes ++ (closing, .closing) :: rest)
        (g.above ((opening, outside) :: around)).outer g.current =
      assemble top expand' rest around (outside.push node) := by
  induction lexemes generalizing g with
  | nil =>
    obtain ⟨outer, current⟩ := g
    cases outer <;> cases h
    rfl
  | cons l lexemes ih =>
    obtain ⟨position, lexeme⟩ := l
    rcases assemble_cons_eq_ok h with ⟨hend, -⟩ | ⟨next, -, happly, hcheck, hrest⟩
    · -- the anchor does not end what stands in a group
      cases lexeme <;> cases hend
    · have habove : lexeme.apply expand' position (g.above ((opening, outside) :: around)) =
          .ok (next.above ((opening, outside) :: around)) :=
        Lexeme.apply_above happly fun name node hname =>
          hexpand name (mem_referencesOf_cons.2 (.inl hname)) node
      have hgreedy : lexeme.check (lexemes ++ (closing, .closing) :: rest) = .ok () :=
        Lexeme.check_append (by simp) hcheck rest
      show assemble top expand' ((position, lexeme) :: (lexemes ++ (closing, .closing) :: rest))
        _ (g.above ((opening, outside) :: around)).current = _
      rw [assemble_cons, Lexeme.endsPattern_of_apply happly, habove, hgreedy]
      exact ih hrest fun name hname => hexpand name (mem_referencesOf_cons.2 (.inr hname))

/-- What has been assembled has no malformed lexemes. -/
theorem isRead_of_assemble (h : assemble top expand lexemes g.outer g.current = .ok result) :
    ∀ l ∈ lexemes, l.2.IsRead := by
  induction lexemes generalizing g with
  | nil => exact List.forall_mem_nil _
  | cons l lexemes ih =>
    obtain ⟨position, lexeme⟩ := l
    rcases assemble_cons_eq_ok h with ⟨hend, -⟩ | ⟨next, -, happly, -, hrest⟩
    · cases lexeme with
      | dollar =>
        have hlast : lexemes = [] := by
          simp only [Lexeme.endsPattern, Bool.and_eq_true, List.isEmpty_iff] at hend
          exact hend.2
        subst hlast
        refine List.forall_mem_singleton.2 fun e he => ?_
        cases he
      | _ => cases hend
    · refine List.forall_mem_cons.2 ⟨?_, ih hrest⟩
      rintro e rfl
      cases happly

/-- Lexemes in front do not tell apart what is behind them, when it is read to the same result
whatever groups are open. -/
theorem toOption_assemble_append {l l' : Nat × Lexeme} {rest' : List (Nat × Lexeme)}
    (hl : l.2 ≠ .question) (hl' : l'.2 ≠ .question)
    (h : ∀ g : OpenGroups, (assemble top expand (l :: rest) g.outer g.current).toOption =
      (assemble top expand (l' :: rest') g.outer g.current).toOption) :
    (assemble top expand (lexemes ++ l :: rest) g.outer g.current).toOption =
      (assemble top expand (lexemes ++ l' :: rest') g.outer g.current).toOption := by
  induction lexemes generalizing g with
  | nil => exact h g
  | cons first lexemes ih =>
    obtain ⟨position, lexeme⟩ := first
    -- the lexeme does not end the pattern, and sees the same lexeme behind it
    have hends : ∀ (l : Nat × Lexeme) rest,
        lexeme.endsPattern top (lexemes ++ l :: rest) g = false := by
      intro l rest
      cases lexeme <;> simp [Lexeme.endsPattern]
    have hgreedy : checkGreedy (lexemes ++ l :: rest) = checkGreedy (lexemes ++ l' :: rest') := by
      cases lexemes with
      | nil => exact (checkGreedy_of_ne hl rest).trans (checkGreedy_of_ne hl' rest').symm
      | cons second lexemes =>
        obtain ⟨position, lexeme⟩ := second
        cases lexeme <;> rfl
    have hcheck : lexeme.check (lexemes ++ l :: rest) = lexeme.check (lexemes ++ l' :: rest') := by
      cases lexeme <;> first | rfl | exact hgreedy
    rw [List.cons_append, List.cons_append, assemble_cons, assemble_cons, hends, hends, hcheck]
    cases lexeme.apply expand position g with
    | error e => rfl
    | ok next =>
      cases lexeme.check (lexemes ++ l' :: rest') with
      | error e => rfl
      | ok u => exact ih

end Groups

/-! ### Texts at other offsets

Results are compared without their errors.  All offsets can be set to zero for this, and then a text
has the same lexemes wherever it stands. -/

section Offsets

variable {f : Flags} {top : Bool} {expand : String → Except PatternFault Node} {g : OpenGroups}

/-- Another error is no other result. -/
theorem toOption_mapError {ε ε' α : Type} (x : Except ε α) (h : ε → ε') :
    (x.mapError h).toOption = x.toOption := by
  cases x <;> rfl

/-- Where there is a result, it is that of the computation. -/
theorem eq_ok_of_toOption {ε α : Type} {x : Except ε α} {a : α} (h : x.toOption = some a) :
    x = .ok a := by
  cases x with
  | error e => cases h
  | ok b => exact congrArg Except.ok (Option.some.inj h)

/-- A result is changed whether errors are kept or not. -/
theorem toOption_map {ε α β : Type} (x : Except ε α) (h : α → β) :
    (x.map h).toOption = x.toOption.map h := by
  cases x <;> rfl

/-- With all offsets set to zero, a text has the same lexemes wherever it stands. -/
theorem movedLexemes_lexemesFrom (position other : Nat) (bytes : List UInt8) :
    movedLexemes (fun _ => 0) (lexemesFrom f position bytes) =
      movedLexemes (fun _ => 0) (lexemesFrom f other bytes) := by
  unfold lexemesFrom
  rw [← lexemesAfter_moved, ← lexemesAfter_moved, movedText_patternCharsFrom bytes other]

/-- A text is assembled to the same tree wherever it begins. -/
theorem toOption_assemble_lexemesFrom (position other : Nat) (bytes : List UInt8) :
    (assemble top expand (lexemesFrom f position bytes) g.outer g.current).toOption =
      (assemble top expand (lexemesFrom f other bytes) g.outer g.current).toOption := by
  have hmoved (position : Nat) :
      (assemble top expand (movedLexemes (fun _ => 0) (lexemesFrom f position bytes))
        (g.moved fun _ => 0).outer (g.moved fun _ => 0).current).toOption =
          (assemble top expand (lexemesFrom f position bytes) g.outer g.current).toOption := by
    rw [assemble_moved, toOption_mapError]
  rw [← hmoved position, movedLexemes_lexemesFrom position other, hmoved other]

/-- A text refers to the same names wherever it begins. -/
theorem referencesOf_lexemesFrom (position other : Nat) (bytes : List UInt8) :
    referencesOf (lexemesFrom f position bytes) = referencesOf (lexemesFrom f other bytes) := by
  have hmoved : ∀ lexemes,
      referencesOf (movedLexemes (fun _ => 0) lexemes) = referencesOf lexemes := by
    intro lexemes
    unfold referencesOf movedLexemes
    rw [List.filterMap_map]
    refine List.filterMap_congr fun l _ => ?_
    obtain ⟨position, lexeme⟩ := l
    cases lexeme <;> rfl
  rw [← hmoved, movedLexemes_lexemesFrom position other, hmoved]

end Offsets

/-! ### References

The reference and the group that replaces it stand between the same texts.  A text that begins with
a caret is set apart, because the caret belongs to the pattern and not to its tree. -/

section References

variable {f : Flags} {position n : Nat} {text : PatternText} {name : String}

/-- The bytes of a name are ASCII and no backslashes, by one look at all bytes. -/
theorem ascii_of_isNamePart {b : UInt8} (h : isNamePart b = true) :
    b.toNat < 0x80 ∧ b ≠ 0x5c := by
  revert h
  revert b
  suffices h : ∀ b ∈ allBytes, _ from fun b => h b (mem_allBytes b)
  decide +kernel

/-- A run has bytes of one kind only. -/
theorem forall_mem_plainRun (p : UInt8 → Bool) : ∀ b ∈ plainRun p text, p b = true := by
  fun_induction plainRun p text with
  | case1 position rest b hb ih => exact List.forall_mem_cons.2 ⟨hb, ih⟩
  | _ => exact List.forall_mem_nil _

/-- The text of a name has the bytes of the name. -/
theorem bytesOf_asciiText {bytes : List UInt8} (h : ∀ b ∈ bytes, isNamePart b = true) :
    bytesOf (asciiText bytes) = bytes := by
  unfold asciiText
  rw [bytesOf_ofList, List.map_map]
  · exact (List.map_congr_left fun b _ => Ascii.ofChar_toChar b).trans (List.map_id bytes)
  · intro c hc
    obtain ⟨b, hb, rfl⟩ := List.mem_map.1 hc
    rw [Ascii.toNat_toChar]
    exact (ascii_of_isNamePart (h b hb)).1

/-- A reference takes its name and the brace behind it. -/
theorem eq_of_braceAt (h : braceAt position text = (.reference name, n)) :
    (∀ b ∈ bytesOf name, isNamePart b = true) ∧ n = (bytesOf name).length + 1 := by
  have hrun : ∀ b ∈ plainRun isNamePart text, isNamePart b = true := forall_mem_plainRun isNamePart
  unfold braceAt at h
  split at h
  · split at h
    · cases h
    · split at h
      · unfold referenceAt at h
        dsimp only at h
        split at h
        · cases h
          rw [bytesOf_asciiText hrun]
          exact ⟨hrun, rfl⟩
        · cases h
      · cases h
  · cases h

/-- A reference that begins at a seam takes the name and both braces. -/
theorem lexemesFrom_reference {q : Nat} {behind : List UInt8}
    (h : (q, .reference name) ∈ lexemesFrom f q (0x7b :: (bytesOf name ++ 0x7d :: behind))) :
    lexemesFrom f q (0x7b :: (bytesOf name ++ 0x7d :: behind)) =
      (q, .reference name) :: lexemesFrom f (q + (bytesOf name).length + 2) behind := by
  have hbrace : (braceAt q (patternCharsFrom (q + 1) (bytesOf name ++ 0x7d :: behind))).1 =
      .reference name := by
    unfold lexemesFrom at h
    rw [patternCharsFrom_of_isSeam _ _ rfl] at h
    by_cases hread : (Lexeme.read f q (.plain 0x7b)
        (patternCharsFrom (q + 1) (bytesOf name ++ 0x7d :: behind))).1.IsRead
    · rw [lexemesAfter_of_isRead hread] at h
      rcases List.mem_cons.1 h with heq | hlater
      · exact (Prod.mk.inj heq).2.symm
      · -- what is behind begins at other offsets
        obtain ⟨c, hc⟩ := exists_char_of_mem_lexemesAfter hlater
        exact absurd (bounds_of_mem_patternCharsFrom hc).1 (Nat.not_succ_le_self q)
    · obtain ⟨e, he⟩ := not_forall_not.1 hread
      rw [lexemesAfter_of_malformed he] at h
      cases List.mem_singleton.1 h
  obtain ⟨hname, hn⟩ := eq_of_braceAt (n := (braceAt q _).2) (Prod.ext hbrace rfl)
  have hplain : ∀ b ∈ bytesOf name ++ [0x7d], b ≠ 0x5c := by
    refine List.forall_mem_append.2 ⟨fun b hb => (ascii_of_isNamePart (hname b hb)).2, by simp⟩
  have hchars := patternCharsFrom_append (q + 1) hplain behind
  rw [List.append_assoc, List.singleton_append] at hchars
  have hstop : q + 1 + (bytesOf name ++ [0x7d]).length = q + (bytesOf name).length + 2 := by
    rw [List.length_append, List.length_singleton]
    omega
  rw [hstop] at hchars
  refine lexemesFrom_cons _ (.reference name) (by decide) hchars ?_ (by simp)
  rw [← hchars, length_plainChars, List.length_append, List.length_singleton]
  exact Prod.ext hbrace hn

end References

namespace Regex

variable {f : Flags} {named : NamedPatterns} {expand : String → Except PatternFault Node}

/-- Without a caret in front, a pattern is what its lexemes are assembled to. -/
theorem readLexemes_of_ne {l : Nat × Lexeme} {rest : List (Nat × Lexeme)} (hl : l.2 ≠ .caret) :
    readLexemes expand (l :: rest) =
      (assemble true expand (l :: rest) [] OpenGroup.start).map fun result =>
        ⟨result.1, false, result.2⟩ := by
  obtain ⟨position, lexeme⟩ := l
  cases lexeme <;> first | rfl | exact absurd rfl hl

/-- Lexemes in front of two patterns do not tell them apart. -/
theorem toOption_readLexemes_append {l l' : Nat × Lexeme} {front rest rest' : List (Nat × Lexeme)}
    (hl : l.2 ≠ .question ∧ l.2 ≠ .caret) (hl' : l'.2 ≠ .question ∧ l'.2 ≠ .caret)
    (h : ∀ g : OpenGroups, (assemble true expand (l :: rest) g.outer g.current).toOption =
      (assemble true expand (l' :: rest') g.outer g.current).toOption) :
    (readLexemes expand (front ++ l :: rest)).toOption =
      (readLexemes expand (front ++ l' :: rest')).toOption := by
  have hassemble (front : List (Nat × Lexeme)) (atStart : Bool) :
      ((assemble true expand (front ++ l :: rest) [] OpenGroup.start).map fun result =>
        (⟨result.1, atStart, result.2⟩ : Regex)).toOption =
      ((assemble true expand (front ++ l' :: rest') [] OpenGroup.start).map fun result =>
        (⟨result.1, atStart, result.2⟩ : Regex)).toOption := by
    rw [toOption_map, toOption_map,
      toOption_assemble_append (g := ⟨[], OpenGroup.start⟩) hl.1 hl'.1 h]
  cases front with
  | nil =>
    rw [List.nil_append, List.nil_append, readLexemes_of_ne hl.2, readLexemes_of_ne hl'.2]
    exact hassemble [] false
  | cons first front =>
    by_cases hcaret : first.2 = .caret
    · obtain ⟨position, lexeme⟩ := first
      obtain rfl : lexeme = .caret := hcaret
      exact hassemble front true
    · rw [List.cons_append, List.cons_append, readLexemes_of_ne hcaret, readLexemes_of_ne hcaret]
      exact hassemble (first :: front) false

/-- A body in parentheses is assembled to what a reference to it stands for. -/
theorem toOption_assemble_grouped {name body : String} {node : Node}
    (hbody : named.get? name = some body)
    (hnode : expandReference f named named.size [] name = .ok node) (q stop : Nat)
    (behind : List UInt8) (g : OpenGroups) :
    (assemble true (expandReference f named named.size [])
      ((q, .reference name) :: lexemesFrom f stop behind) g.outer g.current).toOption =
    (assemble true (expandReference f named named.size [])
      (lexemesFrom f q (bytesOf (Node.grouped body) ++ behind)) g.outer g.current).toOption := by
  obtain ⟨body', inner, atEnd, hbody', hinner, hassemble⟩ :=
    (NamedPatterns.expands_iff.2 hnode).exists_body
  obtain rfl := Option.some.inj (hbody.symm.trans hbody')
  have hgroup : assemble false inner (lexemesFrom f (q + 3) (bytesOf body)) [] OpenGroup.start =
      .ok (node, atEnd) :=
    eq_ok_of_toOption ((toOption_assemble_lexemesFrom (g := ⟨[], OpenGroup.start⟩) (q + 3) 0
      (bytesOf body)).trans (congrArg Except.toOption hassemble))
  -- in the body the name itself is on the way, but an expansion does not depend on what is
  have hexpand : ∀ other ∈ referencesOf (lexemesFrom f (q + 3) (bytesOf body)), ∀ tree,
      inner other = .ok tree → expandReference f named named.size [] other = .ok tree := by
    intro other hother tree htree
    rw [referencesOf_lexemesFrom (q + 3) 0] at hother
    refine NamedPatterns.expands_iff.1 ?_
    exact (hinner other hother).mono htree (List.nil_subset _)
  -- the closing parenthesis is a seam, so the body has the lexemes that it has by itself
  have hlexemes : lexemesFrom f q (bytesOf (Node.grouped body) ++ behind) =
      (q, .opening) :: (lexemesFrom f (q + 3) (bytesOf body) ++
        (q + 3 + (bytesOf body).length, .closing) ::
          lexemesFrom f (q + 3 + (bytesOf body).length + 1) behind) := by
    rw [bytesOf_grouped, List.cons_append, List.cons_append, List.cons_append, List.append_assoc,
      List.singleton_append, lexemesFrom_opening, lexemesFrom_seam rfl (isRead_of_assemble
        (g := ⟨[], OpenGroup.start⟩) hgroup), lexemesFrom_closing]
  calc _ = (assemble true (expandReference f named named.size []) (lexemesFrom f stop behind)
          g.outer (g.current.push node)).toOption := by
        rw [assemble, hnode]
    _ = (assemble true (expandReference f named named.size [])
          (lexemesFrom f (q + 3 + (bytesOf body).length + 1) behind) g.outer
          (g.current.push node)).toOption := toOption_assemble_lexemesFrom (g := g.push node) _ _ _
    _ = _ := by
        rw [hlexemes, assemble, ← assemble_group (g := ⟨[], OpenGroup.start⟩) hgroup hexpand]
        rfl

/-- **A reference can be replaced by the body that it stands for**, in parentheses that only group.
When the body of a name has a tree by itself, a pattern with the reference and the pattern with the
body in its place are both refused, or are read to the same expression with the same anchors. -/
theorem parse_inline (f : Flags) (named : NamedPatterns) (before behind : String)
    {name body : String} {node : Node} (hbody : named.get? name = some body)
    (hnode : expandReference f named named.size [] name = .ok node)
    (href : ((bytesOf before).length, .reference name) ∈
      lexemes f (bytesOf (before ++ "\x7b" ++ name ++ "\x7d" ++ behind))) :
    (parse f named (before ++ "\x7b" ++ name ++ "\x7d" ++ behind)).toOption =
      (parse f named (before ++ Node.grouped body ++ behind)).toOption := by
  have hbytes : bytesOf (before ++ "\x7b" ++ name ++ "\x7d" ++ behind) =
      bytesOf before ++ 0x7b :: (bytesOf name ++ 0x7d :: bytesOf behind) := by
    have hopen : bytesOf "\x7b" = [0x7b] := rfl
    have hclose : bytesOf "\x7d" = [0x7d] := rfl
    simp [bytesOf_append, hopen, hclose]
  have hgrouped : bytesOf (before ++ Node.grouped body ++ behind) =
      bytesOf before ++ (bytesOf (Node.grouped body) ++ bytesOf behind) := by
    rw [bytesOf_append, bytesOf_append, List.append_assoc]
  rw [hbytes] at href
  -- what stands in front is read in the same way in both patterns
  have hread : ∀ l ∈ lexemesFrom f 0 (bytesOf before), l.2.IsRead :=
    isRead_of_mem_lexemesFrom (b := 0x7b) rfl ((Nat.zero_add (bytesOf before).length).symm ▸ href)
  have hfront : ∀ {b : UInt8} (rest : List UInt8), isSeam b = true →
      lexemes f (bytesOf before ++ b :: rest) =
        lexemesFrom f 0 (bytesOf before) ++ lexemesFrom f (bytesOf before).length (b :: rest) := by
    intro b rest hb
    rw [← Nat.zero_add (bytesOf before).length]
    exact lexemesFrom_seam hb hread
  have hreference : ((bytesOf before).length, .reference name) ∈
      lexemesFrom f (bytesOf before).length (0x7b :: (bytesOf name ++ 0x7d :: bytesOf behind)) := by
    rw [hfront _ rfl] at href
    refine (List.mem_append.1 href).resolve_left fun hmem => ?_
    obtain ⟨c, hc⟩ := exists_char_of_mem_lexemesAfter hmem
    exact absurd (bounds_of_mem_patternCharsFrom hc).2 (by omega)
  obtain ⟨rest, hrest⟩ : ∃ rest, bytesOf (Node.grouped body) ++ bytesOf behind =
      0x28 :: rest := ⟨_, by rw [bytesOf_grouped]; rfl⟩
  obtain ⟨others, hothers⟩ : ∃ others, lexemesFrom f (bytesOf before).length
      (bytesOf (Node.grouped body) ++ bytesOf behind) =
        ((bytesOf before).length, .opening) :: others := ⟨_, by
      rw [bytesOf_grouped]
      exact lexemesFrom_opening _ _⟩
  rw [parse_eq_readWith, parse_eq_readWith, readWith, readWith, hbytes, hgrouped, hrest,
    if_neg (by simp), if_neg (by simp), hfront _ rfl, hfront _ rfl, ← hrest, hothers,
    lexemesFrom_reference hreference]
  refine toOption_readLexemes_append (by simp) (by simp) fun g => ?_
  rw [← hothers]
  exact toOption_assemble_grouped hbody hnode _ _ _ g

/-- Numbers that refer to digits. -/
def numbers : NamedPatterns :=
  (NameTable.empty.put "digit" "[0-9]").put "number" "\x7bdigit\x7d+|0x"

/-- A reference in a group with a quantifier behind it, and the body in its place, which refers to
another name. -/
theorem parse_inline_numbers :
    (parse Flags.none numbers "^a|(\x7bnumber\x7d?b)+$").toOption.map display =
        some "^(a|(([0-9]+|0x)?b)+)$" ∧
      (parse Flags.none numbers "^a|((?:\x7bdigit\x7d+|0x)?b)+$").toOption.map display =
        some "^(a|(([0-9]+|0x)?b)+)$" := by
  have hread : (parse Flags.none numbers "^a|(\x7bnumber\x7d?b)+$").toOption.map display =
      some "^(a|(([0-9]+|0x)?b)+)$" := by
    decide +kernel
  have hsome : (expandReference Flags.none numbers numbers.size [] "number").toOption.isSome =
      true := by
    decide +kernel
  obtain ⟨node, hnode⟩ := Option.isSome_iff_exists.1 hsome
  have hany : (lexemes Flags.none (bytesOf "^a|(\x7bnumber\x7d?b)+$")).any (fun l =>
      l.1 == 4 && l.2.reference? == some "number") = true := by
    decide +kernel
  obtain ⟨⟨position, lexeme⟩, hmem, hl⟩ := List.any_eq_true.1 hany
  obtain ⟨hposition, hreference⟩ := Bool.and_eq_true_iff.1 hl
  obtain rfl : position = 4 := eq_of_beq hposition
  obtain rfl : lexeme = .reference "number" := by
    cases lexeme with
    | reference name => exact congrArg Lexeme.reference (Option.some.inj (eq_of_beq hreference))
    | _ => cases hreference
  have hinline := parse_inline Flags.none numbers "^a|(" "?b)+$"
    (by decide +kernel : numbers.get? "number" = some "\x7bdigit\x7d+|0x")
    (eq_ok_of_toOption hnode) hmem
  exact ⟨hread, (congrArg (Option.map display) hinline).symm.trans hread⟩

end Regex

end FrontEnd
