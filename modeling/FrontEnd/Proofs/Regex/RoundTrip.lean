import FrontEnd.Proofs.Regex.Canonical

/-!
# Expressions are read back

Every well-formed expression has a text that is read to it again.  So the expressions that patterns
are read to are the well-formed ones, and no others.

## Main Definitions

* `Reads` — what reading a text does to the group that is open
* `ReadsTo` — the expression that a text is read to

## Main Statements

* `Reads.append`, `Reads.group` — texts are read one after the other and in parentheses
* `Node.WellFormed.reads` — the text of an expression is read to it
* `Regex.parse_exact` — patterns are read to well-formed expressions, and to all of them

## Design Notes

Reading a text depends on what follows it in one way only: a question mark would make a quantifier
lazy.  So `Reads` speaks of any text behind that begins with one of the signs that the canonical
form puts there.
-/

namespace FrontEnd

/-! ### Groups

`Reads` says what a text does to a group, whatever stands behind it.  Texts are put together as the
group is: one after the other, with bars between them, and in parentheses. -/

/-- A text that begins with a sign that can stand behind a grouped one, or an empty text. -/
def Follows (text : List UInt8) : Prop :=
  ∀ b ∈ text.head?, b = 0x28 ∨ b = 0x29 ∨ b = 0x7c ∨ b = 0x24

/-- Reading the text, wherever it stands and whatever is around it, takes the group that is open
from one state to another. -/
def Reads (f : Flags) (text : List UInt8) (before after : OpenGroup) : Prop :=
  ∀ (top : Bool) (expand : String → Except PatternFault Node) (position : Nat)
    (rest : List UInt8) (outer : List (Nat × OpenGroup)), Follows rest →
      assemble top expand (lexemesFrom f position (text ++ rest)) outer before =
        assemble top expand (lexemesFrom f (position + text.length) rest) outer after

section Reads

variable {f : Flags} {text more : List UInt8} {a b c g : OpenGroup}

theorem Follows.append (hmore : Follows more) {rest : List UInt8} (hrest : Follows rest) :
    Follows (more ++ rest) := by
  cases more with
  | nil => exact hrest
  | cons x more => exact hmore

theorem Reads.nil (f : Flags) (g : OpenGroup) : Reads f [] g g := fun _ _ _ _ _ _ => rfl

theorem Reads.append (h : Reads f text a b) (hmore : Reads f more b c) (hfollows : Follows more) :
    Reads f (text ++ more) a c := by
  intro top expand position rest outer hrest
  rw [List.append_assoc, h top expand position _ outer (hfollows.append hrest),
    hmore top expand _ rest outer hrest, List.length_append, Nat.add_assoc]

/-- In front of such a text a quantifier is not lazy. -/
theorem checkGreedy_of_follows (position : Nat) (h : Follows text) :
    checkGreedy (lexemesFrom f position text) = .ok () := by
  cases text with
  | nil => rfl
  | cons b text =>
    rcases h b rfl with rfl | rfl | rfl | rfl <;>
      simp [lexemesFrom, patternCharsFrom_plain, lexemesAfter, Lexeme.read, Lexeme.ofPlain,
        checkGreedy]

/-- A group is one more item, whatever stands behind it. -/
theorem Reads.group (h : Reads f text OpenGroup.start g) (a : OpenGroup) (top : Bool)
    (expand : String → Except PatternFault Node) (position : Nat) (rest : List UInt8)
    (outer : List (Nat × OpenGroup)) :
    assemble top expand
        (lexemesFrom f position (0x28 :: 0x3f :: 0x3a :: (text ++ 0x29 :: rest))) outer a =
      assemble top expand (lexemesFrom f (position + (text.length + 4)) rest) outer
        (a.push g.close) := by
  have hclosing : Follows (0x29 :: rest) := by
    rintro _ ⟨⟩
    exact .inr (.inl rfl)
  calc
    _ = assemble top expand (lexemesFrom f (position + 3) (text ++ 0x29 :: rest))
        ((position, a) :: outer) OpenGroup.start := by rw [lexemesFrom_opening]; rfl
    _ = assemble top expand (lexemesFrom f (position + 3 + text.length) (0x29 :: rest))
        ((position, a) :: outer) g := h _ _ _ _ _ hclosing
    _ = assemble top expand (lexemesFrom f (position + 3 + text.length + 1) rest) outer
        (a.push g.close) := by rw [lexemesFrom_closing]; rfl
    _ = _ := by congr 2; omega

theorem bytesOf_grouped (text : String) :
    bytesOf (Node.grouped text) = 0x28 :: 0x3f :: 0x3a :: (bytesOf text ++ [0x29]) := by
  have hopen : bytesOf "(?:" = [0x28, 0x3f, 0x3a] := rfl
  have hclose : bytesOf ")" = [0x29] := rfl
  simp [Node.grouped, bytesOf_append, hopen, hclose]

/-- Parentheses are a harmless sign. -/
theorem follows_grouped (text : String) (more : List UInt8) :
    Follows (bytesOf (Node.grouped text) ++ more) := by
  rw [bytesOf_grouped]
  rintro _ ⟨⟩
  exact .inl rfl

/-- A text in parentheses is one item, whatever group it stands in. -/
theorem Reads.grouped {text : String} (h : Reads f (bytesOf text) OpenGroup.start g)
    (a : OpenGroup) : Reads f (bytesOf (Node.grouped text)) a (a.push g.close) := by
  intro top expand position rest outer _
  have hgroup := h.group a top expand position rest outer
  rw [bytesOf_grouped]
  simpa using hgroup

/-- A group with bounds behind it is one more item, which is repeated. -/
theorem Reads.repeated {text : String} (h : Reads f (bytesOf text) OpenGroup.start g)
    {min : Nat} {max : Option Nat} (hmin : min ≤ maxRepeat)
    (hmax : ∀ m ∈ max, min ≤ m ∧ m ≤ maxRepeat) (a : OpenGroup) :
    Reads f (bytesOf (Node.grouped text ++ Node.canonicalBounds min max)) a
      (a.push (.repeated g.close min max)) := by
  intro top expand position rest outer hrest
  let bounds := bytesOf (Node.canonicalBounds min max)
  have hgroup := h.group a top expand position (bounds ++ rest) outer
  have htext : bytesOf (Node.grouped text ++ Node.canonicalBounds min max) ++ rest =
      0x28 :: 0x3f :: 0x3a :: (bytesOf text ++ 0x29 :: (bounds ++ rest)) := by
    simp [bytesOf_append, bytesOf_grouped, bounds]
  have hlength : position + (bytesOf (Node.grouped text ++ Node.canonicalBounds min max)).length =
      position + ((bytesOf text).length + 4) + bounds.length := by
    simp [bytesOf_append, bytesOf_grouped, bounds]
    omega
  rw [htext, hgroup, lexemesFrom_bounds hmin hmax, hlength]
  simp only [assemble, OpenGroup.repeatLast, OpenGroup.push]
  rw [checkGreedy_of_follows _ hrest]

/-- A bar begins the next alternative. -/
theorem Reads.bar (f : Flags) (g : OpenGroup) : Reads f [0x7c] g g.nextAlternative := by
  intro top expand position rest outer _
  rw [List.singleton_append, lexemesFrom_bar]
  rfl

/-- Parentheses with nothing between them are the empty expression. -/
theorem Reads.empty (f : Flags) (a : OpenGroup) : Reads f [0x28, 0x29] a (a.push .empty) := by
  intro top expand position rest outer _
  rw [List.cons_append, List.singleton_append, lexemesFrom_empty, lexemesFrom_closing]
  rfl

/-- A class is one item. -/
theorem Reads.set (hf : f.ignoreCase = false) {s : ByteSet} (hs : s.isEmpty = false)
    (a : OpenGroup) : Reads f (bytesOf s.canonical) a (a.push (.set s)) := by
  intro top expand position rest outer _
  rw [lexemesFrom_set hf hs]
  rfl

/-! ### Expressions

The induction follows the form of a well-formed expression.  Lists of two and more items are why a
group never collapses into its only item. -/

/-- A text that is read to an expression when it is all there is in a group. -/
def ReadsTo (f : Flags) (text : String) (t : Node) : Prop :=
  ∃ g, Reads f (bytesOf text) OpenGroup.start g ∧ g.close = t

/-- The text of an expression is one item when it stands in parentheses. -/
theorem ReadsTo.grouped {text : String} {t : Node} (h : ReadsTo f text t) (a : OpenGroup) :
    Reads f (bytesOf (Node.grouped text)) a (a.push t) := by
  obtain ⟨g, hreads, rfl⟩ := h
  exact hreads.grouped a

/-- Grouped texts are read to items one after the other. -/
theorem Reads.items {items : List Node} (h : ∀ t ∈ items, ReadsTo f t.canonical t)
    (a : OpenGroup) :
    Reads f (bytesOf (String.join (Node.canonicalAll items))) a
      { a with items := items.reverse ++ a.items } := by
  induction items generalizing a with
  | nil => exact Reads.nil f a
  | cons t items ih =>
    obtain ⟨ht, hitems⟩ := List.forall_mem_cons.1 h
    have hfollows : Follows (bytesOf (String.join (Node.canonicalAll items))) := by
      cases items with
      | nil => rintro _ ⟨⟩
      | cons u items =>
        rw [Node.canonicalAll, String.join_cons, bytesOf_append]
        exact follows_grouped _ _
    rw [Node.canonicalAll, String.join_cons, bytesOf_append, List.reverse_cons, List.append_assoc]
    exact (ht.grouped a).append (ih hitems (a.push t)) hfollows

/-- Grouped texts between bars are read to alternatives. -/
theorem Reads.alternatives {items : List Node} (h : ∀ t ∈ items, ReadsTo f t.canonical t)
    (hne : items ≠ []) (before : List Node) :
    ∃ g, Reads f (bytesOf (String.intercalate "|" (Node.canonicalAll items))) ⟨before, []⟩ g ∧
      g.nextAlternative.alternatives = items.reverse ++ before := by
  induction items generalizing before with
  | nil => exact absurd rfl hne
  | cons t items ih =>
    obtain ⟨ht, hitems⟩ := List.forall_mem_cons.1 h
    have hfirst : Reads f (bytesOf (Node.grouped t.canonical)) ⟨before, []⟩ ⟨before, [t]⟩ :=
      ht.grouped ⟨before, []⟩
    cases items with
    | nil =>
      refine ⟨⟨before, [t]⟩, ?_, rfl⟩
      rwa [Node.canonicalAll, Node.canonicalAll, String.intercalate_singleton]
    | cons u items =>
      obtain ⟨g, hrest, hg⟩ := ih hitems (by simp) (t :: before)
      have hbar : bytesOf "|" = [0x7c] := rfl
      have hfollows :
          Follows (bytesOf (String.intercalate "|" (Node.canonicalAll (u :: items)))) := by
        cases items with
        | nil => simpa [Node.canonicalAll] using follows_grouped u.canonical []
        | cons v items =>
          rw [Node.canonicalAll, Node.canonicalAll, String.intercalate_cons_cons, bytesOf_append,
            bytesOf_append, List.append_assoc]
          exact follows_grouped _ _
      refine ⟨g, ?_, by simpa using hg⟩
      rw [Node.canonicalAll, Node.canonicalAll, String.intercalate_cons_cons, bytesOf_append,
        bytesOf_append, hbar, List.append_assoc]
      refine hfirst.append ((Reads.bar f _).append hrest hfollows) ?_
      rintro _ ⟨⟩
      exact .inr (.inr (.inl rfl))

/-- **The canonical text of a well-formed expression is read to it.** -/
theorem Node.WellFormed.reads (hf : f.ignoreCase = false) {t : Node} (h : t.WellFormed) :
    ReadsTo f t.canonical t := by
  induction h with
  | empty => exact ⟨_, Reads.empty f OpenGroup.start, rfl⟩
  | set hs => exact ⟨_, Reads.set hf hs OpenGroup.start, rfl⟩
  | concat hlength _ ih =>
    obtain ⟨t, u, items, rfl⟩ := Node.exists_cons_cons hlength
    refine ⟨_, Reads.items ih OpenGroup.start, ?_⟩
    simp [OpenGroup.close, OpenGroup.nextAlternative, OpenGroup.start, Node.concatOf, Node.altOf]
  | alt hlength _ ih =>
    obtain ⟨t, u, items, rfl⟩ := Node.exists_cons_cons hlength
    obtain ⟨g, hreads, hg⟩ := Reads.alternatives ih (List.cons_ne_nil _ _) []
    refine ⟨g, hreads, ?_⟩
    rw [OpenGroup.close, hg]
    simp [Node.altOf]
  | repeated _ hmin hmax ih =>
    obtain ⟨g, hreads, rfl⟩ := ih
    exact ⟨_, hreads.repeated hmin hmax OpenGroup.start, rfl⟩

end Reads

/-! ### Patterns

The anchors stand around the text of the expression.  With the whole pattern read, both directions
are put together: what is read is well formed, and what is well formed is read back. -/

namespace Regex

variable {f : Flags} {named : NamedPatterns} {t : Node}

/-- A canonical text begins with a parenthesis or a bracket. -/
theorem exists_canonical_eq_cons (h : t.WellFormed) :
    ∃ b rest, bytesOf t.canonical = b :: rest ∧ (b = 0x28 ∨ b = 0x5b) := by
  have hgrouped : ∀ text more : String, ∃ b rest,
      bytesOf (Node.grouped text ++ more) = b :: rest ∧ (b = 0x28 ∨ b = 0x5b) := by
    intro text more
    rw [bytesOf_append, bytesOf_grouped]
    exact ⟨_, _, rfl, .inl rfl⟩
  cases h with
  | empty => exact ⟨_, _, rfl, .inl rfl⟩
  | set _ => exact ⟨_, _, bytesOf_setCanonical _, .inr rfl⟩
  | concat hlength _ =>
    obtain ⟨t, u, items, rfl⟩ := Node.exists_cons_cons hlength
    rw [Node.canonical, Node.canonicalAll, String.join_cons]
    exact hgrouped _ _
  | alt hlength _ =>
    obtain ⟨t, u, items, rfl⟩ := Node.exists_cons_cons hlength
    rw [Node.canonical, Node.canonicalAll, Node.canonicalAll, String.intercalate_cons_cons,
      String.append_assoc]
    exact hgrouped _ _
  | repeated _ _ _ => exact hgrouped _ _

/-- A text that begins with a parenthesis or a bracket does not begin with an anchor. -/
theorem lexemesFrom_ne_caret {b : UInt8} (hb : b = 0x28 ∨ b = 0x5b) (position : Nat)
    (text : List UInt8) (start : Nat) (rest : List (Nat × Lexeme)) :
    lexemesFrom f position (b :: text) ≠ (start, .caret) :: rest := by
  rcases hb with rfl | rfl
  · simp [lexemesFrom, patternCharsFrom_plain, lexemesAfter, Lexeme.read, Lexeme.ofPlain]
  · have hread : Lexeme.read f position (.plain 0x5b) (patternCharsFrom (position + 1) text) =
        Lexeme.ofResult .set (classAt f position (patternCharsFrom (position + 1) text)) := rfl
    rw [lexemesFrom, patternCharsFrom_plain _ (by decide), lexemesAfter, hread]
    cases classAt f position (patternCharsFrom (position + 1) text) <;> simp [Lexeme.ofResult]

/-- A text that is read to an expression, with or without an anchor at its end, is the whole
pattern. -/
theorem assemble_of_readsTo {text : String} (h : ReadsTo f text t)
    (expand : String → Except PatternFault Node) (position : Nat) (atEnd : Bool) :
    assemble true expand
        (lexemesFrom f position (bytesOf text ++ if atEnd then [0x24] else [])) []
        OpenGroup.start = .ok (t, atEnd) := by
  obtain ⟨g, hreads, rfl⟩ := h
  have hfollows : Follows (if atEnd then [0x24] else []) := by
    cases atEnd with
    | false => rintro _ ⟨⟩
    | true =>
      rintro _ ⟨⟩
      exact .inr (.inr (.inr rfl))
  rw [hreads _ _ _ _ _ hfollows]
  cases atEnd <;> rfl

/-- **The canonical text of a well-formed expression is read back**, with its anchors. -/
theorem parse_canonical (hf : f.ignoreCase = false) {r : Regex} (h : r.node.WellFormed) :
    Regex.parse f named r.canonical = .ok r := by
  obtain ⟨t, atStart, atEnd⟩ := r
  obtain ⟨b, text, htext, hb⟩ := exists_canonical_eq_cons h
  have hassemble := assemble_of_readsTo (h.reads hf) (expandReference f named named.size [])
  have hanchor : ∀ atEnd : Bool, bytesOf (if atEnd then "$" else "") =
      if atEnd then [0x24] else [] := by
    intro atEnd
    cases atEnd <;> rfl
  unfold Regex.parse parseBytes
  cases atStart with
  | true =>
    have hbytes : bytesOf (canonical ⟨t, true, atEnd⟩) =
        0x5e :: (bytesOf t.canonical ++ if atEnd then [0x24] else []) := by
      have hcaret : bytesOf "^" = [0x5e] := rfl
      simp [canonical, bytesOf_append, hanchor, hcaret]
    have hlexemes : lexemes f (bytesOf (canonical ⟨t, true, atEnd⟩)) =
        (0, .caret) :: lexemesFrom f 1 (bytesOf t.canonical ++ if atEnd then [0x24] else []) := by
      rw [hbytes]
      exact lexemesFrom_caret 0 _
    rw [hlexemes, hbytes]
    simp [hassemble, Except.map]
  | false =>
    have hbytes : bytesOf (canonical ⟨t, false, atEnd⟩) =
        b :: (text ++ if atEnd then [0x24] else []) := by
      simp [canonical, bytesOf_append, hanchor, htext]
    have hlexemes : lexemes f (bytesOf (canonical ⟨t, false, atEnd⟩)) =
        lexemesFrom f 0 (bytesOf t.canonical ++ if atEnd then [0x24] else []) := by
      rw [hbytes, htext]
      rfl
    rw [hlexemes, hbytes]
    dsimp only
    rw [if_neg (by simp)]
    split
    · next hanchored =>
      rw [htext] at hanchored
      exact absurd hanchored (lexemesFrom_ne_caret hb _ _ _ _)
    · simp [hassemble, Except.map]

/-- **Patterns are read to well-formed expressions, and to all of them.**  Whatever pattern is read
with whatever options and named patterns, the expression is well formed and matches some string.
Unless the case of letters is ignored, every well-formed expression, with or without anchors, is
what its canonical text is read to. -/
theorem parse_exact (f : Flags) (named : NamedPatterns) :
    (∀ pattern r, Regex.parse f named pattern = .ok r →
      r.node.WellFormed ∧ ∃ w, w ∈ r.node.language) ∧
    (f.ignoreCase = false →
      (∀ r : Regex, r.node.WellFormed → Regex.parse f named r.canonical = .ok r) ∧
      ∀ t : Node, t.WellFormed ↔
        ∃ pattern r, Regex.parse f named pattern = .ok r ∧ r.node = t) := by
  have hwf : ∀ pattern r, Regex.parse f named pattern = .ok r → r.node.WellFormed :=
    fun _ _ => wellFormed_of_parse
  refine ⟨fun pattern r hparse => ?_, fun hf => ⟨fun r => parse_canonical hf, fun t => ?_⟩⟩
  · exact ⟨hwf pattern r hparse, (hwf pattern r hparse).exists_mem_language⟩
  · constructor
    · exact fun h => ⟨_, ⟨t, false, false⟩, parse_canonical hf h, rfl⟩
    · rintro ⟨pattern, r, hparse, rfl⟩
      exact hwf pattern r hparse

/-- A letter up to `c` or some letters `x`, at the start of a line. -/
def lettersOrCopies : Regex :=
  ⟨.alt [.concat [.set (ByteSet.range 0x61 0x63), .empty],
    .repeated (.set (ByteSet.singleton 0x78)) 2 (some 5)], true, false⟩

/-- A text that is read back, and a pattern that is read to another text. -/
theorem parse_exact_lettersOrCopies :
    lettersOrCopies.canonical =
        "^(?:(?:[\\x61-\\x63])(?:()))|(?:(?:[\\x78-\\x78])\x7b2,5\x7d)" ∧
      Regex.parse Flags.none NameTable.empty lettersOrCopies.canonical = .ok lettersOrCopies ∧
      ∃ r, Regex.parse Flags.none NameTable.empty "(a|[^c]+)?$" = .ok r ∧
        r.canonical =
          "(?:(?:[\\x61-\\x61])|(?:(?:[\\x00-\\x62\\x64-\\xff])\x7b1,\x7d))\x7b0,1\x7d$" ∧
        r.node.WellFormed := by
  obtain ⟨himage, hread⟩ := parse_exact Flags.none NameTable.empty
  have hletters : (ByteSet.range 0x61 0x63).isEmpty = false :=
    ByteSet.isEmpty_eq_false_of_contains (b := 0x61) (by simp)
  have hx : (ByteSet.singleton 0x78).isEmpty = false :=
    ByteSet.isEmpty_eq_false_of_contains (b := 0x78) (by simp)
  have hwf : lettersOrCopies.node.WellFormed := by
    refine .alt (by decide) (List.forall_mem_cons.2 ⟨?_, List.forall_mem_singleton.2 ?_⟩)
    · exact .concat (by decide)
        (List.forall_mem_cons.2 ⟨.set hletters, List.forall_mem_singleton.2 .empty⟩)
    · refine .repeated (.set hx) (by decide) ?_
      rintro _ ⟨⟩
      decide
  have hcanonical : (match Regex.parse Flags.none NameTable.empty "(a|[^c]+)?$" with
      | .ok r => some r.canonical
      | .error _ => none) = some
        "(?:(?:[\\x61-\\x61])|(?:(?:[\\x00-\\x62\\x64-\\xff])\x7b1,\x7d))\x7b0,1\x7d$" := by
    decide +kernel
  refine ⟨by decide +kernel, (hread rfl).1 lettersOrCopies hwf, ?_⟩
  cases hparse : Regex.parse Flags.none NameTable.empty "(a|[^c]+)?$" with
  | error e =>
    rw [hparse] at hcanonical
    cases hcanonical
  | ok r =>
    rw [hparse] at hcanonical
    exact ⟨r, rfl, Option.some.inj hcanonical, (himage _ r hparse).1⟩

end Regex

end FrontEnd
