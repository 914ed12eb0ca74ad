import FrontEnd.Regex.Pattern
import Mathlib.Tactic.Basic

/-!
# What patterns are read to

A pattern is read to an expression whose sets are those of its lexemes, and the sets of lexemes are
written in four ways: by a byte, by the dot, by an escape letter, and by a class in brackets.  So a
property of expressions holds of whatever is read, when it holds of these sets and is kept by the
constructions of the assembly.

## Main Definitions

* `Flags.Writes` — all sets that a pattern can write have a property
* `Lexeme.Over` — the sets of a lexeme have a property
* `Node.MadeOf` — a property of expressions that follows from one of their sets

## Main Statements

* `over_lexemes` — the sets of all lexemes of a pattern have the property
* `madeOf_assemble` — what lexemes are assembled to has the property
* `Regex.madeOf_parse` — what a pattern is read to has the property

## Design Notes

Both halves follow the code.  `Lexeme.Over` goes through the readers of a pattern, one lemma for
each, and ends with the lexemes of a text.  `Node.MadeOf` goes through the groups that are open
while a tree is assembled.  A property of patterns is then an instance: what it says about the four
kinds of sets, and that it is kept by the constructors.
-/

namespace FrontEnd

/-- All sets that a pattern can write with some options have a property. -/
structure Flags.Writes (f : Flags) (p : ByteSet → Prop) : Prop where
  literal : ∀ b, p (f.literal b)
  dot : p f.dot
  escape : ∀ letter s, escapeClass? letter = some s → p s
  bracket : ∀ start text s n, classAt f start text = .ok (s, n) → p s

/-- Expressions whose sets have the property `p` have the property `q`: each construction of the
assembly keeps it. -/
structure Node.MadeOf (p : ByteSet → Prop) (q : Node → Prop) : Prop where
  set : ∀ s, p s → q (.set s)
  concatOf : ∀ items, (∀ item ∈ items, q item) → q (Node.concatOf items)
  altOf : ∀ items, (∀ item ∈ items, q item) → q (Node.altOf items)
  repeated : ∀ node min max, q node → boundsInOrder min max = true → q (.repeated node min max)

/-- The class that an escape stands for has the property. -/
def PatternChar.Over (p : ByteSet → Prop) : PatternChar → Prop
  | .escape (.bytes _ s) => p s
  | _ => True

/-- The sets have the property, and bounds are in order. -/
def Lexeme.Over (p : ByteSet → Prop) : Lexeme → Prop
  | .set s => p s
  | .text items => ∀ s ∈ items, p s
  | .quantifier (some (min, max)) => boundsInOrder min max = true
  | _ => True

/-! ### Characters and lexemes

Only sets matter here.  A lexeme without a set, and one that is malformed, has any property; so the
readers of bounds, references and escapes have nothing to show, and those of classes and texts hand
on what is known of their items. -/

section Lexemes

variable {f : Flags} {p : ByteSet → Prop} {text : PatternText}

/-- The set of a class is not empty: it is the set of some items, completed when the case of letters
is ignored, and after a caret negated. -/
theorem exists_of_classAt {start : Nat} {s : ByteSet} {n : Nat}
    (h : classAt f start text = .ok (s, n)) :
    s.isEmpty = false ∧ ∃ items complete : ByteSet,
      complete = (if f.ignoreCase then items.addAsciiCase else items) ∧
        (s = complete ∨ s = complete.complement) := by
  unfold classAt at h
  dsimp only at h
  generalize classItems start _ _ _ _ text = result at h
  match result, h with
  | .ok (items, taken), h =>
    dsimp only at h
    generalize hcomplete : (if f.ignoreCase then _ else _ : ByteSet) = complete at h
    generalize hread : (if startsWith 0x5e text then _ else _ : ByteSet) = read at h
    split at h
    · cases h
    · next hnonempty =>
      obtain ⟨rfl, -⟩ := Prod.mk.inj (Except.ok.inj h)
      refine ⟨by simpa using hnonempty, items, complete, hcomplete.symm, ?_⟩
      rw [← hread]
      split
      · exact .inr rfl
      · exact .inl rfl

/-- Bounds have no set. -/
theorem over_boundsAt (p : ByteSet → Prop) (text : PatternText) :
    (Lexeme.quantifier (boundsAt text).1).Over p := by
  have hif : ∀ min max, (Lexeme.quantifier
      (if boundsInOrder min max then some (min, max) else none)).Over p := by
    intro min max
    split
    · assumption
    · trivial
  unfold boundsAt
  dsimp only
  split
  · exact hif _ _
  · split
    · split
      · exact hif _ _
      · trivial
    · trivial

/-- A brace is read to a reference or to bounds, which have no set. -/
theorem over_braceAt (p : ByteSet → Prop) (start : Nat) (text : PatternText) :
    (braceAt start text).1.Over p := by
  unfold braceAt
  split
  · split
    · exact over_boundsAt p _
    · split
      · unfold referenceAt
        dsimp only
        split <;> trivial
      · trivial
  · trivial

variable (hf : f.Writes p)

include hf

/-- An escape letter stands for one of the classes, for a byte, or for nothing. -/
theorem over_escapeOf (b : UInt8) : (escapeOf b).Over p := by
  unfold escapeOf
  split
  · trivial
  · split
    · next hclass => exact hf.escape b _ hclass
    · split <;> trivial

/-- The characters of a text stand for sets that can be written. -/
theorem over_patternCharsFrom (position : Nat) (bytes : List UInt8) :
    ∀ c ∈ patternCharsFrom position bytes, c.2.Over p := by
  fun_induction patternCharsFrom position bytes
  all_goals first
    | exact List.forall_mem_nil _
    | exact List.forall_mem_singleton.2 trivial
    | exact List.forall_mem_cons.2 ⟨trivial, ‹_›⟩
    | exact List.forall_mem_cons.2 ⟨over_escapeOf hf _, ‹_›⟩

/-- The bytes of a quoted string are written as literals. -/
theorem over_textAt {start : Nat} {items : List ByteSet} {n : Nat}
    (h : textAt f start text = .ok (items, n)) : ∀ s ∈ items, p s := by
  induction text generalizing items n with
  | nil => cases h
  | cons c rest ih =>
    -- both kinds of bytes are put in front of what the rest is read to
    have hmap : ∀ b : UInt8, ((textAt f start rest).map fun r => (f.literal b :: r.1, r.2 + 1)) =
        .ok (items, n) → ∀ s ∈ items, p s := by
      intro b hb
      cases hrest : textAt f start rest with
      | error e =>
        rw [hrest] at hb
        cases hb
      | ok r =>
        rw [hrest] at hb
        obtain ⟨rfl, -⟩ := Prod.mk.inj (Except.ok.inj hb)
        exact List.forall_mem_cons.2 ⟨hf.literal b, ih hrest⟩
    unfold textAt at h
    split at h
    · cases h
    · cases h
    · exact hmap _ h
    · split at h
      · obtain ⟨rfl, -⟩ := Prod.mk.inj (Except.ok.inj h)
        simp
      · exact hmap _ h

/-- A plain byte begins a lexeme over sets that can be written. -/
theorem over_ofPlain (start : Nat) (b : UInt8) (rest : PatternText) :
    (Lexeme.ofPlain f start b rest).1.Over p := by
  have hclass : (Lexeme.ofResult .set (classAt f start rest)).1.Over p := by
    cases h : classAt f start rest with
    | error e => trivial
    | ok r => exact hf.bracket start rest r.1 r.2 h
  have htext : (Lexeme.ofResult .text (textAt f start rest)).1.Over p := by
    cases h : textAt f start rest with
    | error e => trivial
    | ok r => exact over_textAt hf h
  have hite : ∀ {c : Prop} [Decidable c] {l m : Lexeme × Nat},
      l.1.Over p → m.1.Over p → (if c then l else m).1.Over p := by
    intro c _ l m hl hm
    split <;> assumption
  unfold Lexeme.ofPlain
  -- the signs that structure a pattern, and the quantifiers of one sign
  iterate 8 refine hite (by trivial) ?_
  exact hite hf.dot (hite hclass (hite htext (hite (over_braceAt p start rest) (hf.literal b))))

/-- A character begins a lexeme over sets that can be written. -/
theorem over_read (start : Nat) {c : PatternChar} (hc : c.Over p) (rest : PatternText) :
    (Lexeme.read f start c rest).1.Over p := by
  unfold Lexeme.read
  split
  · trivial
  · exact hc
  · exact hf.literal _
  · exact over_ofPlain hf start _ rest

/-- The lexemes of a text are over sets that can be written, as its characters are. -/
theorem over_lexemesAfter {n : Nat} (h : ∀ c ∈ text, c.2.Over p) :
    ∀ l ∈ lexemesAfter f n text, l.2.Over p := by
  induction text generalizing n with
  | nil => simp [lexemesAfter]
  | cons c rest ih =>
    obtain ⟨hc, hrest⟩ := List.forall_mem_cons.1 h
    unfold lexemesAfter
    split
    · exact ih hrest
    · have hread := over_read hf c.1 hc rest
      split
      · exact List.forall_mem_singleton.2 trivial
      · next hlexeme =>
        rw [hlexeme] at hread
        exact List.forall_mem_cons.2 ⟨hread, ih hrest⟩

/-- **The sets of all lexemes have the property.** -/
theorem over_lexemes (pattern : List UInt8) : ∀ l ∈ lexemes f pattern, l.2.Over p :=
  over_lexemesAfter hf (over_patternCharsFrom hf 0 pattern)

end Lexemes

/-! ### Trees

A group that is open has the alternatives that are complete and the items of the latest one.  Each
operation on a group keeps a property that the constructions keep. -/

/-- Items in a row are nothing, one of them, or a tree of at least two. -/
theorem Node.concatOf_cases {q : Node → Prop} {items : List Node} (hempty : q .empty)
    (hmany : 2 ≤ items.length → q (.concat items)) (h : ∀ item ∈ items, q item) :
    q (concatOf items) := by
  match items, hmany, h with
  | [], _, _ => exact hempty
  | [item], _, h => exact h item List.mem_cons_self
  | _ :: _ :: _, hmany, _ => exact hmany (by simp)

/-- A choice between items is nothing, one of them, or a tree of at least two. -/
theorem Node.altOf_cases {q : Node → Prop} {items : List Node} (hempty : q .empty)
    (hmany : 2 ≤ items.length → q (.alt items)) (h : ∀ item ∈ items, q item) :
    q (altOf items) := by
  match items, hmany, h with
  | [], _, _ => exact hempty
  | [item], _, h => exact h item List.mem_cons_self
  | _ :: _ :: _, hmany, _ => exact hmany (by simp)

/-- Everything that has been read of a group has a property. -/
structure OpenGroup.All (q : Node → Prop) (g : OpenGroup) : Prop where
  alternatives : ∀ t ∈ g.alternatives, q t
  items : ∀ t ∈ g.items, q t

section Trees

variable {p : ByteSet → Prop} {q : Node → Prop} {g : OpenGroup}

/-- A group is empty at the start. -/
theorem OpenGroup.all_start : start.All q := ⟨by simp [start], by simp [start]⟩

/-- A group gets one more item with the property. -/
theorem OpenGroup.All.push (h : g.All q) {t : Node} (ht : q t) : (g.push t).All q :=
  ⟨h.alternatives, List.forall_mem_cons.2 ⟨ht, h.items⟩⟩

variable (hq : Node.MadeOf p q)

include hq

/-- What stands in front of a bar has the property as a whole. -/
theorem OpenGroup.All.nextAlternative (h : g.All q) : g.nextAlternative.All q :=
  ⟨List.forall_mem_cons.2
    ⟨hq.concatOf _ fun t ht => h.items t (List.mem_reverse.1 ht), h.alternatives⟩, by
      simp [OpenGroup.nextAlternative]⟩

/-- A group with the property is closed to a tree with it. -/
theorem OpenGroup.All.close (h : g.All q) : q g.close :=
  hq.altOf _ fun t ht => (h.nextAlternative hq).alternatives t (List.mem_reverse.1 ht)

/-- A repetition keeps the property when its bounds are in order. -/
theorem OpenGroup.All.repeatLast (h : g.All q) {bounds : Option (Nat × Option Nat)}
    (hbounds : (Lexeme.quantifier bounds).Over p) {after : OpenGroup}
    (hafter : g.repeatLast bounds = .ok after) : after.All q := by
  unfold OpenGroup.repeatLast at hafter
  split at hafter
  · cases hafter
  · cases hafter
  · next item items min max hitems =>
    obtain rfl := Except.ok.inj hafter
    obtain ⟨hitem, hrest⟩ := List.forall_mem_cons.1 (hitems ▸ h.items)
    exact ⟨h.alternatives,
      List.forall_mem_cons.2 ⟨hq.repeated item min max hitem hbounds, hrest⟩⟩

end Trees

section Assemble

variable {top : Bool} {expand : String → Except PatternFault Node} {rest : List (Nat × Lexeme)}
  {outer : List (Nat × OpenGroup)} {group : OpenGroup} {result : Node × Bool}

/-- A quantifier repeats the latest item, when it does not fail. -/
theorem exists_of_assemble_quantifier {position : Nat} {bounds : Option (Nat × Option Nat)}
    (h : assemble top expand ((position, .quantifier bounds) :: rest) outer group = .ok result) :
    ∃ after, group.repeatLast bounds = .ok after ∧
      assemble top expand rest outer after = .ok result := by
  unfold assemble at h
  dsimp only at h
  split at h
  · cases h
  · next after hafter =>
    split at h
    · cases h
    · exact ⟨after, hafter, h⟩

variable {p : ByteSet → Prop} {q : Node → Prop} (hq : Node.MadeOf p q)

include hq

/-- **What lexemes are assembled to has the property**, when references stand for expressions that
have it. -/
theorem madeOf_assemble (hexpand : ∀ name t, expand name = .ok t → q t)
    {lexemes : List (Nat × Lexeme)} (hlexemes : ∀ l ∈ lexemes, l.2.Over p)
    (houter : ∀ g ∈ outer, g.2.All q) (hgroup : group.All q)
    (h : assemble top expand lexemes outer group = .ok result) : q result.1 := by
  induction lexemes generalizing outer group with
  | nil =>
    cases outer with
    | nil =>
      obtain rfl := Except.ok.inj h
      exact hgroup.close hq
    | cons around outer => cases h
  | cons l rest ih =>
    obtain ⟨position, lexeme⟩ := l
    obtain ⟨hlexeme, hrest⟩ := List.forall_mem_cons.1 hlexemes
    -- a question mark is a quantifier, too, so both are treated at once
    have hquantifier : ∀ bounds, (Lexeme.quantifier bounds).Over p →
        assemble top expand ((position, .quantifier bounds) :: rest) outer group = .ok result →
          q result.1 := by
      intro bounds hbounds h
      obtain ⟨after, hafter, h⟩ := exists_of_assemble_quantifier h
      exact ih hrest houter (hgroup.repeatLast hq hbounds hafter) h
    cases lexeme with
    | malformed e => cases h
    | set s => exact ih hrest houter (hgroup.push (hq.set s hlexeme)) h
    | text items =>
      refine ih hrest houter (hgroup.push (hq.concatOf _ fun item hitem => ?_)) h
      obtain ⟨s, hs, rfl⟩ := List.mem_map.1 hitem
      exact hq.set s (hlexeme s hs)
    | reference name =>
      unfold assemble at h
      dsimp only at h
      split at h
      · cases h
      · next node hnode => exact ih hrest houter (hgroup.push (hexpand name node hnode)) h
    | opening => exact ih hrest (List.forall_mem_cons.2 ⟨hgroup, houter⟩) OpenGroup.all_start h
    | closing =>
      cases outer with
      | nil => cases h
      | cons around outer =>
        obtain ⟨haround, houter⟩ := List.forall_mem_cons.1 houter
        exact ih hrest houter (haround.push (hgroup.close hq)) h
    | bar => exact ih hrest houter (hgroup.nextAlternative hq) h
    | caret => cases h
    | dollar =>
      unfold assemble at h
      dsimp only at h
      split at h
      · obtain rfl := Except.ok.inj h
        exact hgroup.close hq
      · cases h
    | question => exact hquantifier (some (0, some 1)) rfl h
    | quantifier bounds => exact hquantifier bounds hlexeme h

variable {f : Flags} {named : NamedPatterns} (hf : f.Writes p)

include hf

/-- A reference stands for an expression that has the property. -/
theorem madeOf_expandReference {bound : Nat} {active : List String} {name : String}
    {t : Node} (h : expandReference f named bound active name = .ok t) : q t := by
  induction bound generalizing active name t with
  | zero =>
    unfold expandReference at h
    split at h
    · cases h
    · split at h <;> cases h
  | succ bound ih =>
    unfold expandReference at h
    split at h
    · cases h
    · split at h
      · cases h
      · dsimp only at h
        split at h
        · cases h
        · next hassemble =>
          obtain rfl := Except.ok.inj h
          exact madeOf_assemble hq (fun _ _ => ih) (over_lexemes hf _) (by simp)
            OpenGroup.all_start hassemble

/-- **What a pattern is read to has the property.** -/
theorem Regex.madeOf_parse {pattern : String} {r : Regex}
    (h : Regex.parse f named pattern = .ok r) : q r.node := by
  -- the anchor at the start only takes one lexeme away
  have hmap : ∀ lexemes atStart, (∀ l ∈ lexemes, l.2.Over p) →
      (assemble true (expandReference f named named.size []) lexemes [] OpenGroup.start).map
        (fun result => Regex.mk result.1 atStart result.2) = .ok r → q r.node := by
    intro lexemes atStart hlexemes hmap
    cases hassemble : assemble true (expandReference f named named.size []) lexemes []
        OpenGroup.start with
    | error e =>
      rw [hassemble] at hmap
      cases hmap
    | ok result =>
      rw [hassemble] at hmap
      obtain rfl := Except.ok.inj hmap
      exact madeOf_assemble hq (fun _ _ => madeOf_expandReference hq hf) hlexemes (by simp)
        OpenGroup.all_start hassemble
  have hall := over_lexemes hf (bytesOf pattern)
  unfold Regex.parse Regex.parseBytes at h
  dsimp only at h
  split at h
  · cases h
  · split at h
    · next hlexemes =>
      rw [hlexemes] at hall
      exact hmap _ true (List.forall_mem_cons.1 hall).2 h
    · exact hmap _ false hall h

end Assemble

end FrontEnd
