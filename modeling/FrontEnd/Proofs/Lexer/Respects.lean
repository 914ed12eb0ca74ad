import FrontEnd.Proofs.Lexer.Cursor
import Mathlib.Data.List.Forall2

/-!
# Inputs that a lexer does not tell apart

A lexer looks at a byte in two ways: it looks up the group of the byte, and it asks whether the byte
is a line feed.  So when related bytes agree in both, cursors over related inputs stay side by side:
each call answers tokens that differ in their bytes only.

## Main Definitions

* `Lexer.Respects` — a lexer does not tell related bytes apart
* `Token.Agrees`, `Cursor.Agrees` — tokens and cursors that differ in related bytes only
* `Cursor.RunsAgree` — two runs that answer tokens which agree

## Main Statements

* `Lexer.Respects.scan_eq` — a scan finds the same match in related inputs
* `Lexer.Respects.step` — a step keeps two cursors side by side
* `Lexer.Respects.calls`, `Lexer.Respects.tokens` — so do calls, and so does taking all tokens

## Design Notes

Nothing here looks into the relation.  The tables are asked for groups and the position for line
feeds, so both runs read the same answers from the tables and come to the same states; the bytes
themselves are only copied into the tokens.
-/

namespace FrontEnd

variable {R : UInt8 → UInt8 → Prop}

/-- The lexer does not tell related bytes apart: they belong to one group, and a line feed is
related to line feeds only. -/
structure Lexer.Respects (R : UInt8 → UInt8 → Prop) (l : Lexer) : Prop where
  group_eq : ∀ a b, R a b → l.groups.group a = l.groups.group b
  lineFeed_iff : ∀ a b, R a b → (a = lineFeed ↔ b = lineFeed)

/-- The tokens have the same kind, user data, offsets and lexer state, and related bytes. -/
structure Token.Agrees (R : UInt8 → UInt8 → Prop) (t u : Token) : Prop where
  id : t.id = u.id
  userData : t.userData = u.userData
  start : t.start = u.start
  stop : t.stop = u.stop
  state : t.state = u.state
  lexeme : List.Forall₂ R t.lexeme u.lexeme

/-- The cursors stand at the same place of related inputs, with the same lexer states. -/
structure Cursor.Agrees (R : UInt8 → UInt8 → Prop) (c d : Cursor) : Prop where
  behind : List.Forall₂ R c.behind d.behind
  ahead : List.Forall₂ R c.ahead d.ahead
  position : c.position = d.position
  size : c.size = d.size
  state : c.state = d.state
  stack : c.stack = d.stack
  emptyAt : c.emptyAt = d.emptyAt
  emptyStates : c.emptyStates = d.emptyStates
  ended : c.ended = d.ended

/-- The answers on two cursors, with the cursors behind them: there is no token, or the tokens
agree. -/
inductive Cursor.AnswersAgree (R : UInt8 → UInt8 → Prop) :
    Option Token × Cursor → Option Token × Cursor → Prop
  | none {c d : Cursor} : c.Agrees R d → AnswersAgree R (none, c) (none, d)
  | some {t u : Token} {c d : Cursor} :
    t.Agrees R u → c.Agrees R d → AnswersAgree R (some t, c) (some u, d)

/-- The tokens that two runs have taken agree one by one, and so do the cursors behind them. -/
structure Cursor.RunsAgree (R : UInt8 → UInt8 → Prop) (x y : List Token × Cursor) : Prop where
  tokens : List.Forall₂ (Token.Agrees R) x.1 y.1
  cursor : x.2.Agrees R y.2

/-! ### Matches

A match depends on the groups of the bytes ahead, and on whether lines start and end. -/

namespace Lexer

variable {l : Lexer}

/-- A line break is where a related byte makes one. -/
theorem Respects.atLineBreak_eq (h : l.Respects R) {bytes bytes' : List UInt8}
    (hbytes : List.Forall₂ R bytes bytes') : atLineBreak bytes = atLineBreak bytes' := by
  cases hbytes with
  | nil => rfl
  | cons hab _ => exact Bool.eq_iff_iff.2 (by simpa [atLineBreak] using h.lineFeed_iff _ _ hab)

/-- The accepted rule is chosen by the tables and the line break. -/
theorem Respects.accepting_eq (h : l.Respects R) (node : Nat) {rest rest' : List UInt8}
    (hrest : List.Forall₂ R rest rest') : l.accepting node rest = l.accepting node rest' := by
  unfold accepting
  rw [h.atLineBreak_eq hrest]

/-- **A scan finds the same match** in related inputs. -/
theorem Respects.scan_eq (h : l.Respects R) (node length : Nat) (last : Option (Nat × Nat))
    {ahead ahead' : List UInt8} (hahead : List.Forall₂ R ahead ahead') :
    l.scan node length last ahead = l.scan node length last ahead' := by
  induction hahead generalizing node length last with
  | nil => rfl
  | cons hab hrest ih =>
    rw [scan_cons, scan_cons, h.accepting_eq node (.cons hab hrest), h.group_eq _ _ hab]
    dsimp only
    rw [ih]

/-- The match that is found is the same one. -/
theorem Respects.matchAhead_eq (h : l.Respects R) {behind behind' ahead ahead' : List UInt8}
    (hbehind : List.Forall₂ R behind behind') (hahead : List.Forall₂ R ahead ahead')
    (state : Nat) : l.matchAhead behind ahead state = l.matchAhead behind' ahead' state := by
  unfold matchAhead
  rw [h.atLineBreak_eq hbehind]
  split
  · rfl
  · exact h.scan_eq _ 0 none hahead

end Lexer

/-! ### Cursors

Two cursors side by side have related bytes, and everything else is equal. -/

namespace Cursor

variable {c d : Cursor}

theorem agrees_start {input input' : List UInt8} (h : List.Forall₂ R input input') (state : Nat) :
    (start input state).Agrees R (start input' state) :=
  ⟨.nil, h, rfl, h.length_eq, rfl, rfl, rfl, rfl, rfl⟩

/-- A change from outside is the same for both. -/
theorem Agrees.setState (h : c.Agrees R d) (state : Nat) :
    (c.setState state).Agrees R (d.setState state) :=
  { h with state := rfl }

theorem Agrees.forward (h : c.Agrees R d) (length : Nat) :
    (c.forward length).Agrees R (d.forward length) :=
  have hpassed := List.forall₂_take length h.ahead
  { h with
    behind := List.rel_append (List.rel_reverse hpassed) h.behind
    ahead := List.forall₂_drop length h.ahead
    position := congrArg₂ (· + ·) h.position hpassed.length_eq }

/-- A change of the lexer state depends on the state and the stack. -/
theorem Agrees.apply (h : c.Agrees R d) (change : StateChange) :
    (c.apply change).Agrees R (d.apply change) := by
  cases change with
  | stay => exact h
  | goto s => exact { h with state := rfl }
  | push s => exact { h with state := rfl, stack := congrArg₂ List.cons h.state h.stack }
  | pop =>
    cases hstack : d.stack with
    | nil =>
      simp only [Cursor.apply, h.stack.trans hstack, hstack]
      exact { h with state := rfl, stack := rfl }
    | cons s stack =>
      simp only [Cursor.apply, h.stack.trans hstack, hstack]
      exact { h with state := rfl, stack := rfl }

theorem Agrees.emptyStatesHere_eq (h : c.Agrees R d) : c.emptyStatesHere = d.emptyStatesHere := by
  rw [emptyStatesHere, emptyStatesHere, h.emptyAt, h.position, h.emptyStates]

/-- A match of the empty string is remembered on both cursors, or on neither. -/
theorem Agrees.rememberEmpty? (h : c.Agrees R d) :
    (c.rememberEmpty? = none ∧ d.rememberEmpty? = none) ∨
      ∃ after after', c.rememberEmpty? = some after ∧ d.rememberEmpty? = some after' ∧
        after.Agrees R after' := by
  unfold Cursor.rememberEmpty?
  rw [h.emptyStatesHere_eq, h.state]
  split
  · exact .inl ⟨rfl, rfl⟩
  · exact .inr ⟨_, _, rfl, rfl, { h with emptyAt := h.position, emptyStates := rfl, state := rfl }⟩

theorem Agrees.atEnd_eq (h : c.Agrees R d) : c.atEnd = d.atEnd := by
  rw [Bool.eq_iff_iff, atEnd, atEnd, List.isEmpty_iff, List.isEmpty_iff, ← List.length_eq_zero_iff,
    ← List.length_eq_zero_iff, h.ahead.length_eq]

theorem Agrees.stepBound_eq (h : c.Agrees R d) (numStates : Nat) :
    c.stepBound numStates = d.stepBound numStates := by
  rw [stepBound, stepBound, h.size, h.position]

/-- Their tokens have the same offsets, and related bytes. -/
theorem Agrees.token (h : c.Agrees R d) (id : TokenId) (userData length state : Nat) :
    (c.token id userData length state).Agrees R (d.token id userData length state) :=
  ⟨rfl, rfl, h.position, congrArg (· + length) h.position, rfl, List.forall₂_take length h.ahead⟩

theorem Agrees.endToken (h : c.Agrees R d) : c.endToken.Agrees R d.endToken :=
  ⟨rfl, rfl, h.size, h.size, h.state, .nil⟩

end Cursor

/-! ### Steps

A step of one cursor is a step of the other, with the same match and the same change. -/

namespace Lexer

variable {l : Lexer} {c d : Cursor}

/-- The same match is found at the place of two cursors, or none at all. -/
theorem Respects.matchAt (h : l.Respects R) (hc : c.Agrees R d) :
    (l.matchAt c = none ∧ l.matchAt d = none) ∨
      ∃ rule length after after', l.matchAt c = some (rule, length, after) ∧
        l.matchAt d = some (rule, length, after') ∧ after.Agrees R after' := by
  unfold Lexer.matchAt
  rw [h.matchAhead_eq hc.behind hc.ahead, hc.state]
  split
  · exact .inl ⟨rfl, rfl⟩
  · next rule length _ =>
    split
    · rcases hc.rememberEmpty? with ⟨hnone, hnone'⟩ | ⟨after, after', hsome, hsome', hafter⟩
      · exact .inl ⟨congrArg _ hnone, congrArg _ hnone'⟩
      · exact .inr ⟨rule, length, after, after', congrArg _ hsome, congrArg _ hsome', hafter⟩
    · exact .inr ⟨rule, length, c, d, rfl, rfl, hc⟩

/-- **A step keeps two cursors side by side.** -/
theorem Respects.step (h : l.Respects R) (hc : c.Agrees R d) :
    Cursor.AnswersAgree R (l.step c) (l.step d) := by
  unfold Lexer.step
  rw [hc.atEnd_eq]
  split
  · exact .some hc.endToken hc
  · rcases h.matchAt hc with ⟨hnone, hnone'⟩ | ⟨rule, length, after, after', hsome, hsome', hafter⟩
    · rw [hnone, hnone', hc.state]
      exact .some (hc.token _ _ _ _) (hc.forward 1)
    · rw [hsome, hsome']
      dsimp only
      generalize (l.terminal? rule).getD ⟨TokenId.skip, 0, .stay⟩ = terminal
      have hbehind := (hafter.apply terminal.change).forward length
      split
      · exact .none hbehind
      · rw [hbehind.state]
        exact .some (hc.token _ _ _ _) hbehind

/-! ### Runs

Loops of steps keep the cursors side by side, by induction on the bound or on the calls. -/

/-- Steps up to a token answer tokens that agree. -/
theorem Respects.advanceWithin (h : l.Respects R) (bound : Nat) (hc : c.Agrees R d) :
    (l.advanceWithin bound c).1.Agrees R (l.advanceWithin bound d).1 ∧
      (l.advanceWithin bound c).2.Agrees R (l.advanceWithin bound d).2 := by
  induction bound generalizing c d with
  | zero => exact ⟨hc.endToken, hc⟩
  | succ bound ih =>
    have hstep := h.step hc
    unfold Lexer.advanceWithin
    generalize l.step c = x at hstep ⊢
    generalize l.step d = y at hstep ⊢
    cases hstep with
    | none hc => exact ih hc
    | some ht hc => exact ⟨ht, hc⟩

/-- The next tokens agree. -/
theorem Respects.advance (h : l.Respects R) (hc : c.Agrees R d) :
    (l.advance c).1.Agrees R (l.advance d).1 ∧ (l.advance c).2.Agrees R (l.advance d).2 := by
  unfold Lexer.advance
  rw [hc.stepBound_eq]
  exact h.advanceWithin _ hc

/-- The next token is there for both or for none. -/
theorem Respects.next (h : l.Respects R) (hc : c.Agrees R d) :
    Cursor.AnswersAgree R (l.next c) (l.next d) := by
  obtain ⟨ht, hafter⟩ := h.advance hc
  have hend : (l.advance c).1.isEndOfInput = (l.advance d).1.isEndOfInput :=
    congrArg (· == TokenId.endOfInput) ht.id
  unfold Lexer.next
  rw [hc.ended]
  dsimp only
  split
  · exact .none hc
  · rw [hend]
    split
    · exact .none { hafter with ended := rfl }
    · exact .some ht hafter

/-- A call keeps two cursors side by side. -/
theorem Respects.call (h : l.Respects R) (hc : c.Agrees R d) (call : Cursor.Call) :
    Cursor.AnswersAgree R (l.call c call) (l.call d call) := by
  cases call with
  | advance => exact .some (h.advance hc).1 (h.advance hc).2
  | next => exact h.next hc
  | setState state => exact .none (hc.setState state)

/-- **Calls keep two cursors side by side**: they answer tokens that agree. -/
theorem Respects.calls (h : l.Respects R) (hc : c.Agrees R d) (calls : List Cursor.Call) :
    Cursor.RunsAgree R (l.calls c calls) (l.calls d calls) := by
  induction calls generalizing c d with
  | nil => exact ⟨.nil, hc⟩
  | cons call calls ih =>
    have hcall := h.call hc call
    unfold Lexer.calls
    generalize l.call c call = x at hcall ⊢
    generalize l.call d call = y at hcall ⊢
    cases hcall with
    | none hc => exact ih hc
    | some ht hc => exact ⟨.cons ht (ih hc).tokens, (ih hc).cursor⟩

/-- All tokens, by induction on the bound. -/
theorem Respects.tokensWithin (h : l.Respects R) (bound : Nat) (hc : c.Agrees R d) :
    Cursor.RunsAgree R (l.tokensWithin bound c) (l.tokensWithin bound d) := by
  induction bound generalizing c d with
  | zero => exact ⟨.nil, hc⟩
  | succ bound ih =>
    have hnext := h.next hc
    unfold Lexer.tokensWithin
    generalize l.next c = x at hnext ⊢
    generalize l.next d = y at hnext ⊢
    cases hnext with
    | none hc => exact ⟨.nil, hc⟩
    | some ht hc => exact ⟨.cons ht (ih hc).tokens, (ih hc).cursor⟩

/-- **All tokens of two cursors agree**, and so do the cursors at the end. -/
theorem Respects.tokens (h : l.Respects R) (hc : c.Agrees R d) :
    Cursor.RunsAgree R (l.tokens c) (l.tokens d) := by
  unfold Lexer.tokens
  rw [hc.stepBound_eq]
  exact h.tokensWithin _ hc

end Lexer

end FrontEnd
