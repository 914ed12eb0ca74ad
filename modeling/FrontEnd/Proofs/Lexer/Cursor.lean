import FrontEnd.Lexer.Cursor
import FrontEnd.Proofs.Lexer.Match

/-!
# Cursors

Whatever calls are made on a cursor, what it has passed of its input is cut into segments without
gaps: matches that were answered as tokens, matches that were dropped, and single bytes that no rule
matches.

## Main Definitions

* `Cursor.Call`, `Lexer.calls` — calls on a cursor, and what they answer one after the other
* `Segment`, `Tiles` — parts of an input, and segments that lie one behind the other
* `Lexer.Passes` — what a segment can be
* `Cursor.memory`, `StateChange.act` — a lexer state with its stack, and what a change does to them
* `Leg`, `Chains` — segments and changes from outside, and where they lead
* `Lexer.Trail` — the way of a cursor in its life
* `Lexer.Partition` — how answered tokens and passed segments cut the input

## Main Statements

* `Lexer.Trail.step` — a step passes one segment and uses up credit
* `Lexer.Trail.calls` — what calls answer are the tokens of the segments that they pass
* `LexerDefinition.exists_partition` — the tokens of a cursor partition its input

## Design Notes

A match of the empty string does not move the cursor.  It is remembered together with the lexer
state, so the lexer states that have not been remembered are a credit for further ones, and the
bytes ahead are worth more than all lexer states together.

The way of a cursor has the changes of its lexer state from outside among the segments.  So the
state in which a segment is passed is known from what stands in front of it, and a match of a
segment is one in the state of the cursor at that place.
-/

namespace FrontEnd

/-! ### Calls

The tokens of a run of calls are put in a row.  That a call has answered nothing is not recorded; it
is said of a single call where it matters. -/

/-- A call on a cursor. -/
inductive Cursor.Call where
  | advance
  | next
  | setState (state : Nat)
deriving DecidableEq

namespace Lexer

/-- What a call answers, and the cursor behind it.  A change of the lexer state answers nothing. -/
def call (l : Lexer) (c : Cursor) : Cursor.Call → Option Token × Cursor
  | .advance => (some (l.advance c).1, (l.advance c).2)
  | .next => l.next c
  | .setState state => (none, c.setState state)

/-- The tokens that calls answer one after the other, and the cursor behind them. -/
def calls (l : Lexer) : Cursor → List Cursor.Call → List Token × Cursor
  | c, [] => ([], c)
  | c, call :: rest =>
    let (token, c) := l.call c call
    let (tokens, c) := l.calls c rest
    (token.toList ++ tokens, c)

end Lexer

/-- The lexer state that a call changes to. -/
def Cursor.Call.setState? : Cursor.Call → Option Nat
  | .setState state => some state
  | _ => none

/-! ### Segments

A segment is known by its offsets, the lexer state in which it is passed, the change behind it and
its token.  Segments that tile a part of the input have no gap and do not overlap, so their bytes
are the bytes of the part. -/

/-- A part of an input, with the lexer state in which it is passed, the change of the lexer state
behind it, and the token that is answered for it, if there is one. -/
structure Segment where
  start : Nat
  stop : Nat
  state : Nat
  change : StateChange
  token? : Option Token

/-- The bytes of an input between two offsets. -/
def bytesBetween (input : List UInt8) (start stop : Nat) : List UInt8 :=
  (input.drop start).take (stop - start)

/-- The segments lie one behind the other between two offsets. -/
def Tiles : Nat → List Segment → Nat → Prop
  | start, [], stop => start = stop
  | start, s :: segments, stop => s.start = start ∧ s.start ≤ s.stop ∧ Tiles s.stop segments stop

/-- What a lexer can pass in one step: a match of a rule that answers a token, a match of a rule
whose matches are dropped, or a byte where no rule matches more than the empty string.  A token has
the offsets and the bytes of its segment, and the lexer state changes as the rule asks for. -/
inductive Lexer.Passes (l : Lexer) (input : List UInt8) : Segment → Prop
  | token {start stop state rule : Nat} {terminal : Terminal} (after : Nat) :
    l.longestMatch input start state = some (rule, stop) → l.terminal? rule = some terminal →
      0 < terminal.token → Passes l input ⟨start, stop, state, terminal.change, some
        ⟨terminal.token, terminal.userData, start, stop, after, bytesBetween input start stop⟩⟩
  | dropped {start stop state rule : Nat} {terminal : Terminal} :
    l.longestMatch input start state = some (rule, stop) → l.terminal? rule = some terminal →
      terminal.token < 0 → Passes l input ⟨start, stop, state, terminal.change, none⟩
  | invalid {start state : Nat} (after : Nat) :
    start < input.length →
      (∀ rule stop, l.longestMatch input start state = some (rule, stop) → stop = start) →
        Passes l input ⟨start, start + 1, state, .stay, some
          ⟨TokenId.invalid, 0, start, start + 1, after, bytesBetween input start (start + 1)⟩⟩

/-- A token for the end of an input of some length. -/
def Token.Ends (t : Token) (length : Nat) : Prop :=
  t.isEndOfInput = true ∧ t.start = length ∧ t.stop = length ∧ t.lexeme = []

section Tiles

variable {segments more : List Segment} {start middle stop : Nat}

/-- Tiles lead forward. -/
theorem Tiles.le (h : Tiles start segments stop) : start ≤ stop := by
  induction segments generalizing start with
  | nil => exact Nat.le_of_eq h
  | cons s segments ih =>
    obtain ⟨rfl, hle, h⟩ := h
    exact Nat.le_trans hle (ih h)

theorem tiles_append : Tiles start (segments ++ more) stop ↔
    ∃ middle, Tiles start segments middle ∧ Tiles middle more stop := by
  induction segments generalizing start with
  | nil => simp [Tiles]
  | cons s segments ih => simp [Tiles, ih, and_assoc]

/-- The bytes of the segments, put together, are the bytes between the offsets. -/
theorem Tiles.flatMap_bytes (input : List UInt8) (h : Tiles start segments stop) :
    (segments.flatMap fun s => bytesBetween input s.start s.stop) =
      bytesBetween input start stop := by
  induction segments generalizing start with
  | nil =>
    obtain rfl : start = stop := h
    simp [bytesBetween]
  | cons s segments ih =>
    obtain ⟨rfl, hle, h⟩ := h
    have hsplit : stop - s.start = (s.stop - s.start) + (stop - s.stop) := by
      have := h.le
      omega
    have hdrop : s.start + (s.stop - s.start) = s.stop := by omega
    rw [List.flatMap_cons, ih h]
    unfold bytesBetween
    rw [hsplit, List.take_add, List.drop_drop, hdrop]

/-- Between two tokens that follow each other there are only segments without a token. -/
theorem Tiles.exists_between (h : Tiles start segments stop)
    (hspan : ∀ s ∈ segments, ∀ t ∈ s.token?, t.start = s.start ∧ t.stop = s.stop)
    {front rest : List Token} {t u : Token}
    (htokens : segments.filterMap Segment.token? = front ++ t :: u :: rest) :
    ∃ between, (∀ s ∈ between, s ∈ segments ∧ s.token? = none) ∧ Tiles t.stop between u.start := by
  obtain ⟨before, behind, rfl, -, hbehind⟩ := List.filterMap_eq_append_iff.1 htokens
  obtain ⟨skipped, s, behind, rfl, -, hs, hbehind⟩ := List.filterMap_eq_cons_iff.1 hbehind
  obtain ⟨between, r, behind, rfl, hbetween, hr, -⟩ := List.filterMap_eq_cons_iff.1 hbehind
  obtain ⟨_, -, h⟩ := tiles_append.1 h
  obtain ⟨_, -, -, -, h⟩ := tiles_append.1 h
  obtain ⟨_, h, rfl, -, -⟩ := tiles_append.1 h
  rw [(hspan s (by simp) t hs).2, (hspan r (by simp) u hr).1]
  exact ⟨between, fun d hd => ⟨by simp [hd], hbetween d hd⟩, h⟩

end Tiles

/-! ### Lexer states along the way

A change of the lexer state is a function of the state and the stack in front of it.  So the state
in which a segment is passed is determined by all that stands in front of it, and a way that is cut
leads through one memory at the cut. -/

/-- The lexer state of a cursor with the states to return to. -/
def Cursor.memory (c : Cursor) : Nat × List Nat := (c.state, c.stack)

/-- What a change does to a lexer state with its stack. -/
def StateChange.act : StateChange → Nat × List Nat → Nat × List Nat
  | .stay, m => m
  | .goto s, (_, stack) => (s, stack)
  | .push s, (state, stack) => (s, state :: stack)
  | .pop, (_, []) => (initialState, [])
  | .pop, (_, s :: stack) => (s, stack)

/-- A change of a cursor is a change of its memory. -/
theorem Cursor.memory_apply (c : Cursor) (change : StateChange) :
    (c.apply change).memory = change.act c.memory := by
  cases change with
  | stay => rfl
  | goto s => rfl
  | push s => rfl
  | pop =>
    unfold Cursor.apply Cursor.memory
    cases hstack : c.stack with
    | nil => simp [StateChange.act]
    | cons s stack => rfl

/-- A part of the way of a cursor. -/
inductive Leg where
  | segment (s : Segment)
  /-- The lexer state is changed from outside. -/
  | setState (state : Nat)

namespace Leg

/-- The segment that is passed. -/
def segment? : Leg → Option Segment
  | segment s => some s
  | setState _ => none

/-- The token that is answered. -/
def token? : Leg → Option Token
  | segment s => s.token?
  | setState _ => none

/-- The lexer state that is changed to from outside. -/
def setState? : Leg → Option Nat
  | segment _ => none
  | setState state => some state

end Leg

/-- The way leads from one lexer state with its stack to another one: each segment is passed in the
state to which what stands in front of it has led, and its token has the state behind it. -/
def Chains : Nat × List Nat → List Leg → Nat × List Nat → Prop
  | m, [], m' => m = m'
  | m, .segment s :: legs, m' =>
    s.state = m.1 ∧ (∀ t ∈ s.token?, t.state = (s.change.act m).1) ∧ Chains (s.change.act m) legs m'
  | m, .setState state :: legs, m' => Chains (state, m.2) legs m'

theorem chains_append {m m' : Nat × List Nat} {legs more : List Leg} :
    Chains m (legs ++ more) m' ↔ ∃ middle, Chains m legs middle ∧ Chains middle more m' := by
  induction legs generalizing m with
  | nil => simp [Chains]
  | cons leg legs ih => cases leg <;> simp [Chains, ih, and_assoc]

/-- The tokens of a way are those of its segments. -/
theorem filterMap_segment? (legs : List Leg) :
    (legs.filterMap Leg.segment?).filterMap Segment.token? = legs.filterMap Leg.token? := by
  rw [List.filterMap_filterMap]
  refine List.filterMap_congr fun leg _ => ?_
  cases leg <;> rfl

/-! ### Places

A cursor holds the bytes behind it and those ahead of it.  Both are parts of the input that are
given by the position. -/

namespace Cursor

variable {c : Cursor}

/-- The bytes behind a cursor are those in front of its position, the last one first. -/
theorem behind_eq (c : Cursor) : c.behind = (c.input.take c.position).reverse := by
  have h : c.position = c.behind.reverse.length := by rw [c.position_eq, List.length_reverse]
  rw [input, h, List.take_left, List.reverse_reverse]

/-- The bytes ahead of it are the others. -/
theorem ahead_eq (c : Cursor) : c.ahead = c.input.drop c.position := by
  have h : c.position = c.behind.reverse.length := by rw [c.position_eq, List.length_reverse]
  rw [input, h, List.drop_left]

theorem size_eq_length (c : Cursor) : c.size = c.input.length := by
  rw [c.size_eq, c.position_eq, input, List.length_append, List.length_reverse]

/-- The position is in the input or at its end. -/
theorem position_le (c : Cursor) : c.position ≤ c.input.length := by
  rw [← c.size_eq_length, c.size_eq]
  exact Nat.le_add_right _ _

/-- A cursor is at the end when its position is. -/
theorem atEnd_iff : c.atEnd = true ↔ c.position = c.input.length := by
  rw [atEnd, List.isEmpty_iff, ← c.size_eq_length, c.size_eq, ← List.length_eq_zero_iff]
  omega

theorem length_ahead_pos (h : c.atEnd = false) : 0 < c.ahead.length :=
  List.length_pos_iff.2 (List.isEmpty_eq_false_iff.1 h)

@[simp] theorem input_forward (length : Nat) : (c.forward length).input = c.input := by
  simp [input, forward]

@[simp] theorem state_forward (length : Nat) : (c.forward length).state = c.state := rfl

@[simp] theorem ended_forward (length : Nat) : (c.forward length).ended = c.ended := rfl

@[simp] theorem emptyStates_forward (length : Nat) :
    (c.forward length).emptyStates = c.emptyStates := rfl

/-- The position moves by as many bytes as there are. -/
theorem position_forward {length : Nat} (h : length ≤ c.ahead.length) :
    (c.forward length).position = c.position + length :=
  congrArg (c.position + ·) (List.length_take_of_le h)

/-- The token at the end has no bytes and stands at the end. -/
theorem ends_endToken (c : Cursor) : c.endToken.Ends c.input.length := by
  rw [← c.size_eq_length]
  exact ⟨rfl, rfl, rfl, rfl⟩

/-- A change concerns the lexer state and the stack only. -/
theorem apply_eq (c : Cursor) (change : StateChange) :
    ∃ state stack, c.apply change = { c with state := state, stack := stack } := by
  cases change with
  | stay => exact ⟨c.state, c.stack, rfl⟩
  | goto s => exact ⟨s, c.stack, rfl⟩
  | push s => exact ⟨s, c.state :: c.stack, rfl⟩
  | pop =>
    cases hstack : c.stack with
    | nil => exact ⟨initialState, [], by simp only [apply, hstack]⟩
    | cons s stack => exact ⟨s, stack, by simp only [apply, hstack]⟩

/-- How many matches of the empty string, and of single bytes, there can still be. -/
def credit (c : Cursor) (numStates : Nat) : Nat :=
  (c.size - c.position) * (numStates + 1) - c.emptyStatesHere.length

/-- The bound of the loop is never used up by what credit allows. -/
theorem credit_lt_stepBound (c : Cursor) (numStates : Nat) :
    c.credit numStates < c.stepBound numStates :=
  Nat.lt_succ_of_le (Nat.sub_le _ _)

/-- A move of the cursor uses up credit, and so does a match of the empty string that is
remembered. -/
theorem credit_lt {d : Cursor} {numStates : Nat} (hsize : d.size = c.size)
    (hle : c.emptyStatesHere.length ≤ numStates)
    (h : c.position < d.position ∧ d.position ≤ c.size ∨
      d.position = c.position ∧ c.position < c.size ∧
        d.emptyStatesHere.length = c.emptyStatesHere.length + 1) :
    d.credit numStates < c.credit numStates := by
  unfold credit
  rw [hsize]
  rcases h with ⟨hlt, hle'⟩ | ⟨heq, hlt, hlength⟩
  · have hmul : (c.size - d.position + 1) * (numStates + 1) ≤
        (c.size - c.position) * (numStates + 1) := Nat.mul_le_mul_right _ (by omega)
    rw [Nat.succ_mul] at hmul
    omega
  · have hmul : 1 * (numStates + 1) ≤ (c.size - c.position) * (numStates + 1) :=
      Nat.mul_le_mul_right _ (by omega)
    rw [heq, hlength]
    omega

/-- A match of the empty string is remembered where its lexer state has not been. -/
theorem rememberEmpty?_eq_some {after : Cursor} (h : c.rememberEmpty? = some after) :
    c.state ∉ c.emptyStatesHere ∧
      after = { c with emptyAt := c.position, emptyStates := c.state :: c.emptyStatesHere } := by
  unfold rememberEmpty? at h
  split at h
  · cases h
  · next hnot => exact ⟨by simpa using hnot, (Option.some.inj h).symm⟩

end Cursor

/-! ### Matches

What the search for a match has to guarantee, taken apart from the tables that it uses.  Everything
about cursors rests on these three facts. -/

/-- Matches are found in the known lexer states only, they lie in the input, and their rules have
instructions that do not answer the end of the input. -/
structure Lexer.Regular (l : Lexer) : Prop where
  match_spec : ∀ {behind ahead : List UInt8} {state rule length : Nat},
    l.matchAhead behind ahead state = some (rule, length) →
      state < l.numStates ∧ length ≤ ahead.length ∧
        ∃ terminal, l.terminal? rule = some terminal ∧ terminal.token ≠ TokenId.endOfInput

namespace LexerDefinition

variable {d : LexerDefinition}

/-- No rule answers the end of the input. -/
theorem Reachable.token_ne (h : d.Reachable) : ∀ r ∈ d.allRules, r.token ≠ TokenId.endOfInput := by
  have hrules : ∀ r ∈ d.rules, r.token ≠ TokenId.endOfInput := by
    induction h with
    | empty => simp [LexerDefinition.empty]
    | @rule d rule _ ih =>
      unfold addRule
      split
      · exact ih
      · next hne =>
        intro r hr
        rcases List.mem_append.1 hr with hr | hr
        · exact ih r hr
        · exact List.mem_singleton.1 hr ▸ hne
    | state name _ ih =>
      unfold addState
      split
      · exact ih
      · split <;> exact ih
    | pattern name pattern _ ih =>
      unfold namePattern
      split
      · exact ih
      · split <;> exact ih
    | flags flags _ ih => exact ih
  intro r hr
  unfold allRules at hr
  split at hr
  · rcases List.mem_append.1 hr with hr | hr
    · exact hrules r hr
    · rw [List.mem_singleton.1 hr]
      decide
  · exact hrules r hr

/-- **A lexer that has been built is regular.** -/
theorem regular_of_build {l : Lexer} (hd : d.Reachable) (hbuild : d.build = .ok l) : l.Regular := by
  obtain ⟨resolved, hresolved, rfl⟩ := exists_of_build hbuild
  constructor
  intro behind ahead state rule length hmatch
  obtain ⟨hstate, hlength, r, hr, -⟩ := Lexer.exists_of_matchAhead hresolved hmatch
  refine ⟨hstate, hlength, ?_⟩
  have hlt : rule < resolved.length := (List.getElem?_eq_some_iff.1 hr).choose
  have hrule : rule < d.allRules.length := length_of_resolveFrom hresolved ▸ hlt
  have hterminal : (d.assemble resolved).terminal? rule =
      some ⟨d.allRules[rule].token, d.allRules[rule].userData, resolved[rule].change⟩ := by
    simp [Lexer.terminal?, assemble, hlt, hrule]
  exact ⟨_, hterminal, hd.token_ne _ (List.getElem_mem hrule)⟩

end LexerDefinition

/-! ### Steps

A step at the end of the input stays there.  Elsewhere it passes one segment, which is at least one
byte long or uses up a lexer state.  The invariant is kept by each step, and the credit becomes
less. -/

/-- The way of a cursor in its life: its segments tile the input up to the place of the cursor, and
it leads to the lexer state and the stack of the cursor.  The way begins with the change to the
lexer state in which the cursor starts. -/
structure Lexer.Trail (l : Lexer) (input : List UInt8) (legs : List Leg) (c : Cursor) : Prop where
  input_eq : c.input = input
  tiles : Tiles 0 (legs.filterMap Leg.segment?) c.position
  passes : ∀ s ∈ legs.filterMap Leg.segment?, l.Passes input s
  chains : Chains (initialState, []) legs c.memory
  nodup_emptyStates : c.emptyStates.Nodup
  lt_of_mem_emptyStates : ∀ s ∈ c.emptyStates, s < l.numStates
  atEnd_of_ended : c.ended = true → c.atEnd = true

namespace Lexer

variable {l : Lexer} {input : List UInt8} {legs : List Leg} {c : Cursor}

/-- The way of a new cursor is the change to its first lexer state. -/
theorem trail_start (l : Lexer) (input : List UInt8) (state : Nat) :
    l.Trail input [.setState state] (Cursor.start input state) :=
  ⟨rfl, rfl, by simp [Leg.segment?], rfl, List.nodup_nil, by simp [Cursor.start],
    by simp [Cursor.start]⟩

/-- The match at a cursor is the longest match of the input at its position. -/
theorem longestMatch_eq (l : Lexer) (c : Cursor) :
    l.longestMatch c.input c.position c.state =
      (l.matchAhead c.behind c.ahead c.state).map fun (rule, length) =>
        (rule, c.position + length) := by
  rw [c.behind_eq, c.ahead_eq]
  rfl

/-- Everything that a step can be: the end of the input, a byte where no match is allowed, or an
allowed match, which is remembered when it is empty. -/
theorem step_cases (hl : l.Regular) (c : Cursor) :
    (c.atEnd = true ∧ l.step c = (some c.endToken, c)) ∨
    (c.atEnd = false ∧ l.matchAt c = none ∧
      (∀ rule length, l.matchAhead c.behind c.ahead c.state = some (rule, length) → length = 0) ∧
      l.step c = (some (c.token TokenId.invalid 0 1 c.state), c.forward 1)) ∨
    (c.atEnd = false ∧ ∃ rule length terminal after,
      l.matchAt c = some (rule, length, after) ∧
      l.matchAhead c.behind c.ahead c.state = some (rule, length) ∧
      l.terminal? rule = some terminal ∧
      (0 < length ∧ after = c ∨ length = 0 ∧ c.rememberEmpty? = some after) ∧
      l.step c = (if terminal.isSkip then none
          else some (c.token terminal.token terminal.userData length
            (after.apply terminal.change).state),
        (after.apply terminal.change).forward length)) := by
  unfold step
  cases hend : c.atEnd with
  | true => exact .inl ⟨rfl, rfl⟩
  | false =>
    refine .inr ?_
    cases hmatch : l.matchAhead c.behind c.ahead c.state with
    | none =>
      have hnone : l.matchAt c = none := by simp [matchAt, hmatch]
      exact .inl ⟨rfl, hnone, by simp, by simp [hnone]⟩
    | some m =>
      obtain ⟨rule, length⟩ := m
      obtain ⟨-, -, terminal, hterminal, -⟩ := hl.match_spec hmatch
      rcases Nat.eq_zero_or_pos length with rfl | hpos
      · cases hempty : c.rememberEmpty? with
        | none =>
          have hnone : l.matchAt c = none := by simp [matchAt, hmatch, hempty]
          refine .inl ⟨rfl, hnone, ?_, by simp [hnone]⟩
          rintro _ _ h
          exact (Prod.mk.inj (Option.some.inj h)).2.symm
        | some after =>
          have hsome : l.matchAt c = some (rule, 0, after) := by simp [matchAt, hmatch, hempty]
          exact .inr ⟨rfl, rule, 0, terminal, after, hsome, rfl, hterminal, .inr ⟨rfl, rfl⟩,
            by simp [hsome, hterminal]⟩
      · have hsome : l.matchAt c = some (rule, length, c) := by
          simp [matchAt, hmatch, Nat.ne_of_gt hpos]
        exact .inr ⟨rfl, rule, length, terminal, c, hsome, rfl, hterminal, .inl ⟨hpos, rfl⟩,
          by simp [hsome, hterminal]⟩

/-- The states that have matched the empty string here are states of the lexer. -/
theorem Trail.emptyStatesHere (h : l.Trail input legs c) :
    c.emptyStatesHere.Nodup ∧ (∀ s ∈ c.emptyStatesHere, s < l.numStates) ∧
      c.emptyStatesHere.length ≤ l.numStates := by
  have hsubset : c.emptyStatesHere.Nodup ∧ ∀ s ∈ c.emptyStatesHere, s < l.numStates := by
    unfold Cursor.emptyStatesHere
    split
    · exact ⟨h.nodup_emptyStates, h.lt_of_mem_emptyStates⟩
    · exact ⟨List.nodup_nil, by simp⟩
  refine ⟨hsubset.1, hsubset.2, ?_⟩
  have hrange : c.emptyStatesHere ⊆ List.range l.numStates :=
    fun s hs => List.mem_range.2 (hsubset.2 s hs)
  simpa using (hsubset.1.subperm hrange).length_le

/-- What a step over some bytes keeps: they are a segment, and the cursor lies behind them in the
lexer state that the segment asks for. -/
theorem Trail.forward {after : Cursor} {length : Nat} {change : StateChange} {token : Option Token}
    (h : l.Trail input legs c) (hend : c.atEnd = false) (hlength : length ≤ c.ahead.length)
    (hpasses : l.Passes input ⟨c.position, c.position + length, c.state, change, token⟩)
    (hmemory : after.memory = change.act c.memory) (htoken : ∀ t ∈ token, t.state = after.state)
    (hbehind : after.behind = c.behind) (hahead : after.ahead = c.ahead)
    (hended : after.ended = c.ended) (hnodup : after.emptyStates.Nodup)
    (hlt : ∀ s ∈ after.emptyStates, s < l.numStates) :
    l.Trail input (legs ++ [.segment ⟨c.position, c.position + length, c.state, change, token⟩])
      (after.forward length) := by
  have hinput : after.input = c.input := by unfold Cursor.input; rw [hbehind, hahead]
  have hposition : after.position = c.position := by
    rw [after.position_eq, c.position_eq, hbehind]
  have hnotEnded : c.ended = false := by
    rw [← Bool.not_eq_true]
    intro hc
    rw [h.atEnd_of_ended hc] at hend
    cases hend
  refine ⟨?_, ?_, ?_, ?_, hnodup, hlt, ?_⟩
  · rw [Cursor.input_forward, hinput, h.input_eq]
  · rw [Cursor.position_forward (hahead ▸ hlength), hposition, List.filterMap_append]
    exact tiles_append.2 ⟨c.position, h.tiles, rfl, Nat.le_add_right _ _, rfl⟩
  · rw [List.filterMap_append]
    intro s hs
    rcases List.mem_append.1 hs with hs | hs
    · exact h.passes s hs
    · exact List.mem_singleton.1 hs ▸ hpasses
  · refine chains_append.2 ⟨_, h.chains, rfl, fun t ht => ?_, hmemory.symm⟩
    rw [htoken t ht]
    exact congrArg Prod.fst hmemory
  · rw [Cursor.ended_forward, hended, hnotEnded]
    exact fun hc => by cases hc

theorem Trail.longestMatch_iff (h : l.Trail input legs c) {rule stop : Nat} :
    l.longestMatch input c.position c.state = some (rule, stop) ↔
      ∃ length, l.matchAhead c.behind c.ahead c.state = some (rule, length) ∧
        c.position + length = stop := by
  rw [← h.input_eq, longestMatch_eq, Option.map_eq_some_iff]
  simp

/-- A token has the bytes of the input between its offsets. -/
theorem Trail.token_eq (h : l.Trail input legs c) (id : TokenId) (userData length state : Nat) :
    c.token id userData length state = ⟨id, userData, c.position, c.position + length, state,
      bytesBetween input c.position (c.position + length)⟩ := by
  rw [bytesBetween, Nat.add_sub_cancel_left, ← h.input_eq, ← c.ahead_eq]
  rfl

/-- A byte where no rule matches more than the empty string can be passed. -/
theorem Trail.passes_invalid (h : l.Trail input legs c) (hpos : 0 < c.ahead.length)
    (hnone : ∀ rule length, l.matchAhead c.behind c.ahead c.state = some (rule, length) →
      length = 0) :
    l.Passes input ⟨c.position, c.position + 1, c.state, .stay,
      some (c.token TokenId.invalid 0 1 c.state)⟩ := by
  rw [h.token_eq]
  refine .invalid c.state ?_ ?_
  · have hsize := c.size_eq
    rw [← h.input_eq, ← c.size_eq_length]
    omega
  · intro rule stop hstop
    obtain ⟨length, hmatch, rfl⟩ := h.longestMatch_iff.1 hstop
    rw [hnone rule length hmatch, Nat.add_zero]

/-- What is answered for a match. -/
def answerOf (terminal : Terminal) (c : Cursor) (length after : Nat) : Option Token :=
  if terminal.isSkip then none
  else some (c.token terminal.token terminal.userData length after)

/-- A match can be passed. -/
theorem Trail.passes_match (h : l.Trail input legs c) {rule length : Nat} {terminal : Terminal}
    (hmatch : l.matchAhead c.behind c.ahead c.state = some (rule, length))
    (hterminal : l.terminal? rule = some terminal) (hne : terminal.token ≠ TokenId.endOfInput)
    (after : Nat) :
    l.Passes input
      ⟨c.position, c.position + length, c.state, terminal.change,
        answerOf terminal c length after⟩ := by
  have hlongest := h.longestMatch_iff.2 ⟨length, hmatch, rfl⟩
  unfold answerOf Terminal.isSkip
  by_cases hskip : terminal.token < 0
  · rw [if_pos (decide_eq_true hskip)]
    exact .dropped hlongest hterminal hskip
  · rw [if_neg (by simpa using hskip), h.token_eq]
    exact .token after hlongest hterminal (lt_of_le_of_ne (Int.not_lt.1 hskip) hne.symm)

/-- The token of a match is not the one for the end of the input. -/
theorem isEndOfInput_answerOf {terminal : Terminal} (hne : terminal.token ≠ TokenId.endOfInput)
    (c : Cursor) (length after : Nat) :
    ∀ t ∈ answerOf terminal c length after, t.isEndOfInput = false := by
  unfold answerOf
  intro t ht
  split at ht
  · cases ht
  · obtain rfl := Option.some.inj ht
    simpa [Token.isEndOfInput, Cursor.token] using hne

/-- The token of a match has the lexer state behind it. -/
theorem state_answerOf (terminal : Terminal) (c : Cursor) (length after : Nat) :
    ∀ t ∈ answerOf terminal c length after, t.state = after := by
  unfold answerOf
  intro t ht
  split at ht
  · cases ht
  · obtain rfl := Option.some.inj ht
    rfl

/-- **A step passes one segment**, which has the token of its answer, and uses up credit. -/
theorem Trail.step (hl : l.Regular) (h : l.Trail input legs c) (hend : c.atEnd = false) :
    ∃ segment, l.Trail input (legs ++ [.segment segment]) (l.step c).2 ∧
      segment.token? = (l.step c).1 ∧ (∀ t ∈ (l.step c).1, t.isEndOfInput = false) ∧
      (l.step c).2.credit l.numStates < c.credit l.numStates := by
  obtain ⟨hnodup, hlt, hhere⟩ := h.emptyStatesHere
  have hsize := c.size_eq
  have hpos : 0 < c.ahead.length := Cursor.length_ahead_pos hend
  rcases step_cases hl c with ⟨htrue, -⟩ | ⟨-, -, hnone, hstep⟩ |
    ⟨-, rule, length, terminal, after, -, hmatch, hterminal, hafter, hstep⟩
  · rw [hend] at htrue
    cases htrue
  · -- no match is allowed, so one byte is passed
    rw [hstep]
    have htoken : ∀ t ∈ some (c.token TokenId.invalid 0 1 c.state),
        t.isEndOfInput = false ∧ t.state = c.state := by
      intro t ht
      obtain rfl := Option.some.inj ht
      exact ⟨rfl, rfl⟩
    refine ⟨_, h.forward hend hpos (h.passes_invalid hpos hnone) rfl (fun t ht => (htoken t ht).2)
      rfl rfl rfl h.nodup_emptyStates h.lt_of_mem_emptyStates, rfl,
      fun t ht => (htoken t ht).1, ?_⟩
    refine Cursor.credit_lt (d := c.forward 1) rfl hhere ?_
    rw [Cursor.position_forward hpos]
    omega
  · -- an allowed match is passed, and the state changes
    obtain ⟨hstate, hlength, terminal', hterminal', hne⟩ := hl.match_spec hmatch
    obtain rfl := Option.some.inj (hterminal.symm.trans hterminal')
    obtain ⟨state, stack, happly⟩ := after.apply_eq terminal.change
    have hpasses := h.passes_match hmatch hterminal hne (after.apply terminal.change).state
    have hanswer := isEndOfInput_answerOf hne c length (after.apply terminal.change).state
    have hbehind := state_answerOf terminal c length (after.apply terminal.change).state
    have hmemory := after.memory_apply terminal.change
    change l.step c = (answerOf terminal c length (after.apply terminal.change).state, _) at hstep
    rw [hstep]
    rw [happly] at hpasses hanswer hbehind hmemory ⊢
    -- a match of some bytes moves the cursor, and an empty one uses up its lexer state at this
    -- place
    rcases hafter with ⟨hlengthPos, rfl⟩ | ⟨rfl, hremember⟩
    · refine ⟨_, h.forward hend hlength hpasses hmemory hbehind rfl rfl rfl h.nodup_emptyStates
        h.lt_of_mem_emptyStates, rfl, hanswer, ?_⟩
      have hposition := Cursor.position_forward (c := { after with state := state, stack := stack })
        hlength
      refine Cursor.credit_lt (d := Cursor.forward _ length) rfl hhere (.inl ?_)
      dsimp only at hposition
      omega
    · obtain ⟨hnot, rfl⟩ := Cursor.rememberEmpty?_eq_some hremember
      refine ⟨_, h.forward hend hlength hpasses hmemory hbehind rfl rfl rfl
        (List.nodup_cons.2 ⟨hnot, hnodup⟩) (List.forall_mem_cons.2 ⟨hstate, hlt⟩), rfl, hanswer, ?_⟩
      refine Cursor.credit_lt (d := Cursor.forward _ 0) rfl hhere
        (.inr ⟨Cursor.position_forward (Nat.zero_le _), by omega, ?_⟩)
      simp [Cursor.emptyStatesHere, Cursor.forward]

/-! ### Calls on a cursor

A call takes steps until there is a token.  At the end of the input it changes nothing, and so do
all calls after it. -/

/-- A step at the end answers the token for the end and leaves the cursor as it is. -/
theorem step_of_atEnd (l : Lexer) (hend : c.atEnd = true) : l.step c = (some c.endToken, c) :=
  if_pos hend

/-- An advance at the end is one step, which answers the token for the end. -/
theorem advance_of_atEnd (l : Lexer) (hend : c.atEnd = true) : l.advance c = (c.endToken, c) := by
  unfold advance Cursor.stepBound advanceWithin
  rw [l.step_of_atEnd hend]

/-- The next token is missing there. -/
theorem next_of_atEnd (l : Lexer) (hend : c.atEnd = true) :
    l.next c = (none, { c with ended := true }) := by
  unfold next
  split
  · next hended => rw [← hended]
  · rw [l.advance_of_atEnd hend]
    rfl

/-- Steps until there is a token pass segments, and answer their token, or the token for the end of
the input when they have none. -/
theorem Trail.advanceWithin (hl : l.Regular) {bound : Nat} (h : l.Trail input legs c)
    (hbound : c.credit l.numStates < bound) :
    ∃ more, l.Trail input (legs ++ more) (l.advanceWithin bound c).2 ∧
      more.filterMap Leg.setState? = [] ∧
      ((l.advanceWithin bound c).1.isEndOfInput = false ∧
          more.filterMap Leg.token? = [(l.advanceWithin bound c).1] ∨
        (l.advanceWithin bound c).2.atEnd = true ∧
          (l.advanceWithin bound c).1 = (l.advanceWithin bound c).2.endToken ∧
          more.filterMap Leg.token? = []) := by
  induction bound generalizing legs c with
  | zero => omega
  | succ bound ih =>
    unfold Lexer.advanceWithin
    cases hend : c.atEnd with
    | true =>
      rw [l.step_of_atEnd hend]
      exact ⟨[], by simpa using h, rfl, .inr ⟨hend, rfl, rfl⟩⟩
    | false =>
      obtain ⟨segment, hafter, htoken, hnot, hcredit⟩ := h.step hl hend
      change (Leg.segment segment).token? = _ at htoken
      rcases hstep : l.step c with ⟨_ | t, after⟩ <;> rw [hstep] at hafter htoken hnot hcredit
      · -- the match is dropped, and the next token is that of the segments behind it
        have hless : after.credit l.numStates < c.credit l.numStates := hcredit
        obtain ⟨more, htrail, hset, hmore⟩ := ih hafter (by omega)
        refine ⟨.segment segment :: more, by simpa using htrail, hset, ?_⟩
        rwa [List.filterMap_cons_none htoken]
      · refine ⟨[.segment segment], hafter, rfl, .inl ⟨hnot t rfl, ?_⟩⟩
        rw [List.filterMap_cons_some htoken, List.filterMap_nil]

/-- A change from outside is a part of the way. -/
theorem Trail.setState (h : l.Trail input legs c) (state : Nat) :
    l.Trail input (legs ++ [.setState state]) (c.setState state) := by
  have hsegments : (legs ++ [Leg.setState state]).filterMap Leg.segment? =
      legs.filterMap Leg.segment? := by simp [Leg.segment?]
  exact { h with
    tiles := hsegments ▸ h.tiles
    passes := hsegments ▸ h.passes
    chains := chains_append.2 ⟨_, h.chains, rfl⟩ }

theorem Trail.ended (h : l.Trail input legs c) (hend : c.atEnd = true) :
    l.Trail input legs { c with ended := true } :=
  { h with atEnd_of_ended := fun _ => hend }

/-- **A call goes on along the way** and answers the token of what it passes, if there is one, or
else at most the end of the input. -/
theorem Trail.call (hl : l.Regular) (h : l.Trail input legs c) (call : Cursor.Call) :
    ∃ more ends, l.Trail input (legs ++ more) (l.call c call).2 ∧
      more.filterMap Leg.setState? = call.setState?.toList ∧
      (l.call c call).1.toList = more.filterMap Leg.token? ++ ends ∧
      (∀ t ∈ ends, t.Ends input.length) ∧ (ends ≠ [] → (l.call c call).2.atEnd = true) := by
  obtain ⟨more, htrail, hset, hanswer⟩ := h.advanceWithin hl (c.credit_lt_stepBound l.numStates)
  change l.Trail input (legs ++ more) (l.advance c).2 at htrail
  cases call with
  | setState state => exact ⟨[.setState state], [], h.setState state, rfl, rfl, by simp, by simp⟩
  | advance =>
    rcases hanswer with ⟨-, htoken⟩ | ⟨hend, hanswer, hnone⟩
    · exact ⟨more, [], htrail, hset, by simp [htoken, Lexer.call, advance], by simp, by simp⟩
    · refine ⟨more, [(l.advance c).1], htrail, hset, by simp [hnone, Lexer.call], ?_,
        fun _ => hend⟩
      rw [← htrail.input_eq]
      intro t ht
      rw [List.mem_singleton.1 ht, advance, hanswer]
      exact Cursor.ends_endToken _
  | next =>
    unfold Lexer.call Lexer.next
    dsimp only
    split
    · exact ⟨[], [], by simpa using h, rfl, rfl, by simp, by simp⟩
    · rcases hanswer with ⟨hnot, htoken⟩ | ⟨hend, hanswer, hnone⟩
      · change (l.advance c).1.isEndOfInput = false at hnot
        rw [hnot]
        exact ⟨more, [], htrail, hset, by simp [htoken, advance], by simp, by simp⟩
      · have htrue : (l.advance c).1.isEndOfInput = true := congrArg Token.isEndOfInput hanswer
        rw [htrue]
        exact ⟨more, [], htrail.ended hend, hset, by simp [hnone], by simp, by simp⟩

/-- `Lexer.next` answers nothing at the end of the input only. -/
theorem Trail.atEnd_of_next (hl : l.Regular) (h : l.Trail input legs c)
    (hnone : (l.next c).1 = none) : (l.next c).2.atEnd = true := by
  obtain ⟨more, htrail, -, hanswer⟩ := h.advanceWithin hl (c.credit_lt_stepBound l.numStates)
  unfold Lexer.next at hnone ⊢
  split at hnone
  · next hended =>
    rw [if_pos hended]
    exact h.atEnd_of_ended hended
  · next hended =>
    rw [if_neg hended]
    rcases hanswer with ⟨hnot, -⟩ | ⟨hend, hanswer, -⟩
    · change (l.advance c).1.isEndOfInput = false at hnot
      dsimp only at hnone
      rw [hnot] at hnone
      cases hnone
    · have htrue : (l.advance c).1.isEndOfInput = true := congrArg Token.isEndOfInput hanswer
      dsimp only
      rw [htrue]
      exact hend

/-- At the end of the input, calls answer the end of the input or nothing, and change nothing but
the lexer state when they are told to. -/
theorem calls_of_atEnd (l : Lexer) (hend : c.atEnd = true) (calls : List Cursor.Call) :
    ∃ state ended, (l.calls c calls).2 = { c with state := state, ended := ended } ∧
      ((∀ s, Cursor.Call.setState s ∉ calls) → state = c.state) ∧
      (l.calls c calls).1.length = calls.count .advance ∧
      ∀ t ∈ (l.calls c calls).1, t.Ends c.input.length := by
  induction calls generalizing c with
  | nil => exact ⟨c.state, c.ended, rfl, fun _ => rfl, rfl, by simp [Lexer.calls]⟩
  | cons call calls ih =>
    unfold Lexer.calls
    cases call with
    | advance =>
      obtain ⟨state, ended, hafter, hstate, hcount, hends⟩ := ih hend
      simp only [Lexer.call, l.advance_of_atEnd hend, Option.toList_some]
      refine ⟨state, ended, hafter, fun h => hstate fun s hs => h s (List.mem_cons_of_mem _ hs), ?_,
        List.forall_mem_cons.2 ⟨c.ends_endToken, hends⟩⟩
      rw [List.count_cons_self, ← hcount]
      rfl
    | next =>
      obtain ⟨state, ended, hafter, hstate, hcount, hends⟩ :=
        ih (c := { c with ended := true }) hend
      simp only [Lexer.call, l.next_of_atEnd hend, Option.toList_none, List.nil_append]
      refine ⟨state, ended, hafter, fun h => hstate fun s hs => h s (List.mem_cons_of_mem _ hs), ?_,
        hends⟩
      rw [List.count_cons_of_ne (by decide), hcount]
    | setState other =>
      obtain ⟨state, ended, hafter, -, hcount, hends⟩ := ih (c := c.setState other) hend
      simp only [Lexer.call, Option.toList_none, List.nil_append]
      refine ⟨state, ended, hafter, fun h => absurd List.mem_cons_self (h other), ?_, hends⟩
      rw [List.count_cons_of_ne (by simp), hcount]

/-- At the end of the input, only changes from outside are left of the way. -/
theorem chains_of_atEnd (l : Lexer) (hend : c.atEnd = true) (calls : List Cursor.Call) :
    Chains c.memory ((calls.filterMap Cursor.Call.setState?).map Leg.setState)
      (l.calls c calls).2.memory := by
  induction calls generalizing c with
  | nil => rfl
  | cons call calls ih =>
    cases call with
    | advance =>
      show Chains _ _ (l.calls (l.advance c).2 calls).2.memory
      rw [l.advance_of_atEnd hend]
      exact ih hend
    | next =>
      show Chains _ _ (l.calls (l.next c).2 calls).2.memory
      rw [l.next_of_atEnd hend]
      exact ih (c := { c with ended := true }) hend
    | setState state => exact ih (c := c.setState state) hend

/-- Changes from outside pass nothing. -/
theorem filterMap_setState (states : List Nat) :
    (states.map Leg.setState).filterMap Leg.segment? = [] ∧
      (states.map Leg.setState).filterMap Leg.token? = [] ∧
      (states.map Leg.setState).filterMap Leg.setState? = states := by
  induction states with
  | nil => exact ⟨rfl, rfl, rfl⟩
  | cons state states ih => exact ⟨ih.1, ih.2.1, congrArg (state :: ·) ih.2.2⟩

/-- **Calls go on along the way** and answer the tokens of what they pass, and behind them only the
end of the input.  The changes from outside are those of the calls. -/
theorem Trail.calls (hl : l.Regular) (h : l.Trail input legs c) (calls : List Cursor.Call) :
    ∃ more ends, l.Trail input (legs ++ more) (l.calls c calls).2 ∧
      more.filterMap Leg.setState? = calls.filterMap Cursor.Call.setState? ∧
      (l.calls c calls).1 = more.filterMap Leg.token? ++ ends ∧
      (∀ t ∈ ends, t.Ends input.length) ∧ (ends ≠ [] → (l.calls c calls).2.atEnd = true) := by
  induction calls generalizing legs c with
  | nil => exact ⟨[], [], by simpa [Lexer.calls] using h, rfl, rfl, by simp, by simp⟩
  | cons call calls ih =>
    unfold Lexer.calls
    dsimp only
    obtain ⟨more, ends, htrail, hset, hanswer, hends, hatEnd⟩ := h.call hl call
    have hcalls : (call :: calls).filterMap Cursor.Call.setState? =
        more.filterMap Leg.setState? ++ calls.filterMap Cursor.Call.setState? := by
      rw [hset]
      cases call <;> rfl
    by_cases hnil : ends = []
    · obtain ⟨more', ends', htrail', hset', hanswers, hrest⟩ := ih htrail
      refine ⟨more ++ more', ends', by simpa using htrail', ?_, ?_, hrest⟩
      · rw [hcalls, List.filterMap_append, hset']
      · rw [hanswer, hanswers, hnil, List.append_nil, List.filterMap_append, List.append_assoc]
    · -- the end of the input has been answered, and nothing more is passed
      obtain ⟨state, ended, hafter, -, -, hends'⟩ := l.calls_of_atEnd (hatEnd hnil) calls
      have hchains := l.chains_of_atEnd (hatEnd hnil) calls
      obtain ⟨hsegments, htokens, hstates⟩ :=
        filterMap_setState (calls.filterMap Cursor.Call.setState?)
      rw [htrail.input_eq] at hends'
      refine ⟨more ++ (calls.filterMap Cursor.Call.setState?).map Leg.setState,
        ends ++ (l.calls (l.call c call).2 calls).1, ?_, ?_, ?_, ?_, fun _ => ?_⟩
      · have hsame : (legs ++ (more ++
            (calls.filterMap Cursor.Call.setState?).map Leg.setState)).filterMap Leg.segment? =
              (legs ++ more).filterMap Leg.segment? := by
          rw [← List.append_assoc, List.filterMap_append, hsegments, List.append_nil]
        rw [hafter] at hchains ⊢
        exact { htrail with
          tiles := hsame ▸ htrail.tiles
          passes := hsame ▸ htrail.passes
          chains := List.append_assoc .. ▸ chains_append.2 ⟨_, htrail.chains, hchains⟩
          atEnd_of_ended := fun _ => hatEnd hnil }
      · rw [hcalls, List.filterMap_append, hstates]
      · rw [hanswer, List.filterMap_append, htokens, List.append_nil, List.append_assoc]
      · exact fun t ht => (List.mem_append.1 ht).elim (hends t) (hends' t)
      · rw [hafter]
        exact hatEnd hnil

/-- How the segments that a cursor has passed and the tokens that have been answered cut the input
of the cursor, behind some calls since it has started in some lexer state, and what is answered at
the end of the input. -/
structure Partition (l : Lexer) (input : List UInt8) (state : Nat) (calls : List Cursor.Call)
    (segments : List Segment) (answers : List Token) (c : Cursor) : Prop where
  /-- The segments lie one behind the other between the start of the input and the cursor. -/
  tiles : Tiles 0 segments c.position
  passes : ∀ s ∈ segments, l.Passes input s
  /-- Each segment is passed in the lexer state to which the segments in front of it and the changes
  by the calls have led from the first state on, and they all lead to the state of the cursor. -/
  chains : ∃ legs, legs.filterMap Leg.segment? = segments ∧
    legs.filterMap Leg.setState? = calls.filterMap Cursor.Call.setState? ∧
    Chains (state, []) legs c.memory
  position_le : c.position ≤ input.length
  /-- The bytes of the segments, put together, are the bytes in front of the cursor. -/
  flatMap_bytes : (segments.flatMap fun s => bytesBetween input s.start s.stop) =
    input.take c.position
  /-- The tokens of the segments have been answered in order, and behind them the end of the input,
  which the cursor has reached in this case. -/
  answers_eq : ∃ ends, answers = segments.filterMap Segment.token? ++ ends ∧
    (∀ t ∈ ends, t.Ends input.length) ∧ (ends ≠ [] → c.position = input.length)
  /-- Between two answers that follow each other there are dropped matches only. -/
  between : ∀ front t u rest, answers = front ++ t :: u :: rest →
    ∃ dropped, (∀ s ∈ dropped, s ∈ segments ∧ s.token? = none) ∧ Tiles t.stop dropped u.start ∧
      (dropped.flatMap fun s => bytesBetween input s.start s.stop) =
        bytesBetween input t.stop u.start
  /-- `Lexer.next` answers nothing at the end of the input only. -/
  next_none : (l.next c).1 = none → (l.next c).2.position = input.length
  /-- Further calls at the end of the input answer the end of the input or nothing, and move
  nothing. -/
  later : c.position = input.length → ∀ calls,
    (l.calls c calls).2.position = input.length ∧ (l.calls c calls).2.stack = c.stack ∧
      ((∀ s, Cursor.Call.setState s ∉ calls) → (l.calls c calls).2.state = c.state) ∧
      (l.calls c calls).1.length = calls.count .advance ∧
      ∀ t ∈ (l.calls c calls).1, t.Ends input.length

/-- The token of a segment has the offsets of the segment. -/
theorem Passes.span {s : Segment} (h : l.Passes input s) :
    ∀ t ∈ s.token?, t.start = s.start ∧ t.stop = s.stop := by
  intro t ht
  cases h with
  | token after _ _ _ => obtain rfl := Option.some.inj ht; exact ⟨rfl, rfl⟩
  | dropped _ _ _ => cases ht
  | invalid after _ _ => obtain rfl := Option.some.inj ht; exact ⟨rfl, rfl⟩

/-- Behind the segments, an answered end of the input can be seen as one more segment without
bytes. -/
theorem exists_between {segments : List Segment} {stop : Nat} (htiles : Tiles 0 segments stop)
    (hpasses : ∀ s ∈ segments, l.Passes input s) {ends : List Token}
    (hends : ∀ t ∈ ends, t.Ends input.length) (hatEnd : ends ≠ [] → stop = input.length)
    {front rest : List Token} {t u : Token}
    (htokens : segments.filterMap Segment.token? ++ ends = front ++ t :: u :: rest) :
    ∃ dropped, (∀ s ∈ dropped, s ∈ segments ∧ s.token? = none) ∧
      Tiles t.stop dropped u.start := by
  -- tokens for the end become empty segments behind the last one, so that all tokens are answered
  -- by tiles
  let empty : Token → Segment :=
    fun t => ⟨input.length, input.length, t.state, .stay, some t⟩
  have hall : Tiles 0 (segments ++ ends.map empty) stop := by
    refine tiles_append.2 ⟨_, htiles, ?_⟩
    clear hends htokens
    induction ends with
    | nil => rfl
    | cons t ends ih =>
      have hposition := hatEnd (by simp)
      exact ⟨hposition.symm, Nat.le_refl _, hposition ▸ ih fun _ => hposition⟩
  have hspan : ∀ s ∈ segments ++ ends.map empty, ∀ t ∈ s.token?,
      t.start = s.start ∧ t.stop = s.stop := by
    intro s hs
    rcases List.mem_append.1 hs with hs | hs
    · exact (hpasses s hs).span
    · obtain ⟨e, he, rfl⟩ := List.mem_map.1 hs
      intro t ht
      obtain rfl := Option.some.inj ht
      exact ⟨(hends _ he).2.1, (hends _ he).2.2.1⟩
  have hmap : (ends.map empty).filterMap Segment.token? = ends := by
    rw [List.filterMap_map]
    exact List.filterMap_some
  have hanswers : (segments ++ ends.map empty).filterMap Segment.token? =
      front ++ t :: u :: rest := by
    rw [List.filterMap_append, hmap, htokens]
  obtain ⟨between, hbetween, hdropped⟩ := hall.exists_between hspan hanswers
  refine ⟨between, fun s hs => ⟨?_, (hbetween s hs).2⟩, hdropped⟩
  obtain ⟨hmem, hnone⟩ := hbetween s hs
  refine (List.mem_append.1 hmem).resolve_right fun hmem => ?_
  obtain ⟨e, -, rfl⟩ := List.mem_map.1 hmem
  cases hnone

/-- The way of a cursor since it has started, and the tokens answered for it, partition the
input. -/
theorem Trail.partition (hl : l.Regular) {state : Nat} {calls : List Cursor.Call}
    (h : l.Trail input (.setState state :: legs) c)
    (hset : legs.filterMap Leg.setState? = calls.filterMap Cursor.Call.setState?)
    {ends : List Token} (hends : ∀ t ∈ ends, t.Ends input.length)
    (hatEnd : ends ≠ [] → c.atEnd = true) :
    l.Partition input state calls (legs.filterMap Leg.segment?)
      (legs.filterMap Leg.token? ++ ends) c := by
  have hend : c.atEnd = true ↔ c.position = input.length := h.input_eq ▸ Cursor.atEnd_iff
  have htiles : Tiles 0 (legs.filterMap Leg.segment?) c.position := h.tiles
  have hpasses : ∀ s ∈ legs.filterMap Leg.segment?, l.Passes input s := h.passes
  have hstop : ends ≠ [] → c.position = input.length := fun hne => hend.1 (hatEnd hne)
  rw [← filterMap_segment?]
  refine ⟨htiles, hpasses, ⟨legs, rfl, hset, h.chains⟩, h.input_eq ▸ c.position_le, ?_,
    ⟨ends, rfl, hends, hstop⟩, ?_, ?_, ?_⟩
  · simpa [bytesBetween] using htiles.flatMap_bytes input
  · intro front t u rest htokens
    obtain ⟨dropped, hdropped, hbetween⟩ := exists_between htiles hpasses hends hstop htokens
    exact ⟨dropped, hdropped, hbetween, hbetween.flatMap_bytes input⟩
  · intro hnone
    obtain ⟨more, -, htrail, -⟩ := h.call hl .next
    rw [← htrail.input_eq]
    exact Cursor.atEnd_iff.1 (h.atEnd_of_next hl hnone)
  · intro hposition calls
    obtain ⟨state, ended, hafter, hstate, hcount, hends⟩ :=
      l.calls_of_atEnd (hend.2 hposition) calls
    rw [h.input_eq] at hends
    rw [hafter]
    exact ⟨hposition, rfl, hstate, hcount, hends⟩

end Lexer

namespace LexerDefinition

variable {d : LexerDefinition} {l : Lexer}

/-- **The tokens partition the input.**  Whatever calls are made on a cursor that starts in any
lexer state, known or not, the matches and the invalid bytes that it has passed cut the input up to
its place without gaps, each of them in the lexer state to which those in front of it have led, its
tokens are those of the parts that are not dropped, and the end of the input is answered at the end
only, and for ever after. -/
theorem exists_partition (hd : d.Reachable) (hbuild : d.build = .ok l) (input : List UInt8)
    (state : Nat) (calls : List Cursor.Call) :
    ∃ segments, l.Partition input state calls segments
      (l.calls (Cursor.start input state) calls).1
      (l.calls (Cursor.start input state) calls).2 := by
  have hl := regular_of_build hd hbuild
  obtain ⟨legs, ends, htrail, hset, hanswers, hends, hatEnd⟩ :=
    (l.trail_start input state).calls hl calls
  exact ⟨_, hanswers ▸ Lexer.Trail.partition hl htrail hset hends hatEnd⟩

/-- Words, blanks between them that are dropped, and semicolons, of which there can be none. -/
def wordsAndSemicolons : LexerDefinition :=
  let d := (empty.addRule (Rule.simple "[a-z]+" 300)).2
  let d := (d.addRule (Rule.skip "[ ]+")).2
  (d.addRule (Rule.simple ";*" 301)).2.setFlags { Flags.none with matchEmpty := true }

/-- Calls on a cursor over a word, blanks and a byte that nothing matches, with a change to an
unknown lexer state in between. -/
def wordsAndSemicolonsCalls : List Cursor.Call :=
  [.advance, .next, .advance, .setState 7, .next, .next, .advance]

/-- The empty string is matched once in front of the invalid byte, and the word behind it is not
matched in the unknown lexer state. -/
theorem exists_partition_wordsAndSemicolons :
    ∃ l, wordsAndSemicolons.build = .ok l ∧
      (l.calls (Cursor.start (bytesOf "ab  ?c") 0) wordsAndSemicolonsCalls).1.map
          (fun t => (t.id, t.start, t.stop)) =
        [(300, 0, 2), (301, 4, 4), (TokenId.invalid, 4, 5), (TokenId.invalid, 5, 6),
          (TokenId.endOfInput, 6, 6)] ∧
      ∃ segments, l.Partition (bytesOf "ab  ?c") 0 wordsAndSemicolonsCalls segments
        (l.calls (Cursor.start (bytesOf "ab  ?c") 0) wordsAndSemicolonsCalls).1
        (l.calls (Cursor.start (bytesOf "ab  ?c") 0) wordsAndSemicolonsCalls).2 := by
  have hanswers : (match wordsAndSemicolons.build with
      | .ok l => some ((l.calls (Cursor.start (bytesOf "ab  ?c") 0) wordsAndSemicolonsCalls).1.map
        fun t => (t.id, t.start, t.stop))
      | .error _ => none) = some [(300, 0, 2), (301, 4, 4), (TokenId.invalid, 4, 5),
        (TokenId.invalid, 5, 6), (TokenId.endOfInput, 6, 6)] := by
    decide +kernel
  have hreachable : wordsAndSemicolons.Reachable :=
    .flags _ (.rule _ (.rule _ (.rule _ .empty)))
  cases hbuild : wordsAndSemicolons.build with
  | error e =>
    rw [hbuild] at hanswers
    cases hanswers
  | ok l =>
    rw [hbuild] at hanswers
    exact ⟨l, rfl, Option.some.inj hanswers, exists_partition hreachable hbuild _ _ _⟩

end LexerDefinition

end FrontEnd
