import FrontEnd.Proofs.Lexer.Cursor
import FrontEnd.Proofs.Lexer.Tables

/-!
# The stack of lexer states

A match can put the lexer state on the stack, and a later match can return to it.  Whatever calls
are made on a cursor, its state and the states on its stack are those of the lexer.  And a return
that ends a well-nested part of the matches leads back to the state and to the stack with which the
part began, in one call or over many of them.

## Main Definitions

* `MemoryBelow` — known lexer states only, on the stack, too
* `Cursor.Event`, `Lexer.history` — what happens to the lexer state of a cursor, call after call
* `Lexer.Leads` — events that follow each other
* `Lexer.Nested` — matches in which each push has its return
* `Lexer.Disciplined` — what holds of all events of a cursor

## Main Statements

* `Lexer.leads_history` — the events of calls lead to the state and the stack behind the calls
* `Lexer.Leads.returns` — a push and its return lead back to where they began
* `LexerDefinition.disciplined_calls` — the lexer states of a cursor are pushed and popped in order

## Design Notes

One call can pass many matches, for those that are dropped are not answered.  So the events of a
call are collected beside its steps, and the matches of empty strings are among them.
-/

namespace FrontEnd

/-! ### Lexer states with their stacks

All states that a memory holds come from the rules or from the calls, and the initial state is there
where a return finds nothing.  So a memory stays below the number of states. -/

/-- All lexer states of a memory are below a number. -/
def MemoryBelow (count : Nat) (m : Nat × List Nat) : Prop := m.1 < count ∧ ∀ s ∈ m.2, s < count

/-- A change to lexer states below a number stays below it. -/
theorem MemoryBelow.act {count : Nat} {m : Nat × List Nat} (h : MemoryBelow count m)
    (hcount : initialState < count) {change : StateChange}
    (hchange : ∀ s, change = .goto s ∨ change = .push s → s < count) :
    MemoryBelow count (change.act m) := by
  obtain ⟨state, stack⟩ := m
  cases change with
  | stay => exact h
  | goto s => exact ⟨hchange s (.inl rfl), h.2⟩
  | push s => exact ⟨hchange s (.inr rfl), List.forall_mem_cons.2 h⟩
  | pop =>
    cases stack with
    | nil => exact ⟨hcount, List.forall_mem_nil _⟩
    | cons s stack => exact List.forall_mem_cons.1 h.2

/-! ### Events

The events are collected beside the run, so that a statement about pushes and returns can speak of
single matches.  Dropped matches are events, too. -/

/-- What happens to the lexer state of a cursor: a match of a rule, with the cursors before and
behind it, or a change from outside. -/
inductive Cursor.Event where
  | matched (before : Cursor) (rule : Nat) (after : Cursor)
  | setState (state : Nat)
deriving DecidableEq

namespace Lexer

/-- The change of the lexer state that a rule asks for. -/
def change? (l : Lexer) (rule : Nat) : Option StateChange :=
  (l.terminal? rule).map Terminal.change

/-- The match of a step, if it is one. -/
def stepHistory (l : Lexer) (c : Cursor) : List Cursor.Event :=
  if c.atEnd then []
  else (l.matchAt c).toList.map fun (rule, _, _) => .matched c rule (l.step c).2

/-- The matches up to the next token. -/
def historyWithin (l : Lexer) : Nat → Cursor → List Cursor.Event
  | 0, _ => []
  | bound + 1, c =>
    l.stepHistory c ++ match l.step c with
      | (some _, _) => []
      | (none, c) => l.historyWithin bound c

/-- The events of a call. -/
def callHistory (l : Lexer) (c : Cursor) : Cursor.Call → List Cursor.Event
  | .advance => l.historyWithin (c.stepBound l.numStates) c
  | .next => if c.ended then [] else l.historyWithin (c.stepBound l.numStates) c
  | .setState state => [.setState state]

/-- The events of calls. -/
def history (l : Lexer) : Cursor → List Cursor.Call → List Cursor.Event
  | _, [] => []
  | c, call :: rest => l.callHistory c call ++ l.history (l.call c call).2 rest

/-- A match of a rule at a cursor, and a cursor behind it whose lexer state is the one that the rule
leads to. -/
structure Finds (l : Lexer) (before : Cursor) (rule : Nat) (after : Cursor) : Prop where
  longestMatch_eq :
    l.longestMatch before.input before.position before.state = some (rule, after.position)
  input_eq : after.input = before.input
  act_eq : ∃ change, l.change? rule = some change ∧ after.memory = change.act before.memory

/-- The events lead from one lexer state with its stack to another one: each match is one of the
lexer, and it begins where the event before it has led. -/
def Leads (l : Lexer) : Nat × List Nat → List Cursor.Event → Nat × List Nat → Prop
  | m, [], m' => m = m'
  | m, .matched before rule after :: events, m' =>
    before.memory = m ∧ l.Finds before rule after ∧ l.Leads after.memory events m'
  | m, .setState state :: events, m' => l.Leads (state, m.2) events m'

/-- Matches of which each one that pushes a state has its own return behind it, and the other way
round.  The other matches stand anywhere. -/
inductive Nested (l : Lexer) : List Cursor.Event → Prop
  | nil : Nested l []
  | stay {before after : Cursor} {rule : Nat} {events : List Cursor.Event} :
    l.change? rule = some .stay → Nested l events → Nested l (.matched before rule after :: events)
  | goto {before after : Cursor} {rule s : Nat} {events : List Cursor.Event} :
    l.change? rule = some (.goto s) → Nested l events →
      Nested l (.matched before rule after :: events)
  | pair {before after before' after' : Cursor} {rule rule' s : Nat}
    {inner events : List Cursor.Event} :
    l.change? rule = some (.push s) → Nested l inner → l.change? rule' = some .pop →
      Nested l events →
        Nested l (.matched before rule after :: (inner ++ .matched before' rule' after' :: events))

variable {l : Lexer} {m m' : Nat × List Nat} {events more inner : List Cursor.Event}

theorem leads_append : l.Leads m (events ++ more) m' ↔
    ∃ middle, l.Leads m events middle ∧ l.Leads middle more m' := by
  induction events generalizing m with
  | nil => simp [Leads]
  | cons event events ih => cases event <;> simp [Leads, ih, and_assoc]

/-! ### Pushes and returns

A push puts the lexer state on the stack.  Between the push and its return, well-nested matches may
push and return again, but they leave the stack above which they began.  So the return finds what
the push has put there. -/

/-- **A push and its return lead back to where they began**, when what lies between them keeps the
stack. -/
theorem Leads.returns {before after before' after' : Cursor} {rule rule' s : Nat}
    (h : l.Leads m (.matched before rule after ::
      (inner ++ .matched before' rule' after' :: events)) m')
    (hpush : l.change? rule = some (.push s)) (hpop : l.change? rule' = some .pop)
    (hinner : ∀ m₁ m₂, l.Leads m₁ inner m₂ → m₂.2 = m₁.2) :
    after'.memory = before.memory ∧ l.Leads before.memory events m' := by
  obtain ⟨rfl, hfirst, hrest⟩ := h
  obtain ⟨middle, hleads, hbefore, hlast, hevents⟩ := leads_append.1 hrest
  obtain ⟨change, hchange, hafter⟩ := hfirst.act_eq
  obtain ⟨change', hchange', hafter'⟩ := hlast.act_eq
  obtain rfl : .push s = change := Option.some.inj (hpush.symm.trans hchange)
  obtain rfl : .pop = change' := Option.some.inj (hpop.symm.trans hchange')
  have hstack : before'.memory.2 = before.state :: before.stack := by
    rw [hbefore, hinner _ _ hleads, hafter]
    rfl
  have hreturn : after'.memory = before.memory := by
    rw [hafter', ← Prod.mk.eta (p := before'.memory), hstack]
    rfl
  exact ⟨hreturn, hreturn ▸ hevents⟩

/-- **Well-nested matches keep the stack.** -/
theorem Nested.stack_eq (hnested : l.Nested events) (h : l.Leads m events m') : m'.2 = m.2 := by
  induction hnested generalizing m m' with
  | nil => exact congrArg Prod.snd (Eq.symm h)
  | stay hchange _ ih =>
    obtain ⟨rfl, hfinds, hrest⟩ := h
    obtain ⟨change, hchange', hafter⟩ := hfinds.act_eq
    obtain rfl : .stay = change := Option.some.inj (hchange.symm.trans hchange')
    rw [ih hrest, hafter]
    rfl
  | goto hchange _ ih =>
    obtain ⟨rfl, hfinds, hrest⟩ := h
    obtain ⟨change, hchange', hafter⟩ := hfinds.act_eq
    obtain rfl := Option.some.inj (hchange.symm.trans hchange')
    rw [ih hrest, hafter]
    rfl
  | pair hpush _ hpop _ ihinner ih =>
    obtain ⟨-, hrest⟩ := h.returns hpush hpop fun _ _ => ihinner
    rw [ih hrest, h.1]

/-- A match is found wherever it stands among the events. -/
theorem Leads.finds_of_mem (h : l.Leads m events m') {before after : Cursor} {rule : Nat}
    (hmem : .matched before rule after ∈ events) : l.Finds before rule after := by
  obtain ⟨front, back, rfl⟩ := List.append_of_mem hmem
  obtain ⟨-, -, -, hfinds, -⟩ := leads_append.1 h
  exact hfinds

/-- Events that change to known lexer states lead to known lexer states. -/
theorem Leads.memoryBelow (hl : l.InRange) (hcount : initialState < l.numStates)
    (hset : ∀ s, .setState s ∈ events → s < l.numStates) (h : l.Leads m events m')
    (hm : MemoryBelow l.numStates m) : MemoryBelow l.numStates m' := by
  induction events generalizing m with
  | nil =>
    obtain rfl : m = m' := h
    exact hm
  | cons event events ih =>
    have hset' : ∀ s, .setState s ∈ events → s < l.numStates :=
      fun s hs => hset s (List.mem_cons_of_mem _ hs)
    cases event with
    | matched before rule after =>
      obtain ⟨rfl, hfinds, hrest⟩ := h
      obtain ⟨change, hchange, hafter⟩ := hfinds.act_eq
      obtain ⟨terminal, hterminal, rfl⟩ := Option.map_eq_some_iff.1 hchange
      refine ih hset' hrest (hafter ▸ hm.act hcount ?_)
      exact hl.change_lt terminal (List.mem_of_getElem? hterminal)
    | setState state => exact ih hset' h ⟨hset state List.mem_cons_self, hm.2⟩

/-! ### Events of calls

One step has at most one event, a scan has those of its steps, and the events of calls stand one
behind the other.  At each stage they lead to the cursor that the stage leads to. -/

/-- An allowed match is found by the lexer, and the step over it acts as its rule says. -/
theorem finds_step (hl : l.Regular) {c remembered : Cursor} (hend : c.atEnd = false)
    {rule length : Nat} (hsome : l.matchAt c = some (rule, length, remembered)) :
    l.Finds c rule (l.step c).2 := by
  rcases step_cases hl c with ⟨htrue, -⟩ | ⟨-, hnone, -⟩ |
    ⟨-, rule', length', terminal, after, hsome', hmatch, hterminal, hafter, hstep⟩
  · rw [hend] at htrue
    cases htrue
  · rw [hsome] at hnone
    cases hnone
  · obtain ⟨rfl, rfl, rfl⟩ : rule = rule' ∧ length = length' ∧ remembered = after := by
      simpa using hsome.symm.trans hsome'
    -- a match of the empty string is remembered, and nothing else changes before the rule acts
    have hsame : remembered.memory = c.memory ∧ remembered.behind = c.behind ∧
        remembered.ahead = c.ahead := by
      rcases hafter with ⟨-, rfl⟩ | ⟨-, hremember⟩
      · exact ⟨rfl, rfl, rfl⟩
      · rw [(Cursor.rememberEmpty?_eq_some hremember).2]
        exact ⟨rfl, rfl, rfl⟩
    obtain ⟨hmemory, hbehind, hahead⟩ := hsame
    obtain ⟨state, stack, happly⟩ := remembered.apply_eq terminal.change
    have hlength : length ≤ (remembered.apply terminal.change).ahead.length := by
      rw [happly, hahead]
      exact (hl.match_spec hmatch).2.1
    rw [hstep]
    refine ⟨?_, ?_, terminal.change, congrArg (Option.map Terminal.change) hterminal, ?_⟩
    · rw [longestMatch_eq, hmatch, Cursor.position_forward hlength, happly,
        remembered.position_eq, hbehind, ← c.position_eq]
      rfl
    · rw [Cursor.input_forward, happly, Cursor.input, Cursor.input, ← hbehind, ← hahead]
    · rw [← hmemory, ← Cursor.memory_apply]
      rfl

/-- **The match of a step** leads to the cursor behind the step. -/
theorem leads_stepHistory (hl : l.Regular) (c : Cursor) :
    l.Leads c.memory (l.stepHistory c) (l.step c).2.memory := by
  unfold stepHistory
  cases hend : c.atEnd with
  | true =>
    rw [l.step_of_atEnd hend]
    rfl
  | false =>
    cases hmatch : l.matchAt c with
    | none =>
      unfold step
      rw [hend, hmatch]
      rfl
    | some m => exact ⟨rfl, finds_step hl hend hmatch, rfl⟩

/-- **The matches up to the next token** lead to the cursor behind the token. -/
theorem leads_historyWithin (hl : l.Regular) (bound : Nat) (c : Cursor) :
    l.Leads c.memory (l.historyWithin bound c) (l.advanceWithin bound c).2.memory := by
  induction bound generalizing c with
  | zero => rfl
  | succ bound ih =>
    have hfirst := leads_stepHistory hl c
    unfold historyWithin advanceWithin
    rcases hstep : l.step c with ⟨_ | t, after⟩ <;> rw [hstep] at hfirst
    · exact leads_append.2 ⟨_, hfirst, ih after⟩
    · rwa [List.append_nil]

/-- The events of a call lead to the cursor behind the call. -/
theorem leads_callHistory (hl : l.Regular) (c : Cursor) (call : Cursor.Call) :
    l.Leads c.memory (l.callHistory c call) (l.call c call).2.memory := by
  have hadvance := leads_historyWithin hl (c.stepBound l.numStates) c
  cases call with
  | advance => exact hadvance
  | setState state => rfl
  | next =>
    unfold callHistory Lexer.call Lexer.next
    dsimp only
    split
    · rfl
    · change l.Leads _ _ (l.advance c).2.memory at hadvance
      rcases hanswer : l.advance c with ⟨t, after⟩
      rw [hanswer] at hadvance
      dsimp only
      split <;> exact hadvance

/-- **The events of calls** lead to the cursor behind the calls. -/
theorem leads_history (hl : l.Regular) (c : Cursor) (calls : List Cursor.Call) :
    l.Leads c.memory (l.history c calls) (l.calls c calls).2.memory := by
  induction calls generalizing c with
  | nil => rfl
  | cons call rest ih => exact leads_append.2 ⟨_, leads_callHistory hl c call, ih _⟩

/-- A scan changes the lexer state by matches only. -/
theorem setState_not_mem_historyWithin (l : Lexer) (bound : Nat) (c : Cursor) (s : Nat) :
    .setState s ∉ l.historyWithin bound c := by
  induction bound generalizing c with
  | zero => exact List.not_mem_nil
  | succ bound ih =>
    have hfirst : .setState s ∉ l.stepHistory c := by simp [stepHistory]
    unfold historyWithin
    rw [List.mem_append, not_or]
    refine ⟨hfirst, ?_⟩
    split
    · exact List.not_mem_nil
    · exact ih _

/-- The changes from outside are those of the calls. -/
theorem setState_mem_of_mem_history {c : Cursor} {calls : List Cursor.Call} {s : Nat}
    (h : .setState s ∈ l.history c calls) : .setState s ∈ calls := by
  induction calls generalizing c with
  | nil => cases h
  | cons call rest ih =>
    rcases List.mem_append.1 h with h | h
    · have hwithin := l.setState_not_mem_historyWithin (c.stepBound l.numStates) c s
      cases call with
      | advance => exact absurd h hwithin
      | next =>
        change _ ∈ (if c.ended then [] else _) at h
        split at h
        · cases h
        · exact absurd h hwithin
      | setState state =>
        obtain rfl := Cursor.Event.setState.inj (List.mem_singleton.1 h)
        exact List.mem_cons_self
    · exact List.mem_cons_of_mem _ (ih h)

/-- What holds of the events that lead to a cursor, from a lexer state without a stack on. -/
structure Disciplined (l : Lexer) (state : Nat) (events : List Cursor.Event) (c : Cursor) :
    Prop where
  /-- Each match begins where the event before it has led, and the last one leads to the cursor. -/
  leads : l.Leads (state, []) events c.memory
  state_lt : c.state < l.numStates
  stack_lt : ∀ s ∈ c.stack, s < l.numStates
  /-- A match that pushes the lexer state and a return with well-nested matches between them lead
  back to the state and to the stack in front of the push. -/
  returns : ∀ front before push after inner before' pop after' back s,
    events = front ++ .matched before push after ::
      (inner ++ .matched before' pop after' :: back) →
    l.change? push = some (.push s) → l.Nested inner → l.change? pop = some .pop →
      after'.state = before.state ∧ after'.stack = before.stack
  /-- Without a state to return to, a return leads to the initial one. -/
  pop_nil : ∀ before pop after, .matched before pop after ∈ events →
    l.change? pop = some .pop → before.stack = [] →
      after.state = initialState ∧ after.stack = []

/-- Events that lead to a cursor are disciplined when they change to known lexer states only. -/
theorem Leads.disciplined {state : Nat} {c : Cursor} (h : l.Leads (state, []) events c.memory)
    (hl : l.InRange) (hstate : state < l.numStates)
    (hset : ∀ s, .setState s ∈ events → s < l.numStates) : l.Disciplined state events c := by
  have hbelow : MemoryBelow l.numStates c.memory :=
    h.memoryBelow hl (Nat.lt_of_le_of_lt (Nat.zero_le _) hstate) hset
      ⟨hstate, List.forall_mem_nil _⟩
  refine ⟨h, hbelow.1, hbelow.2, ?_, ?_⟩
  · rintro front before push after inner before' pop after' back s rfl hpush hnested hpop
    obtain ⟨_, -, hpart⟩ := leads_append.1 h
    obtain ⟨hreturn, -⟩ := hpart.returns hpush hpop fun _ _ => hnested.stack_eq
    exact Prod.mk.inj hreturn
  · intro before pop after hmem hpop hstack
    obtain ⟨change, hchange, hafter⟩ := (h.finds_of_mem hmem).act_eq
    obtain rfl : .pop = change := Option.some.inj (hpop.symm.trans hchange)
    rw [Cursor.memory, Cursor.memory, hstack] at hafter
    exact Prod.mk.inj hafter

end Lexer

namespace LexerDefinition

variable {d : LexerDefinition} {l : Lexer}

/-- **Lexer states are pushed and popped in order.**  Whatever calls are made on a cursor that
starts in a known lexer state, when they change to known states only: the state and the stack stay
inside the lexer, a return behind a push with well-nested matches between them leads back to the
state and to the stack in front of the push, and a return without a push leads to the initial
state. -/
theorem disciplined_calls (hd : d.Reachable) (hbuild : d.build = .ok l) (input : List UInt8)
    {state : Nat} (hstate : state < l.numStates) {calls : List Cursor.Call}
    (hcalls : ∀ s, .setState s ∈ calls → s < l.numStates) :
    l.Disciplined state (l.history (Cursor.start input state) calls)
      (l.calls (Cursor.start input state) calls).2 :=
  (Lexer.leads_history (regular_of_build hd hbuild) (Cursor.start input state) calls).disciplined
    (inRange_of_build hbuild) hstate fun _ hs => hcalls _ (Lexer.setState_mem_of_mem_history hs)

/-- Parentheses that push and return, a sign that goes to the initial state, and letters of which
there can be none. -/
def nestedParentheses : LexerDefinition :=
  let d := (empty.addState "INNER").2
  let d := (d.addRule { Rule.simple "[(]" 300 with
    scope := .all, destination := .push (.handle 1) }).2
  let d := (d.addRule { Rule.skip "[)]" with scope := .all, destination := .pop }).2
  let d := (d.addRule { Rule.simple "!" 301 with
    scope := .all, destination := .goto (.handle initialState) }).2
  let d := (d.addRule { Rule.skip "a*" with scope := .all }).2
  d.setFlags { Flags.none with matchEmpty := true }

/-- Calls on a cursor over parentheses, answering up to four tokens. -/
def nestedParenthesesCalls : List Cursor.Call := [.next, .advance, .next, .next]

/-- What a match has in front of it, its rule, and what it leads to. -/
def effect? : Cursor.Event → Option ((Nat × List Nat) × Nat × (Nat × List Nat))
  | .matched before rule after => some (before.memory, rule, after.memory)
  | .setState _ => none

/-- The first return leads back to the inner state in which the push has matched, although the sign
has left it and the empty string has been matched in between; the second one has no push. -/
theorem disciplined_calls_nestedParentheses :
    ∃ l, nestedParentheses.build = .ok l ∧
      (l.history (Cursor.start (bytesOf "(!b))") 1) nestedParenthesesCalls).filterMap effect? =
        [((1, []), 0, (1, [1])), ((1, [1]), 2, (0, [1])), ((0, [1]), 3, (0, [1])),
          ((0, [1]), 1, (1, [])), ((1, []), 1, (0, []))] ∧
      l.Disciplined 1 (l.history (Cursor.start (bytesOf "(!b))") 1) nestedParenthesesCalls)
        (l.calls (Cursor.start (bytesOf "(!b))") 1) nestedParenthesesCalls).2 := by
  have hevents : nestedParentheses.build.map (fun l => (l.numStates,
      (l.history (Cursor.start (bytesOf "(!b))") 1) nestedParenthesesCalls).filterMap effect?)) =
        .ok (2, [((1, []), 0, (1, [1])), ((1, [1]), 2, (0, [1])), ((0, [1]), 3, (0, [1])),
          ((0, [1]), 1, (1, [])), ((1, []), 1, (0, []))]) := by
    decide +kernel
  obtain ⟨l, hbuild, hevents⟩ := exists_of_map_eq_ok hevents
  obtain ⟨hcount, hevents⟩ := Prod.mk.inj hevents
  have hreachable : nestedParentheses.Reachable :=
    .flags _ (.rule _ (.rule _ (.rule _ (.rule _ (.state _ .empty)))))
  refine ⟨l, hbuild, hevents, disciplined_calls hreachable hbuild _ ?_ ?_⟩
  · rw [hcount]
    decide
  · simp [nestedParenthesesCalls]

end LexerDefinition

end FrontEnd
