import FrontEnd.Proofs.Lexer.Cursor

/-!
# Cursors come to an end

Matches of the empty string do not move a cursor, and rules without a token can go from one lexer
state to the other on such matches in any shape of cycles.  Nevertheless every scan for a token
ends, and so do the tokens of an input.

## Main Definitions

* `PerformedMatch`, `emptyPlaces` — the matches of a cursor, and where they are empty
* `Lexer.Advances` — the scan for a token as a loop without a bound
* `Lexer.Performs` — what calls on a cursor perform
* `Lexer.Remembers` — what a cursor knows of the matches that it has performed
* `Lexer.Halts` — how long a cursor goes on at most

## Main Statements

* `Lexer.Remembers.step` — a step repeats no match of the empty string
* `Lexer.Performs.keeps` — what every step keeps holds behind calls
* `Lexer.Trail.length_add_credit_le` — each match of a scan uses up credit
* `Lexer.Trail.halts` — scans end, and so do the tokens
* `LexerDefinition.halts_of_calls` — the same for every call in the life of a cursor

## Design Notes

`Lexer.advance` has a bound on its steps.  `Lexer.Advances` has none: it relates a cursor to an
answer only if the loop comes to this answer on its own, with as many matches as it takes.
-/

namespace FrontEnd

/-- A match that a cursor performs at some place in some lexer state. -/
structure PerformedMatch where
  position : Nat
  state : Nat
  rule : Nat
  length : Nat
deriving DecidableEq

/-- The places of the matches of the empty string, with the lexer states there. -/
def emptyPlaces (performed : List PerformedMatch) : List (Nat × Nat) :=
  (performed.filter fun m => m.length = 0).map fun m => (m.position, m.state)

@[simp] theorem emptyPlaces_append (performed more : List PerformedMatch) :
    emptyPlaces (performed ++ more) = emptyPlaces performed ++ emptyPlaces more := by
  simp [emptyPlaces]

theorem mem_emptyPlaces {performed : List PerformedMatch} {place : Nat × Nat} :
    place ∈ emptyPlaces performed ↔
      ∃ m ∈ performed, m.length = 0 ∧ (m.position, m.state) = place := by
  simp [emptyPlaces, and_assoc]

namespace Lexer

/-- The match that a step performs: none at the end of the input and at an invalid byte. -/
def performed (l : Lexer) (c : Cursor) : List PerformedMatch :=
  if c.atEnd then []
  else (l.matchAt c).toList.map fun (rule, length, _) => ⟨c.position, c.state, rule, length⟩

/-- The scan for the next token: steps follow each other, however many, until one answers a
token. -/
inductive Advances (l : Lexer) : Cursor → List PerformedMatch → Token → Cursor → Prop
  | answer {c d : Cursor} {t : Token} :
    l.step c = (some t, d) → Advances l c (l.performed c) t d
  | dropped {c d e : Cursor} {t : Token} {more : List PerformedMatch} :
    l.step c = (none, d) → Advances l d more t e → Advances l c (l.performed c ++ more) t e

/-- The matches that calls on a cursor perform, and the cursor behind them. -/
inductive Performs (l : Lexer) :
    Cursor → List Cursor.Call → List PerformedMatch → Cursor → Prop
  | nil (c : Cursor) : Performs l c [] [] c
  | advance {c d e : Cursor} {t : Token} {calls : List Cursor.Call}
    {performed more : List PerformedMatch} :
    l.Advances c performed t d → Performs l d calls more e →
      Performs l c (.advance :: calls) (performed ++ more) e
  | next {c d e : Cursor} {t : Token} {calls : List Cursor.Call}
    {performed more : List PerformedMatch} :
    c.ended = false → l.Advances c performed t d →
      Performs l (if t.isEndOfInput then { d with ended := true } else d) calls more e →
        Performs l c (.next :: calls) (performed ++ more) e
  | finished {c e : Cursor} {calls : List Cursor.Call} {performed : List PerformedMatch} :
    c.ended = true → Performs l c calls performed e → Performs l c (.next :: calls) performed e
  | setState {c e : Cursor} {state : Nat} {calls : List Cursor.Call}
    {performed : List PerformedMatch} :
    Performs l (c.setState state) calls performed e →
      Performs l c (.setState state :: calls) performed e

/-- What a cursor knows of the matches that have been performed in its life: it has not gone back,
and where it is, it remembers the lexer states that have matched the empty string. -/
structure Remembers (performed : List PerformedMatch) (c : Cursor) : Prop where
  position_le : ∀ m ∈ performed, m.position ≤ c.position
  mem_emptyStatesHere : ∀ s, (c.position, s) ∈ emptyPlaces performed → s ∈ c.emptyStatesHere
  nodup_emptyPlaces : (emptyPlaces performed).Nodup

/-- Every scan from a cursor for its next token ends, and so do the tokens. -/
structure Halts (l : Lexer) (input : List UInt8) (c : Cursor) : Prop where
  /-- The loop comes to the answer of `Lexer.advance`. -/
  advances : ∃ performed, l.Advances c performed (l.advance c).1 (l.advance c).2
  /-- There is a match for each byte ahead, and one for each lexer state in front of it, at
  most. -/
  length_le : ∀ performed t d, l.Advances c performed t d →
    performed.length ≤ (input.length - c.position) * (l.numStates + 1)
  /-- After so many tokens `Lexer.next` answers nothing, and then `Lexer.tokens` has them all. -/
  tokens : ∃ n ≤ (input.length - c.position) * (l.numStates + 1),
    (l.calls c (List.replicate n .next)).1.length = n ∧
      (l.next (l.calls c (List.replicate n .next)).2).1 = none ∧
        (l.tokens c).1 = (l.calls c (List.replicate n .next)).1

variable {l : Lexer} {input : List UInt8} {legs : List Leg} {c d : Cursor} {t : Token}
  {performed : List PerformedMatch}

/-! ### Performed matches

A step performs one match at most. -/

/-- At the end of the input nothing is matched. -/
theorem performed_of_atEnd (hend : c.atEnd = true) : l.performed c = [] := if_pos hend

/-- An allowed match is performed. -/
theorem performed_of_matchAt {rule length : Nat} (hend : c.atEnd = false)
    (hmatch : l.matchAt c = some (rule, length, d)) :
    l.performed c = [⟨c.position, c.state, rule, length⟩] := by
  simp [performed, hend, hmatch]

/-! ### The memory

A cursor remembers the lexer states that have matched the empty string where it is.  A further match
of the empty string there is allowed in other lexer states only, and these are fewer each time. -/

/-- A new cursor has performed nothing. -/
theorem remembers_start (input : List UInt8) (state : Nat) :
    Remembers [] (Cursor.start input state) :=
  ⟨by simp, by simp [emptyPlaces], List.nodup_nil⟩

/-- Only the place and the memory of a cursor matter. -/
theorem Remembers.congr (h : Remembers performed c) (hposition : d.position = c.position)
    (hhere : d.emptyStatesHere = c.emptyStatesHere) : Remembers performed d :=
  ⟨hposition ▸ h.position_le, by rw [hposition, hhere]; exact h.mem_emptyStatesHere,
    h.nodup_emptyPlaces⟩

/-- A cursor that has moved need not remember anything. -/
theorem Remembers.move (h : Remembers performed c) {more : List PerformedMatch}
    (hlt : c.position < d.position) (hmore : ∀ m ∈ more, m.position = c.position ∧ m.length ≠ 0) :
    Remembers (performed ++ more) d := by
  have hempty : emptyPlaces more = [] :=
    List.map_eq_nil_iff.2 (List.filter_eq_nil_iff.2 fun m hm => by simpa using (hmore m hm).2)
  refine ⟨fun m hm => ?_, fun s hs => ?_, ?_⟩
  · rcases List.mem_append.1 hm with hm | hm
    · exact Nat.le_trans (h.position_le m hm) (Nat.le_of_lt hlt)
    · exact (hmore m hm).1 ▸ Nat.le_of_lt hlt
  · rw [emptyPlaces_append, hempty, List.append_nil] at hs
    obtain ⟨m, hm, -, hplace⟩ := mem_emptyPlaces.1 hs
    have hle := h.position_le m hm
    have hposition : m.position = d.position := (Prod.mk.inj hplace).1
    omega
  · rw [emptyPlaces_append, hempty, List.append_nil]
    exact h.nodup_emptyPlaces

/-- A match of the empty string in a lexer state that is not remembered here is a new one. -/
theorem Remembers.remember (h : Remembers performed c) (hnot : c.state ∉ c.emptyStatesHere)
    (rule : Nat) (hposition : d.position = c.position)
    (hhere : d.emptyStatesHere = c.state :: c.emptyStatesHere) :
    Remembers (performed ++ [⟨c.position, c.state, rule, 0⟩]) d := by
  have hone : emptyPlaces [⟨c.position, c.state, rule, 0⟩] = [(c.position, c.state)] := rfl
  refine ⟨fun m hm => ?_, fun s hs => ?_, ?_⟩
  · rw [hposition]
    rcases List.mem_append.1 hm with hm | hm
    · exact h.position_le m hm
    · rw [List.mem_singleton.1 hm]
  · rw [emptyPlaces_append, hone, hposition] at hs
    rw [hhere]
    rcases List.mem_append.1 hs with hs | hs
    · exact List.mem_cons_of_mem _ (h.mem_emptyStatesHere s hs)
    · rw [(Prod.mk.inj (List.mem_singleton.1 hs)).2]
      exact List.mem_cons_self
  · rw [emptyPlaces_append, hone]
    refine List.nodup_append.2 ⟨h.nodup_emptyPlaces, List.nodup_singleton _, ?_⟩
    rintro place hplace _ hplace' rfl
    rw [List.mem_singleton.1 hplace'] at hplace
    exact hnot (h.mem_emptyStatesHere _ hplace)

/-- **A step repeats no match of the empty string.** -/
theorem Remembers.step (hl : l.Regular) (h : Remembers performed c) :
    Remembers (performed ++ l.performed c) (l.step c).2 := by
  rcases step_cases hl c with ⟨hend, hstep⟩ | ⟨hend, hnone, -, hstep⟩ |
    ⟨hend, rule, length, terminal, after, hsome, hmatch, -, hafter, hstep⟩
  · rw [hstep, performed_of_atEnd hend, List.append_nil]
    exact h
  · have hpos : 1 ≤ c.ahead.length := Cursor.length_ahead_pos hend
    rw [hstep]
    refine h.move (by rw [Cursor.position_forward hpos]; omega) ?_
    simp [Lexer.performed, hnone]
  · obtain ⟨-, hlength, -⟩ := hl.match_spec hmatch
    obtain ⟨state, stack, happly⟩ := after.apply_eq terminal.change
    rw [hstep, performed_of_matchAt hend hsome, happly]
    rcases hafter with ⟨hpos, rfl⟩ | ⟨rfl, hremember⟩
    · refine h.move ?_ (by simp [Nat.ne_of_gt hpos])
      exact Nat.lt_of_lt_of_eq (Nat.lt_add_of_pos_right hpos)
        (Cursor.position_forward hlength).symm
    · obtain ⟨hnot, rfl⟩ := Cursor.rememberEmpty?_eq_some hremember
      refine h.remember hnot rule (Cursor.position_forward (Nat.zero_le _)) ?_
      simp [Cursor.emptyStatesHere, Cursor.forward]

section Keeps

variable {P : List PerformedMatch → Cursor → Prop}

/-- What every step keeps holds behind the scan for a token. -/
theorem Advances.keeps
    (hstep : ∀ performed c, P performed c → P (performed ++ l.performed c) (l.step c).2)
    (hadvances : l.Advances c performed t d) {before : List PerformedMatch} (h : P before c) :
    P (before ++ performed) d := by
  induction hadvances generalizing before with
  | answer heq => simpa [heq] using hstep _ _ h
  | dropped heq _ ih =>
    rw [← List.append_assoc]
    refine ih ?_
    simpa [heq] using hstep _ _ h

/-- What every step keeps, and every change of the lexer state, holds behind calls on a cursor. -/
theorem Performs.keeps
    (hstep : ∀ performed c, P performed c → P (performed ++ l.performed c) (l.step c).2)
    (hstate : ∀ performed c state ended, P performed c →
      P performed { c with state := state, ended := ended })
    {calls : List Cursor.Call} (hperforms : l.Performs c calls performed d)
    {before : List PerformedMatch} (h : P before c) : P (before ++ performed) d := by
  induction hperforms generalizing before with
  | nil c => simpa using h
  | advance hadvances _ ih =>
    rw [← List.append_assoc]
    exact ih (hadvances.keeps hstep h)
  | @next c d e t calls performed more _ hadvances _ ih =>
    have hafter := hadvances.keeps hstep h
    rw [← List.append_assoc]
    refine ih ?_
    split
    · exact hstate _ _ d.state true hafter
    · exact hafter
  | finished _ _ ih => exact ih h
  | @setState c e state calls performed _ ih => exact ih (hstate _ _ state c.ended h)

end Keeps

/-- No calls repeat a match of the empty string. -/
theorem Remembers.performs (hl : l.Regular) {calls : List Cursor.Call}
    (hperforms : l.Performs c calls performed d) {before : List PerformedMatch}
    (h : Remembers before c) : (emptyPlaces (before ++ performed)).Nodup :=
  (hperforms.keeps (fun _ _ h => h.step hl) (fun _ _ _ _ h => h.congr rfl rfl)
    h).nodup_emptyPlaces

/-! ### The loop

The scan without a bound is a relation: it has an answer when it comes to one by itself.  The
bounded loop has the same answers, since its bound is larger than the credit of the cursor. -/

/-- The loop comes to one answer only. -/
theorem Advances.unique (h : l.Advances c performed t d) {performed' : List PerformedMatch}
    {t' : Token} {d' : Cursor} (h' : l.Advances c performed' t' d') :
    performed = performed' ∧ t = t' ∧ d = d' := by
  induction h generalizing performed' with
  | answer hstep =>
    cases h' with
    | answer hstep' => simpa using hstep.symm.trans hstep'
    | dropped hstep' _ => cases (Prod.mk.inj (hstep.symm.trans hstep')).1
  | dropped hstep _ ih =>
    cases h' with
    | answer hstep' => cases (Prod.mk.inj (hstep.symm.trans hstep')).1
    | dropped hstep' hrest =>
      obtain rfl : _ = _ := (Prod.mk.inj (hstep.symm.trans hstep')).2
      obtain ⟨rfl, rfl, rfl⟩ := ih hrest
      exact ⟨rfl, rfl, rfl⟩

/-- Calls perform one sequence of matches only. -/
theorem Performs.unique {calls : List Cursor.Call} (h : l.Performs c calls performed d)
    {performed' : List PerformedMatch} {d' : Cursor} (h' : l.Performs c calls performed' d') :
    performed = performed' ∧ d = d' := by
  induction h generalizing performed' d' with
  | nil c =>
    cases h'
    exact ⟨rfl, rfl⟩
  | advance hadvances _ ih =>
    cases h' with
    | advance hadvances' hrest =>
      obtain ⟨rfl, rfl, rfl⟩ := hadvances.unique hadvances'
      obtain ⟨rfl, rfl⟩ := ih hrest
      exact ⟨rfl, rfl⟩
  | next hended hadvances _ ih =>
    cases h' with
    | next _ hadvances' hrest =>
      obtain ⟨rfl, rfl, rfl⟩ := hadvances.unique hadvances'
      obtain ⟨rfl, rfl⟩ := ih hrest
      exact ⟨rfl, rfl⟩
    | finished hended' _ => cases hended.symm.trans hended'
  | finished hended _ ih =>
    cases h' with
    | next hended' _ _ => cases hended.symm.trans hended'
    | finished _ hrest => exact ih hrest
  | setState _ ih =>
    cases h' with
    | setState hrest => exact ih hrest

/-- Calls one behind the other perform their matches in this order. -/
theorem Performs.append {calls more : List Cursor.Call} {later : List PerformedMatch} {e : Cursor}
    (h : l.Performs c calls performed d) (hmore : l.Performs d more later e) :
    l.Performs c (calls ++ more) (performed ++ later) e := by
  induction h with
  | nil c => exact hmore
  | advance hadvances _ ih =>
    rw [List.append_assoc]
    exact .advance hadvances (ih hmore)
  | next hended hadvances _ ih =>
    rw [List.append_assoc]
    exact .next hended hadvances (ih hmore)
  | finished hended _ ih => exact .finished hended (ih hmore)
  | setState _ ih => exact .setState (ih hmore)

/-- A match is dropped in front of the end of the input only. -/
theorem atEnd_of_dropped (hstep : l.step c = (none, d)) : c.atEnd = false := by
  rw [← Bool.not_eq_true]
  intro hend
  rw [l.step_of_atEnd hend] at hstep
  cases hstep

/-- A match uses up credit. -/
theorem Trail.length_performed_add_credit_le (hl : l.Regular) (h : l.Trail input legs c) :
    (l.performed c).length + (l.step c).2.credit l.numStates ≤ c.credit l.numStates := by
  cases hend : c.atEnd with
  | true =>
    rw [l.step_of_atEnd hend, performed_of_atEnd hend]
    exact Nat.le_of_eq (Nat.zero_add _)
  | false =>
    obtain ⟨-, -, -, -, hcredit⟩ := h.step hl hend
    have hone : (l.performed c).length ≤ 1 := by
      rw [Lexer.performed, hend]
      cases l.matchAt c <;> simp
    omega

/-- **Each match of a scan uses up credit.** -/
theorem Trail.length_add_credit_le (hl : l.Regular) (hadvances : l.Advances c performed t d)
    (h : l.Trail input legs c) :
    performed.length + d.credit l.numStates ≤ c.credit l.numStates := by
  induction hadvances generalizing legs with
  | answer hstep => simpa [hstep] using h.length_performed_add_credit_le hl
  | @dropped c d e t more hstep _ ih =>
    obtain ⟨segment, htrail, -⟩ := h.step hl (atEnd_of_dropped hstep)
    have hfirst := h.length_performed_add_credit_le hl
    rw [hstep] at htrail hfirst
    have hrest := ih htrail
    dsimp only at hfirst
    rw [List.length_append]
    omega

/-- A scan that does not answer the end of the input uses up credit, with or without a match. -/
theorem Trail.credit_lt (hl : l.Regular) (hadvances : l.Advances c performed t d)
    (h : l.Trail input legs c) (ht : t.isEndOfInput = false) :
    d.credit l.numStates < c.credit l.numStates := by
  have hnot : c.atEnd = false := by
    rw [← Bool.not_eq_true]
    intro hend
    have hanswer := (hadvances.unique (.answer (l.step_of_atEnd hend))).2.1
    rw [hanswer] at ht
    cases ht
  obtain ⟨segment, htrail, -, -, hcredit⟩ := h.step hl hnot
  cases hadvances with
  | answer hstep => rwa [hstep] at hcredit
  | dropped hstep hrest =>
    rw [hstep] at htrail hcredit
    have hle := htrail.length_add_credit_le hl hrest
    dsimp only at hcredit
    omega

/-- Steps within a bound that is larger than the credit come to the answer of the loop. -/
theorem Trail.advancesWithin (hl : l.Regular) {bound : Nat} (h : l.Trail input legs c)
    (hbound : c.credit l.numStates < bound) :
    ∃ performed, l.Advances c performed (l.advanceWithin bound c).1
      (l.advanceWithin bound c).2 := by
  induction bound generalizing legs c with
  | zero => omega
  | succ bound ih =>
    unfold Lexer.advanceWithin
    rcases hstep : l.step c with ⟨_ | t, after⟩
    · obtain ⟨segment, htrail, -, -, hcredit⟩ := h.step hl (atEnd_of_dropped hstep)
      rw [hstep] at htrail hcredit
      obtain ⟨performed, hadvances⟩ :=
        ih htrail (Nat.lt_of_lt_of_le hcredit (Nat.le_of_lt_succ hbound))
      exact ⟨_, .dropped hstep hadvances⟩
    · exact ⟨_, .answer hstep⟩

/-- `Lexer.advance` answers what the loop comes to. -/
theorem Trail.advances (hl : l.Regular) (h : l.Trail input legs c) :
    ∃ performed, l.Advances c performed (l.advance c).1 (l.advance c).2 :=
  h.advancesWithin hl (c.credit_lt_stepBound l.numStates)

/-- Behind the end nothing is answered. -/
theorem next_of_ended (l : Lexer) (hended : c.ended = true) : l.next c = (none, c) :=
  if_pos hended

/-- At the end it is noted that the end has been answered. -/
theorem next_of_isEndOfInput (hended : c.ended = false)
    (hend : (l.advance c).1.isEndOfInput = true) :
    l.next c = (none, { (l.advance c).2 with ended := true }) := by
  simp [Lexer.next, hended, hend]

/-- Elsewhere the token is handed on. -/
theorem next_of_token (hended : c.ended = false) (hend : (l.advance c).1.isEndOfInput = false) :
    l.next c = (some (l.advance c).1, (l.advance c).2) := by
  simp [Lexer.next, hended, hend]

/-- A call performs matches, and a token that it answers has been scanned for with them. -/
theorem Trail.performs_call (hl : l.Regular) (h : l.Trail input legs c)
    (call : Cursor.Call) :
    ∃ performed, l.Performs c [call] performed (l.call c call).2 ∧
      ∀ t, (l.call c call).1 = some t → ∃ after, l.Advances c performed t after := by
  obtain ⟨performed, hadvances⟩ := h.advances hl
  have hanswer : ∀ t, some (l.advance c).1 = some t → ∃ after, l.Advances c performed t after := by
    intro t ht
    obtain rfl := Option.some.inj ht
    exact ⟨_, hadvances⟩
  cases call with
  | setState state => exact ⟨[], .setState (.nil _), fun t ht => by cases ht⟩
  | advance =>
    have hperforms := Performs.advance hadvances (.nil _)
    rw [List.append_nil] at hperforms
    exact ⟨performed, hperforms, hanswer⟩
  | next =>
    change ∃ performed, l.Performs c [.next] performed (l.next c).2 ∧
      ∀ t, (l.next c).1 = some t → ∃ after, l.Advances c performed t after
    cases hended : c.ended with
    | true =>
      rw [l.next_of_ended hended]
      exact ⟨[], .finished hended (.nil c), fun t ht => by cases ht⟩
    | false =>
      have hperforms := Performs.next hended hadvances (.nil _)
      rw [List.append_nil] at hperforms
      cases hend : (l.advance c).1.isEndOfInput with
      | true =>
        rw [if_pos hend] at hperforms
        rw [next_of_isEndOfInput hended hend]
        exact ⟨performed, hperforms, fun t ht => by cases ht⟩
      | false =>
        rw [hend, if_neg Bool.false_ne_true] at hperforms
        rw [next_of_token hended hend]
        exact ⟨performed, hperforms, hanswer⟩

/-- Calls perform matches: none of them goes on for ever. -/
theorem Trail.performs (hl : l.Regular) (h : l.Trail input legs c)
    (calls : List Cursor.Call) :
    ∃ performed, l.Performs c calls performed (l.calls c calls).2 := by
  induction calls generalizing legs c with
  | nil => exact ⟨[], .nil c⟩
  | cons call calls ih =>
    obtain ⟨performed, hcall, -⟩ := h.performs_call hl call
    obtain ⟨more, -, htrail, -⟩ := h.call hl call
    obtain ⟨rest, hrest⟩ := ih htrail
    exact ⟨performed ++ rest, hcall.append hrest⟩

/-! ### The tokens

Each token uses up credit of its cursor, so there are no more tokens than credit. -/

/-- `Lexer.next` answers nothing, or a token for which credit has been used up. -/
theorem Trail.next (hl : l.Regular) (h : l.Trail input legs c) :
    (l.next c).1 = none ∨
      ∃ t after, l.next c = (some t, after) ∧
        after.credit l.numStates < c.credit l.numStates := by
  cases hended : c.ended with
  | true => exact .inl (congrArg Prod.fst (l.next_of_ended hended))
  | false =>
    obtain ⟨performed, hadvances⟩ := h.advances hl
    cases hend : (l.advance c).1.isEndOfInput with
    | true => exact .inl (congrArg Prod.fst (next_of_isEndOfInput hended hend))
    | false => exact .inr ⟨_, _, next_of_token hended hend, h.credit_lt hl hadvances hend⟩

theorem calls_replicate_succ {after : Cursor} (hnext : l.next c = (some t, after)) (n : Nat) :
    l.calls c (List.replicate (n + 1) .next) =
      (t :: (l.calls after (List.replicate n .next)).1,
        (l.calls after (List.replicate n .next)).2) := by
  rw [List.replicate_succ, calls, call, hnext]
  rfl

/-- **The tokens end**: there are at most as many as there is credit. -/
theorem Trail.tokensWithin (hl : l.Regular) {bound : Nat} (h : l.Trail input legs c)
    (hbound : c.credit l.numStates < bound) :
    ∃ n ≤ c.credit l.numStates, (l.calls c (List.replicate n .next)).1.length = n ∧
      (l.next (l.calls c (List.replicate n .next)).2).1 = none ∧
        (l.tokensWithin bound c).1 = (l.calls c (List.replicate n .next)).1 := by
  induction bound generalizing legs c with
  | zero => omega
  | succ bound ih =>
    unfold Lexer.tokensWithin
    rcases h.next hl with hnone | ⟨t, after, hnext, hcredit⟩
    · refine ⟨0, Nat.zero_le _, rfl, hnone, ?_⟩
      rcases hanswer : l.next c with ⟨_ | t, after⟩
      · rfl
      · rw [hanswer] at hnone
        cases hnone
    · obtain ⟨more, -, htrail, -⟩ := h.call hl .next
      change l.Trail input (legs ++ more) (l.next c).2 at htrail
      rw [hnext] at htrail ⊢
      obtain ⟨n, hle, hlength, hnone, htokens⟩ :=
        ih htrail (Nat.lt_of_lt_of_le hcredit (Nat.le_of_lt_succ hbound))
      refine ⟨n + 1, Nat.le_trans (Nat.succ_le_succ hle) hcredit, ?_⟩
      rw [calls_replicate_succ hnext]
      exact ⟨congrArg (· + 1) hlength, hnone, congrArg (t :: ·) htokens⟩

/-- **A cursor comes to an end**, wherever it is and whatever it remembers. -/
theorem Trail.halts (hl : l.Regular) (h : l.Trail input legs c) : l.Halts input c := by
  have hcredit : c.credit l.numStates ≤ (input.length - c.position) * (l.numStates + 1) := by
    rw [← h.input_eq, ← c.size_eq_length]
    exact Nat.sub_le _ _
  refine ⟨h.advances hl, fun performed t d hadvances => ?_, ?_⟩
  · have hle := h.length_add_credit_le hl hadvances
    omega
  · obtain ⟨n, hle, htokens⟩ := h.tokensWithin hl (c.credit_lt_stepBound l.numStates)
    exact ⟨n, Nat.le_trans hle hcredit, htokens⟩

end Lexer

namespace LexerDefinition

variable {d : LexerDefinition} {l : Lexer}

/-- **No call goes on for ever.**  Whatever calls are made on a cursor of a lexer, and whatever its
rules do on matches of the empty string, each of the calls comes to its answer, no lexer state
matches the empty string twice at one place in the life of the cursor, and from where the cursor is
then, the scan for the next token performs one match for each byte ahead at most, and one for each
lexer state in front of it. -/
theorem halts_of_calls (hd : d.Reachable) (hbuild : d.build = .ok l) (input : List UInt8)
    (state : Nat) (calls : List Cursor.Call) :
    (∃ performed, l.Performs (Cursor.start input state) calls performed
        (l.calls (Cursor.start input state) calls).2) ∧
      (∀ performed after, l.Performs (Cursor.start input state) calls performed after →
        (emptyPlaces performed).Nodup) ∧
      l.Halts input (l.calls (Cursor.start input state) calls).2 := by
  have hl := regular_of_build hd hbuild
  have hstart := l.trail_start input state
  obtain ⟨legs, ends, htrail, -⟩ := hstart.calls hl calls
  exact ⟨hstart.performs hl calls,
    fun performed _ hperforms => (Lexer.remembers_start input state).performs hl hperforms,
    htrail.halts hl⟩

/-- Blanks, hashes and dots that are dropped, none of them needed: they lead from one lexer state to
the next in a circle. -/
def circle : LexerDefinition :=
  let d := (empty.addState "Hash").2
  let d := (d.addState "Dot").2
  let d := (d.addRule { Rule.skip "[ ]*" with destination := .goto (.name "Hash") }).2
  let d := (d.addRule { Rule.skip "#*" with
    scope := .states [.name "Hash"], destination := .push (.name "Dot") }).2
  let d := (d.addRule { Rule.skip "[.]*" with
    scope := .states [.name "Dot"], destination := .goto (.handle 0) }).2
  (d.addRule { Rule.simple "[a-z]+" 300 with scope := .all }).2.setFlags
    { Flags.none with matchEmpty := true }

/-- Calls on a cursor, with a change to another lexer state in between. -/
def circleCalls : List Cursor.Call := [.advance, .next, .setState 2, .next, .advance]

/-- The circle is left in front of an invalid byte, and in front of a word. -/
theorem halts_of_calls_circle :
    ∃ l, circle.build = .ok l ∧
      (l.calls (Cursor.start (bytesOf "ab?#c!") 0) circleCalls).1.map
          (fun t => (t.id, t.start, t.stop)) =
        [(300, 0, 2), (TokenId.invalid, 2, 3), (300, 4, 5), (TokenId.invalid, 5, 6)] ∧
      (∃ performed, l.Performs (Cursor.start (bytesOf "ab?#c!") 0) circleCalls performed
        (l.calls (Cursor.start (bytesOf "ab?#c!") 0) circleCalls).2) ∧
      (∀ performed after,
        l.Performs (Cursor.start (bytesOf "ab?#c!") 0) circleCalls performed after →
          (emptyPlaces performed).Nodup) ∧
      l.Halts (bytesOf "ab?#c!")
        (l.calls (Cursor.start (bytesOf "ab?#c!") 0) circleCalls).2 := by
  have hanswers : (match circle.build with
      | .ok l => some ((l.calls (Cursor.start (bytesOf "ab?#c!") 0) circleCalls).1.map
        fun t => (t.id, t.start, t.stop))
      | .error _ => none) = some [(300, 0, 2), (TokenId.invalid, 2, 3), (300, 4, 5),
        (TokenId.invalid, 5, 6)] := by
    decide +kernel
  have hreachable : circle.Reachable :=
    .flags _ (.rule _ (.rule _ (.rule _ (.rule _ (.state _ (.state _ .empty))))))
  cases hbuild : circle.build with
  | error e =>
    rw [hbuild] at hanswers
    cases hanswers
  | ok l =>
    rw [hbuild] at hanswers
    exact ⟨l, rfl, Option.some.inj hanswers, halts_of_calls hreachable hbuild _ _ _⟩

end LexerDefinition

end FrontEnd
