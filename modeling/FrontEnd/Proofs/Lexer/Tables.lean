import FrontEnd.Proofs.Dfa.Simulation
import FrontEnd.Proofs.Lexer.Cursor

/-!
# Tables in range

The tables of a lexer that has been built fit together: each number that is read from one of them is
in the range of the table that it leads to.  So the lexer can look up its tables, and the bytes of
its input, without any default for an index out of range.

## Main Definitions

* `Dfa.InRange`, `Lexer.InRange` — the sizes of the tables, and the ranges of their entries
* `Lexer.longestMatch?`, `Lexer.advance?` — the search for a match and the next token, by offsets
  and with all look-ups checked

## Main Statements

* `Lexer.InRange.scan?_eq` — a scan that starts in range stays there
* `LexerDefinition.inRange_of_build` — the tables of a lexer that has been built
* `LexerDefinition.lookups_succeed` — no look-up of a lexer that has been built fails

## Design Notes

The dead state is the first number that is not a state, so it may stand in the table but is no index
of it.  In the checked functions `none` stands for a look-up out of range; a search that finds no
match answers `some none`.
-/

namespace FrontEnd

/-- The sizes of the tables of an automaton, and the ranges of their entries. -/
structure Dfa.InRange (dfa : Dfa) (numRules : Nat) : Prop where
  size_table : dfa.table.size = dfa.size * dfa.groups
  table_le : ∀ target ∈ dfa.table, target ≤ dfa.size
  size_accept : dfa.accept.size = dfa.size
  size_lineEndAccept : dfa.lineEndAccept.size = dfa.size
  accept_lt : ∀ rule, some rule ∈ dfa.accept → rule < numRules
  lineEndAccept_lt : ∀ rule, some rule ∈ dfa.lineEndAccept → rule < numRules

/-- The sizes of the tables of a lexer, and the ranges of their entries. -/
structure Lexer.InRange (l : Lexer) : Prop where
  dfa : l.dfa.InRange l.numRules
  size_groups : l.groups.table.size = 256
  group_lt : ∀ group ∈ l.groups.table, group < l.dfa.groups
  length_entries : l.entries.length = l.numStates
  entry_lt : ∀ entry ∈ l.entries, entry.1 < l.dfa.size ∧ entry.2 < l.dfa.size
  change_lt : ∀ t ∈ l.terminals, ∀ s, t.change = .goto s ∨ t.change = .push s → s < l.numStates

/-! ### Checked look-ups

Beside each function that looks something up stands one that fails when an index is out of range.
Where both are equal, no default has been used. -/

/-- The bytes of an input between two offsets, which must be in order and in the input. -/
def slice? (input : List UInt8) (start stop : Nat) : Option (List UInt8) :=
  if start ≤ stop ∧ stop ≤ input.length then some (bytesBetween input start stop) else none

/-- The state after a byte of a group. -/
def Dfa.next? (dfa : Dfa) (state group : Nat) : Option Nat := dfa.table[state * dfa.groups + group]?

namespace Lexer

/-- The rule that is accepted in a state of the automaton at an offset of an input. -/
def accepting? (l : Lexer) (input : List UInt8) (node position : Nat) : Option (Option Nat) :=
  match l.dfa.accept[node]?, l.dfa.lineEndAccept[node]? with
  | some accept, some none => some accept
  | some accept, some (some rule) =>
    if position = input.length then some (some rule)
    else input[position]?.map fun b => if b = lineFeed then some rule else accept
  | _, _ => none

/-- The last match when the automaton goes on from a state at an offset of an input: the rule and
the offset behind the match. -/
def scan? (l : Lexer) (input : List UInt8) (node position : Nat) (last : Option (Nat × Nat)) :
    Option (Option (Nat × Nat)) :=
  match l.accepting? input node position with
  | none => none
  | some accepted =>
    let last := (accepted.map fun rule => (rule, position)).or last
    if position = input.length then some last
    else
      match _h : input[position]? with
      | none => none
      | some b =>
        match l.groups.table[b.toNat]?.bind (l.dfa.next? node) with
        | none => none
        | some node =>
          if l.dfa.isDead node then some last else l.scan? input node (position + 1) last
termination_by input.length - position
decreasing_by
  have hlt := (List.getElem?_eq_some_iff.1 _h).choose
  omega

/-- The longest match that starts at an offset of an input: the rule and the offset behind the
match.  An unknown lexer state matches nothing. -/
def longestMatch? (l : Lexer) (input : List UInt8) (start state : Nat) :
    Option (Option (Nat × Nat)) :=
  match if start = 0 then some true else input[start - 1]?.map (· == lineFeed) with
  | none => none
  | some atLineStart =>
    match l.entries[state]? with
    | none => some none
    | some (insideLine, lineStart) =>
      l.scan? input (if atLineStart then lineStart else insideLine) start none

/-- One step of a cursor: a token and the cursor behind it, where the token is missing when the
match is dropped. -/
def step? (l : Lexer) (c : Cursor) : Option (Option Token × Cursor) :=
  if c.size ≤ c.position then
    (slice? c.input c.size c.size).map fun lexeme =>
      (some ⟨TokenId.endOfInput, 0, c.size, c.size, c.state, lexeme⟩, c)
  else
    (l.longestMatch? c.input c.position c.state).bind fun found =>
      let allowed := found.bind fun (rule, stop) =>
        if c.position < stop then some (rule, stop, c)
        else c.rememberEmpty?.map fun c => (rule, stop, c)
      match allowed with
      | none =>
        (slice? c.input c.position (c.position + 1)).map fun lexeme =>
          (some ⟨TokenId.invalid, 0, c.position, c.position + 1, c.state, lexeme⟩, c.forward 1)
      | some (rule, stop, after) =>
        l.terminals[rule]?.bind fun t =>
          let after := (after.apply t.change).forward (stop - c.position)
          if t.isSkip then some (none, after)
          else (slice? c.input c.position stop).map fun lexeme =>
            (some ⟨t.token, t.userData, c.position, stop, after.state, lexeme⟩, after)

/-- Steps until there is a token. -/
def advanceWithin? (l : Lexer) : Nat → Cursor → Option (Token × Cursor)
  | 0, c => some (c.endToken, c)
  | bound + 1, c =>
    match l.step? c with
    | none => none
    | some (some t, c) => some (t, c)
    | some (none, c) => l.advanceWithin? bound c

/-- The next token. -/
def advance? (l : Lexer) (c : Cursor) : Option (Token × Cursor) :=
  l.advanceWithin? (c.stepBound l.numStates) c

/-! ### Look-ups in range

A state that is in range leads to a state in range or to the dead state, at which the scan stops.
So the scan is in range by induction on the bytes ahead. -/

section Lookups

variable {l : Lexer} {input : List UInt8} {node : Nat}

/-- Inside of the input, a line ends in front of a line feed. -/
theorem atLineBreak_drop_of_lt {position : Nat} (h : position < input.length) :
    atLineBreak (input.drop position) = (input[position] == lineFeed) := by
  rw [List.drop_eq_getElem_cons h]
  rfl

/-- What a state accepts is looked up in range. -/
theorem InRange.accepting?_eq (h : l.InRange) (hnode : node < l.dfa.size) {position : Nat}
    (hposition : position ≤ input.length) :
    l.accepting? input node position = some (l.accepting node (input.drop position)) := by
  have haccept : node < l.dfa.accept.size := h.dfa.size_accept ▸ hnode
  have hlineEnd : node < l.dfa.lineEndAccept.size := h.dfa.size_lineEndAccept ▸ hnode
  unfold accepting? accepting
  rw [Array.getElem?_eq_getElem haccept, Array.getElem?_eq_getElem hlineEnd,
    Array.getD_eq_getD_getElem?, Array.getD_eq_getD_getElem?, Array.getElem?_eq_getElem haccept,
    Array.getElem?_eq_getElem hlineEnd]
  cases l.dfa.lineEndAccept[node] with
  | none => rfl
  | some rule =>
    rcases Nat.lt_or_eq_of_le hposition with hlt | rfl
    · dsimp only [Option.getD_some]
      rw [if_neg (Nat.ne_of_lt hlt), List.getElem?_eq_getElem hlt, atLineBreak_drop_of_lt hlt]
      simp
    · simp [atLineBreak]

/-- What a state accepts stands in one of the tables. -/
theorem mem_tables_of_accepting {rest : List UInt8} {rule : Nat}
    (h : l.accepting node rest = some rule) :
    some rule ∈ l.dfa.accept ∨ some rule ∈ l.dfa.lineEndAccept := by
  have hmem : ∀ {table : Array (Option Nat)}, table.getD node none = some rule →
      some rule ∈ table := by
    intro table hget
    rw [Array.getD_eq_getD_getElem?] at hget
    cases hentry : table[node]? with
    | none =>
      rw [hentry] at hget
      cases hget
    | some entry =>
      rw [hentry] at hget
      obtain rfl : entry = some rule := hget
      exact Array.mem_of_getElem? hentry
  unfold accepting at h
  split at h
  · next other hother =>
    split at h
    · exact .inr (hmem (h ▸ hother))
    · exact .inl (hmem h)
  · exact .inl (hmem h)

/-- A state accepts a rule of the lexer. -/
theorem InRange.lt_of_accepting (h : l.InRange) {rest : List UInt8} {rule : Nat}
    (haccepting : l.accepting node rest = some rule) : rule < l.numRules :=
  (mem_tables_of_accepting haccepting).elim (h.dfa.accept_lt rule) (h.dfa.lineEndAccept_lt rule)

/-- The state after a byte is looked up in range. -/
theorem InRange.next?_eq (h : l.InRange) (hnode : node < l.dfa.size) (b : UInt8) :
    l.groups.table[b.toNat]?.bind (l.dfa.next? node) =
      some (l.dfa.next node (l.groups.group b)) := by
  have hb : b.toNat < l.groups.table.size := h.size_groups ▸ b.toNat_lt
  have hgroup : l.groups.table[b.toNat] < l.dfa.groups := h.group_lt _ (Array.getElem_mem hb)
  have hcell : node * l.dfa.groups + l.groups.table[b.toNat] < l.dfa.table.size := by
    rw [h.dfa.size_table]
    have hrow : (node + 1) * l.dfa.groups ≤ l.dfa.size * l.dfa.groups :=
      Nat.mul_le_mul_right _ hnode
    rw [Nat.succ_mul] at hrow
    omega
  rw [ByteGroups.group, Dfa.next, Array.getD_eq_getD_getElem?, Array.getD_eq_getD_getElem?,
    Array.getElem?_eq_getElem hb, Option.getD_some, Array.getElem?_eq_getElem hcell,
    Option.getD_some]
  exact Array.getElem?_eq_getElem hcell

/-- **A scan that starts in a state stays in range**, and finds what the scan over the bytes left
finds. -/
theorem InRange.scan?_eq (h : l.InRange) (hnode : node < l.dfa.size) (start length : Nat)
    (hlength : start + length ≤ input.length) (last : Option (Nat × Nat)) :
    l.scan? input node (start + length) (last.map (Prod.map id (start + ·))) =
      some ((l.scan node length last (input.drop (start + length))).map
        (Prod.map id (start + ·))) := by
  -- lengths and offsets differ by the start of the scan
  have hlatest : ∀ (accepted : Option Nat) (length : Nat) (last : Option (Nat × Nat)),
      (accepted.map fun rule => (rule, start + length)).or (last.map (Prod.map id (start + ·))) =
        ((accepted.map fun rule => (rule, length)).or last).map (Prod.map id (start + ·)) := by
    intro accepted length last
    cases accepted <;> rfl
  obtain ⟨rest, hrest⟩ : ∃ rest, input.drop (start + length) = rest := ⟨_, rfl⟩
  induction rest generalizing node length last with
  | nil =>
    have hend : start + length = input.length :=
      Nat.le_antisymm hlength (List.drop_eq_nil_iff.1 hrest)
    rw [scan?, h.accepting?_eq hnode hlength, hrest, scan_nil]
    dsimp only
    rw [if_pos hend, hlatest]
  | cons b rest ih =>
    have hlt : start + length < input.length := by
      rw [← Nat.not_le, ← List.drop_eq_nil_iff, hrest]
      exact List.cons_ne_nil b rest
    obtain ⟨rfl, hrest'⟩ := List.cons.inj ((List.drop_eq_getElem_cons hlt).symm.trans hrest)
    rw [scan?, h.accepting?_eq hnode hlength, hrest, scan_cons]
    dsimp only
    rw [if_neg (Nat.ne_of_lt hlt), hlatest]
    split
    · next hnone =>
      rw [List.getElem?_eq_getElem hlt] at hnone
      cases hnone
    · next b hb =>
      rw [List.getElem?_eq_getElem hlt] at hb
      obtain rfl := Option.some.inj hb
      rw [h.next?_eq hnode]
      dsimp only
      split
      · rfl
      · next halive =>
        have hnext : l.dfa.next node (l.groups.group input[start + length]) < l.dfa.size := by
          simpa [Dfa.isDead] using halive
        have hstep := ih hnext (length + 1) hlt
          (((l.accepting node (input[start + length] :: rest)).map fun rule =>
            (rule, length)).or last) hrest'
        rwa [← Nat.add_assoc, hrest'] at hstep

/-- What is found ahead is a rule of the lexer, and lies in the bytes ahead. -/
theorem InRange.matchAhead_spec (h : l.InRange) {behind ahead : List UInt8}
    {state rule length : Nat} (hmatch : l.matchAhead behind ahead state = some (rule, length)) :
    rule < l.numRules ∧ length ≤ ahead.length := by
  unfold matchAhead at hmatch
  split at hmatch
  · cases hmatch
  · obtain hnone | ⟨node, rest, haccepting, hlength⟩ := exists_accepting_of_scan hmatch
    · cases hnone
    · exact ⟨h.lt_of_accepting haccepting, by omega⟩

/-- **The search for a match** makes no look-up out of range, whatever the lexer state is. -/
theorem InRange.longestMatch?_eq (h : l.InRange) {start : Nat} (hstart : start ≤ input.length)
    (state : Nat) :
    l.longestMatch? input start state = some (l.longestMatch input start state) := by
  have hline : (if start = 0 then some true else input[start - 1]?.map (· == lineFeed)) =
      some (atLineBreak (input.take start).reverse) := by
    cases start with
    | zero => rfl
    | succ i =>
      rw [if_neg (Nat.succ_ne_zero i), Nat.add_sub_cancel, List.getElem?_eq_getElem hstart,
        List.take_succ_eq_append_getElem hstart, List.reverse_append]
      rfl
  unfold longestMatch? longestMatch matchAhead
  rw [hline]
  dsimp only
  cases hentry : l.entries[state]? with
  | none => rfl
  | some entry =>
    obtain ⟨hinside, hlineStart⟩ := h.entry_lt entry (List.mem_of_getElem? hentry)
    have hnode : (if atLineBreak (input.take start).reverse then entry.2 else entry.1) <
        l.dfa.size := by
      split
      · exact hlineStart
      · exact hinside
    exact h.scan?_eq hnode start 0 hstart none

/-- Bytes of the input can be copied without a check when the offsets are in range. -/
theorem slice?_eq {start length : Nat} (h : start + length ≤ input.length) :
    slice? input start (start + length) = some ((input.drop start).take length) := by
  rw [slice?, if_pos ⟨Nat.le_add_right _ _, h⟩, bytesBetween, Nat.add_sub_cancel_left]

/-- The match that is allowed at the place of a cursor, by offsets. -/
theorem allowed_eq (l : Lexer) (c : Cursor) :
    ((l.longestMatch c.input c.position c.state).bind fun (rule, stop) =>
        if c.position < stop then some (rule, stop, c)
        else c.rememberEmpty?.map fun c => (rule, stop, c)) =
      (l.matchAt c).map fun (rule, length, after) => (rule, c.position + length, after) := by
  rw [l.longestMatch_eq c, matchAt]
  cases l.matchAhead c.behind c.ahead c.state with
  | none => rfl
  | some found =>
    obtain ⟨rule, length⟩ := found
    rw [Option.map_some, Option.bind_some]
    dsimp only
    rcases Nat.eq_zero_or_pos length with rfl | hpos
    · rw [if_neg (Nat.not_lt.2 (Nat.le_of_eq (Nat.add_zero _))), if_pos rfl]
      cases c.rememberEmpty? <;> rfl
    · rw [if_pos (Nat.lt_add_of_pos_right hpos), if_neg (Nat.ne_of_gt hpos)]
      rfl

/-- An allowed match is one that is found. -/
theorem InRange.matchAt_spec (h : l.InRange) {c after : Cursor} {rule length : Nat}
    (hmatch : l.matchAt c = some (rule, length, after)) :
    rule < l.numRules ∧ length ≤ c.ahead.length := by
  unfold matchAt at hmatch
  split at hmatch
  · cases hmatch
  next found hfound =>
  have hspec := h.matchAhead_spec hfound
  split at hmatch
  · obtain ⟨_, -, heq⟩ := Option.map_eq_some_iff.1 hmatch
    cases heq
    exact hspec
  · cases hmatch
    exact hspec

/-- **One step** makes no look-up out of range. -/
theorem InRange.step?_eq (h : l.InRange) (c : Cursor) : l.step? c = some (l.step c) := by
  have hsize := c.size_eq
  unfold step? step
  cases hend : c.atEnd with
  | true =>
    have hposition : c.position = c.size := c.size_eq_length ▸ Cursor.atEnd_iff.1 hend
    rw [if_pos (Nat.le_of_eq hposition.symm), if_pos rfl]
    have hslice : slice? c.input c.size c.size = some [] := by
      rw [slice?, if_pos ⟨Nat.le_refl _, Nat.le_of_eq c.size_eq_length⟩, bytesBetween, Nat.sub_self,
        List.take_zero]
    rw [hslice]
    rfl
  | false =>
    have hpos := Cursor.length_ahead_pos hend
    have hlt : ¬ c.size ≤ c.position := by omega
    have hslice : ∀ length, length ≤ c.ahead.length →
        slice? c.input c.position (c.position + length) = some (c.ahead.take length) := by
      intro length hlength
      rw [slice?_eq (by rw [← c.size_eq_length]; omega), c.ahead_eq]
    rw [if_neg hlt, if_neg Bool.false_ne_true, h.longestMatch?_eq c.position_le, Option.bind_some]
    dsimp only
    rw [l.allowed_eq c]
    cases hmatch : l.matchAt c with
    | none =>
      rw [Option.map_none, hslice 1 hpos]
      rfl
    | some found =>
      obtain ⟨rule, length, after⟩ := found
      obtain ⟨hrule, hlength⟩ := h.matchAt_spec hmatch
      obtain ⟨terminal, hterminal⟩ : ∃ terminal, l.terminals[rule]? = some terminal :=
        ⟨_, List.getElem?_eq_getElem hrule⟩
      rw [Option.map_some]
      dsimp only
      rw [terminal?, hterminal, Option.bind_some, Nat.add_sub_cancel_left, Option.getD_some,
        hslice length hlength]
      split <;> rfl

/-- **The next token** is found without a look-up out of range. -/
theorem InRange.advance?_eq (h : l.InRange) (c : Cursor) :
    l.advance? c = some (l.advance c) := by
  unfold advance? advance
  generalize c.stepBound l.numStates = bound
  induction bound generalizing c with
  | zero => rfl
  | succ bound ih =>
    unfold advanceWithin? advanceWithin
    rw [h.step?_eq]
    rcases l.step c with ⟨_ | t, c⟩
    · exact ih c
    · rfl

end Lookups

end Lexer

/-! ### The tables of a build

The sizes and the ranges come from determinization and from the rules that have been resolved. -/

/-- A rule that a set of states accepts is the rule of a mark. -/
theorem Dfa.exists_of_accepts {nfa : Nfa} {s : StateSet} {rule : Nat}
    (h : (accepts nfa s).1 = some rule ∨ (accepts nfa s).2 = some rule) :
    ∃ i a, (nfa.state i).accept = some a ∧ a.rule = rule := by
  obtain ⟨hanywhere, hlineEnd⟩ := accepts_iff nfa s
  rcases h with h | h
  · obtain ⟨i, -, ha⟩ := ((hanywhere rule).1 h).1
    exact ⟨i, _, ha, rfl⟩
  · obtain ⟨i, -, ha⟩ := ((hlineEnd rule).1 h).1.1
    exact ⟨i, _, ha, rfl⟩

/-- The tables of an automaton are in range when its marks are those of the rules. -/
theorem Dfa.inRange_build {nfa : Nfa} (hwf : nfa.WellFormed) {starts : List Nat}
    (hstarts : ∀ i ∈ starts, i < nfa.size) {numRules : Nat}
    (hmarks : ∀ i a, (nfa.state i).accept = some a → a.rule < numRules) :
    (build nfa (ByteGroups.ofSets nfa.moveSets) starts).InRange numRules := by
  obtain ⟨subsets, initial, table, hexplored, hbuild⟩ := exists_explored hwf hstarts
  rw [build_eq_buildWithin, hbuild _ (Nat.le_of_eq (Nat.one_shiftLeft _).symm)]
  have htables := hexplored.determinizes hwf hstarts
  have hrule : ∀ s rule, (accepts nfa s).1 = some rule ∨ (accepts nfa s).2 = some rule →
      rule < numRules := by
    intro s rule h
    obtain ⟨i, a, ha, rfl⟩ := exists_of_accepts h
    exact hmarks i a ha
  refine ⟨htables.size_table, htables.table_le, by simp [ofRows], by simp [ofRows], ?_, ?_⟩
  · intro rule hmem
    obtain ⟨pair, hpair, hfst⟩ := Array.mem_map.1 hmem
    obtain ⟨s, -, rfl⟩ := Array.mem_map.1 hpair
    exact hrule s rule (.inl hfst)
  · intro rule hmem
    obtain ⟨pair, hpair, hsnd⟩ := Array.mem_map.1 hmem
    obtain ⟨s, -, rfl⟩ := Array.mem_map.1 hpair
    exact hrule s rule (.inr hsnd)

namespace LexerDefinition

variable {d : LexerDefinition} {l : Lexer}

/-- **The tables of a lexer that has been built are in range.** -/
theorem inRange_of_build (hbuild : d.build = .ok l) : l.InRange := by
  obtain ⟨resolved, hresolved, rfl⟩ := exists_of_build hbuild
  have hstates := lt_numStates_of_resolved hresolved
  have hwf := Nfa.wellFormed_ofRules hstates
  have hstarts : ∀ i ∈ d.startStates, i < (Nfa.ofRules d.numStates resolved).size := by
    intro i hi
    exact Nat.lt_of_lt_of_le (List.mem_range.1 hi) (Nfa.le_size_ofRules hstates)
  have hrules : (d.assemble resolved).numRules = resolved.length := by
    simp [Lexer.numRules, assemble, length_of_resolveFrom hresolved]
  obtain ⟨found, hshows, hinitial⟩ := Dfa.exists_shows_build hwf hstarts
  -- the entry for a start state is a state of the automaton
  have hentry : ∀ i < 2 * d.numStates,
      (d.assemble resolved).dfa.initial.getD i (d.assemble resolved).dfa.size <
        (d.assemble resolved).dfa.size := by
    intro i hi
    have halive := hshows.alive _ _ (hinitial i i (d.assemble resolved).dfa.size
      (List.getElem?_range hi))
    rw [Dfa.isDead, decide_eq_false_iff_not] at halive
    exact Nat.lt_of_not_le halive
  refine {
    dfa := Dfa.inRange_build hwf hstarts fun i a ha =>
      hrules.symm ▸ Nfa.rule_lt_of_accept_ofRules ha
    size_groups := ByteGroups.size_table _
    group_lt := fun group hgroup => ByteGroups.lt_count_of_mem_table hgroup
    length_entries := by simp [assemble, Lexer.numStates]
    entry_lt := ?_
    change_lt := ?_ }
  · intro entry hmem
    obtain ⟨state, hstate, rfl⟩ := List.mem_map.1 hmem
    have hlt : state < d.numStates := List.mem_range.1 hstate
    refine ⟨hentry _ ?_, hentry _ ?_⟩
    · rw [Nfa.insideLine]
      omega
    · rw [Nfa.lineStart]
      omega
  · intro t ht s hs
    obtain ⟨⟨rule, r⟩, hmem, rfl⟩ := List.mem_map.1 ht
    exact lt_numStates_of_change hresolved (List.of_mem_zip hmem).2 hs

/-- **No look-up of a lexer that has been built fails**: its tables fit together, so the longest
match and the next token are found without an index out of range, at any offset of any input, in any
lexer state, known or not. -/
theorem lookups_succeed (hbuild : d.build = .ok l) :
    l.InRange ∧
      (∀ input start state, start ≤ input.length →
        l.longestMatch? input start state = some (l.longestMatch input start state)) ∧
      ∀ c : Cursor, l.advance? c = some (l.advance c) := by
  have hrange := inRange_of_build hbuild
  exact ⟨hrange, fun input start state hstart => hrange.longestMatch?_eq hstart state,
    hrange.advance?_eq⟩

/-- A word is found behind blanks, and nothing in an unknown lexer state. -/
theorem lookups_succeed_wordsAndSemicolons :
    ∃ l, wordsAndSemicolons.build = .ok l ∧ l.InRange ∧
      l.longestMatch? (bytesOf "  ab") 2 0 = some (some (0, 4)) ∧
      l.longestMatch? (bytesOf "  ab") 2 7 = some none ∧
      (l.advance? (Cursor.start (bytesOf "  ab") 0)).map Prod.fst =
        some ⟨300, 0, 2, 4, 0, bytesOf "ab"⟩ := by
  have hanswers : wordsAndSemicolons.build.map (fun l =>
      (l.longestMatch (bytesOf "  ab") 2 0, l.longestMatch (bytesOf "  ab") 2 7,
        (l.advance (Cursor.start (bytesOf "  ab") 0)).1)) =
        .ok (some (0, 4), none, ⟨300, 0, 2, 4, 0, bytesOf "ab"⟩) := by
    decide +kernel
  obtain ⟨l, hbuild, hfound⟩ := exists_of_map_eq_ok hanswers
  obtain ⟨hknown, hrest⟩ := Prod.mk.inj hfound
  obtain ⟨hunknown, hnext⟩ := Prod.mk.inj hrest
  obtain ⟨hrange, hmatch, hadvance⟩ := lookups_succeed hbuild
  have hle : 2 ≤ (bytesOf "  ab").length := by decide
  refine ⟨l, hbuild, hrange, ?_, ?_, ?_⟩
  · rw [hmatch _ _ _ hle, hknown]
  · rw [hmatch _ _ _ hle, hunknown]
  · rw [hadvance, Option.map_some, hnext]

end LexerDefinition

end FrontEnd
