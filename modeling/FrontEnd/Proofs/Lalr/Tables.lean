import FrontEnd.Lalr.Tables
import FrontEnd.Proofs.Lalr.Lookahead

/-!
# Parse tables

Each entry of the tables is something that its state could do with its terminal, or an error,
whatever conflicts there were.  Where there is at most one thing to do, the entry is that one.

## Main Definitions

* `Candidates.Allows` — an action is among the candidates, or an error
* `Candidates.count` — how many things there are to do
* `Grammar.decided`, `Grammar.entry` — what is decided for a state and a terminal
* `Grammar.Justified` — an action is what the items of a state make of a terminal
* `Grammar.ConflictFree` — there is at most one thing to do for each state and each terminal

## Main Statements

* `Grammar.settleAll_spec` — the entries and the decisions of all states
* `Grammar.justified_action` — every entry is justified
* `Grammar.action_eq_of_justified` — without conflicts, what is justified is entered
* `Grammar.goto_generate` — the states behind nonterminals

## Design Notes

The table is filled row by row, and within a row terminal by terminal, each time from what stands
there already.  No terminal is visited twice, so what stands there is the first entry of the row or
the shift, and the final entry is a function of the candidates of the terminal alone.
-/

namespace FrontEnd

/-! ### Decisions

What is decided from some candidates is one of them or an error.  This holds for all conflicts,
whatever the precedences are. -/

namespace Candidates

/-- An action is among the candidates, or an error. -/
def Allows (c : Candidates) : Action → Prop
  | .shift s => c.shift = some s
  | .reduce p => p ∈ c.reductions
  | .accept => c.accept = true
  | .goto _ => False
  | .error _ => True

/-- How many things there are to do. -/
def count (c : Candidates) : Nat :=
  c.shift.isSome.toNat + c.accept.toNat + c.reductions.length

/-- Without reductions, the entry is the shift, the end or the error. -/
theorem allows_base (c : Candidates) : c.Allows (c.base Action.default) := by
  unfold base
  split
  · next haccept => exact haccept
  · split
    · next target hshift => exact hshift
    · trivial

end Candidates

namespace Grammar

variable {g : Grammar}

/-- Of a shift and a reduction, one is chosen, or an error. -/
theorem resolveShiftReduce_cases (g : Grammar) (t : TokenId) (target p : Nat) :
    (g.resolveShiftReduce t target p).1 = .reduce p ∨
      (g.resolveShiftReduce t target p).1 = .shift target ∨
      ∃ fault, (g.resolveShiftReduce t target p).1 = .error fault := by
  unfold resolveShiftReduce
  split
  · split
    · exact .inl rfl
    · split
      · exact .inr (.inl rfl)
      · split
        · exact .inl rfl
        · exact .inr (.inl rfl)
        · exact .inr (.inr ⟨_, rfl⟩)
        · exact .inr (.inl rfl)
  · exact .inr (.inl rfl)

/-- What is decided is among the candidates. -/
theorem allows_settle (g : Grammar) (s : Nat) (t : TokenId) (c : Candidates) :
    c.Allows (g.settle s t Action.default c).action := by
  have hbase := c.allows_base
  unfold settle
  dsimp only
  split
  · exact hbase
  · next p others hreductions =>
    have hp : c.Allows (.reduce p) := by
      show p ∈ c.reductions
      rw [hreductions]
      exact List.mem_cons_self
    split
    · next haccept => exact haccept ▸ hbase
    · next target hshift =>
      rw [hshift] at hbase
      dsimp only
      rcases g.resolveShiftReduce_cases t target p with h | h | ⟨fault, h⟩
      · rw [h]
        exact hp
      · rw [h]
        exact hbase
      · rw [h]
        trivial
    · exact hp

/-- Where there is only one thing to do, it is decided. -/
theorem settle_eq_of_allows {s : Nat} {t : TokenId} {c : Candidates} (hcount : c.count ≤ 1)
    {action : Action} (h : c.Allows action) (hne : action.isError = false) :
    (g.settle s t Action.default c).action = action := by
  -- the one thing there is rules out the others, and then the decision computes
  obtain ⟨shift, accept, reductions⟩ := c
  unfold Candidates.count at hcount
  dsimp only at hcount
  cases action with
  | shift target =>
    obtain rfl : shift = some target := h
    simp only [Option.isSome_some, Bool.toNat_true] at hcount
    obtain rfl : accept = false := Bool.toNat_eq_zero.1 (by omega)
    obtain rfl : reductions = [] := List.length_eq_zero_iff.1 (by omega)
    rfl
  | reduce p =>
    have hp : p ∈ reductions := h
    have hpos := List.length_pos_of_mem hp
    obtain rfl : shift = none :=
      Option.isSome_eq_false_iff.1 (Bool.toNat_eq_zero.1 (by omega)) |> Option.isNone_iff_eq_none.1
    obtain rfl : accept = false := Bool.toNat_eq_zero.1 (by omega)
    obtain ⟨q, rfl⟩ := List.length_eq_one_iff.1 (by omega : reductions.length = 1)
    obtain rfl := List.mem_singleton.1 hp
    rfl
  | accept =>
    obtain rfl : accept = true := h
    simp only [Bool.toNat_true] at hcount
    obtain rfl : shift = none :=
      Option.isSome_eq_false_iff.1 (Bool.toNat_eq_zero.1 (by omega)) |> Option.isNone_iff_eq_none.1
    obtain rfl : reductions = [] := List.length_eq_zero_iff.1 (by omega)
    rfl
  | goto target => exact h.elim
  | error fault => cases hne

/-- There is at most one thing to do when only one thing is allowed. -/
theorem Candidates.count_le_one {c : Candidates} (hnodup : c.reductions.Nodup) {action : Action}
    (honly : ∀ other, c.Allows other → other.isError = false → other = action) : c.count ≤ 1 := by
  obtain ⟨shift, accept, reductions⟩ := c
  -- any two different ones would both be that one
  have hshift : ∀ target, shift = some target → .shift target = action :=
    fun target h => honly (.shift target) h rfl
  have haccept : accept = true → .accept = action := fun h => honly .accept h rfl
  have hreduce : ∀ p ∈ reductions, .reduce p = action := fun p h => honly (.reduce p) h rfl
  unfold Candidates.count
  cases shift with
  | some target =>
    obtain rfl := hshift target rfl
    have hreductions : reductions = [] :=
      List.eq_nil_iff_forall_not_mem.2 fun p hp => by cases hreduce p hp
    cases accept with
    | true => cases haccept rfl
    | false => simp [hreductions]
  | none =>
    cases accept with
    | true =>
      obtain rfl := haccept rfl
      have hreductions : reductions = [] :=
        List.eq_nil_iff_forall_not_mem.2 fun p hp => by cases hreduce p hp
      simp [hreductions]
    | false =>
      match reductions, hnodup with
      | [], _ => simp
      | [p], _ => simp
      | p :: q :: rest, hnodup =>
        have heq := (hreduce p (by simp)).trans (hreduce q (by simp)).symm
        obtain rfl := Action.reduce.inj heq
        simp at hnodup

/-- Where there are a shift and one reduction, the choice between them is made. -/
theorem settle_eq_resolveShiftReduce {s : Nat} {t : TokenId} {c : Candidates}
    (hnodup : c.reductions.Nodup) {target p : Nat} (hshift : c.Allows (.shift target))
    (hreduce : c.Allows (.reduce p)) (haccept : ¬ c.Allows .accept)
    (honly : ∀ q, c.Allows (.reduce q) → q = p) :
    (g.settle s t Action.default c).action = (g.resolveShiftReduce t target p).1 := by
  obtain ⟨shift, accept, reductions⟩ := c
  obtain rfl : shift = some target := hshift
  obtain rfl : accept = false := Bool.eq_false_iff.2 haccept
  have hmem : p ∈ reductions := hreduce
  obtain rfl : reductions = [p] := by
    match reductions, hmem, hnodup with
    | [q], _, _ => rw [honly q (List.mem_singleton_self q)]
    | q :: r :: rest, _, hnodup =>
      have hq : q = p := honly q List.mem_cons_self
      have hr : r = p := honly r (List.mem_cons_of_mem q List.mem_cons_self)
      rw [hq, hr] at hnodup
      simp at hnodup
  rfl

/-- Where there is at most one thing to do, nothing is refused but what is unexpected. -/
theorem eq_unexpected_of_settle {s : Nat} {t : TokenId} {c : Candidates} (hcount : c.count ≤ 1)
    {fault : ParseFault} (h : (g.settle s t Action.default c).action = .error fault) :
    fault = .unexpected := by
  obtain ⟨shift, accept, reductions⟩ := c
  cases reductions with
  | nil =>
    cases accept with
    | true => cases h
    | false =>
      cases shift with
      | some target => cases h
      | none => exact (Action.error.inj h).symm
  | cons p others =>
    -- a reduction leaves no room for anything else, and it is entered
    have hallowed : (Candidates.mk shift accept (p :: others)).Allows (.reduce p) :=
      List.mem_cons_self
    rw [settle_eq_of_allows hcount hallowed rfl] at h
    cases h

/-! ### Entries

The loop over the terminals of a state, the loop over the states, and the entries behind them. -/

section Entries

variable {a : ItemAutomaton} {l : Lookaheads}

/-- The completed items of a state with the terminals that may follow them. -/
def completionsOf (g : Grammar) (l : Lookaheads) (s : Nat) : List (Nat × TokenSet) :=
  g.completions (g.closureWithLookaheads (l.state s))

/-- What is decided for a state and a terminal. -/
def decided (g : Grammar) (a : ItemAutomaton) (l : Lookaheads) (s : Nat) (t : TokenId) :
    Decision :=
  g.settle s t Action.default (g.candidates a (g.completionsOf l s) s t)

/-- The entry that is decided for a state and a terminal. -/
def entry (g : Grammar) (a : ItemAutomaton) (l : Lookaheads) (s : Nat) (t : TokenId) : Action :=
  if t ∈ concerned a (g.completionsOf l s) s then
    (g.settle s t Action.default (g.candidates a (g.completionsOf l s) s t)).action
  else Action.default

/-- Completed items, with the terminals that follow them. -/
theorem mem_completionsOf {s p : Nat} {set : TokenSet} :
    (p, set) ∈ g.completionsOf l s ↔ ∃ i, (i, set) ∈ g.closureWithLookaheads (l.state s) ∧
      g.isComplete i = true ∧ i.production = p := by
  unfold completionsOf completions
  simp only [List.mem_map, List.mem_filter, Prod.exists, Prod.mk.injEq]
  constructor
  · rintro ⟨i, set, ⟨hi, hcomplete⟩, hp, rfl⟩
    exact ⟨i, hi, hcomplete, hp⟩
  · rintro ⟨i, hi, hcomplete, hp⟩
    exact ⟨i, set, ⟨hi, hcomplete⟩, hp, rfl⟩

/-- The terminals over which a state has a move. -/
theorem mem_terminals_moves (ha : g.IsAutomaton a) {s : Nat} {t : TokenId} :
    t ∈ (a.moves.getD s []).filterMap (fun (x, _) => x.terminal?) ↔
      ∃ target, a.target? s (.terminal t) = some target := by
  rw [List.mem_filterMap]
  constructor
  · rintro ⟨⟨x, target⟩, hmem, hx⟩
    cases x with
    | nonterminal v => cases hx
    | terminal u =>
      obtain rfl := Option.some.inj hx
      exact ⟨target, (lookup_eq_some_iff_mem (ha.nodup_moves s)).2 hmem⟩
  · rintro ⟨target, ht⟩
    exact ⟨(.terminal t, target), (lookup_eq_some_iff_mem (ha.nodup_moves s)).1 ht, rfl⟩

/-- A state has one move at most for each terminal. -/
theorem nodup_terminals_moves (ha : g.IsAutomaton a) (s : Nat) :
    ((a.moves.getD s []).filterMap fun (x, _) => x.terminal?).Nodup := by
  have hmap : (a.moves.getD s []).filterMap (fun (x, _) => x.terminal?) =
      ((a.moves.getD s []).map Prod.fst).filterMap Symbol.terminal? := by
    rw [List.filterMap_map]
    rfl
  rw [hmap]
  apply (ha.nodup_moves s).filterMap
  intro x y t hx hy
  cases x <;> cases y <;> cases hx <;> cases hy
  rfl

/-- The terminals that are visited are shifted, or follow a completed item. -/
theorem mem_concerned (ha : g.IsAutomaton a) {completions : List (Nat × TokenSet)} {s : Nat}
    {t : TokenId} : t ∈ concerned a completions s ↔
      (∃ target, a.target? s (.terminal t) = some target) ∨
        ∃ p set, (p, set) ∈ completions ∧ t ∈ set := by
  have hfold : ∀ (completions : List (Nat × TokenSet)) (found : TokenSet),
      t ∈ completions.foldl (fun found e => TokenSet.union found e.2) found ↔
        t ∈ found ∨ ∃ p set, (p, set) ∈ completions ∧ t ∈ set := by
    intro completions
    induction completions with
    | nil => simp
    | cons e rest ih =>
      intro found
      obtain ⟨p, set⟩ := e
      rw [List.foldl_cons, ih]
      show t ∈ Sorted.union _ _ _ ∨ _ ↔ _
      rw [Sorted.mem_union, or_assoc]
      refine or_congr_right ⟨?_, ?_⟩
      · rintro (ht | ⟨q, other, hmem, ht⟩)
        · exact ⟨p, set, List.mem_cons_self, ht⟩
        · exact ⟨q, other, List.mem_cons_of_mem _ hmem, ht⟩
      · rintro ⟨q, other, hmem, ht⟩
        rcases List.mem_cons.1 hmem with heq | hmem
        · obtain ⟨-, rfl⟩ := Prod.mk.inj heq
          exact .inl ht
        · exact .inr ⟨q, other, hmem, ht⟩
  refine (hfold completions _).trans ?_
  rw [mem_terminals_moves ha]

/-- Each of them is visited once. -/
theorem nodup_concerned (ha : g.IsAutomaton a) (completions : List (Nat × TokenSet)) (s : Nat) :
    (concerned a completions s).Nodup := by
  unfold concerned
  refine List.foldlRecOn completions _ (nodup_terminals_moves ha s) ?_
  intro found hfound e _
  exact Sorted.nodup_union hfound _

/-- The terminals of a closure are those of right-hand sides, or the end of the input. -/
theorem mem_usedTerminals_or_eq_end {kernel : ItemTable}
    (hkernel : ∀ e ∈ kernel, e.2 ⊆ TokenId.endOfInput :: usedTerminals g.productions.toList)
    (hg : g.WellFormed) {i : Item} {t : TokenId} (h : g.Follows kernel i t) :
    t ∈ TokenId.endOfInput :: usedTerminals g.productions.toList := by
  induction h with
  | kernel hi ht => exact hkernel _ hi ht
  | first _ _ ht => exact List.mem_cons_of_mem _ (firstOf_tail_subset hg _ ht)
  | carry _ _ _ ih => exact ih

/-- A terminal of a right-hand side, and the end of the input, have a column. -/
theorem exists_column (hg : g.WellFormed) {t : TokenId}
    (ht : t ∈ TokenId.endOfInput :: usedTerminals g.productions.toList) :
    ∃ c < g.numTerminals, t = Int.ofNat c := by
  rcases List.mem_cons.1 ht with rfl | ht
  · exact ⟨0, hg.numTerminals_pos, rfl⟩
  · obtain ⟨p, hp, hmem⟩ := List.mem_flatMap.1 ht
    obtain ⟨x, hx, hterminal⟩ := List.mem_filterMap.1 hmem
    cases x with
    | nonterminal v => cases hterminal
    | terminal u =>
      obtain rfl := Option.some.inj hterminal
      obtain ⟨hpos, hlt⟩ : 0 < u ∧ u < (g.numTerminals : Int) :=
        hg.inRange p (Array.mem_toList_iff.1 hp) _ hx
      have hu : u = Int.ofNat u.toNat := (Int.toNat_of_nonneg (Int.le_of_lt hpos)).symm
      exact ⟨u.toNat, (Int.toNat_lt (Int.le_of_lt hpos)).2 hlt, hu⟩

/-- Each of them has a column in the tables. -/
theorem exists_column_of_concerned (hg : g.WellFormed) (ha : g.IsAutomaton a)
    (hl : g.IsLookaheads a l) {s : Nat} {t : TokenId}
    (ht : t ∈ concerned a (g.completionsOf l s) s) : ∃ c < g.numTerminals, t = Int.ofNat c := by
  apply exists_column hg
  rcases (mem_concerned ha).1 ht with ⟨target, htarget⟩ | ⟨p, set, hset, ht⟩
  · obtain ⟨i, -, hnext⟩ := ha.exists_next s _ target htarget
    exact List.mem_cons_of_mem _ (terminal_mem_rhsOf (List.mem_of_getElem? hnext))
  · obtain ⟨i, hi, -, -⟩ := mem_completionsOf.1 hset
    exact mem_usedTerminals_or_eq_end (hl.isOver.subset s) hg
      (((hl.isClosure hg s).follows_iff i set hi t).1 ht)

/-- The grid has a row for each state and a column for each terminal. -/
def Fits (g : Grammar) (a : ItemAutomaton) (grid : Grid Action) : Prop :=
  grid.rows = a.size ∧ grid.columns = g.numTerminals

/-- The entries of some terminals are decided, each from what is there. -/
theorem foldl_settleEntry_spec (completions : List (Nat × TokenSet)) {s : Nat} (hs : s < a.size)
    {terminals : TokenSet} (hnodup : terminals.Nodup)
    (hcolumns : ∀ t ∈ terminals, ∃ c < g.numTerminals, t = Int.ofNat c) {settled : Settled}
    (hfits : g.Fits a settled.actions) :
    g.Fits a (terminals.foldl (g.settleEntry a completions s) settled).actions ∧
      (∀ r c, (terminals.foldl (g.settleEntry a completions s) settled).actions.get? r c =
        if r = s ∧ Int.ofNat c ∈ terminals then
          some (g.settle s (Int.ofNat c)
            ((settled.actions.get? r c).getD Action.default)
            (g.candidates a completions s (Int.ofNat c))).action
        else settled.actions.get? r c) ∧
      (terminals.foldl (g.settleEntry a completions s) settled).decisions =
        (terminals.map fun t => g.settle s t ((settled.actions.cellAt? s t).getD Action.default)
          (g.candidates a completions s t)).reverse ++ settled.decisions := by
  induction terminals generalizing settled with
  | nil => exact ⟨hfits, fun r c => by simp, rfl⟩
  | cons t terminals ih =>
    obtain ⟨ht, hrest⟩ := List.nodup_cons.1 hnodup
    rw [List.forall_mem_cons] at hcolumns
    obtain ⟨⟨d, hd, rfl⟩, hcolumns⟩ := hcolumns
    obtain ⟨hrows, hcols⟩ := hfits
    have hset : ∀ action r c, (settled.actions.setAt s (Int.ofNat d) action).get? r c =
        if r = s ∧ c = d then some action else settled.actions.get? r c :=
      fun action r c => Grid.get?_setAt (hrows ▸ hs) (hcols ▸ hd)
    have hcell : ∀ c < g.numTerminals,
        settled.actions.cellAt? s (Int.ofNat c) = settled.actions.get? s c :=
      fun c hc => Grid.cellAt?_eq_get? (hcols ▸ hc)
    have hfits' : g.Fits a (g.settleEntry a completions s settled (Int.ofNat d)).actions :=
      ⟨Grid.rows_setAt.trans hrows, Grid.columns_setAt.trans hcols⟩
    obtain ⟨hfits'', hget, hdecisions⟩ := ih hrest hcolumns hfits'
    have hentry : ∀ r c, (g.settleEntry a completions s settled (Int.ofNat d)).actions.get? r c =
        if r = s ∧ c = d then some (g.settle s (Int.ofNat d)
          ((settled.actions.get? s d).getD Action.default)
          (g.candidates a completions s (Int.ofNat d))).action
        else settled.actions.get? r c := by
      intro r c
      rw [← hcell d hd]
      exact hset _ r c
    refine ⟨hfits'', fun r c => ?_, ?_⟩
    · rw [List.foldl_cons, hget]
      -- the first entry is not decided again, since no terminal comes twice
      by_cases hr : r = s
      · subst hr
        by_cases hcd : c = d
        · subst hcd
          rw [if_neg (fun h => ht h.2), hentry, if_pos ⟨rfl, rfl⟩,
            if_pos ⟨rfl, List.mem_cons_self⟩]
        · have hne : Int.ofNat c ≠ Int.ofNat d := fun h => hcd (Int.ofNat.inj h)
          have hkept := hentry r c
          rw [if_neg (fun h => hcd h.2)] at hkept
          rw [hkept]
          simp only [List.mem_cons, hne, false_or]
      · rw [hentry, if_neg (fun h => hr h.1), if_neg (fun h => hr h.1), if_neg (fun h => hr h.1)]
    · -- what is there for the other terminals has not been touched
      have hkept : ∀ u ∈ terminals,
          (g.settleEntry a completions s settled (Int.ofNat d)).actions.cellAt? s u =
            settled.actions.cellAt? s u := by
        intro u hu
        obtain ⟨c, hc, rfl⟩ := hcolumns u hu
        have hne : c ≠ d := fun h => ht (h ▸ hu)
        rw [hcell c hc, Grid.cellAt?_eq_get? (hfits'.2 ▸ hc), hentry, if_neg (fun h => hne h.2)]
      rw [List.foldl_cons, hdecisions, List.map_cons, List.reverse_cons, List.append_assoc,
        List.map_congr_left fun u hu => by rw [hkept u hu]]
      rfl

/-- **One state**: its row is filled in, the other rows stay as they are, and its decisions come in
front of the earlier ones. -/
theorem settleState_spec (hg : g.WellFormed) (ha : g.IsAutomaton a) (hl : g.IsLookaheads a l)
    {s : Nat} (hs : s < a.size) {settled : Settled} (hfits : g.Fits a settled.actions)
    (hrow : ∀ c < g.numTerminals, settled.actions.get? s c = some Action.default) :
    g.Fits a (g.settleState a l settled s).actions ∧
      (∀ r c, c < g.numTerminals → (g.settleState a l settled s).actions.get? r c =
        if r = s then some (g.entry a l s (Int.ofNat c)) else settled.actions.get? r c) ∧
      (g.settleState a l settled s).decisions =
        ((concerned a (g.completionsOf l s) s).map (g.decided a l s)).reverse ++
          settled.decisions := by
  have hcolumns := fun t ht => exists_column_of_concerned hg ha hl (s := s) (t := t) ht
  obtain ⟨hfits', hget, hdecisions⟩ := foldl_settleEntry_spec (g.completionsOf l s) hs
    (nodup_concerned ha _ s) hcolumns hfits
  refine ⟨hfits', fun r c hc => (hget r c).trans ?_, hdecisions.trans ?_⟩
  · unfold entry
    by_cases hr : r = s
    · subst hr
      rw [hrow c hc, if_pos rfl]
      by_cases hmem : Int.ofNat c ∈ concerned a (g.completionsOf l r) r
      · rw [if_pos ⟨rfl, hmem⟩, if_pos hmem]
        rfl
      · rw [if_neg (fun h => hmem h.2), if_neg hmem]
    · rw [if_neg (fun h => hr h.1), if_neg hr]
  · rw [List.map_congr_left (g := g.decided a l s)]
    intro t ht
    obtain ⟨c, hc, rfl⟩ := hcolumns t ht
    rw [Grid.cellAt?_eq_get? (hfits.2 ▸ hc), hrow c hc]
    rfl

/-- **The entries of all states are those that are decided**, and all decisions are kept. -/
theorem settleAll_spec (hg : g.WellFormed) (ha : g.IsAutomaton a) (hl : g.IsLookaheads a l) :
    g.Fits a (g.settleAll a l).actions ∧
      (∀ s c, s < a.size → c < g.numTerminals →
        (g.settleAll a l).actions.get? s c = some (g.entry a l s (Int.ofNat c))) ∧
      (g.settleAll a l).decisions.reverse = (List.range a.size).flatMap fun s =>
        (concerned a (g.completionsOf l s) s).map (g.decided a l s) := by
  let first : Settled := ⟨Grid.filled a.size g.numTerminals Action.default, []⟩
  -- the states with smaller numbers are decided, and the rows of the others are as in the beginning
  have hrange : ∀ n ≤ a.size,
      g.Fits a ((List.range n).foldl (g.settleState a l) first).actions ∧
      (∀ s c, s < a.size → c < g.numTerminals →
        ((List.range n).foldl (g.settleState a l) first).actions.get? s c =
          some (if s < n then g.entry a l s (Int.ofNat c) else Action.default)) ∧
      ((List.range n).foldl (g.settleState a l) first).decisions.reverse =
        (List.range n).flatMap fun s =>
          (concerned a (g.completionsOf l s) s).map (g.decided a l s) := by
    intro n
    induction n with
    | zero => exact fun _ => ⟨⟨rfl, rfl⟩, fun s c hs hc => Grid.get?_filled hs hc, rfl⟩
    | succ n ih =>
      intro hn
      obtain ⟨hfits, hget, hdecisions⟩ := ih (Nat.le_of_succ_le hn)
      rw [List.range_succ, List.foldl_append, List.foldl_cons, List.foldl_nil]
      obtain ⟨hfits', hget', hdecisions'⟩ := settleState_spec hg ha hl (s := n) hn hfits
        (fun c hc => (hget n c hn hc).trans (by rw [if_neg (Nat.lt_irrefl n)]))
      refine ⟨hfits', fun s c hs hc => ?_, ?_⟩
      · rw [hget' s c hc]
        by_cases hsn : s = n
        · subst hsn
          rw [if_pos rfl, if_pos (Nat.lt_succ_self s)]
        · have hiff : s < n + 1 ↔ s < n := by omega
          rw [if_neg hsn, hget s c hs hc]
          simp only [hiff]
      · rw [hdecisions', List.reverse_append, List.reverse_reverse, hdecisions, List.flatMap_append,
          List.flatMap_singleton]
  obtain ⟨hfits, hget, hdecisions⟩ := hrange a.size (Nat.le_refl _)
  refine ⟨hfits, fun s c hs hc => (hget s c hs hc).trans ?_, hdecisions⟩
  rw [if_pos hs]

/-! ### What the items of a state make of a terminal

The candidates are collected from the closure with its lookaheads, so an action is among them
exactly when an item justifies it. -/

/-- An action is what the items of a state make of a terminal: a shift over a move, a reduction by a
completed item that the terminal follows, or the end where the whole input has been read. -/
def Justified (g : Grammar) (a : ItemAutomaton) (l : Lookaheads) (s : Nat) (t : TokenId) :
    Action → Prop
  | .shift target => a.target? s (.terminal t) = some target
  | .reduce p => p ≠ g.acceptProduction ∧
    ∃ i, g.Follows (l.state s) i t ∧ g.isComplete i = true ∧ i.production = p
  | .accept => t = TokenId.endOfInput ∧
    ∃ i ∈ g.closure (a.kernel s), g.isComplete i = true ∧ i.production = g.acceptProduction
  | .goto _ => False
  | .error _ => True

/-- What the candidates allow is justified by items, and the converse. -/
theorem allows_candidates_iff (hg : g.WellFormed) (hl : g.IsLookaheads a l) {s : Nat} {t : TokenId}
    {action : Action} : (g.candidates a (g.completionsOf l s) s t).Allows action ↔
      g.Justified a l s t action := by
  have hclosure := hl.isClosure hg s
  have hkernel : (l.state s).map Prod.fst = a.kernel s := hl.isOver.map_fst s
  cases action with
  | shift target => exact Iff.rfl
  | goto target => exact Iff.rfl
  | error fault => exact Iff.rfl
  | reduce p =>
    show p ∈ Sorted.ofList _ _ ↔ _
    rw [Sorted.mem_ofList, List.mem_map]
    constructor
    · rintro ⟨⟨q, set⟩, hmem, rfl⟩
      obtain ⟨hset, hcond⟩ := List.mem_filter.1 hmem
      simp only [Bool.and_eq_true, bne_iff_ne, List.contains_iff_mem] at hcond
      obtain ⟨i, hi, hcomplete, hp⟩ := mem_completionsOf.1 hset
      exact ⟨hcond.1, i, (hclosure.follows_iff i set hi t).1 hcond.2, hcomplete, hp⟩
    · rintro ⟨hne, i, hi, hcomplete, hp⟩
      obtain ⟨set, hset⟩ := (hclosure.exists_mem_iff i).2 hi.mem_closure
      refine ⟨(p, set), List.mem_filter.2 ⟨mem_completionsOf.2 ⟨i, hset, hcomplete, hp⟩, ?_⟩, rfl⟩
      simp only [Bool.and_eq_true, bne_iff_ne, List.contains_iff_mem]
      exact ⟨hne, (hclosure.follows_iff i set hset t).2 hi⟩
  | accept =>
    show (t == TokenId.endOfInput && (g.completionsOf l s).any _) = true ↔ _
    rw [Bool.and_eq_true, beq_iff_eq, List.any_eq_true]
    apply and_congr_right
    intro _
    constructor
    · rintro ⟨⟨q, set⟩, hset, hq⟩
      obtain ⟨i, hi, hcomplete, rfl⟩ := mem_completionsOf.1 hset
      exact ⟨i, hkernel ▸ (hclosure.exists_mem_iff i).1 ⟨set, hi⟩, hcomplete, beq_iff_eq.1 hq⟩
    · rintro ⟨i, hi, hcomplete, hp⟩
      obtain ⟨set, hset⟩ := (hclosure.exists_mem_iff i).2 (hkernel.symm ▸ hi)
      exact ⟨(i.production, set), mem_completionsOf.2 ⟨i, hset, hcomplete, rfl⟩, beq_iff_eq.2 hp⟩

/-- What is entered is among the candidates, or an error. -/
theorem justified_entry (hg : g.WellFormed) (hl : g.IsLookaheads a l) (s : Nat) (t : TokenId) :
    g.Justified a l s t (g.entry a l s t) := by
  unfold entry
  split
  · exact (allows_candidates_iff hg hl).1 (g.allows_settle s t _)
  · trivial

/-- Each production is a candidate once. -/
theorem nodup_reductions (g : Grammar) (a : ItemAutomaton) (completions : List (Nat × TokenSet))
    (s : Nat) (t : TokenId) : (g.candidates a completions s t).reductions.Nodup :=
  Sorted.nodup_insertAll List.nodup_nil _

/-- A terminal that follows a completed item is visited. -/
theorem mem_concerned_of_follows (hg : g.WellFormed) (ha : g.IsAutomaton a)
    (hl : g.IsLookaheads a l) {s : Nat} {i : Item} {t : TokenId} (hi : g.Follows (l.state s) i t)
    (hcomplete : g.isComplete i = true) : t ∈ concerned a (g.completionsOf l s) s := by
  have hclosure := hl.isClosure hg s
  obtain ⟨set, hset⟩ := (hclosure.exists_mem_iff i).2 hi.mem_closure
  have hmem := mem_completionsOf.2 ⟨i, hset, hcomplete, rfl⟩
  exact (mem_concerned ha).2
    (.inr ⟨i.production, set, hmem, (hclosure.follows_iff i set hset t).2 hi⟩)

/-- Where there is at most one thing to do for a terminal, what is justified is entered. -/
theorem entry_eq_of_justified (hg : g.WellFormed) (hl : g.IsLookaheads a l) {s : Nat}
    {t : TokenId} (hcount : (g.candidates a (g.completionsOf l s) s t).count ≤ 1)
    (ht : t ∈ concerned a (g.completionsOf l s) s) {action : Action}
    (h : g.Justified a l s t action) (hne : action.isError = false) :
    g.entry a l s t = action := by
  unfold entry
  rw [if_pos ht]
  exact settle_eq_of_allows hcount ((allows_candidates_iff hg hl).2 h) hne

end Entries

/-! ### The tables of a grammar

The statements for the tables that are generated. -/

/-- There is at most one thing to do for each state and each terminal: a shift, a reduction, or the
end. -/
def ConflictFree (g : Grammar) : Prop :=
  ∀ s < g.automaton.size, ∀ t < g.numTerminals,
    (g.candidates g.automaton (g.completionsOf (g.lookaheads g.automaton) s) s
      (Int.ofNat t)).count ≤ 1

/-- Whether there are conflicts can be counted. -/
instance decidableConflictFree (g : Grammar) : Decidable g.ConflictFree :=
  inferInstanceAs (Decidable (∀ s < g.automaton.size, ∀ t < g.numTerminals, _ ≤ 1))

section Generate

variable {s : Nat} {t : TokenId}

/-- The tables are made for the automaton of the grammar. -/
theorem automaton_generate (g : Grammar) : g.generate.automaton = g.automaton := rfl

/-- The tables are made for the lookaheads of that automaton. -/
theorem lookaheads_generate (g : Grammar) :
    g.generate.lookaheads = g.lookaheads g.automaton := by
  unfold generate
  dsimp only

/-- The lookaheads of the automaton of the grammar. -/
theorem isLookaheads (hg : g.WellFormed) :
    g.IsLookaheads g.automaton (g.lookaheads g.automaton) :=
  isLookaheads_lookaheads hg g.isAutomaton_automaton

/-- Each entry is what has been decided for it. -/
theorem action_generate (hg : g.WellFormed) (hs : s < g.automaton.size) {c : Nat}
    (hc : c < g.numTerminals) : g.generate.tables.action s (Int.ofNat c) =
      g.entry g.automaton (g.lookaheads g.automaton) s (Int.ofNat c) := by
  obtain ⟨-, hget, -⟩ := settleAll_spec hg g.isAutomaton_automaton (isLookaheads hg)
  have hneg : ¬ Int.ofNat c < 0 := Int.not_lt.2 (Int.natCast_nonneg c)
  show (if Int.ofNat c < 0 then _ else
    ((g.settleAll g.automaton (g.lookaheads g.automaton)).actions.get? s c).getD _) = _
  rw [if_neg hneg, hget s c hs hc]
  rfl

/-- No move is over the end of the input. -/
theorem id_ne_of_target? (hg : g.WellFormed) {target : Nat}
    (h : g.automaton.target? s (.terminal t) = some target) : t ≠ TokenId.endOfInput := by
  obtain ⟨i, -, hnext⟩ := g.isAutomaton_automaton.exists_next s _ target h
  have hused := terminal_mem_rhsOf (List.mem_of_getElem? hnext)
  obtain ⟨p, hp, hmem⟩ := List.mem_flatMap.1 hused
  obtain ⟨x, hx, hterminal⟩ := List.mem_filterMap.1 hmem
  cases x with
  | nonterminal v => cases hterminal
  | terminal u =>
    obtain rfl := Option.some.inj hterminal
    have hpos := (hg.inRange p (Array.mem_toList_iff.1 hp) _ hx).1
    exact Int.ne_of_gt hpos

/-- There is no column for what is no terminal. -/
theorem action_eq_unknownToken (hg : g.WellFormed)
    (ht : ¬ ∃ c < g.numTerminals, t = Int.ofNat c) (s : Nat) :
    g.generate.tables.action s t = .error .unknownToken := by
  obtain ⟨hfits, -, -⟩ := settleAll_spec hg g.isAutomaton_automaton (isLookaheads hg)
  unfold ParseTables.action
  split
  · rfl
  · next hneg =>
    have hcolumn : ¬ t.toNat < g.generate.tables.actions.columns := by
      intro hlt
      have hcolumns : g.generate.tables.actions.columns = g.numTerminals := hfits.2
      exact ht ⟨t.toNat, hcolumns ▸ hlt, (Int.toNat_of_nonneg (Int.not_lt.1 hneg)).symm⟩
    unfold Grid.get?
    rw [if_neg hcolumn]
    rfl

/-- **Every entry is justified**, whatever conflicts there were. -/
theorem justified_action (hg : g.WellFormed) (hs : s < g.automaton.size) (t : TokenId) :
    g.Justified g.automaton (g.lookaheads g.automaton) s t (g.generate.tables.action s t) := by
  by_cases hrange : ∃ c < g.numTerminals, t = Int.ofNat c
  · obtain ⟨c, hc, rfl⟩ := hrange
    rw [action_generate hg hs hc]
    exact justified_entry hg (isLookaheads hg) s _
  · rw [action_eq_unknownToken hg hrange s]
    trivial

/-- Without conflicts, a terminal is refused as unexpected only. -/
theorem eq_unexpected_of_action (hg : g.WellFormed) (hfree : g.ConflictFree)
    (hs : s < g.automaton.size) {c : Nat} (hc : c < g.numTerminals) {fault : ParseFault}
    (h : g.generate.tables.action s (Int.ofNat c) = .error fault) : fault = .unexpected := by
  rw [action_generate hg hs hc] at h
  unfold entry at h
  split at h
  · exact eq_unexpected_of_settle (hfree s hs c hc) h
  · exact (Action.error.inj h).symm

/-- **Without conflicts, what is justified is entered.** -/
theorem action_eq_of_justified (hg : g.WellFormed) (hfree : g.ConflictFree)
    (hs : s < g.automaton.size)
    (ht : t ∈ concerned g.automaton (g.completionsOf (g.lookaheads g.automaton) s) s)
    {action : Action} (h : g.Justified g.automaton (g.lookaheads g.automaton) s t action)
    (hne : action.isError = false) : g.generate.tables.action s t = action := by
  obtain ⟨c, hc, rfl⟩ :=
    exists_column_of_concerned hg g.isAutomaton_automaton (isLookaheads hg) ht
  rw [action_generate hg hs hc]
  exact entry_eq_of_justified hg (isLookaheads hg) (hfree s hs c hc) ht h hne

/-- **What alone is justified is entered.** -/
theorem action_eq_of_only (hg : g.WellFormed) (hs : s < g.automaton.size)
    (ht : t ∈ concerned g.automaton (g.completionsOf (g.lookaheads g.automaton) s) s)
    {action : Action} (h : g.Justified g.automaton (g.lookaheads g.automaton) s t action)
    (hne : action.isError = false)
    (honly : ∀ other, g.Justified g.automaton (g.lookaheads g.automaton) s t other →
      other.isError = false → other = action) : g.generate.tables.action s t = action := by
  have hl := isLookaheads hg
  obtain ⟨c, hc, rfl⟩ := exists_column_of_concerned hg g.isAutomaton_automaton hl ht
  rw [action_generate hg hs hc]
  have hcount := Candidates.count_le_one (g.nodup_reductions _ _ s _)
    fun other hother => honly other ((allows_candidates_iff hg hl).1 hother)
  exact entry_eq_of_justified hg hl hcount ht h hne

/-- **Where a shift and one reduction are justified**, and nothing else, the choice between them is
entered. -/
theorem action_eq_resolveShiftReduce (hg : g.WellFormed) (hs : s < g.automaton.size)
    {target p : Nat} (hshift : g.automaton.target? s (.terminal t) = some target)
    (hreduce : g.Justified g.automaton (g.lookaheads g.automaton) s t (.reduce p))
    (haccept : ¬ g.Justified g.automaton (g.lookaheads g.automaton) s t .accept)
    (honly : ∀ q, g.Justified g.automaton (g.lookaheads g.automaton) s t (.reduce q) → q = p) :
    g.generate.tables.action s t = (g.resolveShiftReduce t target p).1 := by
  have ha := g.isAutomaton_automaton
  have hl := isLookaheads hg
  have ht : t ∈ concerned g.automaton (g.completionsOf (g.lookaheads g.automaton) s) s :=
    (mem_concerned ha).2 (.inl ⟨target, hshift⟩)
  obtain ⟨c, hc, rfl⟩ := exists_column_of_concerned hg ha hl ht
  rw [action_generate hg hs hc, entry, if_pos ht]
  exact settle_eq_resolveShiftReduce (g.nodup_reductions _ _ s _)
    ((allows_candidates_iff hg hl).2 hshift) ((allows_candidates_iff hg hl).2 hreduce)
    (fun h => haccept ((allows_candidates_iff hg hl).1 h))
    fun q h => honly q ((allows_candidates_iff hg hl).1 h)

/-- The states behind the nonterminals are those of the moves. -/
theorem get?_gotos_generate (hs : s < g.automaton.size) {v : Nat} (hv : v < g.numNonterminals) :
    g.generate.tables.gotos.get? s v = some (g.automaton.target? s (.nonterminal v)) :=
  Grid.get?_ofFunction hs hv

/-- The states behind the nonterminals. -/
theorem goto_generate (hs : s < g.automaton.size) {v target : Nat} (hv : v < g.numNonterminals)
    (htarget : g.automaton.target? s (.nonterminal v) = some target) :
    g.generate.tables.goto s v = .goto target := by
  unfold ParseTables.goto
  rw [get?_gotos_generate hs hv, htarget]
  rfl

end Generate

end Grammar

end FrontEnd
