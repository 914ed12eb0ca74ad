import FrontEnd.Lexer.Basic
import FrontEnd.Proofs.Dfa

/-!
# The scan

The scan follows the input as long as something can match and remembers the last place where a rule
was accepted.  So it finds the longest match, and for that one the least rule.

## Main Definitions

* `Nfa.MatchesAhead` — a rule is accepted behind some bytes of an input
* `IsLongest` — the longest of some matches, and the least rule for it

## Main Statements

* `Lexer.exists_accepting_of_scan` — what a scan gives has been accepted on its way
* `Lexer.scan_eq` — a scan gives the longest match from a state on
-/

namespace FrontEnd

/-- The rule is accepted in the states that the first `length` bytes lead to. -/
def Nfa.MatchesAhead (nfa : Nfa) (s : StateSet) (ahead : List UInt8) (rule length : Nat) : Prop :=
  length ≤ ahead.length ∧
    rule ∈ Dfa.ruleSet nfa ((ahead.take length).foldl nfa.step s) (atLineBreak (ahead.drop length))

/-- The longest match and the least rule for it, or nothing when there is no match. -/
def IsLongest (m : Nat → Nat → Prop) : Option (Nat × Nat) → Prop
  | none => ∀ rule length, ¬ m rule length
  | some (rule, length) => m rule length ∧
    ∀ rule' length', m rule' length' → length' < length ∨ length' = length ∧ rule ≤ rule'

/-- A match that is as long as all others, and whose rule comes first for its length, is the
longest one. -/
theorem IsLongest.eq_some {m : Nat → Nat → Prop} {o : Option (Nat × Nat)} (h : IsLongest m o)
    {rule length : Nat} (hm : m rule length)
    (hbest : ∀ rule' length', m rule' length' →
      length' ≤ length ∧ (length' = length → rule ≤ rule')) : o = some (rule, length) := by
  cases o with
  | none => exact (h rule length hm).elim
  | some found =>
    obtain ⟨rule', length'⟩ := found
    obtain ⟨hle, hfirst⟩ := hbest rule' length' h.1
    rcases h.2 rule length hm with hlt | ⟨heq, hrule⟩
    · exact absurd hle (Nat.not_le_of_lt hlt)
    · rw [heq, Nat.le_antisymm hrule (hfirst heq.symm)]

namespace Nfa

variable {nfa : Nfa} {s : StateSet}

/-! ### Matches from a set of states

A match of some length is one of the rest, behind the first byte, from the set behind this byte.  So
the longest match is found by induction on the input: it is the longest one behind the first byte,
or the empty one when there is none. -/

theorem matchesAhead_zero {ahead : List UInt8} {rule : Nat} :
    nfa.MatchesAhead s ahead rule 0 ↔ rule ∈ Dfa.ruleSet nfa s (atLineBreak ahead) := by
  simp [MatchesAhead]

/-- At the end of the input a line ends. -/
theorem matchesAhead_length {ahead : List UInt8} {rule : Nat} :
    nfa.MatchesAhead s ahead rule ahead.length ↔
      rule ∈ Dfa.ruleSet nfa (ahead.foldl nfa.step s) true := by
  simp [MatchesAhead, atLineBreak]

theorem matchesAhead_succ {b : UInt8} {rest : List UInt8} {rule length : Nat} :
    nfa.MatchesAhead s (b :: rest) rule (length + 1) ↔
      nfa.MatchesAhead (nfa.step s b) rest rule length := by
  simp [MatchesAhead]

/-- Nothing matches from the empty set of states on. -/
theorem isLongest_none_of_isEmpty (hwf : nfa.WellFormed) (hs : s.isEmpty = true)
    (ahead : List UInt8) : IsLongest (nfa.MatchesAhead s ahead) none := by
  rintro rule length ⟨-, i, a, hi, -⟩
  have hempty := StateSet.isEmpty_iff.1 hs
  rw [mem_foldl_step_iff hwf (by simp [hempty])] at hi
  obtain ⟨j, hj, -⟩ := hi
  simp [hempty] at hj

/-- Without bytes there is the empty match only. -/
theorem isLongest_nil {o : Option Nat} (h : Dfa.LeastOf (Dfa.ruleSet nfa s true) o) :
    IsLongest (nfa.MatchesAhead s []) (o.map fun rule => (rule, 0)) := by
  have hzero : ∀ rule length, nfa.MatchesAhead s [] rule length →
      length = 0 ∧ rule ∈ Dfa.ruleSet nfa s true := by
    intro rule length hm
    obtain rfl : length = 0 := Nat.le_zero.1 hm.1
    exact ⟨rfl, matchesAhead_zero.1 hm⟩
  cases o with
  | none =>
    intro rule length hm
    obtain ⟨-, hmem⟩ := hzero rule length hm
    rw [show Dfa.ruleSet nfa s true = ∅ from h] at hmem
    exact hmem
  | some rule =>
    refine ⟨matchesAhead_zero.2 h.1, ?_⟩
    intro rule' length' hm
    obtain ⟨hlength, hmem⟩ := hzero rule' length' hm
    exact .inr ⟨hlength, h.2 hmem⟩

/-- The longest match is found behind the next byte, or else it is the empty one. -/
theorem isLongest_cons {b : UInt8} {rest : List UInt8} {o : Option Nat} {p : Option (Nat × Nat)}
    (ho : Dfa.LeastOf (Dfa.ruleSet nfa s (atLineBreak (b :: rest))) o)
    (hp : IsLongest (nfa.MatchesAhead (nfa.step s b) rest) p) :
    IsLongest (nfa.MatchesAhead s (b :: rest))
      ((p.map fun m => (m.1, m.2 + 1)).or (o.map fun rule => (rule, 0))) := by
  cases p with
  | some m =>
    obtain ⟨rule, length⟩ := m
    refine ⟨matchesAhead_succ.2 hp.1, ?_⟩
    intro rule' length' hm
    cases length' with
    | zero => exact .inl (Nat.succ_pos _)
    | succ length' =>
      rcases hp.2 rule' length' (matchesAhead_succ.1 hm) with hlt | ⟨heq, hle⟩
      · exact .inl (Nat.succ_lt_succ hlt)
      · exact .inr ⟨congrArg _ heq, hle⟩
  | none =>
    -- only the empty match is left
    have hzero : ∀ rule length, nfa.MatchesAhead s (b :: rest) rule length →
        length = 0 ∧ rule ∈ Dfa.ruleSet nfa s (atLineBreak (b :: rest)) := by
      intro rule length hm
      cases length with
      | zero => exact ⟨rfl, matchesAhead_zero.1 hm⟩
      | succ length => exact absurd (matchesAhead_succ.1 hm) (hp rule length)
    cases o with
    | none =>
      intro rule length hm
      obtain ⟨-, hmem⟩ := hzero rule length hm
      rw [show Dfa.ruleSet nfa s _ = ∅ from ho] at hmem
      exact hmem
    | some rule =>
      refine ⟨matchesAhead_zero.2 ho.1, ?_⟩
      intro rule' length' hm
      obtain ⟨hlength, hmem⟩ := hzero rule' length' hm
      exact .inr ⟨hlength, ho.2 hmem⟩

end Nfa

namespace Lexer

variable {l : Lexer} {nfa : Nfa} {found : Array StateSet}

/-! ### The loop

The loop carries the last match that it has seen.  What it returns is the longest match from the
state on, or the carried one when there is none; this is the statement that the induction needs. -/

theorem scan_nil (node length : Nat) (last : Option (Nat × Nat)) :
    l.scan node length last [] =
      ((l.accepting node []).map fun rule => (rule, length)).or last := by
  unfold scan
  cases l.accepting node [] <;> rfl

/-- The loop over one byte. -/
theorem scan_cons (node length : Nat) (last : Option (Nat × Nat)) (b : UInt8) (rest : List UInt8) :
    l.scan node length last (b :: rest) =
      let last := ((l.accepting node (b :: rest)).map fun rule => (rule, length)).or last
      let next := l.dfa.next node (l.groups.group b)
      if l.dfa.isDead next then last else l.scan next (length + 1) last rest := by
  rw [scan]
  cases l.accepting node (b :: rest) <;> rfl

/-- What a scan gives is the last match before, or a rule that a state on its way accepts in front
of the bytes left there. -/
theorem exists_accepting_of_scan {node length rule n : Nat} {last : Option (Nat × Nat)}
    {ahead : List UInt8} (h : l.scan node length last ahead = some (rule, n)) :
    last = some (rule, n) ∨ ∃ node rest, l.accepting node rest = some rule ∧
      n + rest.length = length + ahead.length := by
  have hlatest : ∀ {node length : Nat} {last : Option (Nat × Nat)} {ahead : List UInt8},
      ((l.accepting node ahead).map fun rule => (rule, length)).or last = some (rule, n) →
        last = some (rule, n) ∨ ∃ node rest, l.accepting node rest = some rule ∧
          n + rest.length = length + ahead.length := by
    intro node length last ahead h
    rcases Option.or_eq_some_iff.1 h with h | ⟨-, h⟩
    · obtain ⟨_, haccepting, heq⟩ := Option.map_eq_some_iff.1 h
      obtain ⟨rfl, rfl⟩ := Prod.mk.inj heq
      exact .inr ⟨node, ahead, haccepting, rfl⟩
    · exact .inl h
  induction ahead generalizing node length last with
  | nil =>
    rw [scan_nil] at h
    exact hlatest h
  | cons b rest ih =>
    rw [scan_cons] at h
    dsimp only at h
    split at h
    · exact hlatest h
    · rcases ih h with h | ⟨node, rest', haccepting, hn⟩
      · exact hlatest h
      · refine .inr ⟨node, rest', haccepting, ?_⟩
        rw [hn, List.length_cons, Nat.add_right_comm, Nat.add_assoc]

/-- The least rule is accepted of those that the set of a state accepts. -/
theorem leastOf_accepting (hshows : Dfa.Shows nfa l.groups l.dfa found) {node : Nat} {s : StateSet}
    (hs : found[node]? = some s) (rest : List UInt8) :
    Dfa.LeastOf (Dfa.ruleSet nfa s (atLineBreak rest)) (l.accepting node rest) := by
  have heq : l.accepting node rest = Dfa.chosen (Dfa.accepts nfa s) (atLineBreak rest) := by
    unfold accepting Dfa.chosen
    rewrite [hshows.accept node s hs, hshows.lineEndAccept node s hs]
    cases (Dfa.accepts nfa s).2 <;> rfl
  rw [heq]
  exact Dfa.leastOf_chosen nfa s (atLineBreak rest)

/-- **The scan gives the longest match** from the state of a set on, or the last match before. -/
theorem scan_eq (hwf : nfa.WellFormed) (hshows : Dfa.Shows nfa l.groups l.dfa found) {node : Nat}
    {s : StateSet} (hs : found[node]? = some s) (length : Nat) (last : Option (Nat × Nat))
    (ahead : List UInt8) :
    ∃ p, IsLongest (nfa.MatchesAhead s ahead) p ∧
      l.scan node length last ahead = (p.map fun m => (m.1, length + m.2)).or last := by
  induction ahead generalizing node s length last with
  | nil =>
    have ho := leastOf_accepting hshows hs []
    refine ⟨_, Nfa.isLongest_nil ho, ?_⟩
    rw [scan_nil]
    cases l.accepting node [] <;> rfl
  | cons b rest ih =>
    have ho := leastOf_accepting hshows hs (b :: rest)
    rw [scan_cons]
    rcases hshows.next node s b hs with ⟨hdead, hempty⟩ | hnext
    · -- the scan stops, and nothing matches behind the byte
      have hp := Nfa.isLongest_none_of_isEmpty hwf hempty rest
      refine ⟨_, Nfa.isLongest_cons ho hp, ?_⟩
      simp only [hdead, if_true]
      cases l.accepting node (b :: rest) <;> rfl
    · obtain ⟨p, hp, hscan⟩ := ih hnext (length + 1) _
      refine ⟨_, Nfa.isLongest_cons ho hp, ?_⟩
      simp only [hshows.alive _ _ hnext, Bool.false_eq_true, if_false]
      rw [hscan]
      cases p with
      | none => cases l.accepting node (b :: rest) <;> rfl
      | some m => simp [Nat.add_comm, Nat.add_left_comm]

end Lexer

end FrontEnd
