import FrontEnd.Proofs.Grammar.Resolve
import Mathlib.Data.List.Induction

/-!
# Histories of symbol tables

A table of symbols is made by entering names and setting precedences, in any order.  The precedence
of a terminal is what was written last.  Entering a terminal writes too: a name that is there keeps
its number, but loses its precedence.

## Main Definitions

* `SymbolTable.Operation`, `SymbolTable.performAll` — operations on a table, one after the other
* `Operation.written?` — the precedence that an operation writes

## Main Statements

* `SymbolTable.precedence?_perform` — what one operation does to the precedence of a terminal
* `SymbolTable.precedence?_eq_getLast?` — the precedence of a terminal is what was written last
* `SymbolTable.precedence?_performAll` — it is the one that was set last, unless the name has been
  entered again
* `SymbolTable.precedence?_lost` — then it is lost

## Design Notes

A number means nothing as long as no terminal has it, and then setting its precedence has no effect.
This needs no condition of its own: the operation that enters the terminal comes later, and writes
over it.
-/

namespace FrontEnd

/-! ### Values

The precedence of a terminal is read by its number, while an operation writes by a name or by a
number.  The two are brought together by the place of the name. -/

/-- Behind a `put`, a value is the one that has been put, or the one that was there. -/
theorem NameTable.getElem?_values_put {β : Type} {table : NameTable β} {name other : String}
    {value : β} {i : Nat} (h : (table.put name value).names.get? i = some other) :
    (table.put name value).values[i]? =
        (if name = other then some value else table.values[i]?) ∧
      (name = other ∨ table.names.get? i = some other) := by
  have hindex : (table.put name value).indexOf? other = some i :=
    NameList.indexOf?_eq_some_iff.2 h
  have hvalue : (table.put name value).values[i]? =
      if name = other then some value else table.get? other := by
    rw [← get?_put, get?, hindex]
    rfl
  by_cases hname : name = other
  · exact ⟨by rw [hvalue, if_pos hname, if_pos hname], .inl hname⟩
  · have hmem : other ∈ (table.put name value).names.toList := by
      rw [NameList.get?_eq] at h
      exact List.mem_of_getElem? h
    have hold := (mem_names_put hmem).resolve_right (Ne.symm hname)
    obtain ⟨j, hj⟩ := Option.ne_none_iff_exists'.1 fun hnone =>
      NameList.indexOf?_eq_none_iff.1 hnone hold
    have hkept := NameList.indexOf?_of_prefix (names_prefix_put table name value) hj
    obtain rfl := Option.some.inj (hkept.symm.trans hindex)
    refine ⟨?_, .inr (NameList.indexOf?_eq_some_iff.1 hj)⟩
    rw [hvalue, if_neg hname, if_neg hname, get?, indexOf?, hj]
    rfl

/-- A value that is set again changes nothing. -/
theorem NameTable.setAt_eq_self {β : Type} {table : NameTable β} {i : Nat} {value : β}
    (h : table.values[i]? = some value) : table.setAt i value = table := by
  obtain ⟨names, values, hsize⟩ := table
  obtain ⟨hi, rfl⟩ := Array.getElem?_eq_some_iff.1 h
  have hvalues : values.setIfInBounds i values[i] = values := by
    rw [Array.setIfInBounds, dif_pos hi, Array.set_getElem_self]
  simp only [setAt, hvalues]

namespace SymbolTable

/-! ### Operations

One operation at a time, and what it does to the name and to the precedence behind one number.  The
cases are those of the constructors, and each of them either writes or leaves the number alone. -/

/-- An operation on a table of symbols. -/
inductive Operation where
  | addTerminal (name : String)
  | setPrecedence (t : TokenId) (precedence : Precedence)
  | addNonterminal (name : String)
deriving DecidableEq

/-- What an operation writes as the precedence of a terminal with a name, if it writes. -/
def Operation.written? (t : TokenId) (name : String) : Operation → Option (Option Precedence)
  | .addTerminal added => if added = name then some none else none
  | .setPrecedence u precedence => if u = t then some (some precedence) else none
  | .addNonterminal _ => none

/-- The table behind an operation. -/
def perform (table : SymbolTable) : Operation → SymbolTable
  | .addTerminal name => (table.addTerminal name).1
  | .setPrecedence t precedence => table.setPrecedence t precedence
  | .addNonterminal name => (table.addNonterminal name).1

/-- The table behind some operations. -/
def performAll (table : SymbolTable) (operations : List Operation) : SymbolTable :=
  operations.foldl perform table

variable {table : SymbolTable} {t u : TokenId} {name : String} {precedence : Precedence}

/-- A terminal has its name and its precedence at its number. -/
theorem exists_of_terminalName? (h : table.terminalName? t = some name) :
    ∃ i : Nat, t = Int.ofNat i ∧ table.terminals.names.get? i = some name ∧
      i < table.terminals.values.size := by
  unfold terminalName? at h
  split at h
  · cases h
  · next hneg =>
    refine ⟨t.toNat, (Int.toNat_of_nonneg (Int.not_lt.1 hneg)).symm, h, ?_⟩
    rw [table.terminals.size_values]
    exact NameList.lt_size_of_indexOf? (NameList.indexOf?_eq_some_iff.2 h)

theorem precedence?_ofNat (table : SymbolTable) (i : Nat) :
    table.precedence? (Int.ofNat i) = table.terminals.values[i]?.join :=
  if_neg (Int.not_lt.2 (Int.natCast_nonneg i))

/-- Entering a nonterminal keeps the terminals. -/
theorem terminals_addNonterminal (table : SymbolTable) (name : String) :
    (table.addNonterminal name).1.terminals = table.terminals := by
  unfold addNonterminal
  split <;> rfl

/-- A value that is set changes the precedence of one terminal, if there is one with this number. -/
theorem precedence?_setAt (table : SymbolTable) (i : Nat) (value : Option Precedence)
    (t : TokenId) :
    ({ table with terminals := table.terminals.setAt i value } : SymbolTable).precedence? t =
      if t = Int.ofNat i then (if i < table.terminals.values.size then value else none)
      else table.precedence? t := by
  by_cases hneg : t < 0
  · have hne : t ≠ Int.ofNat i := by
      rintro rfl
      exact absurd hneg (Int.not_lt.2 (Int.natCast_nonneg i))
    rw [if_neg hne, precedence?, precedence?, if_pos hneg, if_pos hneg]
  · obtain ⟨j, rfl⟩ : ∃ j, t = Int.ofNat j := Int.eq_ofNat_of_zero_le (Int.not_lt.1 hneg)
    rw [precedence?_ofNat, precedence?_ofNat]
    show ((table.terminals.values.setIfInBounds i value)[j]?).join = _
    rw [Array.getElem?_setIfInBounds]
    by_cases hij : i = j
    · subst hij
      rw [if_pos rfl, if_pos rfl]
      split <;> rfl
    · rw [if_neg hij, if_neg fun heq => hij (Int.ofNat.inj heq).symm]

/-- Setting a precedence changes that of one terminal. -/
theorem precedence?_setPrecedence (h : table.terminalName? t = some name) :
    (table.setPrecedence u precedence).precedence? t =
      if u = t then some precedence else table.precedence? t := by
  obtain ⟨i, rfl, -, hi⟩ := exists_of_terminalName? h
  unfold setPrecedence
  split
  · next hneg =>
    have hne : u ≠ Int.ofNat i := by
      rintro rfl
      exact absurd hneg (Int.not_lt.2 (Int.natCast_nonneg i))
    rw [if_neg hne]
  · next hneg =>
    obtain ⟨j, rfl⟩ : ∃ j, u = Int.ofNat j := Int.eq_ofNat_of_zero_le (Int.not_lt.1 hneg)
    have hnat : (Int.ofNat j).toNat = j := rfl
    rw [hnat, precedence?_setAt]
    by_cases heq : Int.ofNat i = Int.ofNat j
    · obtain rfl := Int.ofNat.inj heq
      rw [if_pos rfl, if_pos hi, if_pos rfl]
    · rw [if_neg heq, if_neg (Ne.symm heq)]

/-- Setting a precedence keeps all names. -/
theorem terminalName?_setPrecedence (table : SymbolTable) (u : TokenId) (precedence : Precedence) :
    (table.setPrecedence u precedence).terminalName? t = table.terminalName? t := by
  unfold setPrecedence
  split <;> rfl

/-- Entering a terminal takes the precedence from the one with this name, and from no other. -/
theorem precedence?_addTerminal {added : String}
    (h : (table.addTerminal added).1.terminalName? t = some name) :
    (table.addTerminal added).1.precedence? t =
        (if added = name then none else table.precedence? t) ∧
      (added = name ∨ table.terminalName? t = some name) := by
  obtain ⟨i, rfl, hi, -⟩ := exists_of_terminalName? h
  obtain ⟨hvalue, hold⟩ := NameTable.getElem?_values_put hi
  have hneg : ¬ Int.ofNat i < 0 := Int.not_lt.2 (Int.natCast_nonneg i)
  refine ⟨?_, hold.imp_right fun hget => by rw [terminalName?, if_neg hneg]; exact hget⟩
  rw [precedence?_ofNat, precedence?_ofNat]
  show ((table.terminals.put added none).values[i]?).join = _
  rw [hvalue]
  split <;> rfl

/-- **One operation** leaves a terminal the precedence that it writes, or else the one that the
terminal had.  A terminal that is new has been written. -/
theorem precedence?_perform {operation : Operation}
    (h : (table.perform operation).terminalName? t = some name) :
    (table.perform operation).precedence? t =
        (operation.written? t name).getD (table.precedence? t) ∧
      (operation = .addTerminal name ∨ table.terminalName? t = some name) := by
  cases operation with
  | addTerminal added =>
    obtain ⟨hprecedence, hold⟩ := precedence?_addTerminal h
    refine ⟨?_, hold.imp_left (congrArg Operation.addTerminal)⟩
    rw [perform, hprecedence, Operation.written?]
    split <;> rfl
  | setPrecedence u precedence =>
    rw [perform, terminalName?_setPrecedence] at h
    refine ⟨?_, .inr h⟩
    rw [perform, precedence?_setPrecedence h, Operation.written?]
    split <;> rfl
  | addNonterminal added =>
    have hterminals := table.terminals_addNonterminal added
    rw [perform, terminalName?, hterminals] at h
    refine ⟨?_, .inr h⟩
    rw [perform, precedence?, hterminals]
    rfl

/-- **The precedence of a terminal is what was written last.** -/
theorem precedence?_eq_getLast? (operations : List Operation)
    (h : (initial.performAll operations).terminalName? t = some name) :
    (initial.performAll operations).precedence? t =
      (operations.filterMap (Operation.written? t name)).getLast?.join := by
  -- from the end: what the last operation writes, or else what the others have written
  induction operations using List.reverseRecOn with
  | nil =>
    obtain ⟨i, rfl, -, hi⟩ := exists_of_terminalName? h
    have hzero : i = 0 := Nat.lt_one_iff.1 hi
    subst hzero
    rfl
  | append_singleton operations operation ih =>
    have happend : initial.performAll (operations ++ [operation]) =
        (initial.performAll operations).perform operation := by
      rw [performAll, List.foldl_append]
      rfl
    rw [happend] at h ⊢
    obtain ⟨hprecedence, hold⟩ := precedence?_perform h
    rw [hprecedence, List.filterMap_append]
    cases hwritten : operation.written? t name with
    | some written =>
      rw [List.filterMap_cons_some hwritten, List.filterMap_nil, List.getLast?_concat]
      rfl
    | none =>
      rw [List.filterMap_cons_none hwritten, List.filterMap_nil, List.append_nil]
      rcases hold with rfl | hold
      · rw [Operation.written?, if_pos rfl] at hwritten
        cases hwritten
      · exact ih hold

/-! ### Names that are there

A name that has been entered is found at one place from then on, so entering it again writes to this
place. -/

/-- A terminal that is there is entered again: it keeps its number, and its precedence is taken
away. -/
theorem addTerminal_of_terminalName? (h : table.terminalName? t = some name) :
    table.addTerminal name =
      ({ table with terminals := table.terminals.setAt t.toNat none }, t) := by
  obtain ⟨i, rfl, hi, -⟩ := exists_of_terminalName? h
  have hindex : table.terminals.indexOf? name = some i := NameList.indexOf?_eq_some_iff.2 hi
  have hput : table.terminals.put name none = table.terminals.setAt i none := by
    unfold NameTable.put
    split
    · next j hj =>
      rw [hindex] at hj
      rw [Option.some.inj hj]
    · next hnone =>
      rw [hindex] at hnone
      cases hnone
  have hfind : (table.terminals.setAt i none).indexOf? name = some i := hindex
  unfold addTerminal findTerminal?
  dsimp only
  rw [hput, hfind]
  rfl

/-- Only a terminal without precedence is entered again without a trace. -/
theorem addTerminal_eq_self_iff (h : table.terminalName? t = some name) :
    (table.addTerminal name).1 = table ↔ table.precedence? t = none := by
  have hprecedence : (table.addTerminal name).1.precedence? t = none := by
    have hname : (table.addTerminal name).1.terminalName? t = some name := by
      rw [addTerminal_of_terminalName? h]
      exact h
    rw [(precedence?_addTerminal hname).1, if_pos rfl]
  constructor
  · intro heq
    rwa [heq] at hprecedence
  · intro hnone
    rw [addTerminal_of_terminalName? h]
    obtain ⟨i, rfl, -, hi⟩ := exists_of_terminalName? h
    have hvalue : table.terminals.values[i]? = some none := by
      rw [precedence?_ofNat, Array.getElem?_eq_getElem hi] at hnone
      rw [Array.getElem?_eq_getElem hi, show table.terminals.values[i] = none from hnone]
    have hterminals : table.terminals.setAt (Int.ofNat i).toNat none = table.terminals :=
      NameTable.setAt_eq_self hvalue
    rw [hterminals]

/-- Where no precedence is set for a terminal, only entering its name writes, and takes it away. -/
theorem Operation.mem_written_iff {operations : List Operation}
    (h : ∀ precedence, .setPrecedence t precedence ∉ operations) {written : Option Precedence} :
    written ∈ operations.filterMap (written? t name) ↔
      written = none ∧ .addTerminal name ∈ operations := by
  rw [List.mem_filterMap]
  constructor
  · rintro ⟨operation, hmem, hwrites⟩
    cases operation with
    | addTerminal added =>
      rw [written?] at hwrites
      split at hwrites
      · next heq => exact ⟨(Option.some.inj hwrites).symm, heq ▸ hmem⟩
      · cases hwrites
    | setPrecedence u precedence =>
      rw [written?] at hwrites
      split at hwrites
      · next heq => exact absurd (heq ▸ hmem) (h precedence)
      · cases hwrites
    | addNonterminal added => cases hwrites
  · rintro ⟨rfl, hmem⟩
    exact ⟨.addTerminal name, hmem, if_pos rfl⟩

/-- **The history of a precedence.**  Whatever names have been entered and whatever precedences have
been set, a terminal has the precedence that was set last, or none if none was; but when its name
has been entered behind that, it has none.  For when a name that is there is entered, the answer is
the number of the terminal and nothing changes but its precedence, which is taken away.  So the
table stays the same only if there was none. -/
theorem precedence?_performAll (operations : List Operation)
    (h : (initial.performAll operations).terminalName? t = some name) :
    ((∀ p, .setPrecedence t p ∉ operations) →
      (initial.performAll operations).precedence? t = none) ∧
    (∀ front p behind, operations = front ++ .setPrecedence t p :: behind →
      (∀ q, .setPrecedence t q ∉ behind) →
        (initial.performAll operations).precedence? t =
          if .addTerminal name ∈ behind then none else some p) ∧
    ∃ again, (initial.performAll operations).addTerminal name = (again, t) ∧
      again.terminals.names = (initial.performAll operations).terminals.names ∧
      again.nonterminals = (initial.performAll operations).nonterminals ∧
      (∀ u, again.precedence? u =
        if u = t then none else (initial.performAll operations).precedence? u) ∧
      (again = initial.performAll operations ↔
        (initial.performAll operations).precedence? t = none) := by
  refine ⟨fun hset => ?_, fun front p behind hoperations hset => ?_, ?_⟩
  -- only entries of the name have written, and what they write is no precedence
  · rw [precedence?_eq_getLast? operations h]
    cases hlast : (operations.filterMap (Operation.written? t name)).getLast? with
    | none => rfl
    | some written => exact ((Operation.mem_written_iff hset).1 (List.mem_of_getLast? hlast)).1
  · have hwritten : Operation.written? t name (.setPrecedence t p) = some (some p) := if_pos rfl
    rw [precedence?_eq_getLast? operations h, hoperations, List.filterMap_append,
      List.filterMap_cons_some hwritten, List.getLast?_append, List.getLast?_cons, Option.some_or]
    cases hlast : (behind.filterMap (Operation.written? t name)).getLast? with
    | none =>
      have hnot : .addTerminal name ∉ behind := fun hmem => by
        have hmem := (Operation.mem_written_iff hset).2 ⟨rfl, hmem⟩
        rw [List.getLast?_eq_none_iff.1 hlast] at hmem
        cases hmem
      rw [if_neg hnot]
      rfl
    | some written =>
      obtain ⟨rfl, hmem⟩ := (Operation.mem_written_iff hset).1 (List.mem_of_getLast? hlast)
      rw [if_pos hmem]
      rfl
  -- what one more entry does depends on the table only, and not on how it was made
  generalize initial.performAll operations = table at h
  have hagain := addTerminal_of_terminalName? h
  have hself := addTerminal_eq_self_iff h
  rw [hagain] at hself
  refine ⟨_, hagain, rfl, rfl, fun u => ?_, hself⟩
  obtain ⟨i, rfl, -, hi⟩ := exists_of_terminalName? h
  rw [precedence?_setAt, ite_self]
  rfl

/-- A precedence is set for a number that no terminal has, and then for the terminal. -/
def numbersAndSums : List Operation :=
  [.addTerminal "number", .setPrecedence 2 ⟨1, .right⟩, .addTerminal "'+'", .addNonterminal "sum",
    .setPrecedence 2 ⟨2, .left⟩, .addTerminal "number"]

/-- The operator has been given its precedence behind the last time that its name was entered, and
would lose it if the name were entered once more. -/
theorem precedence?_performAll_sums :
    (initial.performAll numbersAndSums).terminalName? 2 = some "'+'" ∧
      (initial.performAll numbersAndSums).precedence? 2 = some ⟨2, .left⟩ ∧
      ((initial.performAll numbersAndSums).addTerminal "'+'").1 ≠
        initial.performAll numbersAndSums := by
  have hname : (initial.performAll numbersAndSums).terminalName? 2 = some "'+'" := by
    decide +kernel
  obtain ⟨-, hset, again, hagain, -, -, -, hself⟩ := precedence?_performAll numbersAndSums hname
  have hlast : (initial.performAll numbersAndSums).precedence? 2 = some ⟨2, .left⟩ :=
    hset [.addTerminal "number", .setPrecedence 2 ⟨1, .right⟩, .addTerminal "'+'",
      .addNonterminal "sum"] ⟨2, .left⟩ [.addTerminal "number"] rfl (by simp)
  refine ⟨hname, hlast, fun heq => ?_⟩
  rw [hagain] at heq
  rw [hself.1 heq] at hlast
  cases hlast

/-- **A precedence that has been set is lost** when the name is entered once more. -/
theorem precedence?_lost :
    (initial.performAll [.addTerminal "number", .setPrecedence 1 ⟨1, .left⟩]).precedence? 1 =
        some ⟨1, .left⟩ ∧
      ((initial.performAll [.addTerminal "number", .setPrecedence 1 ⟨1, .left⟩]).addTerminal
        "number").2 = 1 ∧
      (initial.performAll [.addTerminal "number", .setPrecedence 1 ⟨1, .left⟩,
        .addTerminal "number"]).precedence? 1 = none :=
  ⟨by decide +kernel, by decide +kernel, by decide +kernel⟩

end SymbolTable

end FrontEnd
