import FrontEnd.Proofs.Grammar.Resolve
import FrontEnd.Proofs.Grammar.Rightmost
import FrontEnd.Proofs.Worklist

/-!
# Useful nonterminals

A nonterminal occurs when the start symbol leads to it, and it is productive when it derives a
sentence.  The checks of a grammar search for both: along right-hand sides, and in rounds over the
productions.  Each search finds exactly what derivations say.

## Main Definitions

* `Grammar.Occurs`, `Grammar.Productive` — nonterminals that matter, and that derive a sentence
* `markProductive` — what one production adds to the productive nonterminals

## Main Statements

* `Grammar.Occurs.induction` — what each production hands on holds of all nonterminals that occur
* `Grammar.mem_reachable_iff` — the nonterminals that are reached are those that occur
* `Grammar.mem_productive_iff` — the nonterminals that are found productive are productive

## Design Notes

Both searches are fixed points.  What is reached is described by the general search over edges,
where an edge leads from a left-hand side to a nonterminal of a right-hand side.  Productive
nonterminals are found in rounds that only grow a list without repetitions, so that there are at
most as many rounds as nonterminals; when a round adds nothing, every derivation of a sentence stays
within the list.
-/

namespace FrontEnd

namespace Grammar

/-- A nonterminal occurs in what the start symbol derives. -/
def Occurs (g : Grammar) (v : Nat) : Prop :=
  ∃ before behind, g.Derives [.nonterminal g.start] (before ++ .nonterminal v :: behind)

/-- A nonterminal derives a sentence. -/
def Productive (g : Grammar) (v : Nat) : Prop := ∃ w, g.Derives [.nonterminal v] (sentence w)

variable {g : Grammar} {p : Production} {v : Nat}

/-! ### Occurrence

A nonterminal occurs when the start symbol leads to a sequence that contains it.  It is enough to
know how productions hand this on. -/

/-- The start symbol occurs. -/
theorem Occurs.start : g.Occurs g.start := ⟨[], [], .refl⟩

/-- What a nonterminal that occurs can be replaced by occurs. -/
theorem Occurs.of_mem_rhs (h : g.Occurs p.lhs) (hp : p ∈ g.productions)
    (hv : .nonterminal v ∈ p.rhs) : g.Occurs v := by
  obtain ⟨before, behind, hlhs⟩ := h
  obtain ⟨u, w, hrhs⟩ := List.append_of_mem hv
  have hstep := Produces.replace before behind hp
  rw [hrhs, List.append_assoc, List.cons_append] at hstep
  refine ⟨before ++ u, w ++ behind, ?_⟩
  rw [List.append_assoc]
  exact hlhs.tail hstep

/-- **What each production hands on** from its left-hand side to its right-hand side holds of all
nonterminals that occur, when it holds of the start symbol. -/
theorem Occurs.induction {P : Nat → Prop} (hstart : P g.start)
    (hstep : ∀ p ∈ g.productions, P p.lhs → ∀ v, .nonterminal v ∈ p.rhs → P v)
    (h : g.Occurs v) : P v := by
  obtain ⟨before, behind, hderives⟩ := h
  -- along the derivation, for all nonterminals of the sequence at once
  have hall : ∀ seq, g.Derives [.nonterminal g.start] seq → ∀ u, .nonterminal u ∈ seq → P u := by
    intro seq hseq
    induction hseq with
    | refl =>
      intro u hu
      cases List.mem_singleton.1 hu
      exact hstart
    | tail _ hproduces ih =>
      obtain ⟨left, right, hp⟩ := hproduces
      have hlhs := ih _ (List.mem_append_right _ List.mem_cons_self)
      intro u hu
      rcases List.mem_append.1 hu with hleft | hu
      · exact ih u (List.mem_append_left _ hleft)
      · rcases List.mem_append.1 hu with hrhs | hright
        · exact hstep _ hp hlhs u hrhs
        · exact ih u (List.mem_append_right _ (List.mem_cons_of_mem _ hright))
  exact hall _ hderives v (List.mem_append_right _ List.mem_cons_self)

/-- The nonterminals that occur are those of the grammar. -/
theorem Occurs.lt_numNonterminals (hg : g.WellFormed) (h : g.Occurs v) : v < g.numNonterminals :=
  h.induction (P := fun u => u < g.numNonterminals) hg.start_lt
    fun p hp _ u hu => hg.inRange p hp (.nonterminal u) hu

/-- The nonterminals that a nonterminal leads to are those of its right-hand sides. -/
theorem mem_mentioned {productions : List Production} {w : Nat} :
    w ∈ mentioned productions v ↔ ∃ p ∈ productions, p.lhs = v ∧ .nonterminal w ∈ p.rhs := by
  have hnonterminal : ∀ s : Symbol, s.nonterminal? = some w ↔ s = .nonterminal w := by
    intro s
    cases s <;> simp [Symbol.nonterminal?]
  simp [mentioned, List.mem_flatMap, List.mem_filterMap, hnonterminal, and_assoc]

/-- **The nonterminals that are reached are those that occur.** -/
theorem mem_reachable_iff (hg : g.WellFormed) :
    v ∈ reachable g.numNonterminals g.productions.toList ↔ g.Occurs v := by
  have hoccurs : ∀ u, Worklist.Reachable (mentioned g.productions.toList) [g.start] u ↔
      g.Occurs u := by
    intro u
    constructor
    · rintro ⟨root, hroot, hpath⟩
      cases List.mem_singleton.1 hroot
      induction hpath with
      | refl => exact .start
      | tail _ hu ih =>
        obtain ⟨p, hp, rfl, hrhs⟩ := mem_mentioned.1 hu
        exact ih.of_mem_rhs (Array.mem_toList_iff.1 hp) hrhs
    · intro h
      refine h.induction (.root (List.mem_singleton_self _)) fun p hp hlhs w hw => ?_
      exact hlhs.successor (mem_mentioned.2 ⟨p, Array.mem_toList_iff.2 hp, rfl, hw⟩)
  rw [← hoccurs]
  refine Worklist.mem_reach_iff (Finset.range g.numNonterminals) (fun u hu => ?_) (by simp)
  exact Finset.mem_range.2 (((hoccurs u).1 hu).lt_numNonterminals hg)

/-! ### Sentences

A nonterminal is productive when each nonterminal of one of its right-hand sides is. -/

/-- A sequence derives a sentence when each of its nonterminals does. -/
theorem exists_sentence {seq : List Symbol} (h : ∀ v, .nonterminal v ∈ seq → g.Productive v) :
    ∃ w, g.Derives seq (sentence w) := by
  induction seq with
  | nil => exact ⟨[], .refl⟩
  | cons x rest ih =>
    obtain ⟨w, hrest⟩ := ih fun v hv => h v (List.mem_cons_of_mem x hv)
    cases x with
    | terminal t => exact ⟨t :: w, hrest.append_left [.terminal t]⟩
    | nonterminal v =>
      obtain ⟨u, hv⟩ := h v List.mem_cons_self
      refine ⟨u ++ w, ?_⟩
      rw [sentence_append]
      exact hv.append hrest

/-- A production whose nonterminals are productive makes its left-hand side productive. -/
theorem Productive.of_rhs (hp : p ∈ g.productions)
    (h : ∀ v, .nonterminal v ∈ p.rhs → g.Productive v) : g.Productive p.lhs := by
  obtain ⟨w, hw⟩ := exists_sentence h
  exact ⟨w, (derives_of_mem hp).trans hw⟩

/-- **What each production hands back** from its right-hand side to its left-hand side holds of all
productive nonterminals. -/
theorem Productive.induction {P : Nat → Prop}
    (hstep : ∀ p ∈ g.productions, (∀ v, .nonterminal v ∈ p.rhs → P v) → P p.lhs)
    (h : g.Productive v) : P v := by
  obtain ⟨w, hderives⟩ := h
  -- from the end of the derivation, where there are no nonterminals
  have hall : ∀ seq, g.Derives seq (sentence w) → ∀ u, .nonterminal u ∈ seq → P u := by
    intro seq hseq
    induction hseq using Relation.ReflTransGen.head_induction_on with
    | refl =>
      intro u hu
      simp [sentence] at hu
    | head hproduces _ ih =>
      obtain ⟨left, right, hp⟩ := hproduces
      intro u hu
      rcases List.mem_append.1 hu with hleft | hu
      · exact ih u (List.mem_append_left _ hleft)
      · rcases List.mem_cons.1 hu with heq | hright
        · obtain rfl := Symbol.nonterminal.inj heq
          refine hstep _ hp fun y hy => ih y ?_
          exact List.mem_append_right _ (List.mem_append_left _ hy)
        · exact ih u (List.mem_append_right _ (List.mem_append_right _ hright))
  exact hall _ hderives v (List.mem_singleton_self _)

end Grammar

/-! ### The search for productive nonterminals

A production marks its left-hand side when all nonterminals of its right-hand side are marked.  The
invariant of the rounds is that marked nonterminals are productive, in range and without
repetitions. -/

/-- What one production adds to the nonterminals that are known to be productive. -/
def markProductive (known : List Nat) (p : Production) : List Nat :=
  if !known.contains p.lhs && allAmong known p.rhs then p.lhs :: known else known

section Search

variable {productions : List Production} {known : List Nat} {p : Production} {v : Nat}

/-- A round lets one production after the other mark its left-hand side. -/
theorem extendProductive_eq (productions : List Production) (known : List Nat) :
    extendProductive productions known = productions.foldl markProductive known := rfl

/-- A right-hand side is done when all its nonterminals are known. -/
theorem allAmong_iff {rhs : List Symbol} :
    allAmong known rhs = true ↔ ∀ v, .nonterminal v ∈ rhs → v ∈ known := by
  unfold allAmong
  rw [List.all_eq_true]
  constructor
  · intro h v hv
    simpa using h v (List.mem_filterMap.2 ⟨_, hv, rfl⟩)
  · intro h v hv
    obtain ⟨s, hs, hsv⟩ := List.mem_filterMap.1 hv
    cases s with
    | terminal t => cases hsv
    | nonterminal u =>
      obtain rfl := Option.some.inj hsv
      simpa using h u hs

/-- A production adds its left-hand side, which has not been known, or nothing. -/
theorem markProductive_cases (known : List Nat) (p : Production) :
    (markProductive known p = p.lhs :: known ∧ p.lhs ∉ known ∧
      ∀ v, .nonterminal v ∈ p.rhs → v ∈ known) ∨
    (markProductive known p = known ∧
      ((∀ v, .nonterminal v ∈ p.rhs → v ∈ known) → p.lhs ∈ known)) := by
  unfold markProductive
  by_cases hlhs : p.lhs ∈ known
  · right
    simp [hlhs]
  · by_cases hrhs : allAmong known p.rhs = true
    · left
      simpa [hlhs, hrhs] using allAmong_iff.1 hrhs
    · right
      simpa [hlhs, hrhs] using fun h => hrhs (allAmong_iff.2 h)

/-- A production adds a nonterminal, or it has no effect. -/
theorem markProductive_eq_or_length_lt (known : List Nat) (p : Production) :
    markProductive known p = known ∨ known.length < (markProductive known p).length := by
  rcases markProductive_cases known p with ⟨heq, -⟩ | ⟨heq, -⟩
  · exact .inr (by simp [heq])
  · exact .inl heq

/-- What is known is known once, of nonterminals in the range, and true. -/
structure Grammar.KnowsProductive (g : Grammar) (known : List Nat) : Prop where
  nodup : known.Nodup
  lt : ∀ v ∈ known, v < g.numNonterminals
  productive : ∀ v ∈ known, g.Productive v

variable {g : Grammar}

theorem Grammar.KnowsProductive.length_le (h : g.KnowsProductive known) :
    known.length ≤ g.numNonterminals := by
  have hsubset : known ⊆ List.range g.numNonterminals :=
    fun v hv => List.mem_range.2 (h.lt v hv)
  simpa using (h.nodup.subperm hsubset).length_le

/-- A production marks only what is productive. -/
theorem Grammar.KnowsProductive.mark (hg : g.WellFormed) (h : g.KnowsProductive known)
    (hp : p ∈ g.productions) : g.KnowsProductive (markProductive known p) := by
  rcases markProductive_cases known p with ⟨heq, hnew, hrhs⟩ | ⟨heq, -⟩
  · rw [heq]
    have hproductive := Productive.of_rhs hp fun v hv => h.productive v (hrhs v hv)
    exact ⟨List.nodup_cons.2 ⟨hnew, h.nodup⟩, List.forall_mem_cons.2 ⟨hg.lhs_lt p hp, h.lt⟩,
      List.forall_mem_cons.2 ⟨hproductive, h.productive⟩⟩
  · rwa [heq]

/-- A round marks only what is productive. -/
theorem Grammar.KnowsProductive.extend (hg : g.WellFormed) (h : g.KnowsProductive known) :
    g.KnowsProductive (extendProductive g.productions.toList known) := by
  rw [extendProductive_eq]
  exact List.foldlRecOn _ _ h fun _ hknown p hp => hknown.mark hg (Array.mem_toList_iff.1 hp)

/-- **The nonterminals that are found productive are productive**, and no other one is. -/
theorem Grammar.mem_productive_iff (hg : g.WellFormed) :
    v ∈ productive g.numNonterminals g.productions.toList ↔ g.Productive v := by
  have hknows_nil : g.KnowsProductive [] := ⟨List.nodup_nil, by simp, by simp⟩
  unfold productive
  obtain ⟨hknows, hstable⟩ := iterateUntilStable_induction (P := g.KnowsProductive)
    List.length g.numNonterminals (fun _ h => h.extend hg)
    (fun known _ hne => (foldl_eq_or_size_lt List.length markProductive_eq_or_length_lt
      g.productions.toList known).resolve_left hne)
    (fun _ h => h.length_le) hknows_nil (show _ ≤ _ + (g.numNonterminals + 1) by simp)
  refine ⟨hknows.productive v, fun h => ?_⟩
  -- in the stable list no production has anything to add
  refine h.induction fun p hp hrhs => ?_
  have heq := eq_of_foldl_eq List.length markProductive_eq_or_length_lt hstable p
    (Array.mem_toList_iff.2 hp)
  rcases markProductive_cases _ p with ⟨hadds, -⟩ | ⟨-, hclosed⟩
  · have hlength := congrArg List.length (hadds.symm.trans heq)
    simp at hlength
  · exact hclosed hrhs

end Search

/-! ### The checks of a grammar

The checks look for the first nonterminal that one of the searches has not found, and by exactness
that is the first one that does not occur, or is not productive. -/

section Checks

variable {g g' : Grammar} {log : Log} {fault : GrammarFault}

theorem Grammar.WellFormed.isEmpty_productions (hg : g.WellFormed) :
    g.productions.toList.isEmpty = false := by
  have hpos := hg.size_pos
  rw [← Array.length_toList] at hpos
  simpa using List.length_pos_iff.1 hpos

theorem Grammar.contains_productive_iff (hg : g.WellFormed) {v : Nat} :
    (productive g.numNonterminals g.productions.toList).contains v = true ↔ g.Productive v := by
  rw [List.contains_iff_mem, mem_productive_iff hg]

/-- No nonterminal is left out exactly when all of them occur. -/
theorem Grammar.find?_unreached_eq_none (hg : g.WellFormed) :
    ((List.range g.numNonterminals).find? fun v =>
        !(reachable g.numNonterminals g.productions.toList).contains v) = none ↔
      ∀ v < g.numNonterminals, g.Occurs v := by
  rw [List.find?_range_eq_none]
  simp [mem_reachable_iff hg]

/-- The first nonterminal that is not reached is the first one that does not occur. -/
theorem Grammar.find?_unreached_eq_some (hg : g.WellFormed) {v : Nat} :
    ((List.range g.numNonterminals).find? fun v =>
        !(reachable g.numNonterminals g.productions.toList).contains v) = some v ↔
      v < g.numNonterminals ∧ ¬ g.Occurs v ∧ ∀ w < v, g.Occurs w := by
  rw [List.find?_range_eq_some, and_left_comm]
  simp [mem_reachable_iff hg]

/-- A grammar is refused for the first nonterminal that does not occur, and where all occur, for a
start symbol that is not productive. -/
theorem Grammar.fault_of_ofProductions (hg : g.WellFormed)
    (h : Grammar.ofProductions g.symbols g.productions.toList log = .error fault) :
    (∃ v < g.numNonterminals, ¬ g.Occurs v ∧ (∀ w < v, g.Occurs w) ∧
      fault = .unreachable (g.symbols.symbolName (.nonterminal v))) ∨
    (∀ v < g.numNonterminals, g.Occurs v) ∧ ¬ g.Productive g.start ∧
      fault = .unproductiveStart (g.symbols.symbolName (.nonterminal g.start)) := by
  unfold Grammar.ofProductions at h
  rw [hg.isEmpty_productions, if_neg Bool.false_ne_true] at h
  dsimp only at h
  split at h
  · next v hv =>
    obtain ⟨hlt, hnot, hbefore⟩ := (find?_unreached_eq_some hg).1 hv
    exact .inl ⟨v, hlt, hnot, hbefore, (Except.error.inj h).symm⟩
  · next hnone =>
    split at h
    · next hstart =>
      have hunproductive : ¬ g.Productive g.start := fun hproductive => by
        have hcontains := (contains_productive_iff hg).2 hproductive
        rw [Bool.not_eq_true'] at hstart
        exact Bool.false_ne_true (hstart.symm.trans hcontains)
      exact .inr ⟨(find?_unreached_eq_none hg).1 hnone, hunproductive, (Except.error.inj h).symm⟩
    · cases h

open Classical in
/-- In a grammar all nonterminals occur, and the start symbol is productive.  Other nonterminals
that are not are reported, and terminals that are not used. -/
theorem Grammar.spec_of_ofProductions (hg : g.WellFormed)
    (h : Grammar.ofProductions g.symbols g.productions.toList log = .ok g') :
    (∀ v < g.numNonterminals, g.Occurs v) ∧ g.Productive g.start ∧
      g'.log = warnAbout
        (warnAbout log "unproductive nonterminals"
          (((List.range g.numNonterminals).filter fun v => ¬ g.Productive v).map fun v =>
            g.symbols.symbolName (.nonterminal v)))
        "unused tokens"
        ((g.symbols.properTerminals.filter fun (t, _) =>
          t ∉ usedTerminals g.productions.toList).map Prod.snd) := by
  unfold Grammar.ofProductions at h
  rw [hg.isEmpty_productions, if_neg Bool.false_ne_true] at h
  dsimp only at h
  split at h
  · cases h
  next hnone =>
  split at h
  · cases h
  next hstart =>
  obtain rfl := Except.ok.inj h
  have hproductive : g.Productive g.start := by
    rw [Bool.not_eq_true', Bool.not_eq_false] at hstart
    exact (contains_productive_iff hg).1 hstart
  have hfilter : ∀ v ∈ List.range g.numNonterminals,
      (!(productive g.numNonterminals g.productions.toList).contains v) =
        decide (¬ g.Productive v) := by
    intro v _
    rw [← contains_productive_iff hg]
    simp
  refine ⟨(find?_unreached_eq_none hg).1 hnone, hproductive, ?_⟩
  rw [← List.filter_congr hfilter]
  simp [Grammar.numNonterminals]

end Checks

end FrontEnd
