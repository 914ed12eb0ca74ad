import FrontEnd.Grammar.Symbol
import Mathlib.Data.List.Basic

/-!
# Expressions of operators

What precedence and associativity mean, without any grammar.  An expression is admissible when every
operator has its place by the levels.  One pass from left to right, which compares two operators at
a time, assembles the only admissible expression, or ends at an operator that does not associate.

## Main Definitions

* `Expression` — operands with operators between them
* `Expression.Admissible` — each operator binds as its rank says
* `Expression.AdmissibleOver` — the same for the expressions of given operands and operators
* `Precedence.against` — the choice between an operator and the one behind it
* `Expression.assemble` — the pass from left to right

## Main Statements

* `Expression.assemble_eq_ok_iff` — what is assembled is the only admissible expression

## Design Notes

Precedence is defined here by what it means for a finished expression, and not by how a parser
decides.  The root of an operand has to bind tighter than the operator that it belongs to, and on
one level the associativity decides between the two sides.  `Precedence.against` is the decision of
a parser; that the two agree is proved, and it takes that the operators of a level associate in one
way.

The proof that what is assembled is admissible rests on one invariant of the pass,
`Expression.Ready`.  The converse is an induction over the expression: it is assembled between any
operators that leave it alone.
-/

namespace FrontEnd

/-- The choice between an operator and the one behind it: the greater one takes the operand between
them.  The higher level wins, and on one level the associativity of the one behind decides. -/
def Precedence.against (p q : Precedence) : Ordering :=
  if q.level < p.level then .gt
  else if p.level < q.level then .lt
  else
    match q.associativity with
    | .left => .gt
    | .right => .lt
    | .unspecified => .lt
    | .nonAssociative => .eq

/-- Operands of one type with operators of another one between them. -/
inductive Expression (ω β : Type) where
  | operand (x : β)
  | operation (left : Expression ω β) (operator : ω) (right : Expression ω β)

/-- The operators of a level associate in one way, which is specified. -/
structure IsRanking {ω : Type} (rank : ω → Precedence) : Prop where
  specified : ∀ o, (rank o).associativity ≠ .unspecified
  associativity_eq : ∀ o p, (rank o).level = (rank p).level →
    (rank o).associativity = (rank p).associativity

namespace IsRanking

variable {ω : Type} {rank : ω → Precedence} {o p q : ω}

/-- The operator in front takes the operand when it has a higher level, or the same one with left
associativity. -/
theorem against_eq_gt_iff (h : IsRanking rank) : (rank p).against (rank o) = .gt ↔
    (rank o).level < (rank p).level ∨
      (rank p).level = (rank o).level ∧ (rank p).associativity = .left := by
  have hspecified := h.specified o
  have heq := h.associativity_eq p o
  unfold Precedence.against
  split
  · next hlt => exact iff_of_true rfl (.inl hlt)
  · split
    · refine iff_of_false nofun ?_
      rintro (hlt | ⟨hlevel, -⟩) <;> omega
    · have hlevel : (rank p).level = (rank o).level := by omega
      rw [heq hlevel]
      cases hassociativity : (rank o).associativity <;> simp_all

/-- The operator behind takes the operand when it has a higher level, or the same one with right
associativity. -/
theorem against_eq_lt_iff (h : IsRanking rank) : (rank p).against (rank o) = .lt ↔
    (rank p).level < (rank o).level ∨
      (rank o).level = (rank p).level ∧ (rank o).associativity = .right := by
  have hspecified := h.specified o
  unfold Precedence.against
  split
  · refine iff_of_false nofun ?_
    rintro (hlt | ⟨hlevel, -⟩) <;> omega
  · split
    · next hlt => exact iff_of_true rfl (.inl hlt)
    · have hlevel : (rank o).level = (rank p).level := by omega
      cases hassociativity : (rank o).associativity <;> simp_all

/-- What takes an operand from an operator takes it from all that the operator takes one from. -/
theorem against_trans_gt (h : IsRanking rank) (hlt : (rank o).against (rank p) = .lt)
    (hgt : (rank o).against (rank q) = .gt) : (rank p).against (rank q) = .gt := by
  rw [h.against_eq_lt_iff] at hlt
  rw [h.against_eq_gt_iff] at hgt ⊢
  have heq := h.associativity_eq p o
  rcases hlt with hlt | ⟨hlevel, hright⟩
  · exact .inl (by omega)
  · rcases hgt with hgt | ⟨-, hleft⟩
    · exact .inl (by omega)
    · rw [← heq hlevel, hright] at hleft
      cases hleft

/-- What leaves an operand to an operator leaves it to all that the operator leaves one to. -/
theorem against_trans_lt (h : IsRanking rank) (hlt : (rank q).against (rank o) = .lt)
    (hgt : (rank p).against (rank o) = .gt) : (rank q).against (rank p) = .lt := by
  rw [h.against_eq_gt_iff] at hgt
  rw [h.against_eq_lt_iff] at hlt ⊢
  have heq := h.associativity_eq p o
  rcases hgt with hgt | ⟨hlevel, hleft⟩
  · exact .inl (by omega)
  · rcases hlt with hlt | ⟨-, hright⟩
    · exact .inl (by omega)
    · rw [heq hlevel, hright] at hleft
      cases hleft

end IsRanking

namespace Expression

variable {ω β : Type}

/-- The operand in front. -/
def first : Expression ω β → β
  | operand x => x
  | operation left _ _ => left.first

/-- The operators in their order, each with the operand behind it. -/
def rest : Expression ω β → List (ω × β)
  | operand _ => []
  | operation left o right => left.rest ++ (o, right.first) :: right.rest

/-- The operator at the root. -/
def root? : Expression ω β → Option ω
  | operand _ => none
  | operation _ o _ => some o

section Rank

variable (rank : ω → Precedence)

/-- An expression may stand to the left of an operator: the operator at its root has a higher level,
or the same one with left associativity. -/
def StandsLeft (e : Expression ω β) (o : ω) : Prop :=
  ∀ p ∈ e.root?, (rank o).level < (rank p).level ∨
    (rank p).level = (rank o).level ∧ (rank p).associativity = .left

/-- An expression may stand to the right of an operator: the operator at its root has a higher
level, or the same one with right associativity. -/
def StandsRight (e : Expression ω β) (o : ω) : Prop :=
  ∀ p ∈ e.root?, (rank o).level < (rank p).level ∨
    (rank p).level = (rank o).level ∧ (rank p).associativity = .right

/-- Each operator has operands that may stand to its sides. -/
def Admissible : Expression ω β → Prop
  | operand _ => True
  | operation left o right =>
    left.StandsLeft rank o ∧ right.StandsRight rank o ∧ left.Admissible ∧ right.Admissible

/-- An expression is admissible and made of an operand and of the operators and operands behind
it. -/
structure AdmissibleOver (e : Expression ω β) (y : β) (rest : List (ω × β)) : Prop where
  admissible : e.Admissible rank
  first_eq : e.first = y
  rest_eq : e.rest = rest

/-- Assembles an expression from left to right.  The frames are operators that wait for the operand
to their right, the latest one first, and `x` is what has been assembled behind them.  The latest
operator is compared with the next one. -/
def assemble (frames : List (Expression ω β × ω)) (x : Expression ω β) (rest : List (ω × β)) :
    Except ω (Expression ω β) :=
  match frames, rest with
  | [], [] => .ok x
  | [], (o, y) :: rest => assemble [(x, o)] (operand y) rest
  | (left, p) :: frames, [] => assemble frames (operation left p x) []
  | (left, p) :: frames, (o, y) :: rest =>
    match (rank p).against (rank o) with
    | .gt => assemble frames (operation left p x) ((o, y) :: rest)
    | .lt => assemble ((x, o) :: (left, p) :: frames) (operand y) rest
    | .eq => .error o
termination_by 2 * rest.length + frames.length

end Rank

variable {rank : ω → Precedence} {frames : List (Expression ω β × ω)} {e x y left : Expression ω β}
  {rest : List (ω × β)} {o p : ω}

/-- An expression stands to the left of an operator that it takes no operand from. -/
theorem standsLeft_iff (h : IsRanking rank) :
    e.StandsLeft rank o ↔ ∀ p ∈ e.root?, (rank p).against (rank o) = .gt :=
  forall₂_congr fun _ _ => h.against_eq_gt_iff.symm

/-- An expression stands to the right of an operator that leaves its operands to it. -/
theorem standsRight_iff (h : IsRanking rank) :
    e.StandsRight rank o ↔ ∀ p ∈ e.root?, (rank o).against (rank p) = .lt :=
  forall₂_congr fun _ _ => h.against_eq_lt_iff.symm

/-- An operand has no operator at its root and may stand to the left of any operator. -/
theorem standsLeft_operand (y : β) : (operand y).StandsLeft rank o := nofun

/-- An operand may stand to the right of any operator. -/
theorem standsRight_operand (y : β) : (operand y).StandsRight rank o := nofun

/-! ### Two steps

The pass has two kinds of steps: the next operator begins to wait, or the latest one takes what is
behind it.  Both happen with and without another operator to compare with, and the equations here
cover the two cases at once. -/

/-- The next operator takes the operand when all that wait leave it. -/
theorem assemble_cons_rest {y : β}
    (h : ∀ f ∈ frames.head?, (rank f.2).against (rank o) = .lt) :
    assemble rank frames x ((o, y) :: rest) =
      assemble rank ((x, o) :: frames) (operand y) rest := by
  cases frames with
  | nil => rw [assemble]
  | cons f frames =>
    have hlt : (rank f.2).against (rank o) = .lt := h f rfl
    rw [assemble, hlt]

/-- The latest operator takes the operand when the next one leaves it. -/
theorem assemble_cons_frames
    (h : ∀ z ∈ rest.head?, (rank p).against (rank z.1) = .gt) :
    assemble rank ((left, p) :: frames) x rest =
      assemble rank frames (operation left p x) rest := by
  cases rest with
  | nil => rw [assemble]
  | cons z rest =>
    obtain ⟨o, y⟩ := z
    have hgt : (rank p).against (rank o) = .gt := h (o, y) rfl
    rw [assemble, hgt]

/-! ### Admissible expressions are assembled

The induction is on the expression.  The frames in front of it and the operators behind it are
arbitrary, as long as they leave the expression alone: this is what is needed for the operands of an
operator, whose frames are others. -/

/-- **An admissible expression is assembled** wherever it may stand between the operators in front
of it and behind it. -/
theorem Admissible.assemble_append (hrank : IsRanking rank) (he : e.Admissible rank)
    (hfront : ∀ f ∈ frames.head?, e.StandsRight rank f.2)
    (hbehind : ∀ z ∈ rest.head?, e.StandsLeft rank z.1) :
    assemble rank frames (operand e.first) (e.rest ++ rest) = assemble rank frames e rest := by
  induction e generalizing frames rest with
  | operand y => rfl
  | operation left o right ihleft ihright =>
    obtain ⟨hleft, hright, hleft', hright'⟩ := he
    have hshift : ∀ f ∈ frames.head?, (rank f.2).against (rank o) = .lt :=
      fun f hf => (standsRight_iff hrank).1 (hfront f hf) o rfl
    have hreduce : ∀ z ∈ rest.head?, (rank o).against (rank z.1) = .gt :=
      fun z hz => (standsLeft_iff hrank).1 (hbehind z hz) o rfl
    -- what stands to the left of the operator binds tighter than what is in front of both
    have hleftFront : ∀ f ∈ frames.head?, left.StandsRight rank f.2 := fun f hf =>
      (standsRight_iff hrank).2 fun p hp =>
        hrank.against_trans_lt (hshift f hf) ((standsLeft_iff hrank).1 hleft p hp)
    have hrightBehind : ∀ z ∈ rest.head?, right.StandsLeft rank z.1 := fun z hz =>
      (standsLeft_iff hrank).2 fun p hp =>
        hrank.against_trans_gt ((standsRight_iff hrank).1 hright p hp) (hreduce z hz)
    calc assemble rank frames (operand left.first)
          ((left.rest ++ (o, right.first) :: right.rest) ++ rest)
        = assemble rank frames (operand left.first)
          (left.rest ++ (o, right.first) :: (right.rest ++ rest)) := by
            rw [List.append_assoc, List.cons_append]
      _ = assemble rank frames left ((o, right.first) :: (right.rest ++ rest)) :=
          ihleft hleft' hleftFront fun z hz => Option.some.inj hz ▸ hleft
      _ = assemble rank ((left, o) :: frames) (operand right.first) (right.rest ++ rest) :=
          assemble_cons_rest hshift
      _ = assemble rank ((left, o) :: frames) right rest :=
          ihright hright' (fun f hf => Option.some.inj hf ▸ hright) hrightBehind
      _ = assemble rank frames (operation left o right) rest := assemble_cons_frames hreduce

/-! ### What is assembled is admissible

One invariant is kept by all steps: the operators that wait have admissible operands to their left,
and each leaves what is behind it to the next one.  What the frames and the rest are made of does
not change, either, so that the result is made of all operands and operators. -/

/-- The expression that the frames and an expression behind them make, from the latest frame on. -/
def close : List (Expression ω β × ω) → Expression ω β → Expression ω β
  | [], x => x
  | (left, o) :: frames, x => close frames (operation left o x)

/-- Whatever makes an expression longer makes what it is closed with longer. -/
theorem close_longer {more : List (ω × β)} (hfirst : y.first = x.first)
    (hrest : y.rest = x.rest ++ more) :
    (close frames y).first = (close frames x).first ∧
      (close frames y).rest = (close frames x).rest ++ more := by
  induction frames generalizing x y with
  | nil => exact ⟨hfirst, hrest⟩
  | cons f frames ih =>
    refine ih (x := operation f.1 f.2 x) (y := operation f.1 f.2 y) rfl ?_
    rw [Expression.rest, Expression.rest, hfirst, hrest, List.append_assoc]
    rfl

/-- The operators of the frames wait for operands that they leave to those behind them, and have
admissible ones to their left. -/
def Waiting (rank : ω → Precedence) : List (Expression ω β × ω) → Prop
  | [] => True
  | (x, o) :: frames => x.Admissible rank ∧ x.StandsLeft rank o ∧
    (∀ f ∈ frames.head?, (rank f.2).against (rank o) = .lt) ∧ Waiting rank frames

/-- What holds in each step: the operators of the frames wait, and behind them is an admissible
expression that may stand between the latest operator and the next one. -/
structure Ready (rank : ω → Precedence) (frames : List (Expression ω β × ω)) (x : Expression ω β)
    (rest : List (ω × β)) : Prop where
  waiting : Waiting rank frames
  admissible : x.Admissible rank
  front : ∀ f ∈ frames.head?, x.StandsRight rank f.2
  behind : ∀ z ∈ rest.head?, x.StandsLeft rank z.1

/-- The next operator begins to wait. -/
theorem Ready.shift {y : β} (h : Ready rank frames x ((o, y) :: rest))
    (hshift : ∀ f ∈ frames.head?, (rank f.2).against (rank o) = .lt) :
    Ready rank ((x, o) :: frames) (operand y) rest where
  waiting := ⟨h.admissible, h.behind _ rfl, hshift, h.waiting⟩
  admissible := trivial
  front _ _ := standsRight_operand y
  behind _ _ := standsLeft_operand y

/-- The latest operator takes what is behind it. -/
theorem Ready.reduce (hrank : IsRanking rank) (h : Ready rank ((left, p) :: frames) x rest)
    (hreduce : ∀ z ∈ rest.head?, (rank p).against (rank z.1) = .gt) :
    Ready rank frames (operation left p x) rest := by
  obtain ⟨hadmissible, hleft, hshift, hwaiting⟩ := h.waiting
  refine ⟨hwaiting, ⟨hleft, h.front _ rfl, hadmissible, h.admissible⟩, ?_, ?_⟩
  · intro f hf
    exact (standsRight_iff hrank).2 fun q hq => Option.some.inj hq ▸ hshift f hf
  · intro z hz
    exact (standsLeft_iff hrank).2 fun q hq => Option.some.inj hq ▸ hreduce z hz

/-- What is closed behind the next operator is closed in front of it. -/
theorem closed_shift {y : β}
    (h : e.AdmissibleOver rank (close ((x, o) :: frames) (operand y)).first
      ((close ((x, o) :: frames) (operand y)).rest ++ rest)) :
    e.AdmissibleOver rank (close frames x).first
      ((close frames x).rest ++ (o, y) :: rest) := by
  obtain ⟨hadmissible, hfirst, hrest⟩ := h
  obtain ⟨hfirst', hrest'⟩ : (close frames (operation x o (operand y))).first =
        (close frames x).first ∧
      (close frames (operation x o (operand y))).rest = (close frames x).rest ++ [(o, y)] :=
    close_longer rfl rfl
  refine ⟨hadmissible, hfirst.trans hfirst', ?_⟩
  rw [hrest, close, hrest', List.append_assoc]
  rfl

/-- **What is assembled is admissible**, and it is made of all operands and operators. -/
theorem Ready.assemble (hrank : IsRanking rank) (h : Ready rank frames x rest)
    (he : assemble rank frames x rest = .ok e) :
    e.AdmissibleOver rank (close frames x).first ((close frames x).rest ++ rest) := by
  fun_induction Expression.assemble rank frames x rest with
  | case1 x =>
    obtain rfl := Except.ok.inj he
    exact ⟨h.admissible, rfl, (List.append_nil _).symm⟩
  | case2 x o y rest ih =>
    exact closed_shift (ih (h.shift nofun) he)
  | case3 x left p frames ih => exact ih (h.reduce hrank nofun) he
  | case4 x left p frames o y rest hgt ih =>
    exact ih (h.reduce hrank fun z hz => Option.some.inj hz ▸ hgt) he
  | case5 x left p frames o y rest hlt ih =>
    exact closed_shift (ih (h.shift fun f hf => Option.some.inj hf ▸ hlt) he)
  | case6 => cases he

/-- **What is assembled is the only admissible expression** of the operands and operators. -/
theorem assemble_eq_ok_iff (hrank : IsRanking rank) {y : β} :
    assemble rank [] (operand y) rest = .ok e ↔ e.AdmissibleOver rank y rest := by
  constructor
  · intro he
    have hready : Ready rank [] (operand y) rest :=
      ⟨trivial, trivial, nofun, fun _ _ => standsLeft_operand y⟩
    exact hready.assemble hrank he
  · rintro ⟨hadmissible, rfl, rfl⟩
    have happend : assemble rank [] (operand e.first) (e.rest ++ []) = assemble rank [] e [] :=
      hadmissible.assemble_append hrank nofun nofun
    rw [List.append_nil] at happend
    rw [happend, assemble]

end Expression

end FrontEnd
