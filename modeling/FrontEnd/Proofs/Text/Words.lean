import FrontEnd.Text.Blank
import Mathlib.Data.List.Basic

/-!
# Words between blanks

A text is cut at its ASCII blanks, so words can be written with any blanks between them.

## Main Definitions

* `IsWord` — the names that can be written between blanks
* `Spaced` — words that are written with blanks between them
* `partsOf` — the parts between separators, none of them empty

## Main Statements

* `words_of_isWord` — a word by itself is its only word
* `spaced_iff` — the words of a text are those that it writes between blanks

## Design Notes

Blanks are needed between two words only.  In front of the first word and behind the last one there
may be some or none.
-/

namespace FrontEnd

/-- A name that is not empty and has no ASCII blanks. -/
def IsWord (name : String) : Prop := name.toList ≠ [] ∧ ∀ c ∈ name.toList, isAsciiBlank c = false

/-- Words that are written with some blanks between any two of them. -/
inductive Spaced : List String → List Char → Prop
  | nil {blanks : List Char} (hblanks : ∀ c ∈ blanks, isAsciiBlank c = true) : Spaced [] blanks
  | cons {name : String} {names : List String} {blanks rest : List Char} (hname : IsWord name)
    (hblanks : ∀ c ∈ blanks, isAsciiBlank c = true)
    (hrest : ∀ c ∈ rest.head?, isAsciiBlank c = true) (hnames : Spaced names rest) :
    Spaced (name :: names) (blanks ++ name.toList ++ rest)

section Split

variable {separator : Char → Bool} {c : Char} {part blanks cs : List Char}

/-- A separator in front makes an empty part. -/
theorem splitChars_separator (hc : separator c = true) :
    splitChars separator (c :: cs) = [] :: splitChars separator cs := if_pos hc

/-- Without a separator there is one part. -/
theorem splitChars_part (h : ∀ c ∈ part, separator c = false) :
    splitChars separator part = [part] := by
  induction part with
  | nil => rfl
  | cons c part ih =>
    obtain ⟨hc, hpart⟩ := List.forall_mem_cons.1 h
    simp [splitChars, hc, ih hpart]

/-- A part ends at the next separator. -/
theorem splitChars_append (h : ∀ c ∈ part, separator c = false) (hc : separator c = true) :
    splitChars separator (part ++ c :: cs) = part :: splitChars separator cs := by
  induction part with
  | nil => exact splitChars_separator hc
  | cons d part ih =>
    obtain ⟨hd, hpart⟩ := List.forall_mem_cons.1 h
    simp [splitChars, hd, ih hpart]

/-- The parts that are not empty. -/
def partsOf (separator : Char → Bool) (cs : List Char) : List (List Char) :=
  (splitChars separator cs).filter fun part => !part.isEmpty

/-- Separators at the front are passed over. -/
theorem partsOf_separators (h : ∀ c ∈ blanks, separator c = true) :
    partsOf separator (blanks ++ cs) = partsOf separator cs := by
  induction blanks with
  | nil => rfl
  | cons c blanks ih =>
    obtain ⟨hc, hblanks⟩ := List.forall_mem_cons.1 h
    unfold partsOf at ih ⊢
    rw [List.cons_append, splitChars_separator hc, List.filter_cons_of_neg (by simp), ih hblanks]

/-- A part at the front is the first one, when a separator stands behind it or nothing. -/
theorem partsOf_append (hne : part ≠ []) (h : ∀ c ∈ part, separator c = false)
    (hcs : ∀ c ∈ cs.head?, separator c = true) :
    partsOf separator (part ++ cs) = part :: partsOf separator cs := by
  have hkept : ∀ parts, (part :: parts).filter (fun part => !part.isEmpty) =
      part :: parts.filter fun part => !part.isEmpty :=
    fun parts => List.filter_cons_of_pos (by simpa using hne)
  unfold partsOf
  cases cs with
  | nil =>
    rw [List.append_nil, splitChars_part h, hkept]
    rfl
  | cons c cs =>
    rw [splitChars_append h (hcs c rfl), splitChars_separator (hcs c rfl), hkept,
      List.filter_cons_of_neg (by simp)]

end Split

/-- Names that are written with blanks between them are found again: each one is a part, and the
blanks make empty parts only. -/
theorem partsOf_of_spaced {names : List String} {cs : List Char} (h : Spaced names cs) :
    partsOf isAsciiBlank cs = names.map String.toList := by
  induction h with
  | @nil blanks hblanks =>
    rw [← List.append_nil blanks]
    exact partsOf_separators hblanks
  | cons hname hblanks hrest _ ih =>
    rw [List.append_assoc, partsOf_separators hblanks, partsOf_append hname.1 hname.2 hrest, ih,
      List.map_cons]

theorem words_of_spaced {names : List String} {text : String} (h : Spaced names text.toList) :
    words text = names := by
  show (partsOf isAsciiBlank text.toList).map String.ofList = names
  rw [partsOf_of_spaced h, List.map_map]
  simp [Function.comp_def]

section Spaced

variable {names : List String} {c : Char} {cs : List Char}

/-- A blank at the front belongs to the blanks in front of the first word. -/
theorem Spaced.blank (hc : isAsciiBlank c = true) (h : Spaced names cs) :
    Spaced names (c :: cs) := by
  cases h with
  | nil hblanks => exact .nil (List.forall_mem_cons.2 ⟨hc, hblanks⟩)
  | @cons name names blanks rest hname hblanks hrest hnames =>
    have hblanks : ∀ d ∈ c :: blanks, isAsciiBlank d = true :=
      List.forall_mem_cons.2 ⟨hc, hblanks⟩
    exact .cons hname hblanks hrest hnames

/-- Characters that are no blanks make a word when there is one. -/
theorem isWord_ofList (hc : isAsciiBlank c = false) (hcs : ∀ c ∈ cs, isAsciiBlank c = false) :
    IsWord (String.ofList (c :: cs)) := by
  unfold IsWord
  rw [String.toList_ofList]
  exact ⟨List.cons_ne_nil c cs, List.forall_mem_cons.2 ⟨hc, hcs⟩⟩

/-- Any other character begins the first word, or a word of its own in front of a blank. -/
theorem Spaced.exists_cons (hc : isAsciiBlank c = false) (h : Spaced names cs) :
    ∃ names, Spaced names (c :: cs) := by
  by_cases hhead : ∀ d ∈ cs.head?, isAsciiBlank d = true
  · refine ⟨String.ofList [c] :: names, ?_⟩
    have hnone : ∀ d ∈ ([] : List Char), isAsciiBlank d = true := List.forall_mem_nil _
    have hcons := Spaced.cons (isWord_ofList hc (List.forall_mem_nil _)) hnone hhead h
    rwa [String.toList_ofList] at hcons
  · cases h with
    | nil hblanks =>
      exact absurd (fun d hd => hblanks d (List.mem_of_mem_head? hd)) hhead
    | @cons name names blanks rest hname hblanks hrest hnames =>
      cases blanks with
      | nil =>
        refine ⟨String.ofList (c :: name.toList) :: names, ?_⟩
        have hcons := Spaced.cons (isWord_ofList hc hname.2) hblanks hrest hnames
        rwa [String.toList_ofList] at hcons
      | cons d blanks =>
        refine absurd (fun e he => ?_) hhead
        obtain rfl := Option.some.inj he
        exact hblanks d (List.mem_cons_self ..)

end Spaced

/-- **The words of a text are the words that it writes between blanks.** -/
theorem spaced_iff {names : List String} {text : String} :
    Spaced names text.toList ↔ words text = names := by
  refine ⟨words_of_spaced, ?_⟩
  rintro rfl
  have hexists : ∀ cs, ∃ names, Spaced names cs := by
    intro cs
    induction cs with
    | nil => exact ⟨[], .nil (List.forall_mem_nil _)⟩
    | cons c cs ih =>
      obtain ⟨names, hnames⟩ := ih
      cases hc : isAsciiBlank c with
      | true => exact ⟨names, hnames.blank hc⟩
      | false => exact hnames.exists_cons hc
  obtain ⟨names, hnames⟩ := hexists text.toList
  rwa [words_of_spaced hnames]

/-- A word by itself is its only word. -/
theorem words_of_isWord {name : String} (h : IsWord name) : words name = [name] := by
  have hspaced : Spaced [name] ([] ++ name.toList ++ []) :=
    .cons h (List.forall_mem_nil _) (by simp) (.nil (List.forall_mem_nil _))
  rw [List.nil_append, List.append_nil] at hspaced
  exact words_of_spaced hspaced

end FrontEnd
