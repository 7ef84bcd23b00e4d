import Variants.Proofs.Demand
import Variants.Proofs.Enumeration
import Variants.Proofs.Final

/-!
# Lines and the keys that are listed around them

A key keeps a line of a text when the line comes out as it is and is not empty (`Keeps`). The path
to a line has the symbols that the branches around it hold (`symbols`), as long as none of these
branches is the first one of an `#ifndef` (`Branch.isOpen`): that one is listed with its symbol,
although the code in it needs the symbol to be missing.

* Branches that are open have their symbols as a key of the text, or no symbol at all
  (`exists_recorded`).
* A key of the text that has just the symbols a line needs keeps the line (`keeps_of_recorded`).
-/

namespace Variants

open Variants.Configuration

/-! ## 1. Lines that a key keeps -/

namespace Configuration

/-- Whether the code of a key holds a line of the text, counted from zero, that is not empty. -/
def Keeps (t key : Text) (i : Nat) : Prop :=
  ∃ line, line ∈ (Text.lines t)[i]? ∧ line ≠ [] ∧ (Text.lines (select t key))[i]? = some line

instance (t key : Text) (i : Nat) : Decidable (Keeps t key i) :=
  inferInstanceAs (Decidable (∃ line, line ∈ (Text.lines t)[i]? ∧ _))

/-- The lines of the code of a key. -/
theorem lines_select {t : Text} {tree : Nesting} (h : tree.lines = Text.lines t) (key : Text) :
    Text.lines (select t key) = (tree.placed []).map (PlacedLine.kept key) := by
  rw [lines_select_eq, ← h, selectLines_lines]

/-- A key keeps a line when the branches around it are all chosen. -/
theorem keeps_iff {t : Text} {tree : Nesting} (h : tree.lines = Text.lines t) {key : Text}
    {i : Nat} :
    Keeps t key i ↔ ∃ line, (tree.placed [])[i]? = some line ∧ line.text ≠ [] ∧
      looksConditional line.text = false ∧ ∀ b ∈ line.around, b.isChosen key = true := by
  have hplaced : Text.lines t = (tree.placed []).map PlacedLine.text := by
    rw [← h, tree.map_text_placed]
  rw [Keeps, lines_select h, hplaced, List.getElem?_map, List.getElem?_map]
  cases (tree.placed [])[i]? with
  | none => simp
  | some line =>
    simp only [Option.map_some, Option.mem_def, Option.some.injEq, exists_eq_left']
    exact and_congr_right fun hne => PlacedLine.kept_eq_text_iff hne

end Configuration

/-! ## 2. Open branches -/

/-- The condition that a test wants to fail. -/
def Test.denied? : Test → Option Condition
  | .fails condition => some condition
  | _ => none

/-- Whether the path to the code of a branch holds a condition that the code wants to hold. -/
def Branch.isOpen (b : Branch) : Bool := b.test.denied?.isNone && b.stacked != .never

/-- The symbols that some branches hold, for the outermost branch first. -/
def symbols (around : List Branch) : List Text :=
  around.reverse.flatMap fun b => b.test.neededToPass.toList

theorem symbols_nil : symbols [] = [] := rfl

theorem symbols_cons (b : Branch) (around : List Branch) :
    symbols (b :: around) = symbols around ++ b.test.neededToPass.toList := by
  simp [symbols]

theorem symbols_append (inner outer : List Branch) :
    symbols (inner ++ outer) = symbols outer ++ symbols inner := by
  simp [symbols]

/-- Branches need the symbols that they hold. -/
theorem symbols_subset_needs {around : List Branch} :
    ∀ name ∈ symbols around, name ∈ needs around := by
  intro name hname
  obtain ⟨b, hb, hname⟩ := List.mem_flatMap.1 hname
  exact List.mem_flatMap.2 ⟨b, hb, List.mem_append_right _ hname⟩

theorem Condition.name?_flipped (condition : Condition) : condition.flipped.name? = none := by
  cases condition <;> rfl

/-- An open branch stands on the path with the symbol that it holds. -/
theorem Branch.stacked_of_isOpen {b : Branch} (h : b.isOpen = true) :
    b.stacked ≠ .never ∧ b.stacked.name? = b.test.neededToPass := by
  rw [isOpen, Bool.and_eq_true, Option.isNone_iff_eq_none, bne_iff_ne] at h
  obtain ⟨hdenied, hne⟩ := h
  refine ⟨hne, ?_⟩
  obtain ⟨earlier, test⟩ := b
  cases test with
  | holds condition => rfl
  | fails condition => cases hdenied
  | always =>
    unfold stacked
    split
    · rename_i hcondition
      cases hcondition
    · split
      · exact Condition.name?_flipped _
      · rfl

theorem Condition.filterMap_singleton (condition : Condition) :
    [condition].filterMap Condition.name? = condition.name?.toList := by
  cases condition <;> rfl

section Open

open Branch

variable {around : List Branch}

/-- The path to open branches has the symbols that they hold. -/
theorem path_of_isOpen (hopen : ∀ b ∈ around, b.isOpen = true) :
    Condition.never ∉ path around ∧
      (path around).reverse.filterMap Condition.name? = symbols around := by
  induction around with
  | nil => exact ⟨List.not_mem_nil, rfl⟩
  | cons b outer ih =>
    obtain ⟨hnever, hnames⟩ := ih fun o ho => hopen o (List.mem_cons_of_mem _ ho)
    obtain ⟨hne, hname⟩ := Branch.stacked_of_isOpen (hopen b List.mem_cons_self)
    have hpath : path (b :: outer) = b.stacked :: path outer := rfl
    refine ⟨?_, ?_⟩
    · rw [hpath, List.mem_cons, not_or]
      exact ⟨fun e => hne e.symm, hnever⟩
    · rw [hpath, List.reverse_cons, List.filterMap_append, hnames,
        Condition.filterMap_singleton, hname, symbols_cons]

/-- The key of one more condition on such a path. -/
theorem keyOfPath_cons (hopen : ∀ b ∈ around, b.isOpen = true) {condition : Condition}
    (hne : condition ≠ .never) :
    keyOfPath (condition :: path around).reverse =
      some (join (symbols around ++ condition.name?.toList)) := by
  obtain ⟨hnever, hnames⟩ := path_of_isOpen hopen
  have hmem : Condition.never ∉ (condition :: path around).reverse := by
    rw [List.mem_reverse, List.mem_cons, not_or]
    exact ⟨fun e => hne e.symm, hnever⟩
  rw [keyOfPath, if_neg hmem, List.reverse_cons, List.filterMap_append, hnames,
    Condition.filterMap_singleton]

theorem recorded_subset (inner : List Branch) :
    ∀ p ∈ recorded around, p ∈ recorded (inner ++ around) := by
  induction inner with
  | nil => exact fun p hp => hp
  | cons b inner ih => exact fun p hp => List.mem_append_right _ (ih p hp)

/-- **The symbols that open branches hold are a key that is listed around them**, or there are none
at all. -/
theorem exists_recorded (hopen : ∀ b ∈ around, b.isOpen = true) :
    join (symbols around) = [] ∨
      ∃ p ∈ recorded around, keyOfPath p = some (join (symbols around)) := by
  induction around with
  | nil => exact Or.inl rfl
  | cons b outer ih =>
    have houter : ∀ o ∈ outer, o.isOpen = true := fun o ho => hopen o (List.mem_cons_of_mem _ ho)
    obtain ⟨hne, hname⟩ := Branch.stacked_of_isOpen (hopen b List.mem_cons_self)
    rw [symbols_cons]
    cases htest : b.test with
    | holds condition =>
      have hstacked : b.stacked = condition := by rw [stacked, htest, Test.condition?]
      rw [hstacked] at hne
      refine Or.inr ⟨_, List.mem_append_left _ ?_, keyOfPath_cons houter hne⟩
      refine List.mem_map.2 ⟨condition, List.mem_filterMap.2 ⟨b.test, List.mem_cons_self, ?_⟩, rfl⟩
      rw [htest, Test.condition?]
    | fails condition =>
      have hopen' := hopen b List.mem_cons_self
      rw [isOpen, htest] at hopen'
      cases hopen'
    | always =>
      have hnone : Test.neededToPass .always = none := rfl
      rw [hnone, Option.toList_none, List.append_nil]
      rcases ih houter with hjoin | ⟨p, hp, hkey⟩
      · exact Or.inl hjoin
      · exact Or.inr ⟨p, List.mem_append_right _ hp, hkey⟩

end Open

/-! ## 3. Keys with what a line needs -/

/-- A line that some key keeps is kept by a key that is listed around it and has just the symbols
that the line needs. -/
theorem keeps_of_recorded {t : Text} {tree : Nesting} (h : tree.lines = Text.lines t) {key : Text}
    {i : Nat} (hkeeps : Keeps t key i) {line : PlacedLine}
    (hline : (tree.placed [])[i]? = some line) {names : List Text}
    (hnames : ∀ name, name ∈ names ↔ name ∈ needs line.around)
    (hrecorded : join names = [] ∨
      ∃ p ∈ Branch.recorded line.around, keyOfPath p = some (join names)) :
    join names ∈ enumerate t ∧ Keeps t (join names) i := by
  obtain ⟨line', hline', htext, hlooks, hchosen⟩ := (keeps_iff h).1 hkeeps
  cases hline.symm.trans hline'
  have hmem := List.mem_of_getElem? hline
  have hsub : ∀ name ∈ names, name ∈ segments key := fun name hname =>
    needs_subset hchosen name ((hnames name).1 hname)
  have hne : ∀ name ∈ names, name ≠ [] := fun name hname =>
    needs_ne_nil hmem name ((hnames name).1 hname)
  have hsegments : segments (join names) = names :=
    segments_join hne fun name hname => semicolon_not_mem_segment (hsub name hname)
  refine ⟨(mem_enumerate h).2 (hrecorded.imp_right ?_), (keeps_iff h).2 ?_⟩
  · rintro ⟨p, hp, hkey⟩
    have hpaths := tree.mem_paths_of_mem_placed hmem p hp
    exact ⟨p, hpaths.resolve_right List.not_mem_nil, hkey⟩
  · refine ⟨line, hline, htext, hlooks, isChosen_of_between ?_ ?_ hchosen⟩
    · rw [hsegments]
      exact hsub
    · rw [hsegments]
      exact fun name hname => (hnames name).2 hname

end Variants
