import Variants.Proofs.Placement
import Variants.Proofs.TextLines

/-!
# What selecting keeps of well-nested text

Selecting goes over the lines with a stack of open sections. Along the lines of a tree that stack
says of every section whether the branch around the current line is chosen (`Agrees`), and after a
section it is what it was before (`selectLines_nesting`). So the code of a key is the tree, line by
line, with all lines emptied that do not stand in the first branch whose test holds of every section
around them (`select_eq_flatMap_kept`).
-/

namespace Variants.Configuration

/-! ## 1. Directives in a line -/

/-- A line that is no conditional directive leaves the open sections as they are. -/
theorem advanceLine_plain {line : Text} (h : Directive.conditional? line = none)
    (symbols : List Text) (sections : List Section) :
    advanceLine symbols sections line = sections := by
  unfold advanceLine
  split
  · rename_i directive hdirective
    rw [Directive.conditional?, hdirective, Option.filter_eq_none_iff] at h
    have hdefine := h directive rfl
    cases directive <;> first | rfl | exact absurd rfl hdefine
  · rfl

theorem advanceLine_conditional {line : Text} {directive : Directive}
    (h : Directive.conditional? line = some directive) (symbols : List Text)
    (sections : List Section) :
    advanceLine symbols sections line = advance symbols sections directive := by
  rw [advanceLine, (Option.filter_eq_some_iff.1 h).1]

/-- A conditional directive looks like one. -/
theorem looksConditional_of_conditional? {line : Text} {directive : Directive}
    (h : Directive.conditional? line = some directive) : looksConditional line = true := by
  obtain ⟨hline, hconditional⟩ := Option.filter_eq_some_iff.1 h
  obtain ⟨k, rest, rfl, _, rfl⟩ := Directive.exists_keyword_of_ofLine? hline
  cases k with
  | opening form => cases form <;> rfl
  | elif => rfl
  | otherwise => rfl
  | endif => rfl
  | define => cases hconditional

theorem selectLine_conditional {line : Text} {directive : Directive}
    (h : Directive.conditional? line = some directive) (sections : List Section) :
    selectLine sections line = [] := by
  rw [selectLine, looksConditional_of_conditional? h, Bool.not_true, Bool.and_false]
  rfl

theorem kept_conditional {line : Text} {directive : Directive}
    (h : Directive.conditional? line = some directive) (key : Text) (around : List Branch) :
    PlacedLine.kept key ⟨around, line⟩ = [] := by
  rw [PlacedLine.kept, looksConditional_of_conditional? h, Bool.not_true, Bool.and_false]
  rfl

/-! ## 2. Open sections and branches -/

/-- Whether the open sections say which of the branches around a line are chosen. -/
def Agrees (key : Text) (sections : List Section) (around : List Branch) : Prop :=
  sections.map Section.active = around.map (Branch.isChosen key)

theorem Agrees.cons {key : Text} {sections : List Section} {around : List Branch} {s : Section}
    {b : Branch} (h : Agrees key sections around) (hs : s.active = b.isChosen key) :
    Agrees key (s :: sections) (b :: around) := by
  rw [Agrees, List.map_cons, List.map_cons, hs, h]

/-- Where the two agree, the line that is selected is the line that is kept. -/
theorem Agrees.selectLine_eq {key : Text} {sections : List Section} {around : List Branch}
    (h : Agrees key sections around) (line : Text) :
    selectLine sections line = PlacedLine.kept key ⟨around, line⟩ := by
  have hall : sections.all Section.active = around.all (Branch.isChosen key) := by
    have hid := congrArg (fun flags => flags.all id) h
    simpa only [List.all_map, Function.id_comp] using hid
  rw [selectLine, PlacedLine.kept, PlacedLine.isLive, hall]

/-- The section that an opening directive opens. -/
theorem advance_opening (key : Text) (sections : List Section) (form : Opening)
    (condition : Condition) :
    advance (segments key) sections (.opening form condition) =
      ⟨(Branch.first form condition).isChosen key,
        [(Branch.first form condition).test].any (Test.passes key)⟩ :: sections := by
  simp [advance, Branch.first, Branch.isChosen, Test.passes_ofOpening]

/-- No test passed before exactly when the section is not taken. -/
theorem all_not_passes {key : Text} {s : Section} {earlier : List Test}
    (h : s.taken = earlier.any (Test.passes key)) :
    (earlier.all fun test => !test.passes key) = !s.taken := by
  rw [h, List.not_any_eq_all_not]

/-- The section after an `#elif`, when the tests before it are known. -/
theorem advance_elif {key : Text} {s : Section} {earlier : List Test}
    (h : s.taken = earlier.any (Test.passes key)) (sections : List Section)
    (condition : Condition) :
    advance (segments key) (s :: sections) (.elif condition) =
      ⟨Branch.isChosen key ⟨earlier, .holds condition⟩,
        (Test.holds condition :: earlier).any (Test.passes key)⟩ :: sections := by
  rw [Branch.isChosen, all_not_passes h, List.any_cons, ← h]
  show (if s.taken = true then _ else _) = _
  cases s.taken <;> simp [Test.passes, selects]

theorem advance_otherwise {key : Text} {s : Section} {earlier : List Test}
    (h : s.taken = earlier.any (Test.passes key)) (sections : List Section) :
    advance (segments key) (s :: sections) .otherwise =
      ⟨Branch.isChosen key ⟨earlier, .always⟩, s.taken⟩ :: sections := by
  rw [Branch.isChosen, all_not_passes h]
  rfl

/-! ## 3. The walk -/

mutual

/-- **Selecting along a tree**: the lines are kept as the branches around them say, and the open
sections are afterwards what they were before. -/
theorem selectLines_nesting (key : Text) : ∀ (tree : Nesting) {sections : List Section}
    {around : List Branch}, Agrees key sections around → ∀ rest : List Text,
    selectLines (segments key) sections (tree.lines ++ rest) =
      (tree.placed around).map (PlacedLine.kept key) ++ selectLines (segments key) sections rest
  | .nil, _, _, _, _ => rfl
  | .plain line more, sections, around, h, rest => by
    have hline := advanceLine_plain line.2 (segments key) sections
    rw [Nesting.lines, List.cons_append, selectLines, hline, selectLines_nesting key more h,
      h.selectLine_eq, Nesting.placed, List.map_cons, List.cons_append]
  | .opening form condition line body others more, sections, around, h, rest => by
    have hline := advanceLine_conditional line.2 (segments key) sections
    rw [advance_opening] at hline
    rw [Nesting.lines, List.cons_append, selectLines, hline, selectLine_conditional line.2,
      List.append_assoc, List.append_assoc, selectLines_nesting key body (h.cons rfl),
      selectLines_branches key others h rfl, selectLines_nesting key more h, Nesting.placed]
    simp [kept_conditional line.2]

/-- The same for what follows the first branch of a section `s` whose tests so far are known. -/
theorem selectLines_branches (key : Text) : ∀ (others : Branches) {s : Section}
    {sections : List Section} {around : List Branch} {earlier : List Test},
    Agrees key sections around → s.taken = earlier.any (Test.passes key) → ∀ rest : List Text,
    selectLines (segments key) (s :: sections) (others.lines ++ rest) =
      (others.placed earlier around).map (PlacedLine.kept key) ++
        selectLines (segments key) sections rest
  | .endif line, s, sections, around, _, _, _, rest => by
    have hline := advanceLine_conditional line.2 (segments key) (s :: sections)
    rw [Branches.lines, List.singleton_append, selectLines, hline, selectLine_conditional line.2,
      Branches.placed, List.map_singleton, kept_conditional line.2]
    rfl
  | .elif condition line body others, s, sections, around, earlier, h, hs, rest => by
    have hline := advanceLine_conditional line.2 (segments key) (s :: sections)
    rw [advance_elif hs] at hline
    rw [Branches.lines, List.cons_append, selectLines, hline, selectLine_conditional line.2,
      List.append_assoc, selectLines_nesting key body (h.cons rfl),
      selectLines_branches key others h rfl, Branches.placed]
    simp [kept_conditional line.2]
  | .otherwise line body last, s, sections, around, earlier, h, hs, rest => by
    have hline := advanceLine_conditional line.2 (segments key) (s :: sections)
    rw [advance_otherwise hs] at hline
    have hbody : Agrees key (⟨Branch.isChosen key ⟨earlier, .always⟩, s.taken⟩ :: sections)
        (⟨earlier, .always⟩ :: around) := h.cons rfl
    rw [Branches.lines, List.cons_append, selectLines, hline, selectLine_conditional line.2,
      List.append_assoc, selectLines_nesting key body hbody, List.singleton_append,
      selectLines, advanceLine_conditional last.2, selectLine_conditional last.2, Branches.placed]
    simp [kept_conditional line.2, kept_conditional last.2, advance]

end

/-- The selected lines of a whole tree. -/
theorem selectLines_lines (key : Text) (tree : Nesting) :
    selectLines (segments key) [] tree.lines =
      (tree.placed []).map (PlacedLine.kept key) := by
  have hagrees : Agrees key [] [] := rfl
  have hwalk := selectLines_nesting key tree hagrees []
  rwa [List.append_nil, selectLines, List.append_nil] at hwalk

/-- **The code of a key is the tree of the text, line by line.** A line is kept when it does not
look like a conditional directive and stands, in every section around it, in the first branch whose
test holds. -/
theorem select_eq_flatMap_kept {t : Text} {tree : Nesting} (h : tree.lines = Text.lines t)
    (key : Text) :
    (tree.placed []).map PlacedLine.text = Text.lines t ∧
      select t key = (tree.placed []).flatMap fun line => line.kept key ++ ['\n'] := by
  refine ⟨h ▸ tree.map_text_placed [], ?_⟩
  rw [select, ← h, selectLines_lines, List.flatMap_map]

theorem select_eq_flatMap_kept_elif :
    ∃ tree : Nesting, tree.lines = Text.lines "#ifdef A\na\n#elif B\nb\n#endif\n".toList ∧
      (tree.placed []).map PlacedLine.text =
        Text.lines "#ifdef A\na\n#elif B\nb\n#endif\n".toList ∧
      select "#ifdef A\na\n#elif B\nb\n#endif\n".toList ['B'] =
        (tree.placed []).flatMap fun line => line.kept ['B'] ++ ['\n'] := by
  have hnested : WellNested "#ifdef A\na\n#elif B\nb\n#endif\n".toList := by decide
  obtain ⟨tree, htree⟩ := hnested
  exact ⟨tree, htree, select_eq_flatMap_kept htree ['B']⟩

end Variants.Configuration
