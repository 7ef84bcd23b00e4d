import Variants.Configuration.Select
import Variants.Proofs.Nesting

/-!
# Where the lines of a tree stand

Around a line of well-nested text stand branches, one of every section that holds the line. A
`Branch` knows its own test and the tests of the branches before it in its section, and so it can
say by itself when it is the one that is chosen: its test holds, and none before it does
(`Branch.isChosen`). `Nesting.placed` lists the lines of a tree, each with the branches around it.
-/

namespace Variants

open Variants.Configuration

/-! ## 1. Tests -/

/-- The test of a branch: a condition that has to hold, one that must not, or none at all. -/
inductive Test where
  | holds (condition : Condition)
  | fails (condition : Condition)
  | always
  deriving DecidableEq, Repr

namespace Test

/-- The test of an opening directive. -/
def ofOpening : Opening → Condition → Test
  | .ifndef, condition => .fails condition
  | _, condition => .holds condition

/-- The condition that a test asks about. -/
def condition? : Test → Option Condition
  | .holds condition => some condition
  | .fails condition => some condition
  | .always => none

theorem condition?_ofOpening (form : Opening) (condition : Condition) :
    (ofOpening form condition).condition? = some condition := by
  cases form <;> rfl

/-- Whether a test holds in the configuration of a key. -/
def passes (key : Text) : Test → Bool
  | .holds condition => selects key condition
  | .fails condition => !selects key condition
  | .always => true

theorem passes_ofOpening (key : Text) (form : Opening) (condition : Condition) :
    (ofOpening form condition).passes key = opens (segments key) form condition := by
  cases form <;> rfl

end Test

/-! ## 2. Branches -/

/-- A branch: its test, and the tests before it in the section, the nearest first. -/
structure Branch where
  earlier : List Test
  test : Test
  deriving DecidableEq, Repr

namespace Branch

/-- Whether a branch is the first of its section whose test holds. -/
def isChosen (key : Text) (b : Branch) : Bool :=
  b.test.passes key && b.earlier.all fun test => !test.passes key

/-- The tests made up to a branch, its own first. -/
def tests (b : Branch) : List Test := b.test :: b.earlier

/-- The first branch of a section. -/
def first (form : Opening) (condition : Condition) : Branch :=
  ⟨[], .ofOpening form condition⟩

end Branch

/-! ## 3. Lines with the branches around them -/

/-- A line and the branches around it, the innermost first. -/
structure PlacedLine where
  around : List Branch
  text : Text
  deriving DecidableEq, Repr

namespace PlacedLine

/-- Whether the branches around a line are all chosen. -/
def isLive (key : Text) (line : PlacedLine) : Bool := line.around.all (Branch.isChosen key)

/-- A line as a key keeps it: itself where it is live and does not look like a conditional
directive, or else empty. -/
def kept (key : Text) (line : PlacedLine) : Text :=
  if line.isLive key && !looksConditional line.text then line.text else []

/-- A line that is not empty is kept when it stands in chosen branches only and does not look like a
conditional directive. -/
theorem kept_eq_text_iff {key : Text} {line : PlacedLine} (hne : line.text ≠ []) :
    line.kept key = line.text ↔
      looksConditional line.text = false ∧ ∀ b ∈ line.around, b.isChosen key = true := by
  have hlive : (line.isLive key && !looksConditional line.text) = true ↔
      looksConditional line.text = false ∧ ∀ b ∈ line.around, b.isChosen key = true := by
    simp [isLive, and_comm]
  unfold kept
  by_cases h : (line.isLive key && !looksConditional line.text) = true
  · rw [if_pos h]
    exact ⟨fun _ => hlive.1 h, fun _ => rfl⟩
  · rw [if_neg h]
    exact ⟨fun e => absurd e.symm hne, fun e => absurd (hlive.2 e) h⟩

end PlacedLine

mutual

/-- The lines of a tree, each with the branches around it. The tree itself stands in the branches
`around`. -/
def Nesting.placed (around : List Branch) : Nesting → List PlacedLine
  | .nil => []
  | .plain line rest => ⟨around, line.1⟩ :: rest.placed around
  | .opening form condition line body others rest =>
    let first := Branch.first form condition
    ⟨around, line.1⟩ :: (body.placed (first :: around) ++
      (others.placed [first.test] around ++ rest.placed around))

/-- The lines of the further branches of a section in which the tests `earlier` were made. -/
def Branches.placed (earlier : List Test) (around : List Branch) : Branches → List PlacedLine
  | .endif line => [⟨around, line.1⟩]
  | .elif condition line body others =>
    ⟨around, line.1⟩ :: (body.placed (⟨earlier, .holds condition⟩ :: around) ++
      others.placed (.holds condition :: earlier) around)
  | .otherwise line body last =>
    ⟨around, line.1⟩ :: (body.placed (⟨earlier, .always⟩ :: around) ++ [⟨around, last.1⟩])

end

mutual

/-- The placed lines are the lines. -/
theorem Nesting.map_text_placed : ∀ (tree : Nesting) (around : List Branch),
    (tree.placed around).map PlacedLine.text = tree.lines
  | .nil, _ => rfl
  | .plain line rest, around => by
    rw [Nesting.placed, List.map_cons, rest.map_text_placed, Nesting.lines]
  | .opening form condition line body others rest, around => by
    rw [Nesting.placed, List.map_cons, List.map_append, List.map_append, body.map_text_placed,
      others.map_text_placed, rest.map_text_placed, Nesting.lines]

theorem Branches.map_text_placed : ∀ (others : Branches) (earlier : List Test)
    (around : List Branch), (others.placed earlier around).map PlacedLine.text = others.lines
  | .endif line, _, _ => rfl
  | .elif condition line body others, earlier, around => by
    rw [Branches.placed, List.map_cons, List.map_append, body.map_text_placed,
      others.map_text_placed, Branches.lines]
  | .otherwise line body last, earlier, around => by
    rw [Branches.placed, List.map_cons, List.map_append, body.map_text_placed, Branches.lines]
    rfl

end

/-! ## 4. Where the tests come from -/

/-- The test that a directive makes. -/
def Directive.test? : Directive → Option Test
  | .opening form condition => some (.ofOpening form condition)
  | .elif condition => some (.holds condition)
  | _ => none

mutual

/-- What is true of every test that a directive of the tree makes is true of all tests around its
lines. -/
theorem Nesting.forall_tests {P : Test → Prop} (halways : P .always) :
    ∀ (tree : Nesting) {around : List Branch} {line : PlacedLine}, line ∈ tree.placed around →
    (∀ text ∈ tree.lines, ∀ directive, Directive.conditional? text = some directive →
      ∀ test, directive.test? = some test → P test) →
    (∀ b ∈ around, ∀ test ∈ b.tests, P test) → ∀ b ∈ line.around, ∀ test ∈ b.tests, P test
  | .nil, _, _, h, _, _ => absurd h List.not_mem_nil
  | .plain first rest, around, line, h, hlines, haround => by
    rcases List.mem_cons.1 h with rfl | h
    · exact haround
    · exact rest.forall_tests halways h
        (fun text htext => hlines text (List.mem_cons_of_mem _ htext)) haround
  | .opening form condition first body others rest, around, line, h, hlines, haround => by
    have hfirst : P (.ofOpening form condition) :=
      hlines first.1 List.mem_cons_self _ first.2 _ rfl
    have hlines' : ∀ text ∈ body.lines ++ (others.lines ++ rest.lines), ∀ directive,
        Directive.conditional? text = some directive →
        ∀ test, directive.test? = some test → P test :=
      fun text htext => hlines text (List.mem_cons_of_mem _ htext)
    rcases List.mem_cons.1 h with rfl | h
    · exact haround
    · rcases List.mem_append.1 h with h | h
      · refine body.forall_tests halways h
          (fun text htext => hlines' text (List.mem_append_left _ htext)) ?_
        intro b hb test htest
        rcases List.mem_cons.1 hb with rfl | hb
        · rcases List.mem_cons.1 htest with rfl | htest
          · exact hfirst
          · exact absurd htest List.not_mem_nil
        · exact haround b hb test htest
      · rcases List.mem_append.1 h with h | h
        · refine others.forall_tests halways h (fun text htext =>
            hlines' text (List.mem_append_right _ (List.mem_append_left _ htext))) ?_ haround
          intro test htest
          rw [List.mem_singleton] at htest
          subst htest
          exact hfirst
        · exact rest.forall_tests halways h (fun text htext =>
            hlines' text (List.mem_append_right _ (List.mem_append_right _ htext))) haround

theorem Branches.forall_tests {P : Test → Prop} (halways : P .always) :
    ∀ (others : Branches) {earlier : List Test} {around : List Branch} {line : PlacedLine},
    line ∈ others.placed earlier around →
    (∀ text ∈ others.lines, ∀ directive, Directive.conditional? text = some directive →
      ∀ test, directive.test? = some test → P test) →
    (∀ test ∈ earlier, P test) →
    (∀ b ∈ around, ∀ test ∈ b.tests, P test) → ∀ b ∈ line.around, ∀ test ∈ b.tests, P test
  | .endif _, _, _, _, h, _, _, haround => by
    rw [Branches.placed, List.mem_singleton] at h
    subst h
    exact haround
  | .elif condition first body others, earlier, around, line, h, hlines, hearlier, haround => by
    have hfirst : P (.holds condition) := hlines first.1 List.mem_cons_self _ first.2 _ rfl
    have hcons : ∀ test ∈ Test.holds condition :: earlier, P test := by
      intro test htest
      rcases List.mem_cons.1 htest with rfl | htest
      · exact hfirst
      · exact hearlier test htest
    rcases List.mem_cons.1 h with rfl | h
    · exact haround
    · rcases List.mem_append.1 h with h | h
      · refine body.forall_tests halways h (fun text htext =>
          hlines text (List.mem_cons_of_mem _ (List.mem_append_left _ htext))) ?_
        intro b hb
        rcases List.mem_cons.1 hb with rfl | hb
        · exact hcons
        · exact haround b hb
      · exact others.forall_tests halways h (fun text htext =>
          hlines text (List.mem_cons_of_mem _ (List.mem_append_right _ htext))) hcons haround
  | .otherwise first body last, earlier, around, line, h, hlines, hearlier, haround => by
    rcases List.mem_cons.1 h with rfl | h
    · exact haround
    · rcases List.mem_append.1 h with h | h
      · refine body.forall_tests halways h (fun text htext =>
          hlines text (List.mem_cons_of_mem _ (List.mem_append_left _ htext))) ?_
        intro b hb test htest
        rcases List.mem_cons.1 hb with rfl | hb
        · rcases List.mem_cons.1 htest with rfl | htest
          · exact halways
          · exact hearlier test htest
        · exact haround b hb test htest
      · rw [List.mem_singleton] at h
        subst h
        exact haround

end

end Variants
