import Variants.Configuration.Enumerate
import Variants.Proofs.Placement

/-!
# The branches that enumerating lists for well-nested text

Enumerating goes over the directives with a path of conditions. Along a tree the path is the way
down to the current line, and the branches that are listed are those of the tree, in the order of
its lines (`branchPaths_nesting`).

A line that stands in some branches has all of their paths listed before it: those of the tests that
were made in the sections around it (`recorded`, `mem_paths_of_mem_placed`). Code after an `#else`
stands under the flipped condition of the last test (`Branch.stacked`).
-/

namespace Variants

open Variants.Configuration

/-! ## 1. The paths of a tree -/

mutual

/-- The paths of the branches in a tree, in the order of the lines, each with its outermost
condition first. `path` leads to the tree and has its innermost condition first. -/
def Nesting.paths (path : List Condition) : Nesting → List (List Condition)
  | .nil => []
  | .plain _ rest => rest.paths path
  | .opening _ condition _ body others rest =>
    (condition :: path).reverse ::
      (body.paths (condition :: path) ++ (others.paths condition path ++ rest.paths path))

/-- The paths of the further branches of a section, and of those in them. `last` is the condition of
the test before. -/
def Branches.paths (last : Condition) (path : List Condition) : Branches → List (List Condition)
  | .endif _ => []
  | .elif condition _ body others =>
    (condition :: path).reverse ::
      (body.paths (condition :: path) ++ others.paths condition path)
  | .otherwise _ body _ => body.paths (last.flipped :: path)

end

namespace Configuration

/-- A line that is no conditional directive starts no branch. -/
theorem branchPaths_plain {line : Text} (h : Directive.conditional? line = none)
    (path : List Condition) (rest : List Text) :
    branchPaths path (Directive.ofLines (line :: rest)) =
      branchPaths path (Directive.ofLines rest) := by
  cases hline : Directive.ofLine? line with
  | none => rw [Directive.ofLines, List.filterMap_cons_none hline, Directive.ofLines]
  | some directive =>
    rw [Directive.conditional?, hline, Option.filter_eq_none_iff] at h
    have hdefine := h directive rfl
    rw [Directive.ofLines, List.filterMap_cons_some hline, Directive.ofLines]
    cases directive <;> first | rfl | exact absurd rfl hdefine

theorem branchPaths_conditional {line : Text} {directive : Directive}
    (h : Directive.conditional? line = some directive) (path : List Condition)
    (rest : List Text) :
    branchPaths path (Directive.ofLines (line :: rest)) =
      branchPaths path (directive :: Directive.ofLines rest) := by
  rw [Directive.ofLines, List.filterMap_cons_some (Option.filter_eq_some_iff.1 h).1,
    Directive.ofLines]

mutual

/-- **Enumerating along a tree** lists the paths of the tree, and the path is afterwards what it was
before. -/
theorem branchPaths_nesting : ∀ (tree : Nesting) (path : List Condition) (rest : List Text),
    branchPaths path (Directive.ofLines (tree.lines ++ rest)) =
      tree.paths path ++ branchPaths path (Directive.ofLines rest)
  | .nil, _, _ => rfl
  | .plain line more, path, rest => by
    rw [Nesting.lines, List.cons_append, branchPaths_plain line.2, branchPaths_nesting more,
      Nesting.paths]
  | .opening form condition line body others more, path, rest => by
    rw [Nesting.lines, List.cons_append, branchPaths_conditional line.2, List.append_assoc,
      List.append_assoc]
    show (condition :: path).reverse :: branchPaths (condition :: path) _ = _
    rw [branchPaths_nesting body, branchPaths_branches others, branchPaths_nesting more,
      Nesting.paths, List.cons_append, List.append_assoc, List.append_assoc]

theorem branchPaths_branches : ∀ (others : Branches) (last : Condition) (path : List Condition)
    (rest : List Text), branchPaths (last :: path) (Directive.ofLines (others.lines ++ rest)) =
      others.paths last path ++ branchPaths path (Directive.ofLines rest)
  | .endif line, last, path, rest => by
    rw [Branches.lines, List.singleton_append, branchPaths_conditional line.2]
    rfl
  | .elif condition line body others, last, path, rest => by
    rw [Branches.lines, List.cons_append, branchPaths_conditional line.2, List.append_assoc]
    show (condition :: path).reverse :: branchPaths (condition :: path) _ = _
    rw [branchPaths_nesting body, branchPaths_branches others, Branches.paths, List.cons_append,
      List.append_assoc]
  | .otherwise line body last', last, path, rest => by
    rw [Branches.lines, List.cons_append, branchPaths_conditional line.2, List.append_assoc,
      List.singleton_append]
    show branchPaths (last.flipped :: path) _ = _
    rw [branchPaths_nesting body, branchPaths_conditional last'.2]
    rfl

end

/-- The keys of the branches of a text are those of its tree. -/
theorem branchKeys_eq {t : Text} {tree : Nesting} (h : tree.lines = Text.lines t) :
    branchKeys t = (tree.paths []).filterMap keyOfPath := by
  have hwalk := branchPaths_nesting tree [] []
  rw [List.append_nil, h] at hwalk
  rw [branchKeys, hwalk]
  simp [Directive.ofLines, branchPaths]

theorem mem_enumerate {t : Text} {tree : Nesting} (h : tree.lines = Text.lines t) {key : Text} :
    key ∈ enumerate t ↔ key = [] ∨ ∃ path ∈ tree.paths [], keyOfPath path = some key := by
  rw [enumerate, List.mem_eraseDups, List.mem_cons, branchKeys_eq h, List.mem_filterMap]

end Configuration

/-! ## 2. The paths around a line -/

namespace Branch

/-- The condition that a path holds for a branch: the one of its test, or for an `#else` the flipped
one of the test before. -/
def stacked (b : Branch) : Condition :=
  match b.test.condition? with
  | some condition => condition
  | none =>
    match b.earlier.head?.bind Test.condition? with
    | some condition => condition.flipped
    | none => .always

/-- The path to some branches, the innermost first. -/
def path (around : List Branch) : List Condition := around.map stacked

/-- The paths that some tests of a section list. `around` stands around the section. -/
def listed (tests : List Test) (around : List Branch) : List (List Condition) :=
  (tests.filterMap Test.condition?).map fun condition => (condition :: path around).reverse

/-- The paths that the sections of some branches list down to these branches. -/
def recorded : List Branch → List (List Condition)
  | [] => []
  | b :: around => listed b.tests around ++ recorded around

end Branch

open Branch

mutual

/-- **The paths around a line are listed**: in its tree, or already around the tree. -/
theorem Nesting.mem_paths_of_mem_placed : ∀ (tree : Nesting) {around : List Branch}
    {line : PlacedLine}, line ∈ tree.placed around → ∀ p ∈ recorded line.around,
    p ∈ tree.paths (path around) ∨ p ∈ recorded around
  | .nil, _, _, h => absurd h List.not_mem_nil
  | .plain first rest, around, line, h => by
    intro p hp
    rcases List.mem_cons.1 h with rfl | h
    · exact Or.inr hp
    · exact rest.mem_paths_of_mem_placed h p hp
  | .opening form condition first body others rest, around, line, h => by
    intro p hp
    have hfirst : listed [(Branch.first form condition).test] around =
        [(condition :: path around).reverse] := by
      simp [listed, Branch.first, Test.condition?_ofOpening]
    have hstacked : path (Branch.first form condition :: around) = condition :: path around := by
      simp [path, stacked, Branch.first, Test.condition?_ofOpening]
    rw [Nesting.paths, List.mem_cons, List.mem_append, List.mem_append]
    rcases List.mem_cons.1 h with rfl | h
    · exact Or.inr hp
    · rcases List.mem_append.1 h with h | h
      · rcases body.mem_paths_of_mem_placed h p hp with hin | hin
        · rw [hstacked] at hin
          exact Or.inl (Or.inr (Or.inl hin))
        · rcases List.mem_append.1 hin with hin | hin
          · have hin' : p ∈ listed [(Branch.first form condition).test] around := hin
            rw [hfirst, List.mem_singleton] at hin'
            exact Or.inl (Or.inl hin')
          · exact Or.inr hin
      · rcases List.mem_append.1 h with h | h
        · have hlast : (List.head? [(Branch.first form condition).test]).bind Test.condition? =
              some condition := Test.condition?_ofOpening form condition
          rcases others.mem_paths_of_mem_placed hlast h p hp with hin | hin | hin
          · exact Or.inl (Or.inr (Or.inr (Or.inl hin)))
          · rw [hfirst, List.mem_singleton] at hin
            exact Or.inl (Or.inl hin)
          · exact Or.inr hin
        · rcases rest.mem_paths_of_mem_placed h p hp with hin | hin
          · exact Or.inl (Or.inr (Or.inr (Or.inr hin)))
          · exact Or.inr hin

/-- The same in the further branches of a section in which the tests `earlier` were made. -/
theorem Branches.mem_paths_of_mem_placed : ∀ (others : Branches) {earlier : List Test}
    {last : Condition} {around : List Branch} {line : PlacedLine},
    earlier.head?.bind Test.condition? = some last → line ∈ others.placed earlier around →
    ∀ p ∈ recorded line.around, p ∈ others.paths last (path around) ∨ p ∈ listed earlier around ∨
      p ∈ recorded around
  | .endif end', _, _, around, line, _, h => by
    intro p hp
    rw [Branches.placed, List.mem_singleton] at h
    subst h
    exact Or.inr (Or.inr hp)
  | .elif condition first body others, earlier, last, around, line, hlast, h => by
    intro p hp
    have hcons : listed (.holds condition :: earlier) around =
        (condition :: path around).reverse :: listed earlier around := rfl
    rw [Branches.paths, List.mem_cons, List.mem_append]
    rcases List.mem_cons.1 h with rfl | h
    · exact Or.inr (Or.inr hp)
    · rcases List.mem_append.1 h with h | h
      · rcases body.mem_paths_of_mem_placed h p hp with hin | hin
        · exact Or.inl (Or.inr (Or.inl hin))
        · rcases List.mem_append.1 hin with hin | hin
          · rcases List.mem_cons.1 (hcons ▸ hin) with hin | hin
            · exact Or.inl (Or.inl hin)
            · exact Or.inr (Or.inl hin)
          · exact Or.inr (Or.inr hin)
      · rcases others.mem_paths_of_mem_placed rfl h p hp with hin | hin | hin
        · exact Or.inl (Or.inr (Or.inr hin))
        · rcases List.mem_cons.1 (hcons ▸ hin) with hin | hin
          · exact Or.inl (Or.inl hin)
          · exact Or.inr (Or.inl hin)
        · exact Or.inr (Or.inr hin)
  | .otherwise first body last', earlier, last, around, line, hlast, h => by
    intro p hp
    have hstacked : path (⟨earlier, .always⟩ :: around) = last.flipped :: path around := by
      simp [path, stacked, Test.condition?, hlast]
    rcases List.mem_cons.1 h with rfl | h
    · exact Or.inr (Or.inr hp)
    · rcases List.mem_append.1 h with h | h
      · rcases body.mem_paths_of_mem_placed h p hp with hin | hin
        · rw [hstacked] at hin
          exact Or.inl hin
        · rcases List.mem_append.1 hin with hin | hin
          · exact Or.inr (Or.inl hin)
          · exact Or.inr (Or.inr hin)
      · rw [List.mem_singleton] at h
        subst h
        exact Or.inr (Or.inr hp)

end

end Variants
