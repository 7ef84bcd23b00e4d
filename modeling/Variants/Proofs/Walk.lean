import Variants.Proofs.Enumeration
import Variants.Proofs.Keys

/-!
# Enumerating as a walk over the sections

The configurations of well-nested text come from one walk over its tree, from the first line to the
last. The walk has the path to the current line and the keys that were found so far. Where a branch
is tested, the key of its path is recorded, unless the path holds a condition that never holds or
the key was found before (`record`). Code after an `#else` stands under no test of its own, and is
left out when the last test before it is forced to hold (`Nesting.walk`).

Main statement: enumerating is this walk (`enumerate_eq_walk`).
-/

namespace Variants

open Variants.Configuration

/-! ## 1. The walk -/

/-- The found keys after a test at the end of a path. -/
def record (found : List Text) (path : List Condition) : List Text :=
  let key := [';'].intercalate (path.filterMap Condition.name?)
  if .never ∈ path ∨ key ∈ found then found else found ++ [key]

mutual

/-- The found keys after a tree. `path` leads to the tree, with its outermost condition first. -/
def Nesting.walk (path : List Condition) (found : List Text) : Nesting → List Text
  | .nil => found
  | .plain _ rest => rest.walk path found
  | .opening _ condition _ body others rest =>
    let inner := path ++ [condition]
    rest.walk path (others.walk condition path (body.walk inner (record found inner)))

/-- The found keys after the further branches of a section. `last` is the condition of the test
before, and `path` leads to the section. -/
def Branches.walk (last : Condition) (path : List Condition) (found : List Text) :
    Branches → List Text
  | .endif _ => found
  | .elif condition _ body others =>
    let inner := path ++ [condition]
    others.walk condition path (body.walk inner (record found inner))
  | .otherwise _ body _ =>
    body.walk (path ++ [if last = .always then .never else .always]) found

end

/-! ## 2. The walk goes over the paths -/

theorem Condition.flipped_eq (condition : Condition) :
    condition.flipped = if condition = .always then .never else .always := by
  cases condition <;> rfl

mutual

/-- The walk records the paths of the tree one after the other. -/
theorem Nesting.walk_eq_foldl : ∀ (tree : Nesting) (path : List Condition) (found : List Text),
    tree.walk path found = (tree.paths path.reverse).foldl record found
  | .nil, _, _ => rfl
  | .plain _ rest, path, found => by
    rw [Nesting.walk, rest.walk_eq_foldl, Nesting.paths]
  | .opening _ condition _ body others rest, path, found => by
    rw [Nesting.walk, rest.walk_eq_foldl, others.walk_eq_foldl, body.walk_eq_foldl, Nesting.paths,
      List.foldl_cons, List.foldl_append, List.foldl_append, List.reverse_concat,
      List.reverse_cons, List.reverse_reverse]

theorem Branches.walk_eq_foldl : ∀ (others : Branches) (last : Condition) (path : List Condition)
    (found : List Text),
    others.walk last path found = (others.paths last path.reverse).foldl record found
  | .endif _, _, _, _ => rfl
  | .elif condition _ body others, last, path, found => by
    rw [Branches.walk, others.walk_eq_foldl, body.walk_eq_foldl, Branches.paths, List.foldl_cons,
      List.foldl_append, List.reverse_concat, List.reverse_cons, List.reverse_reverse]
  | .otherwise _ body _, last, path, found => by
    rw [Branches.walk, body.walk_eq_foldl, Branches.paths, List.reverse_concat,
      Condition.flipped_eq]

end

/-! ## 3. First occurrences -/

/-- A path without a key is not recorded. -/
theorem record_of_none {path : List Condition} (h : keyOfPath path = none) (found : List Text) :
    record found path = found := by
  unfold keyOfPath at h
  split at h
  · rename_i hnever
    rw [record, if_pos (Or.inl hnever)]
  · cases h

/-- A key is recorded the first time. -/
theorem record_of_some {path : List Condition} {key : Text} (h : keyOfPath path = some key)
    (found : List Text) : record found path = if key ∈ found then found else found ++ [key] := by
  obtain ⟨hnever, rfl⟩ := keyOfPath_eq_some_iff.1 h
  unfold record join
  simp only [hnever, false_or]

theorem eraseDups_concat (keys : List Text) (key : Text) :
    (keys ++ [key]).eraseDups =
      if key ∈ keys.eraseDups then keys.eraseDups else keys.eraseDups ++ [key] := by
  rw [List.eraseDups_append, List.cons_removeAll, List.nil_removeAll]
  by_cases h : key ∈ keys
  · rw [if_pos (List.mem_eraseDups.2 h), if_neg (by simp [h]), List.eraseDups_nil, List.append_nil]
  · rw [if_neg (fun hmem => h (List.mem_eraseDups.1 hmem)), if_pos (by simp [h]),
      List.eraseDups_cons, List.filter_nil, List.eraseDups_nil]

/-- Recording one path after the other lists the keys in the order of their first occurrences. -/
theorem foldl_record (paths : List (List Condition)) (keys : List Text) :
    paths.foldl record keys.eraseDups = (keys ++ paths.filterMap keyOfPath).eraseDups := by
  induction paths generalizing keys with
  | nil => rw [List.filterMap_nil, List.append_nil, List.foldl_nil]
  | cons path paths ih =>
    rw [List.foldl_cons]
    cases h : keyOfPath path with
    | none => rw [record_of_none h, List.filterMap_cons_none h, ih]
    | some key =>
      rw [record_of_some h, ← eraseDups_concat, List.filterMap_cons_some h, ih, List.append_assoc,
        List.singleton_append]

/-- **Enumerating is a walk over the sections.** The baseline comes first, and then the walk records
the key of every test in the order of the lines, each key once. -/
theorem enumerate_eq_walk {t : Text} {tree : Nesting} (h : tree.lines = Text.lines t) :
    enumerate t = tree.walk [] [[]] := by
  have hbaseline : [([] : Text)] = [([] : Text)].eraseDups := rfl
  rw [enumerate, branchKeys_eq h, tree.walk_eq_foldl, hbaseline, foldl_record]
  rfl

/-- Nothing is recorded behind the `#else` of a test that is forced to hold, and `A` is recorded
once. -/
theorem enumerate_eq_walk_else :
    ∃ tree : Nesting,
      tree.lines =
        Text.lines "#if A\n#elif 1\n#else\n#if B\n#endif\n#endif\n#if A\n#endif\n".toList ∧
      enumerate "#if A\n#elif 1\n#else\n#if B\n#endif\n#endif\n#if A\n#endif\n".toList =
        tree.walk [] [[]] ∧
      tree.walk [] [[]] = [[], ['A']] := by
  have hnested :
      WellNested "#if A\n#elif 1\n#else\n#if B\n#endif\n#endif\n#if A\n#endif\n".toList := by
    decide
  obtain ⟨tree, htree⟩ := hnested
  have hwalk := enumerate_eq_walk htree
  exact ⟨tree, htree, hwalk, hwalk ▸ by decide⟩

end Variants
