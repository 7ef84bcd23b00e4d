import Mathlib.Data.List.Induction
import Variants.Proofs.Selection
import Variants.Proofs.Walk

/-!
# Well-nested text in front of another text

Both selecting and enumerating go over the lines of a text with a stack, and behind well-nested
lines the stack is what it was before them. So whole well-nested lines in front of a text do not
change what is selected and enumerated from it, and only keys that they list already are not listed
again.

Main statement: `select_enumerate_append`.
-/

namespace Variants.Configuration

/-! ## 1. First occurrences -/

/-- Leaving keys out and keeping first occurrences can be done in either order. -/
theorem eraseDups_filter (p : Text → Bool) (keys : List Text) :
    (keys.filter p).eraseDups = keys.eraseDups.filter p := by
  induction keys using List.reverseRecOn with
  | nil => rfl
  | append_singleton keys key ih =>
    rw [List.filter_append, eraseDups_concat]
    by_cases hkey : p key = true
    · have hmem : key ∈ keys.eraseDups.filter p ↔ key ∈ keys.eraseDups := by simp [hkey]
      rw [List.filter_cons_of_pos hkey, List.filter_nil, eraseDups_concat, ih]
      by_cases hfound : key ∈ keys.eraseDups
      · rw [if_pos (hmem.2 hfound), if_pos hfound]
      · rw [if_neg (mt hmem.1 hfound), if_neg hfound, List.filter_append,
          List.filter_cons_of_pos hkey, List.filter_nil]
    · rw [List.filter_cons_of_neg hkey, List.filter_nil, List.append_nil, ih]
      split
      · rfl
      · rw [List.filter_append, List.filter_cons_of_neg hkey, List.filter_nil, List.append_nil]

/-! ## 2. Selecting -/

/-- Behind well-nested lines the lines of a text are selected as without them. -/
theorem selectLines_lines_append (key : Text) (tree : Nesting) (rest : List Text) :
    selectLines (segments key) [] (tree.lines ++ rest) =
      selectLines (segments key) [] tree.lines ++ selectLines (segments key) [] rest := by
  have hagrees : Agrees key [] [] := rfl
  rw [selectLines_nesting key tree hagrees, selectLines_lines]

section

variable {t : Text} (hnested : WellNested t) (hwhole : Text.IsWhole t) (u : Text)

include hnested hwhole

theorem select_append (key : Text) : select (t ++ u) key = select t key ++ select u key := by
  obtain ⟨tree, htree⟩ := hnested
  rw [select, Text.lines_append hwhole, ← htree, selectLines_lines_append, List.flatMap_append,
    htree]
  rfl

/-! ## 3. Enumerating -/

theorem branchKeys_append : branchKeys (t ++ u) = branchKeys t ++ branchKeys u := by
  obtain ⟨tree, htree⟩ := hnested
  rw [branchKeys_eq htree, branchKeys, Text.lines_append hwhole, ← htree, branchPaths_nesting,
    List.filterMap_append]
  rfl

/-- The keys of the text behind are listed if they are new. -/
theorem enumerate_append :
    enumerate (t ++ u) =
      enumerate t ++ (enumerate u).filter fun key => key ∉ enumerate t := by
  have hbaseline : [] ∈ enumerate t := List.mem_eraseDups.2 List.mem_cons_self
  have hnew : ((branchKeys u).removeAll ([] :: branchKeys t)).eraseDups =
      (enumerate u).filter fun key => key ∉ enumerate t := by
    show _ = ([] :: branchKeys u).eraseDups.filter _
    rw [← eraseDups_filter, List.filter_cons, if_neg (by simp [hbaseline]), List.removeAll]
    congr 1
    refine List.filter_congr fun key _ => ?_
    simp [enumerate]
  rw [← hnew, enumerate, branchKeys_append hnested hwhole u, ← List.cons_append,
    List.eraseDups_append]
  rfl

/-- **Well-nested text composes.** Whatever follows it, malformed or not, is selected as if it stood
alone, and the keys of what follows are listed behind those of the well-nested text, without the
keys that are listed already. -/
theorem select_enumerate_append :
    (∀ key : Text, select (t ++ u) key = select t key ++ select u key) ∧
      enumerate (t ++ u) =
        enumerate t ++ (enumerate u).filter fun key => key ∉ enumerate t :=
  ⟨select_append hnested hwhole u, enumerate_append hnested hwhole u⟩

end

/-- The text behind may start with an `#else` and leave a section open. -/
theorem select_enumerate_append_unbalanced :
    WellNested "#ifdef A\na\n#endif\n".toList ∧ Text.IsWhole "#ifdef A\na\n#endif\n".toList ∧
      (∀ key : Text,
        select ("#ifdef A\na\n#endif\n".toList ++ "#else\n#if A\n#if B\nb".toList) key =
          select "#ifdef A\na\n#endif\n".toList key ++
            select "#else\n#if A\n#if B\nb".toList key) ∧
      enumerate ("#ifdef A\na\n#endif\n".toList ++ "#else\n#if A\n#if B\nb".toList) =
        enumerate "#ifdef A\na\n#endif\n".toList ++
          (enumerate "#else\n#if A\n#if B\nb".toList).filter
            fun key => key ∉ enumerate "#ifdef A\na\n#endif\n".toList := by
  have hnested : WellNested "#ifdef A\na\n#endif\n".toList := by decide
  have hwhole : Text.IsWhole "#ifdef A\na\n#endif\n".toList := by decide
  exact ⟨hnested, hwhole, select_enumerate_append hnested hwhole _⟩

end Variants.Configuration
