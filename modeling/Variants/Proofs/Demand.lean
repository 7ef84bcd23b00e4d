import Variants.Proofs.Keys
import Variants.Proofs.Placement

/-!
# What a line needs of a key

A branch that is chosen needs the symbol of its own test, and when its section was opened by an
`#ifndef` that it does not stand in, the symbol of that `#ifndef` as well. All other tests around a
line ask for symbols to be missing. So a key that keeps a line may lose every symbol that the line
does not need (`isLive_of_between`), and the join of the needed symbols is the least key that keeps
it.
-/

namespace Variants

open Variants.Configuration

/-! ## 1. Tests between two keys -/

namespace Test

/-- The symbol without which a test fails. -/
def neededToPass : Test → Option Text
  | .holds condition => condition.name?
  | _ => none

/-- The symbol without which a test passes. -/
def neededToFail : Test → Option Text
  | .fails condition => condition.name?
  | _ => none

theorem neededToPass_mem {key name : Text} {test : Test} (h : test.passes key = true)
    (hname : test.neededToPass = some name) : name ∈ segments key := by
  cases test with
  | holds condition =>
    rcases selects_iff.1 h with rfl | ⟨other, hother, rfl⟩
    · cases hname
    · cases hname
      exact hother
  | fails condition => cases hname
  | always => cases hname

theorem neededToFail_mem {key name : Text} {test : Test} (h : test.passes key = false)
    (hname : test.neededToFail = some name) : name ∈ segments key := by
  cases test with
  | holds condition => cases hname
  | fails condition =>
    have hholds : selects key condition = true := by simpa [passes] using h
    rcases selects_iff.1 hholds with rfl | ⟨other, hother, rfl⟩
    · cases hname
    · cases hname
      exact hother
  | always => cases hname

section Between

variable {key key' : Text} (hsub : ∀ name ∈ segments key', name ∈ segments key)

include hsub

/-- A condition that fails still fails with fewer symbols. -/
theorem selects_eq_false {condition : Condition} (h : selects key condition = false) :
    selects key' condition = false := by
  rw [← Bool.not_eq_true, selects_iff] at h ⊢
  rintro (halways | ⟨name, hname, hcondition⟩)
  · exact h (Or.inl halways)
  · exact h (Or.inr ⟨name, hsub name hname, hcondition⟩)

/-- A test that passes still passes with fewer symbols, if the one it needs is left. -/
theorem passes_of_between {test : Test} (h : test.passes key = true)
    (hneed : ∀ name, test.neededToPass = some name → name ∈ segments key') :
    test.passes key' = true := by
  cases test with
  | holds condition =>
    rcases selects_iff.1 h with rfl | ⟨name, _, rfl⟩
    · rfl
    · exact selects_iff.2 (Or.inr ⟨name, hneed name rfl, rfl⟩)
  | fails condition =>
    have hfails : selects key condition = false := by simpa [passes] using h
    simp [passes, selects_eq_false hsub hfails]
  | always => rfl

theorem not_passes_of_between {test : Test} (h : test.passes key = false)
    (hneed : ∀ name, test.neededToFail = some name → name ∈ segments key') :
    test.passes key' = false := by
  cases test with
  | holds condition => exact selects_eq_false hsub h
  | fails condition =>
    have hholds : selects key condition = true := by simpa [passes] using h
    have hholds' : selects key' condition = true := by
      rcases selects_iff.1 hholds with rfl | ⟨name, _, rfl⟩
      · rfl
      · exact selects_iff.2 (Or.inr ⟨name, hneed name rfl, rfl⟩)
    simp [passes, hholds']
  | always => cases h

end Between

end Test

/-! ## 2. Lines between two keys -/

/-- The symbols that a branch needs to be chosen. -/
def Branch.needs (b : Branch) : List Text :=
  b.earlier.filterMap Test.neededToFail ++ b.test.neededToPass.toList

/-- The symbols that the choice of some branches needs, for the outermost branch first. -/
def needs (around : List Branch) : List Text := around.reverse.flatMap Branch.needs

theorem Branch.isChosen_iff {key : Text} {b : Branch} :
    b.isChosen key = true ↔
      b.test.passes key = true ∧ ∀ test ∈ b.earlier, test.passes key = false := by
  simp [isChosen]

theorem Branch.needs_subset {key : Text} {b : Branch} (h : b.isChosen key = true) :
    ∀ name ∈ b.needs, name ∈ segments key := by
  obtain ⟨htest, hearlier⟩ := Branch.isChosen_iff.1 h
  intro name hname
  rcases List.mem_append.1 hname with hname | hname
  · obtain ⟨test, hmem, hneed⟩ := List.mem_filterMap.1 hname
    exact Test.neededToFail_mem (hearlier test hmem) hneed
  · exact Test.neededToPass_mem htest (Option.mem_toList.1 hname)

/-- A key that chooses some branches lists what they need. -/
theorem needs_subset {key : Text} {around : List Branch}
    (h : ∀ b ∈ around, b.isChosen key = true) : ∀ name ∈ needs around, name ∈ segments key := by
  intro name hname
  obtain ⟨b, hb, hname⟩ := List.mem_flatMap.1 hname
  exact Branch.needs_subset (h b (List.mem_reverse.1 hb)) name hname

/-- **A line stays live with fewer symbols**, if those that it needs are left. -/
theorem isChosen_of_between {key key' : Text} {around : List Branch}
    (hsub : ∀ name ∈ segments key', name ∈ segments key)
    (hneed : ∀ name ∈ needs around, name ∈ segments key')
    (h : ∀ b ∈ around, b.isChosen key = true) : ∀ b ∈ around, b.isChosen key' = true := by
  intro b hb
  obtain ⟨htest, hearlier⟩ := Branch.isChosen_iff.1 (h b hb)
  have hb' : ∀ name ∈ b.needs, name ∈ segments key' := fun name hname =>
    hneed name (List.mem_flatMap.2 ⟨b, List.mem_reverse.2 hb, hname⟩)
  refine Branch.isChosen_iff.2 ⟨?_, fun test hmem => ?_⟩
  · refine Test.passes_of_between hsub htest fun name hname => hb' name ?_
    exact List.mem_append_right _ (Option.mem_toList.2 hname)
  · refine Test.not_passes_of_between hsub (hearlier test hmem) fun name hname => hb' name ?_
    exact List.mem_append_left _ (List.mem_filterMap.2 ⟨test, hmem, hname⟩)

/-! ## 3. Symbols around a line -/

/-- An operand that is a symbol is not empty. -/
theorem Keyword.name_ne_nil {k : Keyword} {operand name : Text}
    (h : k.condition operand = .symbol name) : name ≠ [] := by
  unfold condition at h
  split at h
  · cases h
  · rename_i hne
    split at h
    · cases h
    · split at h
      · cases h
      · cases h
        exact hne

/-- A directive that states a symbol names it. -/
theorem Directive.name_ne_nil {line : Text} {directive : Directive} {name : Text}
    (h : ofLine? line = some directive) (hname : directive.condition? = some (.symbol name)) :
    name ≠ [] := by
  obtain ⟨k, rest, _, _, rfl⟩ := exists_keyword_of_ofLine? h
  cases k with
  | opening form => exact Keyword.name_ne_nil (Option.some.inj hname)
  | elif => exact Keyword.name_ne_nil (Option.some.inj hname)
  | otherwise => cases hname
  | endif => cases hname
  | define => cases hname

/-- The test of a directive asks about the condition that the directive states. -/
theorem Directive.condition?_of_test? {directive : Directive} {test : Test}
    (h : directive.test? = some test) : test.condition? = directive.condition? := by
  cases directive with
  | opening form condition =>
    cases h
    exact Test.condition?_ofOpening form condition
  | elif condition =>
    cases h
    rfl
  | otherwise => cases h
  | endif => cases h
  | define => cases h

/-- No test around a line asks for the empty symbol. -/
theorem Nesting.name_ne_nil {tree : Nesting} {line : PlacedLine} (h : line ∈ tree.placed []) :
    ∀ b ∈ line.around, ∀ test ∈ b.tests, ∀ name, test.condition? = some (.symbol name) →
      name ≠ [] := by
  refine tree.forall_tests (fun _ e => by cases e) h ?_ fun b hb => absurd hb List.not_mem_nil
  intro text _ directive hdirective test htest name hname
  rw [Directive.condition?_of_test? htest] at hname
  exact Directive.name_ne_nil (Option.filter_eq_some_iff.1 hdirective).1 hname

/-- What a line needs, the tests around it ask for. -/
theorem exists_test_of_mem_needs {around : List Branch} {name : Text} (h : name ∈ needs around) :
    ∃ b ∈ around, ∃ test ∈ b.tests, test.condition? = some (.symbol name) := by
  obtain ⟨b, hb, hname⟩ := List.mem_flatMap.1 h
  refine ⟨b, List.mem_reverse.1 hb, ?_⟩
  rcases List.mem_append.1 hname with hname | hname
  · obtain ⟨test, htest, hneed⟩ := List.mem_filterMap.1 hname
    refine ⟨test, List.mem_cons_of_mem _ htest, ?_⟩
    cases test with
    | holds condition => cases hneed
    | fails condition => exact congrArg some (Condition.eq_symbol_of_name? hneed)
    | always => cases hneed
  · refine ⟨b.test, List.mem_cons_self, ?_⟩
    have hneed := Option.mem_toList.1 hname
    cases htest : b.test with
    | holds condition =>
      rw [htest] at hneed
      exact congrArg some (Condition.eq_symbol_of_name? hneed)
    | fails condition =>
      rw [htest] at hneed
      cases hneed
    | always =>
      rw [htest] at hneed
      cases hneed

/-- No line needs the empty symbol. -/
theorem needs_ne_nil {tree : Nesting} {line : PlacedLine} (h : line ∈ tree.placed []) :
    ∀ name ∈ needs line.around, name ≠ [] := by
  intro name hname
  obtain ⟨b, hb, test, htest, hcondition⟩ := exists_test_of_mem_needs hname
  exact Nesting.name_ne_nil h b hb test htest name hcondition

end Variants
