import Variants.Proofs.Listing

/-!
# The least key of a line

In text without `#ifndef` a line needs just the symbols that the branches around it hold, and all of
these branches are open when the line is kept. So these symbols are a key of the text, and it is the
least one that keeps the line (`leastKey_of_keeps`).
-/

namespace Variants

open Variants.Configuration

/-- A branch in whose section no test wants to fail needs just the symbol that it holds. -/
theorem Branch.needs_of_unguarded {b : Branch} (h : ∀ test ∈ b.tests, test.denied? = none) :
    b.needs = b.test.neededToPass.toList := by
  have hnone : b.earlier.filterMap Test.neededToFail = [] := by
    rw [List.filterMap_eq_nil_iff]
    intro test htest
    have hdenied := h test (List.mem_cons_of_mem _ htest)
    cases test with
    | fails condition => cases hdenied
    | holds condition => rfl
    | always => rfl
  rw [Branch.needs, hnone, List.nil_append]

/-- Such a branch is open where it is chosen. -/
theorem Branch.isOpen_of_unguarded {key : Text} {b : Branch}
    (hdenied : ∀ test ∈ b.tests, test.denied? = none) (h : b.isChosen key = true) :
    b.isOpen = true := by
  obtain ⟨htest, hearlier⟩ := Branch.isChosen_iff.1 h
  rw [isOpen, hdenied b.test List.mem_cons_self, Option.isNone_none, Bool.true_and, bne_iff_ne]
  obtain ⟨earlier, test⟩ := b
  cases test with
  | holds condition =>
    rintro rfl
    cases htest
  | fails condition =>
    have := hdenied _ List.mem_cons_self
    cases this
  | always =>
    -- an `#else` stands under the flipped condition of a test that failed
    cases earlier with
    | nil => simp [stacked, Test.condition?]
    | cons last more =>
      have hfails := hearlier last List.mem_cons_self
      cases last with
      | holds condition =>
        cases condition with
        | symbol name => exact Condition.noConfusion
        | always => cases hfails
        | never => exact Condition.noConfusion
      | fails condition =>
        have := hdenied _ (List.mem_cons_of_mem _ List.mem_cons_self)
        cases this
      | always => cases hfails

theorem needs_of_unguarded {around : List Branch}
    (h : ∀ b ∈ around, ∀ test ∈ b.tests, test.denied? = none) :
    needs around = symbols around := by
  rw [needs, symbols, List.flatMap_def, List.flatMap_def]
  refine congrArg List.flatten (List.map_congr_left fun b hb => ?_)
  exact Branch.needs_of_unguarded (h b (List.mem_reverse.1 hb))

/-- Whether a directive is an `#ifndef`. -/
def Directive.isIfndef : Directive → Bool
  | .opening .ifndef _ => true
  | _ => false

/-- In text without `#ifndef` no test around a line wants to fail. -/
theorem Nesting.denied?_eq_none {tree : Nesting} {line : PlacedLine} (h : line ∈ tree.placed [])
    (hno : ∀ directive ∈ Directive.ofLines tree.lines, directive.isIfndef = false) :
    ∀ b ∈ line.around, ∀ test ∈ b.tests, test.denied? = none := by
  refine tree.forall_tests (P := fun test => test.denied? = none) rfl h ?_
    fun b hb => absurd hb List.not_mem_nil
  intro text htext directive hdirective test htest
  have hline := (Option.filter_eq_some_iff.1 hdirective).1
  have hform := hno directive (List.mem_filterMap.2 ⟨text, htext, hline⟩)
  cases directive with
  | opening form condition =>
    cases htest
    cases form with
    | ifdef => rfl
    | ifndef => cases hform
    | expression => rfl
  | elif condition =>
    cases htest
    rfl
  | otherwise => cases htest
  | endif => cases htest
  | define => cases htest

/-- **The least key of a line.** In text without `#ifndef` the symbols that the branches around a
line hold make up a key that is listed and keeps the line, and every key that keeps the line lists
them all. -/
theorem leastKey_of_keeps {t : Text} {tree : Nesting} (h : tree.lines = Text.lines t)
    (hno : ∀ directive ∈ Directive.ofLines (Text.lines t), directive.isIfndef = false)
    {key : Text} {i : Nat} (hkeeps : Keeps t key i) :
    ∃ line, (tree.placed [])[i]? = some line ∧ join (symbols line.around) ∈ enumerate t ∧
      Keeps t (join (symbols line.around)) i ∧
      ∀ name ∈ symbols line.around, name ∈ segments key := by
  obtain ⟨line, hline, _, _, hchosen⟩ := (keeps_iff h).1 hkeeps
  have hdenied := Nesting.denied?_eq_none (List.mem_of_getElem? hline) (h ▸ hno)
  have hneeds := needs_of_unguarded hdenied
  have hopen : ∀ b ∈ line.around, b.isOpen = true := fun b hb =>
    Branch.isOpen_of_unguarded (hdenied b hb) (hchosen b hb)
  have hkey := keeps_of_recorded h hkeeps hline (fun name => by rw [hneeds]) (exists_recorded hopen)
  exact ⟨line, hline, hkey.1, hkey.2, fun name hname =>
    needs_subset hchosen name (symbols_subset_needs name hname)⟩

theorem leastKey_of_keeps_else :
    ∃ tree : Nesting,
      tree.lines = Text.lines "#if 1\n#ifdef A\n#else\ny\n#endif\n#endif\n".toList ∧
      ∃ line, (tree.placed [])[3]? = some line ∧
        join (symbols line.around) ∈
          enumerate "#if 1\n#ifdef A\n#else\ny\n#endif\n#endif\n".toList ∧
        Keeps "#if 1\n#ifdef A\n#else\ny\n#endif\n#endif\n".toList
          (join (symbols line.around)) 3 ∧
        ∀ name ∈ symbols line.around, name ∈ segments ['B'] := by
  have hnested : WellNested "#if 1\n#ifdef A\n#else\ny\n#endif\n#endif\n".toList := by decide
  obtain ⟨tree, htree⟩ := hnested
  have hkeeps : Keeps "#if 1\n#ifdef A\n#else\ny\n#endif\n#endif\n".toList ['B'] 3 := by decide
  exact ⟨tree, htree, leastKey_of_keeps htree (by decide) hkeeps⟩

end Variants
