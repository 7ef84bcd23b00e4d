import Variants.Proofs.LeastKey

/-!
# Which lines the configurations of a text reach

A key is listed for every branch, but an `#ifndef` is listed with its symbol, although the code in
it needs the symbol to be missing, and it leaves its symbol on the path of no other branch of its
section. So a line that some key keeps may be kept by no key that is listed (`keeps_of_not_listed`).

What a line needs has to stand on the path to it, down to the first branch that is not open, or it
has to be listed for an `#ifndef` on the way (`Reaches`).

* A line that is reached is kept by a listed key (`exists_listed_keeps`).
* A line without an `#ifndef` around it is reached (`PlacedLine.isReached_of_unguarded`).
* No other line is kept by a key that is listed around it (`isReached_of_recorded`).
-/

namespace Variants

open Variants.Configuration

/-! ## 1. What is listed on the way to a line -/

/-- Some needed symbols are listed on the way through some branches, of which the outermost one
comes first. The symbols in `held` stand on the path to the first branch. -/
inductive Reaches (needed : List Text) : List Text → List Branch → Prop
  /-- All that is needed stands on the path. -/
  | held {held : List Text} {branches : List Branch} (h : ∀ name ∈ needed, name ∈ held) :
    Reaches needed held branches
  /-- It does together with the symbol of an `#ifndef`. -/
  | guard {held : List Text} {b : Branch} {inner : List Branch} {condition : Condition}
    (hguard : .fails condition ∈ b.tests)
    (h : ∀ name ∈ needed, name ∈ held ++ condition.name?.toList) :
    Reaches needed held (b :: inner)
  /-- The path goes on with the symbol of an open branch. -/
  | inner {held : List Text} {b : Branch} {inner : List Branch} (hopen : b.isOpen = true)
    (h : Reaches needed (held ++ b.test.neededToPass.toList) inner) :
    Reaches needed held (b :: inner)

/-- The condition of an `#ifndef` is listed for its section. -/
theorem Branch.mem_recorded_of_guard {b : Branch} {condition : Condition}
    (h : .fails condition ∈ b.tests) (around : List Branch) :
    (condition :: Branch.path around).reverse ∈ Branch.recorded (b :: around) :=
  List.mem_append_left _ (List.mem_map.2 ⟨condition, List.mem_filterMap.2 ⟨_, h, rfl⟩, rfl⟩)

section Recorded

variable {needed : List Text} {outer : List Branch} (hopen : ∀ o ∈ outer, o.isOpen = true)

include hopen

/-- What stands on the path to some branches is listed around them. -/
theorem exists_recorded_of_held (inner : List Branch)
    (hheld : ∀ name ∈ needed, name ∈ symbols outer)
    (hneeded : ∀ name ∈ symbols outer, name ∈ needed) :
    ∃ names, (∀ name, name ∈ names ↔ name ∈ needed) ∧ (join names = [] ∨
      ∃ p ∈ Branch.recorded (inner ++ outer), keyOfPath p = some (join names)) := by
  refine ⟨symbols outer, fun name => ⟨hneeded name, hheld name⟩, ?_⟩
  refine (exists_recorded hopen).imp_right ?_
  rintro ⟨p, hp, hkey⟩
  exact ⟨p, recorded_subset inner p hp, hkey⟩

/-- What stands on the path with the symbol of an `#ifndef` is listed around it. -/
theorem exists_recorded_of_guard (inner : List Branch) {b : Branch} {condition : Condition}
    (hguard : .fails condition ∈ b.tests)
    (hheld : ∀ name ∈ needed, name ∈ symbols outer ++ condition.name?.toList)
    (hneeded : ∀ name ∈ symbols outer, name ∈ needed) :
    ∃ names, (∀ name, name ∈ names ↔ name ∈ needed) ∧ (join names = [] ∨
      ∃ p ∈ Branch.recorded (inner ++ b :: outer), keyOfPath p = some (join names)) := by
  by_cases hown : ∃ own ∈ needed, condition = .symbol own
  · obtain ⟨own, hown, rfl⟩ := hown
    have hkey := keyOfPath_cons hopen (show Condition.symbol own ≠ .never by simp)
    have hrecorded := recorded_subset inner _ (Branch.mem_recorded_of_guard hguard outer)
    refine ⟨_, fun name => ⟨fun hname => ?_, hheld name⟩, Or.inr ⟨_, hrecorded, hkey⟩⟩
    rcases List.mem_append.1 hname with hname | hname
    · exact hneeded name hname
    · rw [List.mem_singleton.1 hname]
      exact hown
  · rw [List.append_cons]
    refine exists_recorded_of_held hopen _ (fun name hname => ?_) hneeded
    refine (List.mem_append.1 (hheld name hname)).resolve_right fun hsymbol => ?_
    refine hown ⟨name, hname, ?_⟩
    exact Condition.eq_symbol_of_name? (Option.mem_toList.1 hsymbol)

end Recorded

/-- **What is reached has a key**: the needed symbols are a key of the path around the last of the
branches, if no other symbols stand on that path. -/
theorem exists_recorded_of_reaches {needed held : List Text} {branches : List Branch}
    (h : Reaches needed held branches) : ∀ {outer : List Branch}, held = symbols outer →
    (∀ o ∈ outer, o.isOpen = true) →
    (∀ name ∈ symbols (branches.reverse ++ outer), name ∈ needed) →
    ∃ names, (∀ name, name ∈ names ↔ name ∈ needed) ∧ (join names = [] ∨
      ∃ p ∈ Branch.recorded (branches.reverse ++ outer), keyOfPath p = some (join names)) := by
  induction h with
  | held hheld =>
    rintro outer rfl hopen hneeded
    refine exists_recorded_of_held hopen _ hheld fun name hname => hneeded name ?_
    rw [symbols_append]
    exact List.mem_append_left _ hname
  | @guard held b inner condition hguard hheld =>
    rintro outer rfl hopen hneeded
    rw [List.reverse_cons, List.append_assoc, List.singleton_append]
    refine exists_recorded_of_guard hopen _ hguard hheld fun name hname => hneeded name ?_
    rw [symbols_append]
    exact List.mem_append_left _ hname
  | @inner held b inner hb _ ih =>
    rintro outer rfl hopen hneeded
    rw [List.reverse_cons, List.append_assoc, List.singleton_append] at hneeded ⊢
    refine ih (symbols_cons b outer).symm (fun o ho => ?_) hneeded
    rcases List.mem_cons.1 ho with rfl | ho
    · exact hb
    · exact hopen o ho

/-! ## 2. Coverage -/

/-- What a line needs is listed on the way to it. -/
def PlacedLine.IsReached (line : PlacedLine) : Prop :=
  Reaches (needs line.around) [] line.around.reverse

/-- Whether a key keeps a line of well-nested text that no listed key keeps. -/
def IsMissed (t key : Text) (i : Nat) : Prop :=
  WellNested t ∧ Keeps t key i ∧ ∀ listed ∈ enumerate t, ¬ Keeps t listed i

instance (t key : Text) (i : Nat) : Decidable (IsMissed t key i) :=
  inferInstanceAs (Decidable (_ ∧ _))

/-- Open branches only add their symbols to the path. -/
theorem reaches_append {needed : List Text} {inner : List Branch} :
    ∀ {outer : List Branch} {held : List Text}, (∀ b ∈ outer, b.isOpen = true) →
    Reaches needed (held ++ outer.flatMap fun b => b.test.neededToPass.toList) inner →
    Reaches needed held (outer ++ inner)
  | [], held, _, h => by
    rwa [List.flatMap_nil, List.append_nil] at h
  | b :: outer, held, hopen, h => by
    rw [List.flatMap_cons, ← List.append_assoc] at h
    refine Reaches.inner (hopen b List.mem_cons_self) (reaches_append (fun o ho => ?_) h)
    exact hopen o (List.mem_cons_of_mem _ ho)

/-- Whether a line is reached is decided behind the open branches around it. -/
theorem PlacedLine.isReached_of_reaches {line : PlacedLine} {inner outer : List Branch}
    (haround : line.around = inner ++ outer) (hopen : ∀ b ∈ outer, b.isOpen = true)
    (h : Reaches (needs line.around) (symbols outer) inner.reverse) : line.IsReached := by
  rw [IsReached, haround, List.reverse_append]
  rw [haround] at h
  exact reaches_append (fun b hb => hopen b (List.mem_reverse.1 hb)) h

/-- A line that some key keeps is reached when no `#ifndef` opened a section around it. -/
theorem PlacedLine.isReached_of_unguarded {key : Text} {line : PlacedLine}
    (hdenied : ∀ b ∈ line.around, ∀ test ∈ b.tests, test.denied? = none)
    (hchosen : ∀ b ∈ line.around, b.isChosen key = true) : line.IsReached := by
  have hopen : ∀ b ∈ line.around, b.isOpen = true := fun b hb =>
    Branch.isOpen_of_unguarded (hdenied b hb) (hchosen b hb)
  refine line.isReached_of_reaches (List.nil_append _).symm hopen (Reaches.held ?_)
  rw [needs_of_unguarded hdenied]
  exact fun name hname => hname

/-! ## 4. Lines that are not reached -/

theorem exists_of_mem_recorded {p : List Condition} : ∀ {around : List Branch},
    p ∈ Branch.recorded around → ∃ inner b outer condition, around = inner ++ b :: outer ∧
      p = (condition :: Branch.path outer).reverse ∧
      ∃ test ∈ b.tests, test.condition? = some condition
  | [], h => absurd h List.not_mem_nil
  | b :: around, h => by
    rcases List.mem_append.1 h with h | h
    · obtain ⟨condition, hcondition, rfl⟩ := List.mem_map.1 h
      obtain ⟨test, htest, hasked⟩ := List.mem_filterMap.1 hcondition
      exact ⟨[], b, around, condition, rfl, rfl, test, htest, hasked⟩
    · obtain ⟨inner, b', outer, condition, rfl, hp, htest⟩ := exists_of_mem_recorded h
      exact ⟨b :: inner, b', outer, condition, rfl, hp, htest⟩

section Recorded

variable {key : Text} {p : List Condition} (hkey : keyOfPath p = some key)
  (hnames : ∀ name, Condition.symbol name ∈ p → name ≠ [] ∧ ';' ∉ name)

include hkey hnames

/-- The key of a path has the symbols on the path. -/
theorem segments_keyOfPath : segments key = p.filterMap Condition.name? := by
  obtain ⟨_, rfl⟩ := keyOfPath_eq_some_iff.1 hkey
  exact segments_join (fun name hname => (hnames name (Condition.mem_names.1 hname)).1)
    fun name hname => (hnames name (Condition.mem_names.1 hname)).2

/-- So all conditions on the path hold. -/
theorem selects_of_mem_path : ∀ condition ∈ p, selects key condition = true :=
  (selects_path_iff hkey fun name hname => (hnames name hname).1).2 fun name hname =>
    (hnames name hname).2

end Recorded

/-- A branch is open when it is chosen and its condition on the path holds. -/
theorem Branch.isOpen_of_selects {key : Text} {b : Branch} (h : b.isChosen key = true)
    (hselects : selects key b.stacked = true) : b.isOpen = true := by
  have htest := (Branch.isChosen_iff.1 h).1
  rw [isOpen, Bool.and_eq_true, Option.isNone_iff_eq_none, bne_iff_ne]
  refine ⟨?_, ?_⟩
  · cases hform : b.test with
    | holds condition => rfl
    | fails condition =>
      have hstacked : b.stacked = condition := by rw [stacked, hform, Test.condition?]
      rw [hform, Test.passes, ← hstacked, hselects] at htest
      cases htest
    | always => rfl
  · intro hnever
    rw [hnever] at hselects
    cases hselects

/-- A symbol on the path to some branches is one that a test of them asks about. -/
theorem exists_test_of_mem_path {name : Text} {around : List Branch}
    (h : .symbol name ∈ Branch.path around) :
    ∃ b ∈ around, ∃ test ∈ b.tests, test.condition? = some (.symbol name) := by
  obtain ⟨b, hb, hstacked⟩ := List.mem_map.1 h
  refine ⟨b, hb, b.test, List.mem_cons_self, ?_⟩
  unfold Branch.stacked at hstacked
  split at hstacked
  · rename_i condition hcondition
    rw [hcondition, hstacked]
  · split at hstacked
    · rename_i condition _
      cases condition <;> cases hstacked
    · cases hstacked

/-- **No other line is kept by a key that is listed around it**, as long as no symbol that is asked
about there has a semicolon. -/
theorem isReached_of_recorded {t : Text} {tree : Nesting} (h : tree.lines = Text.lines t) {i : Nat}
    {line : PlacedLine} (hline : (tree.placed [])[i]? = some line)
    (hsemi : ∀ b ∈ line.around, ∀ test ∈ b.tests, ∀ name,
      test.condition? = some (.symbol name) → ';' ∉ name)
    {p : List Condition} (hp : p ∈ Branch.recorded line.around) {key : Text}
    (hkey : keyOfPath p = some key) (hkeeps : Keeps t key i) : line.IsReached := by
  obtain ⟨line', hline', _, _, hchosen⟩ := (keeps_iff h).1 hkeeps
  cases hline.symm.trans hline'
  obtain ⟨inner, b, outer, condition, haround, rfl, test, htest, hasked⟩ :=
    exists_of_mem_recorded hp
  have hb : b ∈ line.around := by
    rw [haround]
    exact List.mem_append_right _ List.mem_cons_self
  have houter : ∀ o ∈ outer, o ∈ line.around := by
    intro o ho
    rw [haround]
    exact List.mem_append_right _ (List.mem_cons_of_mem _ ho)
  have hnames : ∀ name, Condition.symbol name ∈ (condition :: Branch.path outer).reverse →
      name ≠ [] ∧ ';' ∉ name := by
    intro name hname
    have hasked' : ∃ o ∈ line.around, ∃ test ∈ o.tests,
        test.condition? = some (.symbol name) := by
      rcases List.mem_cons.1 (List.mem_reverse.1 hname) with rfl | hname
      · exact ⟨b, hb, test, htest, hasked⟩
      · obtain ⟨o, ho, hfound⟩ := exists_test_of_mem_path hname
        exact ⟨o, houter o ho, hfound⟩
    obtain ⟨o, ho, test', htest', hname'⟩ := hasked'
    exact ⟨Nesting.name_ne_nil (List.mem_of_getElem? hline) o ho test' htest' name hname',
      hsemi o ho test' htest' name hname'⟩
  have hselects : ∀ c ∈ condition :: Branch.path outer, selects key c = true := fun c hc =>
    selects_of_mem_path hkey hnames c (List.mem_reverse.2 hc)
  have hopen : ∀ o ∈ outer, o.isOpen = true := fun o ho =>
    Branch.isOpen_of_selects (hchosen o (houter o ho))
      (hselects _ (List.mem_cons_of_mem _ (List.mem_map_of_mem ho)))
  have hsegments := segments_keyOfPath hkey hnames
  rw [List.reverse_cons, List.filterMap_append, (path_of_isOpen hopen).2,
    Condition.filterMap_singleton] at hsegments
  have hneeds := needs_subset hchosen
  rw [hsegments] at hneeds
  rw [List.append_cons] at haround
  refine line.isReached_of_reaches haround hopen ?_
  rw [List.reverse_concat]
  cases test with
  | always => cases hasked
  | fails _ =>
    cases hasked
    exact Reaches.guard htest hneeds
  | holds _ =>
    cases hasked
    have hheld := hselects condition List.mem_cons_self
    rcases List.mem_cons.1 htest with hown | hearlier
    · have hstacked : b.stacked = condition := by rw [Branch.stacked, ← hown, Test.condition?]
      refine Reaches.inner (Branch.isOpen_of_selects (hchosen b hb) (hstacked ▸ hheld))
        (Reaches.held ?_)
      rw [← hown]
      exact hneeds
    · have hfails := (Branch.isChosen_iff.1 (hchosen b hb)).2 _ hearlier
      cases hheld.symm.trans hfails

end Variants
