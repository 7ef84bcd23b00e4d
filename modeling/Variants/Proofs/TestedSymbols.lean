import Variants.Configuration.Select
import Variants.Proofs.Demand

/-!
# What selecting reads of a key

Selecting asks a key about the symbols that the directives of the text state, and about nothing
else. Two runs over the same lines have the same open sections after every directive, if the two
keys agree on its symbol (`advance_congr`), and so they select the same lines
(`selectLines_congr`). No directive states the empty symbol, so it makes no difference that the
empty key is not cut into segments (`mem_segments_iff`).

Main statement: `select_eq_of_tested`.
-/

namespace Variants.Configuration

/-! ## 1. The symbols that a text tests -/

/-- The symbols that the directives of a text state, in order. -/
def testedSymbols (t : Text) : List Text :=
  (Directive.ofLines (Text.lines t)).filterMap fun directive =>
    directive.condition?.bind Condition.name?

theorem mem_testedSymbols {t name : Text} :
    name ∈ testedSymbols t ↔ ∃ line ∈ Text.lines t, ∃ directive,
      Directive.ofLine? line = some directive ∧
        directive.condition? = some (.symbol name) := by
  have hstated (directive : Directive) : directive.condition?.bind Condition.name? = some name ↔
      directive.condition? = some (.symbol name) := by
    rw [Option.bind_eq_some_iff]
    constructor
    · intro h
      obtain ⟨condition, hcondition, hname⟩ := h
      rw [hcondition, Condition.eq_symbol_of_name? hname]
    · exact fun h => ⟨_, h, rfl⟩
  simp only [testedSymbols, Directive.ofLines, List.mem_filterMap, hstated]
  constructor
  · intro h
    obtain ⟨directive, ⟨line, hline, hdirective⟩, hname⟩ := h
    exact ⟨line, hline, directive, hdirective, hname⟩
  · intro h
    obtain ⟨line, hline, directive, hdirective, hname⟩ := h
    exact ⟨directive, ⟨line, hline, hdirective⟩, hname⟩

theorem ne_nil_of_mem_testedSymbols {t name : Text} (h : name ∈ testedSymbols t) : name ≠ [] := by
  obtain ⟨line, _, directive, hdirective, hname⟩ := mem_testedSymbols.1 h
  exact Directive.name_ne_nil hdirective hname

/-- The segments of a key are its pieces between semicolons, up to an empty one. -/
theorem mem_segments_iff {key name : Text} (hname : name ≠ []) :
    name ∈ segments key ↔ name ∈ key.splitOn ';' := by
  unfold segments
  split
  · rename_i hkey
    rw [hkey, List.splitOn_nil, List.mem_singleton]
    exact ⟨fun h => absurd h List.not_mem_nil, fun h => absurd h hname⟩
  · exact Iff.rfl

/-! ## 2. Two keys side by side -/

section TwoKeys

variable {symbols other : List Text}

theorem holds_congr {condition : Condition}
    (h : ∀ name, condition = .symbol name → (name ∈ symbols ↔ name ∈ other)) :
    holds symbols condition = holds other condition := by
  cases condition with
  | symbol name =>
    rw [holds, holds, Bool.eq_iff_iff, List.contains_iff_mem, List.contains_iff_mem]
    exact h name rfl
  | always => rfl
  | never => rfl

/-- **One directive**: where two keys agree on its symbol, it leaves the same sections open. -/
theorem advance_congr {directive : Directive}
    (h : ∀ name, directive.condition? = some (.symbol name) → (name ∈ symbols ↔ name ∈ other))
    (sections : List Section) :
    advance symbols sections directive = advance other sections directive := by
  cases directive with
  | opening form condition =>
    have hholds := holds_congr fun name hname => h name (congrArg some hname)
    rw [advance, advance, opens, opens, hholds]
  | elif condition =>
    have hholds := holds_congr fun name hname => h name (congrArg some hname)
    cases sections with
    | nil => rfl
    | cons s outer => rw [advance, advance, hholds]
  | otherwise => rfl
  | endif => rfl
  | define => rfl

/-- **All lines**: where two keys agree on the symbols of the lines, they select the same. -/
theorem selectLines_congr {ls : List Text}
    (h : ∀ line ∈ ls, ∀ directive, Directive.ofLine? line = some directive → ∀ name,
      directive.condition? = some (.symbol name) → (name ∈ symbols ↔ name ∈ other))
    (sections : List Section) :
    selectLines symbols sections ls = selectLines other sections ls := by
  induction ls generalizing sections with
  | nil => rfl
  | cons line rest ih =>
    obtain ⟨hline, hrest⟩ := List.forall_mem_cons.1 h
    have hnext : advanceLine symbols sections line = advanceLine other sections line := by
      unfold advanceLine
      split
      · rename_i directive hdirective
        exact advance_congr (hline directive hdirective) sections
      · rfl
    rw [selectLines, selectLines, hnext, ih hrest]

end TwoKeys

/-- Keys that list the same of the tested symbols select the same code. -/
theorem select_congr {t key other : Text}
    (h : ∀ name ∈ testedSymbols t, (name ∈ segments key ↔ name ∈ segments other)) :
    select t key = select t other := by
  rw [select, select, selectLines_congr fun line hline directive hdirective name hname =>
    h name (mem_testedSymbols.2 ⟨line, hline, directive, hdirective, hname⟩)]

/-! ## 3. The part of a key that is read -/

/-- The tested symbols that a key lists, in the order of the text. -/
def readPart (t key : Text) : List Text :=
  (testedSymbols t).filter (key.splitOn ';').contains

theorem mem_readPart {t key name : Text} :
    name ∈ readPart t key ↔ name ∈ testedSymbols t ∧ name ∈ key.splitOn ';' := by
  rw [readPart, List.mem_filter, List.contains_iff_mem]

/-- The key of the part that is read lists just this part. -/
theorem segments_join_readPart (t key : Text) :
    segments (join (readPart t key)) = readPart t key :=
  segments_join (fun _ hname => ne_nil_of_mem_testedSymbols (mem_readPart.1 hname).1)
    fun _ hname => Text.separator_not_mem_piece (mem_readPart.1 hname).2

/-- **Selecting reads only the tested symbols of a key.** Of any text, two keys select the same code
if each symbol that a directive states is a piece of both or of none. So order, repetition, empty
pieces and symbols that the text does not test make no difference: a key selects the code of the key
that lists, in the order of the text, those of its pieces that are tested. -/
theorem select_eq_of_tested (t : Text) :
    (∀ key other : Text,
      (∀ name ∈ testedSymbols t, (name ∈ key.splitOn ';' ↔ name ∈ other.splitOn ';')) →
        select t key = select t other) ∧
      ∀ key, select t key = select t (join (readPart t key)) := by
  constructor
  · intro key other h
    refine select_congr fun name hname => ?_
    have hne := ne_nil_of_mem_testedSymbols hname
    rw [mem_segments_iff hne, mem_segments_iff hne]
    exact h name hname
  · intro key
    refine select_congr fun name hname => ?_
    rw [segments_join_readPart, mem_readPart,
      mem_segments_iff (ne_nil_of_mem_testedSymbols hname), and_iff_right hname]

/-- Sections that are parted before they are opened, and that are not closed. -/
theorem select_eq_of_tested_unclosed :
    (∀ name ∈ testedSymbols "#elif Z\n#ifdef A\na\n#elif B\nb\n#else\n#ifndef A\nc".toList,
      (name ∈ "B;;X;B".toList.splitOn ';' ↔ name ∈ ";B".toList.splitOn ';')) ∧
    select "#elif Z\n#ifdef A\na\n#elif B\nb\n#else\n#ifndef A\nc".toList "B;;X;B".toList =
      select "#elif Z\n#ifdef A\na\n#elif B\nb\n#else\n#ifndef A\nc".toList ";B".toList := by
  have hagree : ∀ name ∈
      testedSymbols "#elif Z\n#ifdef A\na\n#elif B\nb\n#else\n#ifndef A\nc".toList,
      (name ∈ "B;;X;B".toList.splitOn ';' ↔ name ∈ ";B".toList.splitOn ';') := by decide
  exact ⟨hagree, (select_eq_of_tested _).1 _ _ hagree⟩

end Variants.Configuration
