import Variants.Diagnostic
import Variants.Proofs.Demand
import Variants.Process

/-!
# What the configurations of a source stand for

The key of a branch lists the symbols on the path to it, and a symbol is whatever text an operand
holds. So a semicolon in an operand is taken for one between two symbols: the key then lists other
symbols than the path has, and does not select its own branch. A blank that a literal brings into an
operand, or a semicolon beside nothing, makes a key that is not well formed, although it is listed
(`not_decodes`). Apart from these characters every listed key says which symbols it was made of,
selects the conditions on its path, and is accepted when it is asked for (`decodes_iff`).
-/

namespace Variants

open Variants.Configuration

/-! ## 1. Symbols on a path -/

namespace Configuration

/-- A directive that names its symbol keeps all symbols on the path named. -/
theorem name_ne_nil_of_mem_extendPath {path : List Condition} {directive : Directive}
    (hpath : ∀ name, .symbol name ∈ path → name ≠ [])
    (hdirective : ∀ name, directive.condition? = some (.symbol name) → name ≠ []) :
    ∀ name, .symbol name ∈ extendPath path directive → name ≠ [] := by
  intro name h
  cases directive with
  | opening form condition =>
    rcases List.mem_cons.1 h with hstated | h
    · exact hdirective name (congrArg some hstated.symm)
    · exact hpath name h
  | elif condition =>
    rcases List.mem_cons.1 h with hstated | h
    · exact hdirective name (congrArg some hstated.symm)
    · exact hpath name (List.mem_of_mem_tail h)
  | otherwise =>
    cases path with
    | nil => exact absurd h List.not_mem_nil
    | cons innermost outer =>
      rcases List.mem_cons.1 h with hflipped | h
      · cases innermost <;> cases hflipped
      · exact hpath name (List.mem_cons_of_mem _ h)
  | endif => exact hpath name (List.mem_of_mem_tail h)
  | define => exact hpath name h

/-- So all branches have named symbols on their paths. -/
theorem name_ne_nil_of_mem_branchPaths {directives : List Directive} {start : List Condition}
    (hstart : ∀ name, .symbol name ∈ start → name ≠ [])
    (hdirectives : ∀ directive ∈ directives, ∀ name,
      directive.condition? = some (.symbol name) → name ≠ []) :
    ∀ path ∈ branchPaths start directives, ∀ name, .symbol name ∈ path → name ≠ [] := by
  induction directives generalizing start with
  | nil => exact fun path hpath => absurd hpath List.not_mem_nil
  | cons directive rest ih =>
    have hnext := name_ne_nil_of_mem_extendPath hstart (hdirectives directive List.mem_cons_self)
    have hrest := ih hnext fun other hother =>
      hdirectives other (List.mem_cons_of_mem directive hother)
    intro path hpath
    rw [branchPaths] at hpath
    split at hpath
    · rcases List.mem_cons.1 hpath with rfl | hpath
      · exact fun name hname => hnext name (List.mem_reverse.1 hname)
      · exact hrest path hpath
    · exact hrest path hpath

theorem isSymbol_iff {segment : Text} :
    isSymbol segment = true ↔ segment ≠ [] ∧ ∀ c ∈ segment, Text.isSpace c = false := by
  simp [isSymbol]

theorem checkKey_eq_ok_iff {filename key : Text} :
    checkKey filename key = .ok key ↔ isValid key = true := by
  unfold checkKey
  split
  · rename_i hvalid
    exact ⟨fun _ => hvalid, fun _ => rfl⟩
  · rename_i hvalid
    exact ⟨fun h => (by cases h), fun h => absurd h hvalid⟩

end Configuration

/-! ## 2. The paths of a processed source -/

/-- The paths of the branches of a processed source. -/
def Processed.paths (p : Processed) : List (List Condition) :=
  branchPaths [] (Directive.ofLines (Text.lines p.text))

theorem Processed.name_ne_nil {p : Processed} {path : List Condition} (h : path ∈ p.paths) :
    ∀ name, .symbol name ∈ path → name ≠ [] := by
  refine name_ne_nil_of_mem_branchPaths (fun name hname => absurd hname List.not_mem_nil) ?_ path h
  intro directive hdirective name hname
  obtain ⟨line, _, hline⟩ := List.mem_filterMap.1 hdirective
  exact Directive.name_ne_nil hline hname

theorem mem_configurations {options : Options} {source key : Text} :
    key ∈ (process options source).configurations ↔
      key = [] ∨ ∃ path ∈ (process options source).paths, keyOfPath path = some key := by
  show key ∈ enumerate (process options source).text ↔ _
  rw [enumerate, List.mem_eraseDups, List.mem_cons, branchKeys, List.mem_filterMap]
  rfl

/-- A key of a path is accepted when the pieces of its symbols are well formed. -/
theorem Processed.checkKey_iff {p : Processed} {path : List Condition} {key : Text}
    (hpath : path ∈ p.paths) (hkey : keyOfPath path = some key) (filename : Text) :
    checkKey filename key = .ok key ↔ ∀ name, .symbol name ∈ path →
      ∀ piece ∈ name.splitOn ';', piece ≠ [] ∧ ∀ c ∈ piece, Text.isSpace c = false := by
  obtain ⟨_, rfl⟩ := keyOfPath_eq_some_iff.1 hkey
  have hne : ∀ name ∈ path.filterMap Condition.name?, name ≠ [] := fun name hname =>
    p.name_ne_nil hpath name (Condition.mem_names.1 hname)
  rw [checkKey_eq_ok_iff, isValid_join_iff hne]
  simp only [Condition.mem_names, isSymbol_iff]

/-! ## 3. Keys and what they are made of -/

/-- **What a listed key stands for.** The key of a path lists the symbols on the path, from the
outermost to the innermost, exactly when none of them has a semicolon, and exactly then it selects
all conditions on the path. It is accepted exactly when the pieces of these symbols between
semicolons are not empty and have no blanks, and all configurations of a source are accepted exactly
when this is so for all paths with a key. -/
theorem decodes_iff (options : Options) (source filename : Text) :
    (∀ path ∈ (process options source).paths, ∀ key, keyOfPath path = some key →
      (segments key = path.filterMap Condition.name? ↔
        ∀ name, .symbol name ∈ path → ';' ∉ name) ∧
      ((∀ condition ∈ path, selects key condition = true) ↔
        ∀ name, .symbol name ∈ path → ';' ∉ name) ∧
      (checkKey filename key = .ok key ↔ ∀ name, .symbol name ∈ path →
        ∀ piece ∈ name.splitOn ';', piece ≠ [] ∧ ∀ c ∈ piece, Text.isSpace c = false)) ∧
    ((∀ key ∈ (process options source).configurations, checkKey filename key = .ok key) ↔
      ∀ path ∈ (process options source).paths, .never ∉ path → ∀ name, .symbol name ∈ path →
        ∀ piece ∈ name.splitOn ';', piece ≠ [] ∧ ∀ c ∈ piece, Text.isSpace c = false) := by
  refine ⟨fun path hpath key hkey => ?_, fun h path hpath hnever => ?_, fun h key hkey => ?_⟩
  · have hne := (process options source).name_ne_nil hpath
    refine ⟨?_, selects_path_iff hkey hne, Processed.checkKey_iff hpath hkey filename⟩
    obtain ⟨_, rfl⟩ := keyOfPath_eq_some_iff.1 hkey
    rw [segments_join_iff fun name hname => hne name (Condition.mem_names.1 hname)]
    simp only [Condition.mem_names]
  · have hkey := keyOfPath_eq_some_iff.2 ⟨hnever, rfl⟩
    exact (Processed.checkKey_iff hpath hkey filename).1
      (h _ (mem_configurations.2 (Or.inr ⟨path, hpath, hkey⟩)))
  · rcases mem_configurations.1 hkey with rfl | ⟨path, hpath, hpathKey⟩
    · rfl
    · refine (Processed.checkKey_iff hpath hpathKey filename).2 (h path hpath ?_)
      exact (keyOfPath_eq_some_iff.1 hpathKey).1

/-- Nested operands, one of them an expression, come back from their key. -/
theorem decodes_iff_nested :
    ∃ path ∈ (process .standard "#ifdef A\n#if ( B )\n#endif\n#endif\n".toList).paths,
      keyOfPath path = some "A;(B)".toList ∧ segments "A;(B)".toList = [['A'], "(B)".toList] ∧
      (∀ condition ∈ path, selects "A;(B)".toList condition = true) ∧
      ∀ filename, checkKey filename "A;(B)".toList = .ok "A;(B)".toList := by
  have hpath : [.symbol ['A'], .symbol "(B)".toList] ∈
      (process .standard "#ifdef A\n#if ( B )\n#endif\n#endif\n".toList).paths := by
    decide +kernel
  have hkey : keyOfPath [.symbol ['A'], .symbol "(B)".toList] = some "A;(B)".toList := by decide
  have hplain : ∀ name, Condition.symbol name ∈ [.symbol ['A'], .symbol "(B)".toList] →
      ';' ∉ name ∧ ∀ piece ∈ name.splitOn ';', isSymbol piece = true := by
    intro name hname
    rcases List.mem_cons.1 hname with hfirst | hsecond
    · cases hfirst
      decide
    · cases List.mem_singleton.1 hsecond
      decide
  have hdecodes := fun filename => (decodes_iff _ _ filename).1 _ hpath _ hkey
  refine ⟨_, hpath, hkey, (hdecodes []).1.2 fun name hname => (hplain name hname).1,
    (hdecodes []).2.1.2 fun name hname => (hplain name hname).1, fun filename => ?_⟩
  exact (hdecodes filename).2.2.2 fun name hname piece hpiece =>
    isSymbol_iff.1 ((hplain name hname).2 piece hpiece)

/-- Keys that do not decode. A semicolon in an operand is taken for one between two symbols, and
beside nothing it makes a listed key that is refused, as does a blank in a literal. -/
theorem not_decodes :
    ([.symbol "A;B".toList] ∈ (process .standard "#if A;B\n#endif\n".toList).paths ∧
      keyOfPath [.symbol "A;B".toList] = some "A;B".toList ∧
      segments "A;B".toList ≠ ["A;B".toList] ∧
      selects "A;B".toList (.symbol "A;B".toList) = false) ∧
    ∀ p ∈ [("#if A;\n#endif\n", "A;"), ("#if \"\u00a0\"\n#endif\n", "\"\u00a0\"")],
      p.2.toList ∈ (process .standard p.1.toList).configurations ∧
        ∀ filename, checkKey filename p.2.toList ≠ .ok p.2.toList := by
  have hlisted :
      ∀ p ∈ [("#if A;\n#endif\n", "A;"), ("#if \"\u00a0\"\n#endif\n", "\"\u00a0\"")],
        p.2.toList ∈ (process .standard p.1.toList).configurations ∧
          isValid p.2.toList = false := by
    decide +kernel
  refine ⟨by decide +kernel, fun p hp => ⟨(hlisted p hp).1, fun filename haccepted => ?_⟩⟩
  rw [checkKey_eq_ok_iff, (hlisted p hp).2] at haccepted
  cases haccepted

end Variants
