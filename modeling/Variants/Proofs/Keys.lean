import Variants.Configuration.Key
import Variants.Proofs.TextLines

/-!
# Keys and the symbols that they were made of

A key is cut at its semicolons again, so the symbols of a key come back piece by piece
(`segments_join_eq`). They come back as they were exactly when none holds a semicolon
(`segments_join_iff`), and this is also when the key selects the path that it was made for
(`selects_path_iff`).
-/

namespace Variants

/-! ## 1. The symbols on a path -/

theorem Condition.eq_symbol_of_name? {condition : Condition} {name : Text}
    (h : condition.name? = some name) : condition = .symbol name := by
  cases condition with
  | symbol _ =>
    cases h
    rfl
  | always => cases h
  | never => cases h

theorem Condition.mem_names {path : List Condition} {name : Text} :
    name ∈ path.filterMap Condition.name? ↔ .symbol name ∈ path := by
  rw [List.mem_filterMap]
  constructor
  · rintro ⟨condition, hmem, hname⟩
    rwa [← Condition.eq_symbol_of_name? hname]
  · exact fun hmem => ⟨_, hmem, rfl⟩

namespace Configuration

/-! ## 2. Joined and cut again -/

/-- A segment of a key has no semicolon. -/
theorem semicolon_not_mem_segment {key name : Text} (h : name ∈ segments key) : ';' ∉ name := by
  unfold segments at h
  split at h
  · exact absurd h List.not_mem_nil
  · exact Text.separator_not_mem_piece h

theorem splitOn_join : ∀ {names : List Text}, names ≠ [] →
    (join names).splitOn ';' = names.flatMap fun name => name.splitOn ';'
  | [], h => absurd rfl h
  | [name], _ => by
    rw [join, List.intercalate_singleton, List.flatMap_singleton]
  | name :: next :: more, _ => by
    have hmore := splitOn_join (List.cons_ne_nil next more)
    rw [join] at hmore ⊢
    rw [List.intercalate_cons_cons, List.append_assoc, List.singleton_append,
      List.splitOn_append_cons_self, hmore]
    rfl

section Named

variable {names : List Text} (hne : ∀ name ∈ names, name ≠ [])

include hne

/-- **The segments of a joined key** are the pieces of its symbols, if no symbol is empty. -/
theorem segments_join_eq :
    segments (join names) = names.flatMap fun name => name.splitOn ';' := by
  cases names with
  | nil => rfl
  | cons name more =>
    have hjoin : join (name :: more) ≠ [] := by
      have hname := hne name List.mem_cons_self
      cases more <;> simp [join, hname]
    rw [segments, if_neg hjoin, splitOn_join (List.cons_ne_nil name more)]

/-- **Symbols are read back from their key** exactly when none has a semicolon. -/
theorem segments_join_iff : segments (join names) = names ↔ ∀ name ∈ names, ';' ∉ name := by
  constructor
  · intro h name hname
    rw [← h] at hname
    exact semicolon_not_mem_segment hname
  · intro hsemi
    have hwhole : ∀ name ∈ names, name.splitOn ';' = [name] := fun name hname =>
      List.splitOn_eq_singleton (hsemi name hname)
    rw [segments_join_eq hne, List.flatMap_def, List.map_congr_left hwhole, ← List.flatMap_def,
      List.flatMap_singleton']

theorem segments_join (hsemi : ∀ name ∈ names, ';' ∉ name) : segments (join names) = names :=
  (segments_join_iff hne).2 hsemi

/-- A joined key is well formed when the pieces of its symbols are. -/
theorem isValid_join_iff : isValid (join names) = true ↔
    ∀ name ∈ names, ∀ piece ∈ name.splitOn ';', isSymbol piece = true := by
  rw [isValid, segments_join_eq hne, List.all_eq_true]
  constructor
  · exact fun h name hname piece hpiece => h piece (List.mem_flatMap.2 ⟨name, hname, hpiece⟩)
  · intro h piece hpiece
    obtain ⟨name, hname, hpiece⟩ := List.mem_flatMap.1 hpiece
    exact h name hname piece hpiece

end Named

/-! ## 3. The key of a path -/

theorem selects_iff {key : Text} {condition : Condition} :
    selects key condition = true ↔
      condition = .always ∨ ∃ name ∈ segments key, condition = .symbol name := by
  cases condition <;> simp [selects, holds]

theorem keyOfPath_eq_some_iff {path : List Condition} {key : Text} :
    keyOfPath path = some key ↔
      Condition.never ∉ path ∧ join (path.filterMap Condition.name?) = key := by
  unfold keyOfPath
  split
  · rename_i hnever
    simp [hnever]
  · rename_i hnever
    rw [Option.some.injEq]
    exact ⟨fun h => ⟨hnever, h⟩, fun h => h.2⟩

/-- **A key selects the path that it was made for** exactly when no symbol on it has a semicolon. -/
theorem selects_path_iff {path : List Condition} {key : Text} (hkey : keyOfPath path = some key)
    (hne : ∀ name, .symbol name ∈ path → name ≠ []) :
    (∀ condition ∈ path, selects key condition = true) ↔
      ∀ name, .symbol name ∈ path → ';' ∉ name := by
  obtain ⟨hnever, rfl⟩ := keyOfPath_eq_some_iff.1 hkey
  constructor
  · intro h name hname
    rcases selects_iff.1 (h _ hname) with halways | ⟨segment, hsegment, hsymbol⟩
    · cases halways
    · cases hsymbol
      exact semicolon_not_mem_segment hsegment
  · intro hsemi condition hmem
    have hsegments := segments_join
      (fun name hname => hne name (Condition.mem_names.1 hname))
      (fun name hname => hsemi name (Condition.mem_names.1 hname))
    rw [selects_iff, hsegments]
    cases condition with
    | symbol name => exact Or.inr ⟨name, Condition.mem_names.2 hmem, rfl⟩
    | always => exact Or.inl rfl
    | never => exact absurd hmem hnever

end Configuration

end Variants
