import Mathlib.Data.List.Basic
import Mathlib.Order.Max
import Variants.Proofs.Decoding
import Variants.Proofs.TestedSymbols

/-!
# Well-formed keys

A stretch of a key is a part of it that holds no semicolon. The maximal stretches, which cannot be
made longer, are the pieces between the semicolons (`mem_splitOn_iff`). So a key can be judged by
the look of it: it is refused when it is not empty and a maximal stretch of it is empty or holds
whitespace.

A key also says what it lists. Its segments, taken for symbols, have the key itself as their key
(`keyOfPath_segments`), and a key is accepted exactly if it is the key of well-formed symbols, which
are then its segments and no others (`isValid_iff_existsUnique_join`).

Main statement: `checkKey_iff_malformed`.
-/

namespace Variants.Configuration

/-! ## 1. Stretches of a key -/

/-- Whether a part of a key meets a semicolon or an end of the key on both sides, told from what
stands before and behind it. -/
def IsBordered (before behind : Text) : Prop :=
  (before = [] ∨ before.getLast? = some ';') ∧ (behind = [] ∨ behind.head? = some ';')

/-- A stretch of a key: a part of it without a semicolon, and what stands before and behind it. -/
structure Stretch (key : Text) where
  before : Text
  text : Text
  behind : Text
  key_eq : before ++ text ++ behind = key
  semicolon_not_mem : ';' ∉ text

namespace Stretch

variable {key : Text}

/-- A stretch lies within another one that starts no later and ends no earlier. -/
instance : LE (Stretch key) where
  le narrow wide := wide.before <+: narrow.before ∧ wide.behind <:+ narrow.behind

theorem isBordered_of_isMax {s : Stretch key} (h : IsMax s) : IsBordered s.before s.behind := by
  -- a character beside the stretch that is no semicolon could be taken in
  constructor
  · rcases List.eq_nil_or_concat' s.before with hnil | ⟨front, c, hfront⟩
    · exact Or.inl hnil
    · refine Or.inr (by_contra fun hlast => ?_)
      have hc : ';' ≠ c := fun e => hlast (by rw [hfront, List.getLast?_concat, e])
      let wide : Stretch key :=
        { before := front
          text := c :: s.text
          behind := s.behind
          key_eq := by simpa [hfront] using s.key_eq
          semicolon_not_mem := List.not_mem_cons_of_ne_of_not_mem hc s.semicolon_not_mem }
      have hwide : s ≤ wide := ⟨hfront ▸ List.prefix_append front [c], List.suffix_rfl⟩
      have hback : s.before <+: front := (h hwide).1
      have hlength := hback.length_le
      rw [hfront, List.length_append, List.length_singleton] at hlength
      omega
  · cases hbehind : s.behind with
    | nil => exact Or.inl rfl
    | cons c rest =>
      refine Or.inr (by_contra fun hhead => ?_)
      have hc : ';' ≠ c := fun e => hhead (by rw [List.head?_cons, e])
      let wide : Stretch key :=
        { before := s.before
          text := s.text ++ [c]
          behind := rest
          key_eq := by simpa [hbehind] using s.key_eq
          semicolon_not_mem := by simpa [hc] using s.semicolon_not_mem }
      have hwide : s ≤ wide := ⟨List.prefix_rfl, hbehind ▸ List.suffix_cons c rest⟩
      have hback : s.behind <:+ rest := (h hwide).2
      have hlength := hback.length_le
      rw [hbehind, List.length_cons] at hlength
      omega

theorem isMax_of_isBordered {s : Stretch key} (h : IsBordered s.before s.behind) : IsMax s := by
  intro wide hwide
  obtain ⟨⟨left, hleft⟩, right, hright⟩ := hwide
  obtain ⟨hbefore, hbehind⟩ := h
  have htext : wide.text = left ++ s.text ++ right := by
    have hkey := wide.key_eq.trans s.key_eq.symm
    rw [← hleft, ← hright] at hkey
    have hshifted : wide.before ++ wide.text ++ wide.behind =
        wide.before ++ (left ++ s.text ++ right) ++ wide.behind := by
      simpa only [List.append_assoc] using hkey
    exact List.append_cancel_left (List.append_cancel_right hshifted)
  have hplain := wide.semicolon_not_mem
  rw [htext] at hplain
  -- what the longer stretch has more would begin or end with the semicolon at the border
  have hleftNil : left = [] := by
    rcases List.eq_nil_or_concat' left with hnil | ⟨front, c, rfl⟩
    · exact hnil
    · rw [← hleft, ← List.append_assoc, List.getLast?_concat] at hbefore
      rcases hbefore with hnil | hlast
      · simp at hnil
      · exact absurd (by simp [Option.some.inj hlast]) hplain
  have hrightNil : right = [] := by
    cases right with
    | nil => rfl
    | cons c rest =>
      rw [← hright, List.cons_append, List.head?_cons] at hbehind
      rcases hbehind with hnil | hhead
      · cases hnil
      · exact absurd (by simp [Option.some.inj hhead]) hplain
  subst hleftNil hrightNil
  rw [List.append_nil] at hleft
  rw [List.nil_append] at hright
  exact ⟨hleft ▸ List.prefix_rfl, hright ▸ List.suffix_rfl⟩

/-- **A stretch is maximal** exactly when it meets a semicolon or an end of the key on each side. -/
theorem isMax_iff {s : Stretch key} : IsMax s ↔ IsBordered s.before s.behind :=
  ⟨isBordered_of_isMax, isMax_of_isBordered⟩

end Stretch

/-! ## 2. Stretches and pieces -/

/-- A piece among joined pieces has semicolons or the ends beside it. -/
theorem exists_isBordered_join (part : Text) (earlier later : List Text) :
    ∃ before behind, before ++ part ++ behind = join (earlier ++ part :: later) ∧
      IsBordered before behind := by
  induction earlier with
  | nil =>
    cases later with
    | nil => exact ⟨[], [], by simp [join], Or.inl rfl, Or.inl rfl⟩
    | cons next more =>
      refine ⟨[], ';' :: join (next :: more), ?_, Or.inl rfl, Or.inr rfl⟩
      rw [List.nil_append, List.nil_append, join, join, List.intercalate_cons_cons,
        List.append_assoc, List.singleton_append]
  | cons first earlier ih =>
    obtain ⟨before, behind, hjoin, hbefore, hbehind⟩ := ih
    refine ⟨first ++ ';' :: before, behind, ?_, Or.inr ?_, hbehind⟩
    · have hne : earlier ++ part :: later ≠ [] := by simp
      rw [List.cons_append, join, List.intercalate_cons_of_ne_nil hne, ← join, ← hjoin]
      simp only [List.append_assoc, List.cons_append, List.nil_append]
    · rw [List.getLast?_append, List.getLast?_cons, Option.some_or]
      rcases hbefore with rfl | hlast
      · rfl
      · rw [hlast, Option.getD_some]

/-- And a part with semicolons or the ends beside it is a piece. -/
theorem IsBordered.mem_splitOn {before part behind : Text} (h : IsBordered before behind)
    (hplain : ';' ∉ part) : part ∈ (before ++ part ++ behind).splitOn ';' := by
  obtain ⟨hbefore, hbehind⟩ := h
  have hfirst : part ∈ (part ++ behind).splitOn ';' := by
    rcases hbehind with rfl | hhead
    · rw [List.append_nil, List.splitOn_eq_singleton hplain]
      exact List.mem_singleton_self part
    · obtain ⟨rest, rfl⟩ := List.head?_eq_some_iff.1 hhead
      rw [List.splitOn_append_cons_self_of_not_mem hplain]
      exact List.mem_cons_self
  rw [List.append_assoc]
  rcases hbefore with rfl | hlast
  · exact hfirst
  · obtain ⟨front, rfl⟩ := List.getLast?_eq_some_iff.1 hlast
    rw [List.append_assoc, List.singleton_append, List.splitOn_append_cons_self]
    exact List.mem_append_right _ hfirst

/-- **The pieces of a key** are its maximal stretches. -/
theorem mem_splitOn_iff {key part : Text} :
    part ∈ key.splitOn ';' ↔ ∃ s : Stretch key, IsMax s ∧ s.text = part := by
  constructor
  · intro h
    obtain ⟨earlier, later, hpieces⟩ := List.append_of_mem h
    obtain ⟨before, behind, hjoin, hborders⟩ := exists_isBordered_join part earlier later
    rw [← hpieces, join, List.intercalate_splitOn] at hjoin
    let s : Stretch key := ⟨before, part, behind, hjoin, Text.separator_not_mem_piece h⟩
    exact ⟨s, Stretch.isMax_iff.2 hborders, rfl⟩
  · intro h
    obtain ⟨s, hmax, rfl⟩ := h
    have hpiece := (Stretch.isMax_iff.1 hmax).mem_splitOn s.semicolon_not_mem
    rwa [s.key_eq] at hpiece

/-- So are the segments, but the empty key has none. -/
theorem mem_segments_iff_isMax {key name : Text} :
    name ∈ segments key ↔ key ≠ [] ∧ ∃ s : Stretch key, IsMax s ∧ s.text = name := by
  unfold segments
  split
  · rename_i hkey
    exact ⟨fun h => absurd h List.not_mem_nil, fun h => absurd hkey h.1⟩
  · rename_i hkey
    rw [mem_splitOn_iff, and_iff_right hkey]

/-! ## 3. What is accepted -/

/-- Whether a key is not empty and has a maximal stretch that is empty or holds whitespace. -/
def IsMalformed (key : Text) : Prop :=
  key ≠ [] ∧ ∃ s : Stretch key, IsMax s ∧ (s.text = [] ∨ ∃ c ∈ s.text, Text.isSpace c = true)

theorem isValid_iff_not_isMalformed {key : Text} : isValid key = true ↔ ¬ IsMalformed key := by
  rw [isValid, List.all_eq_true]
  simp only [isSymbol_iff, mem_segments_iff_isMax]
  constructor
  · intro h hmalformed
    obtain ⟨hkey, s, hmax, hbad⟩ := hmalformed
    obtain ⟨hne, hplain⟩ := h s.text ⟨hkey, s, hmax, rfl⟩
    rcases hbad with hnil | ⟨c, hc, hspace⟩
    · exact hne hnil
    · exact absurd hspace (Bool.eq_false_iff.1 (hplain c hc))
  · intro h name hname
    obtain ⟨hkey, s, hmax, rfl⟩ := hname
    refine ⟨fun hnil => h ⟨hkey, s, hmax, Or.inl hnil⟩, fun c hc => ?_⟩
    exact Bool.eq_false_iff.2 fun hspace => h ⟨hkey, s, hmax, Or.inr ⟨c, hc, hspace⟩⟩

instance (key : Text) : Decidable (IsMalformed key) :=
  decidable_of_iff (¬ isValid key = true) (by rw [isValid_iff_not_isMalformed, not_not])

/-- Semicolons beside nothing make a key malformed, but the empty key is not. -/
example : (∀ key ∈ [";", ";A", "A;", "A;;B"], IsMalformed key.toList) ∧ ¬ IsMalformed [] := by
  decide

theorem checkKey_eq_error_iff {filename key : Text} :
    checkKey filename key = .error (invalidKey filename key) ↔ ¬ isValid key = true := by
  unfold checkKey
  split
  · rename_i hvalid
    exact ⟨fun h => (by cases h), fun h => absurd hvalid h⟩
  · rename_i hvalid
    exact ⟨fun _ => hvalid, fun _ => rfl⟩

/-! ## 4. A key and the symbols that it lists -/

theorem join_segments (key : Text) : join (segments key) = key := by
  unfold segments
  split
  · rename_i hkey
    rw [hkey, join, List.intercalate_nil]
  · rw [join, List.intercalate_splitOn]

/-- **The segments of a key have it as their key**, when they are taken for symbols. -/
theorem keyOfPath_segments (key : Text) : keyOfPath ((segments key).map .symbol) = some key := by
  have hnames : ((segments key).map Condition.symbol).filterMap Condition.name? = segments key := by
    rw [List.filterMap_map]
    exact List.filterMap_some
  rw [keyOfPath_eq_some_iff, hnames, join_segments]
  exact ⟨by simp, rfl⟩

/-- **The accepted keys are the keys of well-formed symbols**, and each says which these are. -/
theorem isValid_iff_existsUnique_join {key : Text} : isValid key = true ↔
    ∃! names : List Text,
      (∀ name ∈ names, isSymbol name = true ∧ ';' ∉ name) ∧ join names = key := by
  have hback {names : List Text} (hnames : ∀ name ∈ names, isSymbol name = true ∧ ';' ∉ name) :
      segments (join names) = names :=
    segments_join (fun name hname => (isSymbol_iff.1 (hnames name hname).1).1)
      fun name hname => (hnames name hname).2
  constructor
  · intro h
    refine ⟨segments key, ⟨fun name hname => ⟨List.all_eq_true.1 h name hname,
      semicolon_not_mem_segment hname⟩, join_segments key⟩, ?_⟩
    intro names hjoined
    obtain ⟨hnames, rfl⟩ := hjoined
    exact (hback hnames).symm
  · intro h
    obtain ⟨names, ⟨hnames, rfl⟩, _⟩ := h
    rw [isValid, hback hnames, List.all_eq_true]
    exact fun name hname => (hnames name hname).1

theorem selects_symbol_iff {key name : Text} :
    selects key (.symbol name) = true ↔ name ∈ segments key := by
  rw [selects, holds, List.contains_iff_mem]

/-- **Well-formed keys.** A key is refused, with the diagnostic that shows it, exactly when it is
not empty and a maximal stretch of it is empty or holds whitespace; otherwise it is accepted as it
is. The segments of any key, taken for symbols, have it as their key. And a symbol with a name holds
in the configuration of a key exactly when its name is a segment, that is a maximal stretch. -/
theorem checkKey_iff_malformed (filename key : Text) :
    (checkKey filename key = .error (invalidKey filename key) ↔ IsMalformed key) ∧
      (checkKey filename key = .ok key ↔ ¬ IsMalformed key) ∧
      keyOfPath ((segments key).map .symbol) = some key ∧
      ∀ name, name ≠ [] →
        (selects key (.symbol name) = true ↔ name ∈ segments key) ∧
          (name ∈ segments key ↔ ∃ s : Stretch key, IsMax s ∧ s.text = name) := by
  refine ⟨?_, ?_, keyOfPath_segments key, fun name hname => ⟨selects_symbol_iff, ?_⟩⟩
  · rw [checkKey_eq_error_iff, isValid_iff_not_isMalformed, not_not]
  · rw [checkKey_eq_ok_iff, isValid_iff_not_isMalformed]
  · rw [mem_segments_iff hname, mem_splitOn_iff]

/-- An accepted key with an expression in it, and one that an em space makes malformed. -/
theorem checkKey_iff_malformed_emSpace :
    (checkKey [] "A;(B)".toList = .ok "A;(B)".toList ∧ ¬ IsMalformed "A;(B)".toList ∧
      keyOfPath ((segments "A;(B)".toList).map .symbol) = some "A;(B)".toList ∧
      "(B)".toList ≠ [] ∧ selects "A;(B)".toList (.symbol "(B)".toList) = true) ∧
    IsMalformed "A;\u2003B".toList ∧
      checkKey [] "A;\u2003B".toList = .error (invalidKey [] "A;\u2003B".toList) := by
  obtain ⟨_, haccepted, hpath, hselects⟩ := checkKey_iff_malformed [] "A;(B)".toList
  have hkey : checkKey [] "A;(B)".toList = .ok "A;(B)".toList := by decide
  let spaced : Stretch "A;\u2003B".toList :=
    ⟨"A;".toList, "\u2003B".toList, [], by decide, by decide⟩
  have hmax : IsMax spaced := Stretch.isMax_iff.2 ⟨Or.inr (by decide), Or.inl rfl⟩
  have hmalformed : IsMalformed "A;\u2003B".toList :=
    ⟨by decide, spaced, hmax, Or.inr ⟨'\u2003', by decide, by decide⟩⟩
  refine ⟨⟨hkey, haccepted.1 hkey, hpath, by decide, ?_⟩, hmalformed, ?_⟩
  · exact (hselects "(B)".toList (by decide)).1.2 (by decide)
  · exact (checkKey_iff_malformed [] _).1.2 hmalformed

end Variants.Configuration
