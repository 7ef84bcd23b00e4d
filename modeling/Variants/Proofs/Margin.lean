import Variants.Proofs.Joining
import Variants.Source.Clean
import Variants.Directive

/-!
# The left margin

A directive is recognised at the left margin only. The steps on spaces bring every line there
(`head?_ne_space_of_mem_trimmed`). Joining then puts spaces in again, one for each backslash that it
drops. A line that holds a backslash alone has nothing in front of its space, so this space comes to
stand at the margin, and a directive behind it is hidden. Only at the very start of the text the
first such backslash leaves no space.

Two facts about the line that joining makes of the first lines are carried along together, since the
second one does not pass through the joins alone (`Shows`): its first character that is no space,
and whether a space stands in front of it. From there each line is looked at by its number
(`isHidden_joinLines_iff`).

Main statement: `isHidden_normalize_read_iff`.
-/

namespace Variants.Layout

/-! ## 1. Lines behind spaces -/

/-- The first character of a line other than a space. -/
def firstMark (line : Text) : Option Char := (line.dropWhile (· == ' ')).head?

/-- Whether a line reads as a directive and does not start like one. -/
def IsHidden (line : Text) : Prop := firstMark line = some '#' ∧ line.head? ≠ some '#'

instance (line : Text) : Decidable (IsHidden line) := inferInstanceAs (Decidable (_ ∧ _))

theorem firstMark_space (line : Text) : firstMark (' ' :: line) = firstMark line := rfl

theorem firstMark_eq_head? {line : Text} (h : line.head? ≠ some ' ') :
    firstMark line = line.head? := by
  cases line with
  | nil => rfl
  | cons c line =>
    have hc : ¬ (c == ' ') = true := fun e => h (by rw [beq_iff_eq.1 e]; rfl)
    rw [firstMark, List.dropWhile_cons, if_neg hc]

/-- A line at the margin is not hidden. -/
theorem not_isHidden_of_head? {line : Text} (h : line.head? ≠ some ' ') : ¬ IsHidden line := by
  intro hhidden
  rw [IsHidden, firstMark_eq_head? h] at hhidden
  exact hhidden.2 hhidden.1

theorem isHidden_space (line : Text) : IsHidden (' ' :: line) ↔ firstMark line = some '#' := by
  rw [IsHidden, firstMark_space, List.head?_cons]
  exact and_iff_left (by decide)

theorem firstMark_concat_space (line : Text) : firstMark (line ++ [' ']) = firstMark line := by
  induction line with
  | nil => rfl
  | cons c line ih =>
    by_cases hc : c = ' '
    · rw [hc, List.cons_append, firstMark_space, firstMark_space, ih]
    · have hstart (t : Text) : firstMark (c :: t) = some c :=
        firstMark_eq_head? fun e => hc (Option.some.inj e)
      rw [List.cons_append, hstart, hstart]

theorem firstMark_spaced (first : Bool) (line : Text) :
    firstMark (spaced first line) = firstMark line := by
  rw [spaced]
  split
  · rfl
  · exact firstMark_concat_space line

theorem head?_spaced_append (first : Bool) {line : Text} (h : line ≠ []) (behind : Text) :
    (spaced first line ++ behind).head? = line.head? := by
  obtain ⟨c, line, rfl⟩ := List.exists_cons_of_ne_nil h
  rw [spaced]
  split <;> rfl

/-- A space at the end of a line hides nothing. -/
theorem isHidden_spaced_iff (first : Bool) (line : Text) :
    IsHidden (spaced first line) ↔ IsHidden line := by
  rw [IsHidden, IsHidden, firstMark_spaced]
  by_cases hline : line = []
  · have hnone : firstMark line ≠ some '#' := by rw [hline]; decide
    exact iff_of_false (fun h => hnone h.1) fun h => hnone h.1
  · have hhead := head?_spaced_append first hline []
    rw [List.append_nil] at hhead
    rw [hhead]

/-- No directive is read from a hidden line. -/
theorem ofLine?_eq_none_of_isHidden {line : Text} (h : IsHidden line) :
    Directive.ofLine? line = none := by
  cases hread : Directive.ofLine? line with
  | none => rfl
  | some directive =>
    obtain ⟨k, rest, rfl, _⟩ := Directive.exists_keyword_of_ofLine? hread
    have hhead : (k.text ++ rest).head? = some '#' := by
      cases k with
      | opening form => cases form <;> rfl
      | elif => rfl
      | otherwise => rfl
      | endif => rfl
      | define => rfl
    exact absurd hhead h.2

/-! ## 2. Trimmed lines -/

theorem head?_tightenFrom {afterBreak : Bool} {t : Text}
    (h : afterBreak = true ∨ t.head? ≠ some ' ') :
    (tightenFrom afterBreak t).head? ≠ some ' ' := by
  fun_induction tightenFrom afterBreak t with
  | case1 => simp
  | case2 afterBreak c t hdropped ih =>
    refine ih (Or.inl ?_)
    exact h.resolve_right fun hhead => hhead (congrArg some hdropped.1)
  | case3 afterBreak c t hkept ih =>
    intro hhead
    have hc : c = ' ' := Option.some.inj hhead
    rcases h with hbreak | hhead
    · exact hkept ⟨hc, Or.inl hbreak⟩
    · exact hhead (congrArg some hc)

/-- Behind a line break no space is left. -/
theorem head?_ne_space_of_mem_tail (afterBreak : Bool) (t : Text) :
    ∀ line ∈ ((tightenFrom afterBreak t).splitOn '\n').tail, line.head? ≠ some ' ' := by
  fun_induction tightenFrom afterBreak t with
  | case1 => exact fun line hline => absurd hline List.not_mem_nil
  | case2 afterBreak c t hdropped ih => exact ih
  | case3 afterBreak c t hkept ih =>
    obtain ⟨first, more, hpieces⟩ :=
      List.exists_cons_of_ne_nil (List.splitOn_ne_nil '\n' (tightenFrom (c == '\n') t))
    rw [hpieces] at ih
    intro line hline
    rw [List.splitOn_cons_eq_if_modifyHead, hpieces] at hline
    split at hline
    · rename_i hbreak
      rcases List.mem_cons.1 hline with rfl | hline
      · have hhead : (tightenFrom (c == '\n') t).head? ≠ some ' ' :=
          head?_tightenFrom (Or.inl hbreak)
        exact fun hspace => hhead (Text.head?_of_splitOn_cons hpieces hspace)
      · exact ih line hline
    · exact ih line hline

/-- **Every line of a trimmed text is at the margin.** -/
theorem head?_ne_space_of_mem_trimmed {t line : Text} (h : line ∈ (trimmed t).splitOn '\n') :
    line.head? ≠ some ' ' := by
  obtain ⟨first, more, hpieces⟩ := List.exists_cons_of_ne_nil (List.splitOn_ne_nil '\n' (trimmed t))
  rw [hpieces] at h
  rcases List.mem_cons.1 h with rfl | h
  · have hstart : (trimStart (expandTabs t)).head? ≠ some ' ' := by
      intro hspace
      have hnot := List.head?_dropWhile_not (· == ' ') (expandTabs t)
      rw [← trimStart, hspace] at hnot
      cases hnot
    have hhead : (trimmed t).head? ≠ some ' ' := head?_tightenFrom (Or.inr hstart)
    exact fun hspace => hhead (Text.head?_of_splitOn_cons hpieces hspace)
  · have htail := head?_ne_space_of_mem_tail false (trimStart (expandTabs t))
    rw [← tighten, ← trimmed, hpieces] at htail
    exact htail line h

/-! ## 3. Backslashes in front of a directive -/

/-- Whether some lines are lines that hold a backslash alone, `least` of them or more, and behind
them one that starts with `#`. -/
def LeadsToDirective (least : Nat) (ls : List Text) : Prop :=
  ∃ n line rest, least ≤ n ∧ ls = List.replicate n ['\\'] ++ line :: rest ∧ line.head? = some '#'

theorem not_leadsToDirective_nil (least : Nat) : ¬ LeadsToDirective least [] := by
  intro h
  obtain ⟨n, line, rest, _, hnil, _⟩ := h
  exact List.append_ne_nil_of_right_ne_nil _ (List.cons_ne_nil line rest) hnil.symm

theorem leadsToDirective_cons {least : Nat} {line : Text} {rest : List Text} :
    LeadsToDirective least (line :: rest) ↔
      (least = 0 ∧ line.head? = some '#') ∨
        (line = ['\\'] ∧ LeadsToDirective (least - 1) rest) := by
  constructor
  · intro h
    obtain ⟨n, other, more, hleast, hlines, hhead⟩ := h
    cases n with
    | zero =>
      cases hlines
      exact Or.inl ⟨Nat.le_zero.1 hleast, hhead⟩
    | succ n =>
      rw [List.replicate_succ, List.cons_append] at hlines
      cases hlines
      exact Or.inr ⟨rfl, n, other, more, Nat.sub_le_of_le_add hleast, rfl, hhead⟩
  · intro h
    rcases h with ⟨rfl, hhead⟩ | ⟨rfl, n, other, more, hleast, rfl, hhead⟩
    · exact ⟨0, line, rest, Nat.le_refl 0, rfl, hhead⟩
    · exact ⟨n + 1, other, more, Nat.le_add_of_sub_le hleast, rfl, hhead⟩

/-- One backslash alone is one line less to go. -/
theorem leadsToDirective_backslash (least : Nat) (rest : List Text) :
    LeadsToDirective least (['\\'] :: rest) ↔ LeadsToDirective (least - 1) rest := by
  rw [leadsToDirective_cons]
  simp

/-- How many lone backslashes it takes to put a space at the margin. The first one at the start of
the text (`first`) puts none. -/
def fewest (first : Bool) : Nat := if first then 2 else 1

theorem fewest_ne_zero (first : Bool) : fewest first ≠ 0 := by
  cases first <;> exact Nat.succ_ne_zero _

/-- Whether the line with this number, counted from zero, comes out of joining as a hidden one. It
is taken into no other line, and leads to a directive over enough backslashes. `first` says that the
text starts here. -/
def HidesAt (first : Bool) (ls : List Text) (i : Nat) : Prop :=
  (∀ line ∈ (ls.take i).getLast?, isContinued line = false) ∧
    LeadsToDirective (if i = 0 then fewest first else 1) (ls.drop i)

theorem hidesAt_zero {first : Bool} {ls : List Text} :
    HidesAt first ls 0 ↔ LeadsToDirective (fewest first) ls :=
  and_iff_right fun line hline => absurd hline (Option.not_mem_none line)

theorem not_hidesAt_nil (first : Bool) (i : Nat) : ¬ HidesAt first [] i := by
  intro h
  rw [HidesAt, List.drop_nil] at h
  exact not_leadsToDirective_nil _ h.2

/-- The line that a line is taken into is the one right before it. -/
theorem hidesAt_succ {first : Bool} {line : Text} {rest : List Text} {i : Nat} :
    HidesAt first (line :: rest) (i + 1) ↔
      (i = 0 → isContinued line = false) ∧ HidesAt false rest i := by
  cases i with
  | zero => simp [HidesAt, fewest]
  | succ i =>
    cases rest with
    | nil =>
      refine iff_of_false (fun h => ?_) fun h => not_hidesAt_nil false _ h.2
      rw [HidesAt, List.drop_succ_cons, List.drop_nil] at h
      exact not_leadsToDirective_nil _ h.2
    | cons next rest => simp [HidesAt]

/-! ## 4. The first joined line -/

/-- What the first of the joined lines tells about the lines that it is joined from. -/
structure Shows (first : Bool) (joined : Text) (ls : List Text) : Prop where
  mark : firstMark joined = some '#' ↔ LeadsToDirective 0 ls
  hidden : IsHidden joined ↔ LeadsToDirective (fewest first) ls

/-- A line with more than a backslash keeps its start. -/
theorem Shows.of_head? {first : Bool} {joined line : Text} (rest : List Text)
    (hhead : joined.head? = line.head?) (hmargin : line.head? ≠ some ' ') (hline : line ≠ ['\\']) :
    Shows first joined (line :: rest) := by
  have hjoined : joined.head? ≠ some ' ' := hhead ▸ hmargin
  refine ⟨?_, iff_of_false (not_isHidden_of_head? hjoined) fun h => ?_⟩
  · rw [firstMark_eq_head? hjoined, hhead, leadsToDirective_cons]
    simp [hline]
  · rcases leadsToDirective_cons.1 h with hzero | hlone
    · exact fewest_ne_zero first hzero.1
    · exact hline hlone.1

/-- A backslash alone on the last line leads nowhere. -/
theorem Shows.of_last {first : Bool} {joined : Text} (h : firstMark joined ≠ some '#') :
    Shows first joined [['\\']] := by
  have hnone (least : Nat) : ¬ LeadsToDirective least [['\\']] := by
    rw [leadsToDirective_backslash]
    exact not_leadsToDirective_nil _
  exact ⟨iff_of_false h (hnone 0), iff_of_false (fun hhidden => h hhidden.1) (hnone _)⟩

/-- **A continued line put in front of a joined one.** A lone backslash becomes the space at the
margin, or nothing at the start of the text. -/
theorem Shows.step (first : Bool) {head joined : Text} {rest : List Text}
    (hmargin : (head ++ ['\\']).head? ≠ some ' ') (h : Shows false joined rest) :
    Shows first (spaced first head ++ joined) ((head ++ ['\\']) :: rest) := by
  cases head with
  | nil =>
    have hmark := h.mark.trans (leadsToDirective_backslash 0 rest).symm
    cases first with
    | true => exact ⟨hmark, h.hidden.trans (leadsToDirective_backslash 2 rest).symm⟩
    | false =>
      have hbehind := h.mark.trans (leadsToDirective_backslash 1 rest).symm
      exact ⟨hmark, (isHidden_space joined).trans hbehind⟩
  | cons c head =>
    refine Shows.of_head? rest ?_ hmargin fun hlone => ?_
    · rw [head?_spaced_append first (List.cons_ne_nil c head)]
      rfl
    · exact List.cons_ne_nil c head (List.append_left_eq_self.1 hlone)

/-- The last line, without its backslash if it ends in one. -/
theorem Shows.last {last : Text} (hmargin : last.head? ≠ some ' ') :
    Shows false (if isContinued last = true then last.dropLast else last) [last] := by
  split
  · rename_i hlast
    obtain ⟨head, rfl⟩ := isContinued_iff.1 hlast
    rw [List.dropLast_concat]
    cases head with
    | nil => exact Shows.of_last (by decide)
    | cons c head =>
      refine Shows.of_head? [] rfl hmargin fun hlone => ?_
      exact List.cons_ne_nil c head (List.append_left_eq_self.1 hlone)
  · rename_i hlast
    refine Shows.of_head? [] rfl hmargin fun hlone => hlast ?_
    rw [hlone]
    rfl

/-- A space at the end of the joined line changes nothing. -/
theorem Shows.spaced {first : Bool} {joined : Text} {ls : List Text} (h : Shows first joined ls) :
    Shows first (spaced first joined) ls :=
  ⟨by rw [firstMark_spaced, h.mark], by rw [isHidden_spaced_iff, h.hidden]⟩

theorem shows_joinLast (first : Bool) {head last : Text}
    (hhead : (head ++ ['\\']).head? ≠ some ' ') (hlast : last.head? ≠ some ' ') :
    Shows first (joinLast first (head ++ ['\\']) last) [head ++ ['\\'], last] := by
  have hshows := (Shows.last hlast).step first hhead
  rw [joinLast, dropBackslash_concat]
  cases hcontinued : isContinued last with
  | true =>
    obtain ⟨start, rfl⟩ := isContinued_iff.1 hcontinued
    rw [hcontinued, if_pos rfl, List.dropLast_concat] at hshows
    rw [if_pos rfl, ← List.append_assoc, dropBackslash_concat]
    exact hshows.spaced
  | false =>
    rw [hcontinued] at hshows
    exact hshows

/-- **What the first joined line shows.** -/
theorem shows_joinLines {first : Bool} {ls : List Text}
    (hmargin : ∀ line ∈ ls, line.head? ≠ some ' ') {joined : Text} {more : List Text}
    (h : joinLines first ls = joined :: more) : Shows first joined ls := by
  fun_induction joinLines first ls generalizing joined more with
  | case1 => cases h
  | case2 first line hline =>
    cases h
    by_cases hlone : line = ['\\']
    · rw [hlone]
      exact Shows.of_last (by decide)
    · exact Shows.of_head? [] rfl (hmargin line List.mem_cons_self) hlone
  | case3 first line hline last =>
    cases h
    obtain ⟨head, rfl⟩ := isContinued_iff.1 hline
    obtain ⟨hhead, hlast⟩ := List.forall_mem_cons.1 hmargin
    exact shows_joinLast first hhead (hlast last List.mem_cons_self)
  | case4 first line hline next after later ih =>
    obtain ⟨head, rfl⟩ := isContinued_iff.1 hline
    obtain ⟨hhead, hrest⟩ := List.forall_mem_cons.1 hmargin
    obtain ⟨inner, tail, hinner⟩ :=
      List.exists_cons_of_length_eq_add_one (length_joinLines false (next :: after :: later))
    rw [hinner, joinInto, dropBackslash_concat] at h
    cases h
    exact (ih hrest hinner).step first hhead
  | case5 first line rest hline ih =>
    cases h
    refine Shows.of_head? rest rfl (hmargin line List.mem_cons_self) fun hlone => hline ?_
    rw [hlone]
    rfl

/-! ## 5. Every line by its number -/

theorem not_isHidden_nil : ¬ IsHidden [] := by decide

theorem isHidden_joinLines_zero {first : Bool} {ls : List Text}
    (hmargin : ∀ line ∈ ls, line.head? ≠ some ' ') :
    (∃ line ∈ (joinLines first ls)[0]?, IsHidden line) ↔ HidesAt first ls 0 := by
  rw [hidesAt_zero]
  cases hjoined : joinLines first ls with
  | nil =>
    have hlength := length_joinLines first ls
    rw [hjoined] at hlength
    rw [List.eq_nil_of_length_eq_zero hlength.symm]
    exact iff_of_false (by simp) (not_leadsToDirective_nil _)
  | cons joined more => simp [(shows_joinLines hmargin hjoined).hidden]

/-- **Joining hides a directive where backslashes lead to it**, and nowhere else. -/
theorem isHidden_joinLines_iff {first : Bool} {ls : List Text}
    (hmargin : ∀ line ∈ ls, line.head? ≠ some ' ') (i : Nat) :
    (∃ line ∈ (joinLines first ls)[i]?, IsHidden line) ↔ HidesAt first ls i := by
  cases i with
  | zero => exact isHidden_joinLines_zero hmargin
  | succ i =>
    fun_induction joinLines first ls generalizing i with
    | case1 => exact iff_of_false (by simp) (not_hidesAt_nil _ _)
    | case2 first line hline =>
      rw [hidesAt_succ]
      exact iff_of_false (by simp) fun h => not_hidesAt_nil _ _ h.2
    | case3 first line hline last =>
      rw [hidesAt_succ]
      cases i with
      | zero => simp [hline, not_isHidden_nil]
      | succ i =>
        rw [hidesAt_succ]
        exact iff_of_false (by simp) fun h => not_hidesAt_nil _ _ h.2.2
    | case4 first line hline next after later ih =>
      obtain ⟨inner, tail, hinner⟩ :=
        List.exists_cons_of_length_eq_add_one (length_joinLines false (next :: after :: later))
      rw [hidesAt_succ, hinner, joinInto]
      cases i with
      | zero => simp [hline, not_isHidden_nil]
      | succ i =>
        have hrest := ih (List.forall_mem_cons.1 hmargin).2 i
        rw [hinner] at hrest
        rw [← hrest]
        simp
    | case5 first line rest hline ih =>
      have hrest := (List.forall_mem_cons.1 hmargin).2
      have hlater : (∃ line ∈ (joinLines false rest)[i]?, IsHidden line) ↔
          HidesAt false rest i := by
        cases i with
        | zero => exact isHidden_joinLines_zero hrest
        | succ i => exact ih hrest i
      rw [hidesAt_succ, List.getElem?_cons_succ, hlater]
      exact (and_iff_right fun _ => Bool.not_eq_true _ ▸ hline).symm

/-! ## 6. The layout as a whole -/

/-- A test starts at the margin, in its short form as well. -/
theorem isHidden_shortenLine_iff {line : Text} : IsHidden (shortenLine line) ↔ IsHidden line := by
  unfold shortenLine
  split
  · rename_i name hname
    have hopening : line.head? = some '#' := by
      unfold definedName? at hname
      split at hname
      · cases hname
      · rename_i operand hoperand
        rw [Text.isPrefixOf?_eq_some_iff.1 hoperand]
        rfl
    exact iff_of_false (fun h => h.2 rfl) fun h => h.2 hopening
  · exact Iff.rfl

theorem isHidden_normalize_iff (t : Text) (i : Nat) :
    (∃ line ∈ ((normalize t).splitOn '\n')[i]?, IsHidden line) ↔
      HidesAt true ((trimmed t).splitOn '\n') i := by
  rw [splitOn_normalize, List.getElem?_map,
    ← isHidden_joinLines_iff (fun line => head?_ne_space_of_mem_trimmed) i]
  constructor
  · intro h
    obtain ⟨line, hline, hhidden⟩ := h
    obtain ⟨joined, hjoined, rfl⟩ := Option.map_eq_some_iff.1 hline
    exact ⟨joined, hjoined, isHidden_shortenLine_iff.1 hhidden⟩
  · intro h
    obtain ⟨joined, hjoined, hhidden⟩ := h
    exact ⟨shortenLine joined, Option.map_eq_some_iff.2 ⟨joined, hjoined, rfl⟩,
      isHidden_shortenLine_iff.2 hhidden⟩

/-- **Directives reach the margin, unless backslashes alone on their lines lead to them.** A line of
the layout is hidden exactly where one or more such backslashes, two or more at the start of the
text, stand in front of a directive and are not themselves taken into a line before them. Nothing
reads a directive from such a line. -/
theorem isHidden_normalize_read_iff (source : Text) :
    (∀ i, (∃ line ∈ ((normalize (Source.read source)).splitOn '\n')[i]?, IsHidden line) ↔
      HidesAt true ((trimmed (Source.read source)).splitOn '\n') i) ∧
    ((∀ line ∈ (normalize (Source.read source)).splitOn '\n',
        firstMark line = some '#' → line.head? = some '#') ↔
      ∀ i, ¬ HidesAt true ((trimmed (Source.read source)).splitOn '\n') i) ∧
    ∀ line ∈ (normalize (Source.read source)).splitOn '\n',
      IsHidden line → Directive.ofLine? line = none := by
  have hlines := isHidden_normalize_iff (Source.read source)
  refine ⟨hlines, ?_, fun line _ => ofLine?_eq_none_of_isHidden⟩
  constructor
  · intro hall i hhides
    obtain ⟨line, hline, hhidden⟩ := (hlines i).2 hhides
    exact hhidden.2 (hall line (List.mem_of_getElem? hline) hhidden.1)
  · intro hnone line hline hmark
    obtain ⟨i, hi⟩ := List.mem_iff_getElem?.1 hline
    exact Decidable.byContradiction fun hhead =>
      hnone i ((hlines i).1 ⟨line, hi, hmark, hhead⟩)

/-- A definition behind a backslash alone on its line is hidden. -/
theorem exists_isHidden_normalize_read :
    ∃ line ∈ (normalize (Source.read "a\n\\\n#define X 1\n".toList)).splitOn '\n',
      firstMark line = some '#' ∧ line.head? ≠ some '#' ∧ Directive.ofLine? line = none :=
  ⟨" #define X 1".toList, by decide +kernel⟩

/-- At the start of the text it takes a second one. -/
example : normalize "\\\n#define X 1\n".toList = "#define X 1\n\n".toList := by decide +kernel

end Variants.Layout
