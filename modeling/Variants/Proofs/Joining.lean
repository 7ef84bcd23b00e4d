import Variants.Proofs.LayoutLines
import Variants.Proofs.Rounds

/-!
# Joining lines, group by group and round by round

A line that ends in a backslash goes on in the next one, so the lines of a text fall into groups:
lines that go on, and the line that ends them (`Group`). There is one way to cut a text into such
groups (`isGrouping_iff`), and joining turns each group into one line and as many empty ones as make
up for the rest (`joinLines_eq_joinGroups`).

The same text comes from a loop that knows neither lines nor groups (`joinRound`). It looks for the
last backslash with a line break behind it, takes both out, and puts a line break in at the end of
the line that this makes. At the end of the text this line break can itself come behind a backslash,
so a round may leave as many continued lines as it found. What each round lowers is the number of
continuations that joining counts, and no round changes the joined text
(`joinContinuations_of_joinRound`, `continuations_of_joinRound`). So the loop ends, after that many
rounds and with that text (`afterSteps_joinRound`).

Main statement: `joinContinuations_eq_joinGroups`.
-/

namespace Variants.Layout

/-! ## 1. Groups -/

/-- Lines that go on, each without the backslash at its end, and the line that ends them. -/
structure Group where
  heads : List Text
  last : Text
  deriving DecidableEq, Repr

/-- The lines of a group as they are written. -/
def Group.lines (g : Group) : List Text := g.heads.map (· ++ ['\\']) ++ [g.last]

/-- Whether some lines are cut into groups, none of which could be longer. The line that ends the
last group may end in a backslash, for it has no line to go on in. -/
def IsGrouping (ls : List Text) (gs : List Group) : Prop :=
  gs.flatMap Group.lines = ls ∧ ∀ g ∈ gs.dropLast, isContinued g.last = false

/-- The groups of some lines. -/
def groups : List Text → List Group
  | [] => []
  | line :: rest =>
    if isContinued line then
      match groups rest with
      | [] => [⟨[], line⟩]
      | g :: gs => ⟨line.dropLast :: g.heads, g.last⟩ :: gs
    else ⟨[], line⟩ :: groups rest

theorem isContinued_iff {line : Text} :
    isContinued line = true ↔ ∃ head, line = head ++ ['\\'] := by
  rw [isContinued, beq_iff_eq, List.getLast?_eq_some_iff]

theorem isContinued_concat (head : Text) : isContinued (head ++ ['\\']) = true :=
  isContinued_iff.2 ⟨head, rfl⟩

theorem isGrouping_cons {ls : List Text} {g : Group} {gs : List Group} :
    IsGrouping ls (g :: gs) ↔ ∃ rest, ls = g.lines ++ rest ∧ IsGrouping rest gs ∧
      (gs = [] ∨ isContinued g.last = false) := by
  have hdrop : (∀ other ∈ (g :: gs).dropLast, isContinued other.last = false) ↔
      (∀ other ∈ gs.dropLast, isContinued other.last = false) ∧
        (gs = [] ∨ isContinued g.last = false) := by
    cases gs with
    | nil => simp
    | cons next gs => simp [and_comm]
  rw [IsGrouping, hdrop, List.flatMap_cons]
  constructor
  · intro h
    obtain ⟨rfl, hrest, hlast⟩ := h
    exact ⟨_, rfl, ⟨rfl, hrest⟩, hlast⟩
  · intro h
    obtain ⟨rest, rfl, ⟨rfl, hrest⟩, hlast⟩ := h
    exact ⟨rfl, hrest, hlast⟩

theorem isGrouping_groups (ls : List Text) : IsGrouping ls (groups ls) := by
  fun_induction groups ls with
  | case1 => exact ⟨rfl, fun g hg => absurd hg List.not_mem_nil⟩
  | case2 line rest hline hnone ih =>
    rw [hnone] at ih
    obtain rfl := ih.1
    exact ⟨rfl, fun g hg => absurd hg List.not_mem_nil⟩
  | case3 line rest hline g gs hsome ih =>
    obtain ⟨head, rfl⟩ := isContinued_iff.1 hline
    obtain ⟨more, rfl, hmore, hlast⟩ := isGrouping_cons.1 (hsome ▸ ih)
    refine isGrouping_cons.2 ⟨more, ?_, hmore, hlast⟩
    rw [List.dropLast_concat]
    rfl
  | case4 line rest hline ih =>
    exact isGrouping_cons.2 ⟨rest, rfl, ih, Or.inr (Bool.not_eq_true _ ▸ hline)⟩

/-- The lines of a group are one group, where nothing follows that it could go on in. -/
theorem groups_lines_append (g : Group) {rest : List Text}
    (h : rest = [] ∨ isContinued g.last = false) : groups (g.lines ++ rest) = g :: groups rest := by
  obtain ⟨heads, last⟩ := g
  induction heads with
  | nil =>
    rw [Group.lines, List.map_nil, List.nil_append, List.singleton_append, groups]
    rcases h with rfl | hlast
    · cases isContinued last <;> rfl
    · rw [hlast]
      rfl
  | cons head heads ih =>
    rw [Group.lines] at ih ⊢
    rw [List.map_cons, List.cons_append, List.cons_append, groups, if_pos (isContinued_concat head),
      ih h, List.dropLast_concat]

/-- **There is one way to cut lines into groups.** -/
theorem isGrouping_iff {ls : List Text} {gs : List Group} : IsGrouping ls gs ↔ gs = groups ls := by
  refine ⟨fun h => ?_, fun h => h ▸ isGrouping_groups ls⟩
  induction gs generalizing ls with
  | nil => rw [← h.1]; rfl
  | cons g gs ih =>
    obtain ⟨rest, rfl, hrest, hlast⟩ := isGrouping_cons.1 h
    have hnone : rest = [] ∨ isContinued g.last = false :=
      hlast.imp_left fun hnil => by rw [← hrest.1, hnil]; rfl
    rw [groups_lines_append g hnone, ← ih hrest]

/-! ## 2. Joining group by group -/

/-- Puts a space behind a text, unless one stands there or the text is the empty start of all. -/
def spaced (first : Bool) (t : Text) : Text :=
  if t.getLast? = some ' ' ∨ (first = true ∧ t = []) then t else t ++ [' ']

/-- The lines of a group that go on, put together. `first` says that the text starts here. -/
def joinHeads (first : Bool) : List Text → Text
  | [] => []
  | head :: heads => spaced first head ++ joinHeads false heads

/-- The line that a group is joined to. At the end of the text (`final`) the backslash of the last
line goes as well, if a line was joined with it. -/
def Group.joined (first final : Bool) (g : Group) : Text :=
  let line := joinHeads first g.heads ++ g.last
  if final = true ∧ g.heads ≠ [] ∧ isContinued g.last = true then spaced first line.dropLast
  else line

/-- Each group as one line, and behind it an empty line for every line that was taken into it. -/
def joinGroups (first : Bool) : List Group → List Text
  | [] => []
  | g :: gs =>
    g.joined first gs.isEmpty :: (List.replicate g.heads.length [] ++ joinGroups false gs)

theorem dropBackslash_eq (first : Bool) (line : Text) :
    dropBackslash first line = spaced first line.dropLast := rfl

theorem dropBackslash_concat (first : Bool) (head : Text) :
    dropBackslash first (head ++ ['\\']) = spaced first head := by
  rw [dropBackslash_eq, List.dropLast_concat]

theorem isContinued_spaced (first : Bool) (t : Text) : isContinued (spaced first t) = false := by
  rw [← dropBackslash_concat]
  exact isContinued_dropBackslash first _

theorem newline_not_mem_spaced (first : Bool) {t : Text} (h : '\n' ∉ t) :
    '\n' ∉ spaced first t := by
  rw [← dropBackslash_concat]
  exact newline_not_mem_dropBackslash (Text.newline_not_mem_append h (by decide))

theorem spaced_false_ne_nil (t : Text) : spaced false t ≠ [] := by
  intro h
  rw [spaced] at h
  split at h
  · rename_i hspace
    rw [h] at hspace
    simp at hspace
  · exact List.append_ne_nil_of_right_ne_nil t (List.cons_ne_nil _ _) h

/-- Only what stands last decides whether a space is put. -/
theorem spaced_append (first : Bool) (s : Text) {t : Text} (ht : t ≠ []) :
    spaced first (s ++ t) = s ++ spaced false t := by
  have hlast : (s ++ t).getLast? = t.getLast? := by
    rw [List.getLast?_append, List.getLast?_eq_some_getLast ht, Option.some_or]
  rw [spaced, spaced, hlast]
  simp only [List.append_eq_nil_iff, ht, and_false, or_false]
  split
  · rfl
  · rw [List.append_assoc]

/-- A head in front of a group. Where the group is the last one, it has to have a head of its own:
otherwise its backslash only goes because of the new head. -/
theorem Group.joined_cons (first : Bool) {final : Bool} (head : Text) {g : Group}
    (h : g.heads ≠ [] ∨ final = false) :
    Group.joined first final ⟨head :: g.heads, g.last⟩ =
      spaced first head ++ g.joined false final := by
  rw [Group.joined, Group.joined]
  simp only [joinHeads, List.append_assoc]
  rcases h with hheads | rfl
  · by_cases hlast : final = true ∧ isContinued g.last = true
    · have hcontinued : g.last ≠ [] := by
        intro hnil
        rw [hnil] at hlast
        cases hlast.2
      obtain ⟨next, heads, hnext⟩ := List.exists_cons_of_ne_nil hheads
      have hline : joinHeads false g.heads ++ g.last.dropLast ≠ [] := by
        rw [hnext, joinHeads]
        simp [spaced_false_ne_nil]
      rw [if_pos ⟨hlast.1, List.cons_ne_nil _ _, hlast.2⟩, if_pos ⟨hlast.1, hheads, hlast.2⟩,
        ← List.append_assoc, List.dropLast_append_of_ne_nil hcontinued,
        List.dropLast_append_of_ne_nil hcontinued, List.append_assoc, spaced_append first _ hline]
    · rw [if_neg fun hall => hlast ⟨hall.1, hall.2.2⟩, if_neg fun hall => hlast ⟨hall.1, hall.2.2⟩]
  · rw [if_neg (by simp), if_neg (by simp)]

/-- **Joining turns each group into one line** and keeps the number of lines. -/
theorem joinLines_eq_joinGroups (first : Bool) (ls : List Text) :
    joinLines first ls = joinGroups first (groups ls) := by
  fun_induction joinLines first ls with
  | case1 => rfl
  | case2 first line hline =>
    rw [groups, if_pos hline]
    rfl
  | case3 first line hline last =>
    obtain ⟨head, rfl⟩ := isContinued_iff.1 hline
    have hgroups : groups [head ++ ['\\'], last] = [⟨[head], last⟩] :=
      groups_lines_append ⟨[head], last⟩ (Or.inl rfl)
    rw [hgroups, joinLast, dropBackslash_concat, dropBackslash_eq]
    simp [joinHeads, joinGroups, Group.joined]
  | case4 first line hline next after later ih =>
    obtain ⟨head, rfl⟩ := isContinued_iff.1 hline
    have hgrouping := isGrouping_groups (next :: after :: later)
    rw [groups, if_pos hline, List.dropLast_concat, ih, dropBackslash_concat]
    cases hgroups : groups (next :: after :: later) with
    | nil =>
      rw [hgroups] at hgrouping
      cases hgrouping.1
    | cons g gs =>
      -- two lines or more are no single group of one line
      have hlong : g.heads ≠ [] ∨ gs.isEmpty = false := by
        rw [hgroups] at hgrouping
        cases gs with
        | nil =>
          refine Or.inl fun hheads => ?_
          have hlines := hgrouping.1
          rw [List.flatMap_singleton, Group.lines, hheads] at hlines
          cases hlines
        | cons => exact Or.inr rfl
      simp only [joinGroups, joinInto]
      rw [Group.joined_cons first head hlong]
      rfl
  | case5 first line rest hline ih =>
    rw [groups, if_neg hline, joinGroups, ih, Group.joined]
    simp [joinHeads]

/-! ## 3. The loop -/

/-- The text before the last backslash that has a line break behind it, and the text behind both. -/
def cutLastContinuation : Text → Option (Text × Text)
  | [] => none
  | c :: t =>
    match cutLastContinuation t with
    | some cut => some (c :: cut.1, cut.2)
    | none => if c = '\\' ∧ t.head? = some '\n' then some ([], t.tail) else none

/-- One round of the loop: the last backslash with a line break behind it and this line break are
taken out, a space is put where none stands, and a line break is put in at the end of the line. -/
def joinRound (t : Text) : Option Text :=
  (cutLastContinuation t).map fun cut =>
    spaced true cut.1 ++ cut.2.takeWhile (· != '\n') ++ '\n' :: cut.2.dropWhile (· != '\n')

theorem exists_of_cutLastContinuation {t : Text} {cut : Text × Text}
    (h : cutLastContinuation t = some cut) :
    t = cut.1 ++ '\\' :: '\n' :: cut.2 ∧ cutLastContinuation cut.2 = none := by
  fun_induction cutLastContinuation t generalizing cut with
  | case1 => cases h
  | case2 c t inner hinner ih =>
    cases h
    obtain ⟨rfl, hnone⟩ := ih hinner
    exact ⟨rfl, hnone⟩
  | case3 c t hnone hc ih =>
    cases h
    obtain ⟨rest, rfl⟩ := List.head?_eq_some_iff.1 hc.2
    refine ⟨by rw [hc.1]; rfl, ?_⟩
    rw [cutLastContinuation] at hnone
    cases hrest : cutLastContinuation rest with
    | none => exact hrest
    | some inner =>
      rw [hrest] at hnone
      cases hnone
  | case4 => cases h

theorem cutLastContinuation_append_ne_none (start rest : Text) :
    cutLastContinuation (start ++ '\\' :: '\n' :: rest) ≠ none := by
  induction start with
  | nil =>
    rw [List.nil_append, cutLastContinuation]
    split
    · exact Option.some_ne_none _
    · rw [if_pos ⟨rfl, rfl⟩]
      exact Option.some_ne_none _
  | cons c start ih =>
    rw [List.cons_append, cutLastContinuation]
    split
    · exact Option.some_ne_none _
    · rename_i hnone
      exact absurd hnone ih

/-- The loop ends where no backslash has a line break behind it. -/
theorem cutLastContinuation_eq_none_iff {t : Text} :
    cutLastContinuation t = none ↔ ¬ ['\\', '\n'] <:+: t := by
  constructor
  · intro hnone hinfix
    obtain ⟨start, rest, rfl⟩ := hinfix
    rw [List.append_assoc] at hnone
    exact cutLastContinuation_append_ne_none start rest hnone
  · intro hinfix
    cases hcut : cutLastContinuation t with
    | none => rfl
    | some cut =>
      rw [(exists_of_cutLastContinuation hcut).1] at hinfix
      exact absurd (List.infix_append cut.1 ['\\', '\n'] cut.2) (by simpa using hinfix)

theorem joinRound_eq_none_iff {t : Text} : joinRound t = none ↔ ¬ ['\\', '\n'] <:+: t := by
  rw [joinRound, Option.map_eq_none_iff, cutLastContinuation_eq_none_iff]

/-! ## 4. A round on the lines -/

theorem splitOn_continuation {start head : Text} (hstart : Text.IsWhole start)
    (hhead : '\n' ∉ head) (rest : Text) :
    (start ++ head ++ '\\' :: '\n' :: rest).splitOn '\n' =
      Text.lines start ++ (head ++ ['\\']) :: rest.splitOn '\n' := by
  have hline : '\n' ∉ head ++ ['\\'] := Text.newline_not_mem_append hhead (by decide)
  rw [← List.splitOn_append_cons_self_of_not_mem hline, ← hstart.splitOn_append, List.append_assoc,
    List.append_assoc, List.singleton_append]

/-- No line before the last one goes on exactly where no backslash has a line break behind it. -/
theorem not_continuation_infix_iff {t : Text} :
    ¬ ['\\', '\n'] <:+: t ↔ ∀ line ∈ (t.splitOn '\n').dropLast, isContinued line = false := by
  constructor
  · intro hinfix line hline
    refine Bool.not_eq_true _ ▸ fun hcontinued => hinfix ?_
    obtain ⟨head, rfl⟩ := isContinued_iff.1 hcontinued
    have hpiece := Text.piece_append_infix hline
    rw [List.append_assoc] at hpiece
    exact (List.suffix_append head _).isInfix.trans hpiece
  · intro hlines hinfix
    obtain ⟨start, rest, rfl⟩ := hinfix
    obtain ⟨front, head, rfl, hfront, hhead⟩ := Text.exists_last_line start
    rw [List.append_assoc, List.cons_append, List.singleton_append,
      splitOn_continuation hfront hhead, List.dropLast_append_of_ne_nil (List.cons_ne_nil _ _),
      List.dropLast_cons_of_ne_nil (List.splitOn_ne_nil _ _)] at hlines
    have hnot := hlines _ (List.mem_append_right _ List.mem_cons_self)
    rw [isContinued_concat] at hnot
    cases hnot

/-- A space behind the last line of a text: only the very first line can be the empty start. -/
theorem spaced_append_line {start : Text} (hstart : Text.IsWhole start) (line : Text) :
    spaced true (start ++ line) = start ++ spaced (Text.lines start).isEmpty line := by
  rcases hstart with rfl | hbreak
  · rfl
  · have hlines : (Text.lines start).isEmpty = false := by
      obtain ⟨front, rfl⟩ := List.getLast?_eq_some_iff.1 hbreak
      rw [Text.lines_concat, List.isEmpty_eq_false_iff]
      exact List.splitOn_ne_nil _ _
    rw [hlines]
    by_cases hline : line = []
    · have hnone : ¬ (some '\n' = some ' ' ∨ (true = true ∧ start = [])) := by
        intro h
        rcases h with hspace | ⟨_, hnil⟩
        · exact absurd hspace (by decide)
        · rw [hnil] at hbreak
          cases hbreak
      rw [hline, List.append_nil, spaced, hbreak, if_neg hnone]
      rfl
    · exact spaced_append true start hline

/-- **A round on the lines of a text**: the last line that goes on is joined with the next one, and
an empty line is opened behind the two. -/
theorem exists_lines_of_joinRound {t u : Text} (h : joinRound t = some u) :
    ∃ done head next later,
      t.splitOn '\n' = done ++ (head ++ ['\\']) :: next :: later ∧
      u.splitOn '\n' = done ++ (spaced done.isEmpty head ++ next) :: [] :: later ∧
      (later = [] ∨ isContinued next = false) := by
  obtain ⟨cut, hcut, rfl⟩ := Option.map_eq_some_iff.1 h
  obtain ⟨rfl, hnone⟩ := exists_of_cutLastContinuation hcut
  obtain ⟨start, head, hstart, hwhole, hhead⟩ := Text.exists_last_line cut.1
  obtain ⟨later, hbehind, hrest⟩ := Text.splitOn_dropWhile cut.2
  refine ⟨Text.lines start, head, cut.2.takeWhile (· != '\n'), later, ?_, ?_, ?_⟩
  · rw [hstart, splitOn_continuation hwhole hhead, hbehind]
  · have hjoined := Text.newline_not_mem_append
      (newline_not_mem_spaced (Text.lines start).isEmpty hhead)
      (Text.newline_not_mem_takeWhile cut.2)
    have hpieces := List.splitOn_append_cons_self_of_not_mem hjoined (cut.2.dropWhile (· != '\n'))
    rw [hrest, List.append_assoc] at hpieces
    rw [hstart, spaced_append_line hwhole, List.append_assoc, List.append_assoc,
      hwhole.splitOn_append, hpieces]
  · have hfree := not_continuation_infix_iff.1 (cutLastContinuation_eq_none_iff.1 hnone)
    rw [hbehind] at hfree
    cases later with
    | nil => exact Or.inl rfl
    | cons other later => exact Or.inr (hfree _ List.mem_cons_self)

/-! ## 5. A round on the joined lines -/

theorem isContinued_nil : isContinued [] = false := rfl

/-- A line that does not go on stays as it is. -/
theorem joinLines_of_not {first : Bool} {line : Text} (h : isContinued line = false)
    (rest : List Text) : joinLines first (line :: rest) = line :: joinLines false rest := by
  rw [joinLines.eq_def]
  simp only [h, Bool.false_eq_true, if_false]

theorem joinCount_of_not {line : Text} (h : isContinued line = false) (rest : List Text) :
    joinCount (line :: rest) = joinCount rest := by
  rw [joinCount.eq_def]
  simp only [h, Bool.false_eq_true, if_false]

/-- The first of two lines or more stays as it is, or it comes in front of what the others make. -/
theorem joinLines_cons (first : Bool) (line : Text) {rest : List Text} (h : 2 ≤ rest.length) :
    joinLines first (line :: rest) =
      if isContinued line then joinInto (dropBackslash first line) (joinLines false rest)
      else line :: joinLines false rest := by
  obtain - | ⟨next, - | ⟨after, later⟩⟩ := rest
  · cases h
  · cases h
    contradiction
  · rw [joinLines]

theorem joinCount_cons (line : Text) {rest : List Text} (h : 2 ≤ rest.length) :
    joinCount (line :: rest) =
      if isContinued line then joinCount rest + 1 else joinCount rest := by
  obtain - | ⟨next, - | ⟨after, later⟩⟩ := rest
  · cases h
  · cases h
    contradiction
  · rw [joinCount]

/-- What is put in place of a continuation goes on as the line that is put behind it. -/
theorem isContinued_spaced_append (first : Bool) (head next : Text) :
    isContinued (spaced first head ++ next) = isContinued next := by
  cases hnext : isContinued next with
  | false => exact isContinued_append (isContinued_spaced first head) hnext
  | true =>
    obtain ⟨tail, rfl⟩ := isContinued_iff.1 hnext
    rw [← List.append_assoc]
    exact isContinued_concat _

/-- Two lines may be joined before all others, if the second one does not go on. -/
theorem joinLines_round (first : Bool) (done : List Text) (head next : Text) {later : List Text}
    (h : later = [] ∨ isContinued next = false) :
    joinLines first (done ++ (head ++ ['\\']) :: next :: later) =
      joinLines first (done ++ (spaced (first && done.isEmpty) head ++ next) :: [] :: later) := by
  induction done generalizing first with
  | nil =>
    rw [List.nil_append, List.nil_append, List.isEmpty_nil, Bool.and_true]
    cases later with
    | nil =>
      -- the empty line is the last one now, so the joined line may go on in it
      rw [joinLines, if_pos (isContinued_concat head), joinLines, isContinued_spaced_append,
        joinLast, dropBackslash_concat]
      cases isContinued next with
      | false => rfl
      | true => exact congrArg (· :: [[]]) (List.append_nil _).symm
    | cons other later =>
      have hnext : isContinued next = false := h.resolve_left (List.cons_ne_nil _ _)
      have hjoined := (isContinued_spaced_append first head next).trans hnext
      rw [joinLines, if_pos (isContinued_concat head), joinLines_of_not hnext,
        joinLines_of_not hjoined, joinLines_of_not isContinued_nil, dropBackslash_concat, joinInto]
  | cons line done ih =>
    have hlong {a b : Text} : 2 ≤ (done ++ a :: b :: later).length := by simp; omega
    rw [List.cons_append, List.cons_append, joinLines_cons first line hlong,
      joinLines_cons first line hlong, ih false]
    simp

theorem joinCount_round (done : List Text) (first : Bool) (head next : Text) {later : List Text}
    (h : later = [] ∨ isContinued next = false) :
    joinCount (done ++ (head ++ ['\\']) :: next :: later) =
      joinCount (done ++ (spaced first head ++ next) :: [] :: later) + 1 := by
  induction done with
  | nil =>
    rw [List.nil_append, List.nil_append]
    cases later with
    | nil =>
      rw [joinCount, if_pos (isContinued_concat head), joinCount, isContinued_spaced_append]
      cases isContinued next <;> rfl
    | cons other later =>
      have hnext : isContinued next = false := h.resolve_left (List.cons_ne_nil _ _)
      have hjoined := (isContinued_spaced_append first head next).trans hnext
      rw [joinCount, if_pos (isContinued_concat head), joinCount_of_not hnext,
        joinCount_of_not hjoined, joinCount_of_not isContinued_nil]
  | cons line done ih =>
    have hlong {a b : Text} : 2 ≤ (done ++ a :: b :: later).length := by simp; omega
    rw [List.cons_append, List.cons_append, joinCount_cons line hlong, joinCount_cons line hlong,
      ih]
    split <;> rfl

variable {t u : Text}

/-- **No round changes the joined text.** -/
theorem joinContinuations_of_joinRound (h : joinRound t = some u) :
    joinContinuations u = joinContinuations t := by
  obtain ⟨done, head, next, later, ht, hu, hlater⟩ := exists_lines_of_joinRound h
  rw [joinContinuations, joinContinuations, ht, hu, joinLines_round true done head next hlater,
    Bool.true_and]

/-- **Every round takes one continuation away.** -/
theorem continuations_of_joinRound (h : joinRound t = some u) :
    continuations t = continuations u + 1 := by
  obtain ⟨done, head, next, later, ht, hu, hlater⟩ := exists_lines_of_joinRound h
  rw [continuations, continuations, ht, hu, joinCount_round done _ head next hlater]

/-- Where no line goes on, there is nothing to join. -/
theorem joinLines_of_not_continued (first : Bool) {ls : List Text}
    (h : ∀ line ∈ ls.dropLast, isContinued line = false) :
    joinLines first ls = ls ∧ joinCount ls = 0 := by
  induction ls generalizing first with
  | nil => exact ⟨rfl, rfl⟩
  | cons line rest ih =>
    cases rest with
    | nil =>
      rw [joinLines, joinCount]
      split <;> exact ⟨rfl, rfl⟩
    | cons next later =>
      obtain ⟨hline, hrest⟩ := List.forall_mem_cons.1 h
      obtain ⟨hlines, hcount⟩ := ih false hrest
      exact ⟨by rw [joinLines_of_not hline, hlines], by rw [joinCount_of_not hline, hcount]⟩

theorem joinContinuations_of_joinRound_eq_none (h : joinRound t = none) :
    joinContinuations t = t ∧ continuations t = 0 := by
  obtain ⟨hlines, hcount⟩ := joinLines_of_not_continued true
    (not_continuation_infix_iff.1 (joinRound_eq_none_iff.1 h))
  rw [joinContinuations, continuations, hlines, hcount]
  exact ⟨List.intercalate_splitOn _, rfl⟩

/-- **The loop ends with the joined text**, after as many rounds as there are continuations. -/
theorem afterSteps_joinRound (t : Text) :
    afterSteps joinRound (continuations t) t = some (joinContinuations t) := by
  induction hn : continuations t generalizing t with
  | zero =>
    cases hround : joinRound t with
    | none => rw [afterSteps, (joinContinuations_of_joinRound_eq_none hround).1]
    | some u =>
      rw [continuations_of_joinRound hround] at hn
      cases hn
  | succ n ih =>
    cases hround : joinRound t with
    | none =>
      rw [(joinContinuations_of_joinRound_eq_none hround).2] at hn
      cases hn
    | some u =>
      have hrest := ih u (Nat.succ.inj ((continuations_of_joinRound hround).symm.trans hn))
      rw [afterSteps, hround, Option.bind_some, hrest, joinContinuations_of_joinRound hround]

-- At the end of the text the second backslash is one that the first round makes a continuation.
example : afterSteps joinRound 2 "a\\\nb\\".toList = some "a b \n".toList := by decide

/-! ## 6. The joined text -/

theorem breaks_joinContinuations (t : Text) :
    Text.breaks (joinContinuations t) = Text.breaks t := by
  have hlength := Text.length_splitOn (joinContinuations t)
  rw [splitOn_joinContinuations, length_joinLines, Text.length_splitOn] at hlength
  exact (Nat.succ.inj hlength).symm

theorem not_infix_joinContinuations (t : Text) : ¬ ['\\', '\n'] <:+: joinContinuations t := by
  rw [not_continuation_infix_iff, splitOn_joinContinuations]
  exact isContinued_joinLines true _

/-- **Joining is what the groups of lines say, and what the loop ends with.** The lines of a text
make groups in one way only, and each group becomes one line and as many empty ones as were taken
into it. The loop comes to this text and stops there. The joined text and the layout as a whole have
no backslash in front of a line break, and as many line breaks as the text. -/
theorem joinContinuations_eq_joinGroups (t : Text) :
    ∃ gs, (∀ other, IsGrouping (t.splitOn '\n') other ↔ other = gs) ∧
      joinContinuations t = ['\n'].intercalate (joinGroups true gs) ∧
      afterSteps joinRound (continuations t) t = some (joinContinuations t) ∧
      joinRound (joinContinuations t) = none ∧
      ∀ result ∈ [joinContinuations t, normalize t],
        ¬ ['\\', '\n'] <:+: result ∧ Text.breaks result = Text.breaks t := by
  refine ⟨groups (t.splitOn '\n'), fun other => isGrouping_iff, ?_, afterSteps_joinRound t, ?_, ?_⟩
  · rw [joinContinuations, joinLines_eq_joinGroups]
  · exact joinRound_eq_none_iff.2 (not_infix_joinContinuations t)
  · intro result hresult
    simp only [List.mem_cons, List.not_mem_nil, or_false] at hresult
    rcases hresult with rfl | rfl
    · exact ⟨not_infix_joinContinuations t, breaks_joinContinuations t⟩
    · exact ⟨not_continuation_infix_iff.2 (isContinued_normalize t), breaks_normalize t⟩

end Variants.Layout
