import Variants.Text.Basic

/-!
# Lines and pieces

The pieces of a text between its line breaks are its lines, except that an empty piece at the end
is none. No piece holds a line break, and texts of whole lines are cut into those lines again
(`lines_flatMap`). What is put behind a text only changes its pieces from the last one on
(`splitOn_append_line`).
-/

namespace Variants.Text

/-- A piece between separators has none. -/
theorem separator_not_mem_piece {c : Char} : ∀ {t piece : Text}, piece ∈ t.splitOn c → c ∉ piece
  | [], piece, h => by
    rw [List.splitOn_nil, List.mem_singleton] at h
    subst h
    exact List.not_mem_nil
  | d :: t, piece, h => by
    rw [List.splitOn_cons_eq_if_modifyHead] at h
    split at h
    · rcases List.mem_cons.1 h with rfl | h
      · exact List.not_mem_nil
      · exact separator_not_mem_piece h
    · rename_i hd
      have hne : c ≠ d := fun e => hd (beq_iff_eq.2 e.symm)
      obtain ⟨first, more, hpieces⟩ := List.exists_cons_of_ne_nil (List.splitOn_ne_nil c t)
      rw [hpieces, List.modifyHead_cons] at h
      rcases List.mem_cons.1 h with rfl | h
      · have hfirst := separator_not_mem_piece (hpieces ▸ List.mem_cons_self)
        exact List.not_mem_cons_of_ne_of_not_mem hne hfirst
      · exact separator_not_mem_piece (hpieces ▸ List.mem_cons_of_mem first h)

/-- The first piece starts as the text does, if there is anything in it. -/
theorem head?_of_splitOn_cons {t first : Text} {more : List Text} {c : Char}
    (h : t.splitOn '\n' = first :: more) (hc : first.head? = some c) : t.head? = some c := by
  have hjoined : ['\n'].intercalate (t.splitOn '\n') = t := List.intercalate_splitOn '\n'
  obtain ⟨first, rfl⟩ := List.head?_eq_some_iff.1 hc
  rw [← hjoined, h]
  cases more with
  | nil => rfl
  | cons next more =>
    rw [List.intercalate_cons_cons]
    rfl

theorem newline_not_mem_append {s t : Text} (hs : '\n' ∉ s) (ht : '\n' ∉ t) : '\n' ∉ s ++ t :=
  fun h => (List.mem_append.1 h).elim hs ht

/-- A line has no line break. -/
theorem newline_not_mem_line {t line : Text} (h : line ∈ lines t) : '\n' ∉ line := by
  unfold lines at h
  simp only at h
  split at h
  · exact separator_not_mem_piece ((List.dropLast_sublist _).subset h)
  · exact separator_not_mem_piece h

/-- Lines that are ended one by one are the pieces before an empty last one. -/
theorem splitOn_flatMap : ∀ {ls : List Text}, (∀ line ∈ ls, '\n' ∉ line) →
    (ls.flatMap fun line => line ++ ['\n']).splitOn '\n' = ls ++ [[]]
  | [], _ => rfl
  | line :: rest, h => by
    have hline := h line List.mem_cons_self
    have hrest := splitOn_flatMap fun other hother => h other (List.mem_cons_of_mem _ hother)
    rw [List.flatMap_cons, List.append_assoc, List.singleton_append,
      List.splitOn_append_cons_self_of_not_mem hline, hrest, List.cons_append]

/-- **Lines that are ended one by one are the lines of their text.** -/
theorem lines_flatMap {ls : List Text} (h : ∀ line ∈ ls, '\n' ∉ line) :
    lines (ls.flatMap fun line => line ++ ['\n']) = ls := by
  rw [lines, splitOn_flatMap h]
  simp

/-- Every line that is ended counts one line break. -/
theorem breaks_flatMap : ∀ {ls : List Text}, (∀ line ∈ ls, '\n' ∉ line) →
    breaks (ls.flatMap fun line => line ++ ['\n']) = ls.length
  | [], _ => rfl
  | line :: rest, h => by
    have hline := breaks_eq_zero.2 (h line List.mem_cons_self)
    have hrest := breaks_flatMap fun other hother => h other (List.mem_cons_of_mem _ hother)
    rw [List.flatMap_cons, breaks_append, breaks_append, hline, hrest, List.length_cons,
      Nat.zero_add, Nat.add_comm]
    rfl

/-- Line breaks in front of a text are as many empty pieces. -/
theorem splitOn_blank_append (n : Nat) (t : Text) :
    (blank n ++ t).splitOn '\n' = List.replicate n [] ++ t.splitOn '\n' := by
  induction n with
  | zero => rfl
  | succ n ih =>
    rw [blank] at ih ⊢
    rw [List.replicate_succ, List.cons_append, List.splitOn_cons_eq_if_modifyHead,
      if_pos (beq_self_eq_true _), ih, List.replicate_succ, List.cons_append]

/-- There is one more piece than line breaks. -/
theorem length_splitOn : ∀ t : Text, (t.splitOn '\n').length = breaks t + 1
  | [] => rfl
  | c :: t => by
    have ih := length_splitOn t
    rw [List.splitOn_cons_eq_if_modifyHead, breaks_cons]
    by_cases hc : c = '\n'
    · rw [if_pos (beq_iff_eq.2 hc), if_pos hc, List.length_cons, ih]
    · rw [if_neg (fun e => hc (beq_iff_eq.1 e)), if_neg hc, List.length_modifyHead, ih]

theorem lines_concat (start : Text) : lines (start ++ ['\n']) = start.splitOn '\n' := by
  rw [lines, List.splitOn_append_cons_self]
  simp

/-- A text that ends with a line break has as many lines as line breaks. -/
theorem length_lines {t : Text} (h : t.getLast? = some '\n') : (lines t).length = breaks t := by
  obtain ⟨s, rfl⟩ := List.getLast?_eq_some_iff.1 h
  rw [lines, List.splitOn_append_cons_self]
  simp [length_splitOn, breaks_cons]

/-! ## Whole lines -/

/-- Whether a text is made of whole lines, each with its line break. -/
def IsWhole (t : Text) : Prop := t = [] ∨ t.getLast? = some '\n'

instance (t : Text) : Decidable (IsWhole t) := inferInstanceAs (Decidable (_ ∨ _))

theorem IsWhole.append {s t : Text} (hs : IsWhole s) (ht : IsWhole t) : IsWhole (s ++ t) := by
  rcases ht with rfl | ht
  · rwa [List.append_nil]
  · exact Or.inr (by rw [List.getLast?_append, ht, Option.some_or])

/-- What ends whole lines is whole lines, if it starts a line or is not empty. -/
theorem IsWhole.of_append {s t : Text} (h : IsWhole (s ++ t)) : IsWhole t := by
  rcases h with hnil | hlast
  · exact Or.inl (List.append_eq_nil_iff.1 hnil).2
  · rw [List.getLast?_append] at hlast
    cases ht : t.getLast? with
    | none => exact Or.inl (List.getLast?_eq_none_iff.1 ht)
    | some c =>
      rw [ht] at hlast
      exact Or.inr (ht.trans hlast)

theorem IsWhole.length_lines {t : Text} (h : IsWhole t) : (lines t).length = breaks t := by
  rcases h with rfl | h
  · rfl
  · exact Text.length_lines h

/-- Behind the last line break of whole lines stands an empty piece. -/
theorem IsWhole.splitOn_eq {t : Text} (h : IsWhole t) : t.splitOn '\n' = lines t ++ [[]] := by
  rcases h with rfl | h
  · rfl
  · obtain ⟨start, rfl⟩ := List.getLast?_eq_some_iff.1 h
    rw [lines_concat, List.splitOn_append_cons_self, List.splitOn_nil]

/-- Whole lines are put together from their pieces. -/
theorem IsWhole.flatMap_lines {t : Text} (h : IsWhole t) :
    (lines t).flatMap (fun line => line ++ ['\n']) = t := by
  have hpieces : ∀ {pieces : List Text}, pieces ≠ [] →
      pieces.flatMap (fun line => line ++ ['\n']) = ['\n'].intercalate pieces ++ ['\n'] := by
    intro pieces
    induction pieces with
    | nil => exact fun hne => absurd rfl hne
    | cons first more ih =>
      intro _
      cases more with
      | nil => simp
      | cons second later =>
        rw [List.flatMap_cons, ih (List.cons_ne_nil second later), List.intercalate_cons_cons,
          List.append_assoc, List.append_assoc, List.append_assoc]
  rcases h with rfl | h
  · rfl
  · obtain ⟨start, rfl⟩ := List.getLast?_eq_some_iff.1 h
    rw [lines_concat, hpieces (List.splitOn_ne_nil '\n' start), List.intercalate_splitOn]

/-- Behind whole lines the pieces are those of what follows. -/
theorem IsWhole.splitOn_append {s : Text} (hs : IsWhole s) (t : Text) :
    (s ++ t).splitOn '\n' = lines s ++ t.splitOn '\n' := by
  rcases hs with rfl | hlast
  · rfl
  · obtain ⟨start, rfl⟩ := List.getLast?_eq_some_iff.1 hlast
    rw [lines_concat, List.append_assoc, List.singleton_append, List.splitOn_append_cons_self]

/-- The pieces of whole lines come before those of what follows them. -/
theorem lines_append {s : Text} (hs : IsWhole s) (t : Text) :
    lines (s ++ t) = lines s ++ lines t := by
  have hne := List.splitOn_ne_nil '\n' t
  have hpieces := hs.splitOn_append t
  generalize lines s = front at hpieces ⊢
  rw [lines, lines, hpieces]
  simp only [List.getLast?_append, List.getLast?_eq_some_getLast hne, Option.some_or]
  split
  · rw [List.dropLast_append_of_ne_nil hne]
  · rfl

/-- A text is whole lines and a line behind them, which may be empty. -/
theorem exists_last_line (t : Text) :
    ∃ start line, t = start ++ line ∧ IsWhole start ∧ '\n' ∉ line := by
  induction t with
  | nil => exact ⟨[], [], rfl, Or.inl rfl, List.not_mem_nil⟩
  | cons c t ih =>
    obtain ⟨start, line, rfl, hstart, hline⟩ := ih
    by_cases hc : c = '\n'
    · have hbreak : IsWhole [c] := Or.inr (by rw [hc]; rfl)
      exact ⟨c :: start, line, rfl, hbreak.append hstart, hline⟩
    · rcases hstart with rfl | hlast
      · have hlonger := List.not_mem_cons_of_ne_of_not_mem (Ne.symm hc) hline
        exact ⟨[], c :: line, rfl, Or.inl rfl, hlonger⟩
      · exact ⟨c :: start, line, rfl, Or.inr (by rw [List.getLast?_cons, hlast]; rfl), hline⟩

/-- The text from the line with a number on, where the first line has the number zero. -/
def fromLine : Nat → Text → Text
  | 0, t => t
  | _ + 1, [] => []
  | n + 1, c :: t => fromLine (if c = '\n' then n else n + 1) t

/-- Behind its whole lines a text goes on. -/
theorem fromLine_append {s : Text} (hs : IsWhole s) (t : Text) :
    fromLine (breaks s) (s ++ t) = t := by
  induction s with
  | nil => rw [breaks_nil, List.nil_append, fromLine]
  | cons c s ih =>
    have hrest : IsWhole s := IsWhole.of_append (show IsWhole ([c] ++ s) from hs)
    rw [breaks_cons, List.cons_append]
    by_cases hc : c = '\n'
    · rw [if_pos hc, fromLine, if_pos hc, ih hrest]
    · have hlast : s.getLast? = some '\n' := by
        rcases hrest with rfl | hlast
        · rcases hs with hnil | hlast
          · cases hnil
          · exact absurd (Option.some.inj hlast) hc
        · exact hlast
      obtain ⟨n, hn⟩ : ∃ n, breaks s = n + 1 := Nat.exists_eq_add_one_of_ne_zero fun h =>
        breaks_eq_zero.1 h (List.mem_of_getLast? hlast)
      rw [if_neg hc, Nat.add_zero, hn, fromLine, if_neg hc, ← hn, ih hrest]

/-- A text is its first piece, and then it ends or goes on with a line break. -/
theorem eq_append_of_splitOn {t line : Text} {later : List Text}
    (h : t.splitOn '\n' = line :: later) :
    '\n' ∉ line ∧ ∃ tail, t = line ++ tail ∧ tail.head?.all (· == '\n') = true := by
  refine ⟨separator_not_mem_piece (h ▸ List.mem_cons_self), ?_⟩
  have hjoin : ['\n'].intercalate (t.splitOn '\n') = t := List.intercalate_splitOn '\n'
  rw [h] at hjoin
  cases later with
  | nil => exact ⟨[], by simpa using hjoin.symm, rfl⟩
  | cons next later =>
    rw [List.intercalate_cons_cons, List.append_assoc] at hjoin
    exact ⟨_, hjoin.symm, rfl⟩

theorem newline_not_mem_takeWhile (t : Text) : '\n' ∉ t.takeWhile (· != '\n') := by
  intro h
  have hall := List.all_eq_true.1 (List.all_takeWhile (p := (· != '\n')) (l := t)) _ h
  simp at hall

/-- Behind its first line a text ends or goes on with a line break. -/
theorem dropWhile_newline (t : Text) :
    t.dropWhile (· != '\n') = [] ∨ ∃ rest, t.dropWhile (· != '\n') = '\n' :: rest := by
  have hhead := List.head?_dropWhile_not (· != '\n') t
  cases hrest : t.dropWhile (· != '\n') with
  | nil => exact Or.inl rfl
  | cons c rest =>
    rw [hrest] at hhead
    have hc : c = '\n' := by simpa using hhead
    exact Or.inr ⟨rest, by rw [hc]⟩

/-- The text up to its first line break, and the pieces behind it. -/
theorem splitOn_append_line (t : Text) : ∃ later, ∀ s : Text,
    (s ++ t).splitOn '\n' = (s ++ t.takeWhile (· != '\n')).splitOn '\n' ++ later := by
  have hsplit := List.takeWhile_append_dropWhile (p := (· != '\n')) (l := t)
  rcases dropWhile_newline t with hnil | ⟨rest, hrest⟩
  · rw [hnil, List.append_nil] at hsplit
    exact ⟨[], fun s => by rw [hsplit, List.append_nil]⟩
  · rw [hrest] at hsplit
    refine ⟨rest.splitOn '\n', fun s => ?_⟩
    rw [← List.splitOn_append_cons_self, List.append_assoc, hsplit]

/-- The first piece of a text is its first line; without it the first piece is empty. -/
theorem splitOn_dropWhile (t : Text) : ∃ later,
    t.splitOn '\n' = t.takeWhile (· != '\n') :: later ∧
      (t.dropWhile (· != '\n')).splitOn '\n' = [] :: later := by
  have hsplit := List.takeWhile_append_dropWhile (p := (· != '\n')) (l := t)
  have hfirst := newline_not_mem_takeWhile t
  rcases dropWhile_newline t with hnil | ⟨rest, hrest⟩
  · rw [hnil, List.append_nil] at hsplit
    rw [hsplit] at hfirst
    exact ⟨[], by rw [hsplit, List.splitOn_eq_singleton hfirst], by rw [hnil, List.splitOn_nil]⟩
  · rw [hrest] at hsplit ⊢
    refine ⟨rest.splitOn '\n', ?_, List.splitOn_append_cons_self [] rest⟩
    rw [← List.splitOn_append_cons_self_of_not_mem hfirst, hsplit]

/-- A piece that is not the last one has a line break behind it. -/
theorem piece_append_infix {t piece : Text} (h : piece ∈ (t.splitOn '\n').dropLast) :
    piece ++ ['\n'] <:+: t := by
  have hpieces : ∀ {pieces : List Text}, piece ∈ pieces.dropLast →
      piece ++ ['\n'] <:+: ['\n'].intercalate pieces := by
    intro pieces
    induction pieces with
    | nil => exact fun hmem => absurd hmem List.not_mem_nil
    | cons first more ih =>
      intro hmem
      cases more with
      | nil => exact absurd hmem List.not_mem_nil
      | cons second later =>
        rw [List.intercalate_cons_cons]
        rcases List.mem_cons.1 hmem with rfl | hmem
        · exact List.infix_append [] _ _
        · exact (ih hmem).trans (List.suffix_append _ _).isInfix
  have hinfix := hpieces h
  rwa [List.intercalate_splitOn] at hinfix

end Variants.Text
