import Variants.Proofs.TextLines
import Variants.Token.Scanner

/-!
# The literals of a text

A text can be read character by character with one `Literal.State`, which says whether a literal is
open and with which quote. Its marks are the characters that belong to a literal, each with a note
whether it opens one (`Literal.marks`). Unlike the tokens, they are those of the parts when the text
is put together from parts.

Main statement: texts with the same marks have the same literal tokens (`literals_eq_of_marks`).
-/

namespace Variants

namespace Literal

/-! ## 1. States -/

/-- A quote. -/
abbrev Quote : Type := { c : Char // isQuote c = true }

/-- Where a character stands: outside of literals, in one with some quote, or in one right behind
a backslash that takes the character with it. -/
inductive State where
  | outside
  | inside (quote : Quote)
  | escaped (quote : Quote)
  deriving DecidableEq

namespace State

/-- The state behind a character. -/
def next : State → Char → State
  | .outside, c => if h : isQuote c = true then .inside ⟨c, h⟩ else .outside
  | .inside quote, c =>
    if c = '\\' then .escaped quote else if c = quote then .outside else .inside quote
  | .escaped quote, _ => .inside quote

theorem next_outside {c : Char} (h : isQuote c = false) : next .outside c = .outside := by
  rw [next, dif_neg (by simp [h])]

theorem next_quote {c : Char} (h : isQuote c = true) : next .outside c = .inside ⟨c, h⟩ := dif_pos h

/-- The state behind a text. -/
def after (s : State) (t : Text) : State := t.foldl next s

@[simp] theorem after_nil (s : State) : s.after [] = s := rfl

@[simp] theorem after_cons (s : State) (c : Char) (t : Text) :
    s.after (c :: t) = (s.next c).after t := rfl

@[simp] theorem after_append (s : State) (t u : Text) : s.after (t ++ u) = (s.after t).after u :=
  List.foldl_append

/-- What belongs to a literal at a character: the character, and whether it opens the literal. -/
def mark : State → Char → List (Bool × Char)
  | .outside, c => if isQuote c = true then [(true, c)] else []
  | _, c => [(false, c)]

theorem mark_of_ne {s : State} (h : s ≠ .outside) (c : Char) : s.mark c = [(false, c)] := by
  cases s with
  | outside => exact absurd rfl h
  | inside => rfl
  | escaped => rfl

/-- Only a quote takes a text out of a literal. -/
theorem next_ne_outside {s : State} (h : s ≠ .outside) {c : Char} (hc : isQuote c = false) :
    s.next c ≠ .outside := by
  cases s with
  | outside => exact absurd rfl h
  | inside quote =>
    have hne : c ≠ quote := fun e => Bool.false_ne_true (hc.symm.trans (e ▸ quote.2))
    by_cases hback : c = '\\'
    · rw [next, if_pos hback]
      exact fun e => nomatch e
    · rw [next, if_neg hback, if_neg hne]
      exact fun e => nomatch e
  | escaped quote => exact fun e => nomatch e

end State

/-! ## 2. Marks -/

/-- The characters of a text that belong to literals. -/
def marks (s : State) : Text → List (Bool × Char)
  | [] => []
  | c :: t => s.mark c ++ marks (s.next c) t

@[simp] theorem marks_append (s : State) (t u : Text) :
    marks s (t ++ u) = marks s t ++ marks (s.after t) u := by
  induction t generalizing s with
  | nil => rfl
  | cons c t ih => simp [marks, ih, State.after]

/-- A text without quotes. -/
def IsUnquoted (t : Text) : Prop := ∀ c ∈ t, isQuote c = false

instance (t : Text) : Decidable (IsUnquoted t) :=
  List.decidableBAll (fun c => isQuote c = false) t

theorem IsUnquoted.append {t u : Text} (ht : IsUnquoted t) (hu : IsUnquoted u) :
    IsUnquoted (t ++ u) :=
  List.forall_mem_append.2 ⟨ht, hu⟩

/-- **Outside of literals, a text without quotes is passed over.** -/
theorem IsUnquoted.outside {t : Text} (h : IsUnquoted t) :
    marks .outside t = [] ∧ State.after .outside t = .outside := by
  induction t with
  | nil => exact ⟨rfl, rfl⟩
  | cons c t ih =>
    obtain ⟨hc, ht⟩ := List.forall_mem_cons.1 h
    have hmark : State.mark .outside c = [] := by rw [State.mark, if_neg (by simp [hc])]
    rw [marks, hmark, State.after_cons, State.next_outside hc]
    exact ih ht

/-- A text without quotes leaves the marks behind it as they are. -/
theorem IsUnquoted.marks_append {s : Text} (h : IsUnquoted s) (t : Text) :
    marks .outside (s ++ t) = marks .outside t := by
  rw [Literal.marks_append, h.outside.1, h.outside.2, List.nil_append]

theorem marks_quote {c : Char} (h : isQuote c = true) (t : Text) :
    marks .outside (c :: t) = (true, c) :: marks (.inside ⟨c, h⟩) t := by
  rw [marks, State.mark, if_pos h, State.next_quote h]
  rfl

/-! ## 3. Texts with the same literals -/

/-- Texts with the same marks behind which the same literal is open, if any is. -/
structure SameLiterals (s : State) (t u : Text) : Prop where
  marks_eq : marks s t = marks s u
  after_eq : s.after t = s.after u

namespace SameLiterals

theorem refl (s : State) (t : Text) : SameLiterals s t t := ⟨rfl, rfl⟩

theorem symm {s : State} {t u : Text} (h : SameLiterals s t u) : SameLiterals s u t :=
  ⟨h.1.symm, h.2.symm⟩

theorem trans {s : State} {t u v : Text} (h : SameLiterals s t u) (h' : SameLiterals s u v) :
    SameLiterals s t v := ⟨h.1.trans h'.1, h.2.trans h'.2⟩

theorem append {s : State} {t t' u u' : Text} (h : SameLiterals s t t')
    (h' : SameLiterals (s.after t) u u') : SameLiterals s (t ++ u) (t' ++ u') := by
  refine ⟨?_, ?_⟩
  · rw [marks_append, marks_append, h.1, h'.1, h.2]
  · rw [State.after_append, State.after_append, h'.2, h.2]

/-- Outside of literals, one text without quotes may stand for another. -/
theorem of_unquoted {t u : Text} (ht : IsUnquoted t) (hu : IsUnquoted u) :
    SameLiterals .outside t u :=
  ⟨ht.outside.1.trans hu.outside.1.symm, ht.outside.2.trans hu.outside.2.symm⟩

theorem cons {s : State} (c : Char) {t u : Text} (h : SameLiterals (s.next c) t u) :
    SameLiterals s (c :: t) (c :: u) :=
  append (t := [c]) (refl s [c]) h

end SameLiterals

/-! ## 4. One literal -/

/-- The marks of a literal. -/
def marksOf : Text → List (Bool × Char)
  | [] => []
  | quote :: t => (true, quote) :: t.map (Prod.mk false)

/-- A literal is passed over up to its closing quote. -/
theorem marks_of_close {quote : Quote} {t : Text} {cut : Text × Text}
    (h : close quote t = some cut) :
    marks (.inside quote) t = cut.1.map (Prod.mk false) ++ marks .outside cut.2 := by
  fun_induction close quote.1 t generalizing cut with
  | case1 => cases h
  | case2 => cases h
  | case3 d u ih =>
    obtain ⟨inner, hin, rfl⟩ := Option.map_eq_some_iff.1 h
    show (false, '\\') :: (false, d) :: marks (.inside quote) u = _
    rw [ih hin]
    rfl
  | case4 t hback =>
    cases h
    simp [marks, State.mark, State.next, hback]
  | case5 c t hback hquote ih =>
    obtain ⟨inner, hin, rfl⟩ := Option.map_eq_some_iff.1 h
    have hnext : State.next (.inside quote) c = .inside quote := by
      rw [State.next, if_neg hback, if_neg hquote]
    show (false, c) :: marks (State.next (.inside quote) c) t = _
    rw [hnext, ih hin]
    rfl

/-- One that is not closed runs to the end. -/
theorem marks_of_not_close {quote : Quote} {t : Text} (h : close quote t = none) :
    marks (.inside quote) t = t.map (Prod.mk false) := by
  fun_induction close quote.1 t with
  | case1 => rfl
  | case2 => rfl
  | case3 d u ih =>
    show (false, '\\') :: (false, d) :: marks (.inside quote) u = _
    rw [ih (Option.map_eq_none_iff.1 h)]
    rfl
  | case4 => cases h
  | case5 c t hback hquote ih =>
    have hnext : State.next (.inside quote) c = .inside quote := by
      rw [State.next, if_neg hback, if_neg hquote]
    show (false, c) :: marks (State.next (.inside quote) c) t = _
    rw [hnext, ih (Option.map_eq_none_iff.1 h)]
    rfl

theorem marks_inside (quote : Quote) (t : Text) :
    marks (.inside quote) t =
      (t.take (length quote t)).map (Prod.mk false) ++
        marks .outside (t.drop (length quote t)) := by
  cases h : close quote t with
  | none => simp [length, h, marks_of_not_close h, marks]
  | some cut =>
    have happend := close_append h
    rw [marks_of_close h, length, h]
    dsimp only
    rw [← happend, List.take_left, List.drop_left]

end Literal

namespace Token

/-! ## 5. Tokens -/

/-- Whether a token is a string or character literal. -/
def isLiteral (token : Token) : Bool := token.kind == .string || token.kind == .character

/-- The literals of a text, in order. -/
def literals (t : Text) : List Text := ((tokens t).filter isLiteral).map lexeme

/-- What holds of neither quote holds of no quote. -/
theorem isQuote_eq_false {p : Char → Bool} (hdouble : p '"' = false) (hsingle : p '\'' = false)
    {c : Char} (h : p c = true) : Literal.isQuote c = false := by
  cases hc : Literal.isQuote c with
  | false => rfl
  | true =>
    rcases Bool.or_eq_true_iff.1 hc with hquote | hquote
    · rw [beq_iff_eq.1 hquote, hdouble] at h
      cases h
    · rw [beq_iff_eq.1 hquote, hsingle] at h
      cases h

/-- Whether a number can hold a character. -/
def isNumberChar (c : Char) : Bool :=
  Text.isAlnum c || c == '.' || c == '_' || c == '+' || c == '-'

theorem isNumberChar_of_mem (t : Text) :
    ∀ c ∈ t.take (numberLength t), isNumberChar c = true := by
  have hexponent {c : Char} (h : isExponent c = true) : isNumberChar c = true := by
    rw [isNumberChar, (of_isExponent h).1]
    rfl
  fun_induction numberLength t with
  | case1 => exact fun c h => absurd h List.not_mem_nil
  | case2 c hc =>
    exact List.forall_mem_singleton.2 (hexponent hc)
  | case3 c hc d u hd ih =>
    have hsign : isNumberChar d = true := by
      rcases hd with rfl | rfl
      · decide
      · decide
    exact List.forall_mem_cons.2 ⟨hexponent hc, List.forall_mem_cons.2 ⟨hsign, ih⟩⟩
  | case4 c hc d u hd ih =>
    exact List.forall_mem_cons.2 ⟨hexponent hc, ih⟩
  | case5 c t hc hmore ih =>
    have hplain : isNumberChar c = true := by
      rw [isNumberChar, hmore]
      rfl
    exact List.forall_mem_cons.2 ⟨hplain, ih⟩
  | case6 => exact fun c h => absurd h List.not_mem_nil

theorem isUnquoted_number (t : Text) : Literal.IsUnquoted (t.take (numberLength t)) :=
  fun c hc => isQuote_eq_false (by decide) (by decide) (isNumberChar_of_mem t c hc)

theorem isUnquoted_name (t : Text) :
    Literal.IsUnquoted (t.take (t.takeWhile continuesName).length) := by
  rw [← List.prefix_iff_eq_take.1 (List.takeWhile_prefix continuesName)]
  intro c hc
  exact isQuote_eq_false (by decide) (by decide) (List.all_eq_true.1 List.all_takeWhile c hc)

theorem isUnquoted_punctuator (c : Char) (t : Text) :
    Literal.IsUnquoted (t.take (punctuatorLength (c :: t) - 1)) := by
  rcases punctuatorLength_eq (c :: t) with hone | ⟨mark, hmark, hfound, hlength⟩
  · rw [hone]
    exact fun d hd => absurd hd List.not_mem_nil
  · have hplain : ∀ mark ∈ longPunctuators, Literal.IsUnquoted mark := by decide
    obtain ⟨rest, hrest⟩ := List.isPrefixOf_iff_prefix.1 hfound
    have htail : t.take (mark.length - 1) = mark.tail := by
      cases mark with
      | nil => rfl
      | cons d mark =>
        rw [← (List.cons.inj hrest).2]
        exact List.take_left
    rw [hlength, htail]
    exact fun d hd => hplain mark hmark d (List.mem_of_mem_tail hd)

/-- A token that starts with no quote has none. -/
theorem isUnquoted_scan {c : Char} (hc : Literal.isQuote c = false) (t : Text) :
    Literal.IsUnquoted (c :: t.take (scan c t).2) ∧
      (scan c t).1 ≠ .string ∧ (scan c t).1 ≠ .character := by
  have hdouble : c ≠ '"' := fun e => by rw [e] at hc; cases hc
  have hsingle : c ≠ '\'' := fun e => by rw [e] at hc; cases hc
  unfold scan
  rw [if_neg hdouble, if_neg hsingle]
  split
  · exact ⟨List.forall_mem_cons.2 ⟨hc, isUnquoted_number t⟩, nofun, nofun⟩
  · split
    · exact ⟨List.forall_mem_cons.2 ⟨hc, isUnquoted_name t⟩, nofun, nofun⟩
    · exact ⟨List.forall_mem_cons.2 ⟨hc, isUnquoted_punctuator c t⟩, nofun, nofun⟩

/-- **The literal tokens of a text are its marks.** -/
theorem flatMap_marksOf_literals (p : Position) (t : Text) :
    (((tokensFrom p t).filter isLiteral).map lexeme).flatMap Literal.marksOf =
      Literal.marks .outside t := by
  fun_induction tokensFrom p t with
  | case1 => rfl
  | case2 p c t hc ih =>
    have hquote : Literal.isQuote c = false := isQuote_eq_false (by decide) (by decide) hc
    have hunquoted : Literal.IsUnquoted [c] := List.forall_mem_singleton.2 hquote
    rw [ih, ← List.singleton_append, hunquoted.marks_append]
  | case3 p c t hc extent lexeme ih =>
    by_cases hquote : Literal.isQuote c = true
    · have hliteral : extent.2 = Literal.length c t ∧ isLiteral ⟨extent.1, lexeme, p⟩ = true := by
        rcases Bool.or_eq_true_iff.1 hquote with hquote | hquote
        · obtain rfl := beq_iff_eq.1 hquote
          exact ⟨rfl, rfl⟩
        · obtain rfl := beq_iff_eq.1 hquote
          exact ⟨rfl, rfl⟩
      rw [List.filter_cons_of_pos hliteral.2, List.map_cons, List.flatMap_cons, ih,
        Literal.marks_quote hquote, Literal.marks_inside, hliteral.1]
      show Literal.marksOf (c :: t.take extent.2) ++ _ = _
      rw [hliteral.1]
      rfl
    · obtain ⟨hunquoted, hstring, hcharacter⟩ := isUnquoted_scan (Bool.not_eq_true _ ▸ hquote) t
      have hplain : isLiteral ⟨extent.1, lexeme, p⟩ = false :=
        Bool.or_eq_false_iff.2 ⟨beq_eq_false_iff_ne.2 hstring, beq_eq_false_iff_ne.2 hcharacter⟩
      have hsplit : c :: t = c :: t.take extent.2 ++ t.drop extent.2 := by
        rw [List.cons_append, List.take_append_drop]
      rw [List.filter_cons_of_neg (by simp [hplain]), ih, hsplit, hunquoted.marks_append]

/-- The marks of some literals tell where each of them ends. -/
theorem takeWhile_marks (t : Text) {ls : List Text} (hls : ∀ l ∈ ls, l ≠ []) :
    (t.map (Prod.mk false) ++ ls.flatMap Literal.marksOf).takeWhile (fun mark => !mark.1) =
      t.map (Prod.mk false) := by
  have hrest : (ls.flatMap Literal.marksOf).takeWhile (fun mark => !mark.1) = [] := by
    cases ls with
    | nil => rfl
    | cons l ls =>
      obtain ⟨quote, rest, rfl⟩ := List.exists_cons_of_ne_nil (hls l List.mem_cons_self)
      rfl
  rw [List.takeWhile_append_of_pos, hrest, List.append_nil]
  intro mark hmark
  obtain ⟨_, _, rfl⟩ := List.mem_map.1 hmark
  rfl

/-- Literals with the same marks are the same. -/
theorem eq_of_flatMap_marksOf : ∀ {ls ls' : List Text}, (∀ l ∈ ls, l ≠ []) → (∀ l ∈ ls', l ≠ []) →
    ls.flatMap Literal.marksOf = ls'.flatMap Literal.marksOf → ls = ls'
  | [], [], _, _, _ => rfl
  | [], l' :: ls', _, hls', h => by
    obtain ⟨quote, rest, rfl⟩ := List.exists_cons_of_ne_nil (hls' l' List.mem_cons_self)
    cases h
  | l :: ls, [], hls, _, h => by
    obtain ⟨quote, rest, rfl⟩ := List.exists_cons_of_ne_nil (hls l List.mem_cons_self)
    cases h
  | l :: ls, l' :: ls', hls, hls', h => by
    obtain ⟨hl, hmore⟩ := List.forall_mem_cons.1 hls
    obtain ⟨hl', hmore'⟩ := List.forall_mem_cons.1 hls'
    obtain ⟨quote, rest, rfl⟩ := List.exists_cons_of_ne_nil hl
    obtain ⟨quote', rest', rfl⟩ := List.exists_cons_of_ne_nil hl'
    obtain ⟨hquote, hmarks⟩ := List.cons.inj h
    change rest.map (Prod.mk false) ++ ls.flatMap Literal.marksOf =
      rest'.map (Prod.mk false) ++ ls'.flatMap Literal.marksOf at hmarks
    have hrest := congrArg (List.takeWhile fun mark => !mark.1) hmarks
    rw [takeWhile_marks rest hmore, takeWhile_marks rest' hmore'] at hrest
    rw [hrest] at hmarks
    rw [(Prod.mk.inj hquote).2, (List.map_inj_right fun _ _ h => (Prod.mk.inj h).2).1 hrest,
      eq_of_flatMap_marksOf hmore hmore' (List.append_cancel_left hmarks)]

theorem ne_nil_of_mem_literals {t : Text} : ∀ l ∈ literals t, l ≠ [] := by
  intro l hl
  obtain ⟨token, htoken, rfl⟩ := List.mem_map.1 hl
  exact lexeme_ne_nil (List.mem_filter.1 htoken).1

/-- The literals of a text are those, none of them empty, that have its marks. -/
theorem literals_eq_of_flatMap_marksOf {t : Text} {ls : List Text} (hne : ∀ l ∈ ls, l ≠ [])
    (h : Literal.marks .outside t = ls.flatMap Literal.marksOf) : literals t = ls :=
  eq_of_flatMap_marksOf ne_nil_of_mem_literals hne ((flatMap_marksOf_literals .start t).trans h)

/-- **Texts with the same marks have the same literals.** -/
theorem literals_eq_of_marks {t u : Text}
    (h : Literal.marks .outside t = Literal.marks .outside u) : literals t = literals u :=
  literals_eq_of_flatMap_marksOf ne_nil_of_mem_literals
    (h.trans (flatMap_marksOf_literals .start u).symm)

/-- What belongs to a literal is one of its characters. -/
theorem exists_literal_of_mark {t : Text} {mark : Bool × Char}
    (h : mark ∈ Literal.marks .outside t) : ∃ l ∈ literals t, mark.2 ∈ l := by
  rw [← flatMap_marksOf_literals .start] at h
  obtain ⟨l, hl, hmark⟩ := List.mem_flatMap.1 h
  refine ⟨l, hl, ?_⟩
  cases l with
  | nil => cases hmark
  | cons quote rest =>
    rcases List.mem_cons.1 hmark with rfl | hmark
    · exact List.mem_cons_self
    · obtain ⟨c, hc, rfl⟩ := List.mem_map.1 hmark
      exact List.mem_cons_of_mem _ hc

/-- The marks of some literals start with one that opens a literal. -/
theorem opens_of_head {mark : Bool × Char} {ls : List Text}
    (h : [mark] <+: ls.flatMap Literal.marksOf) : mark.1 = true := by
  induction ls with
  | nil => cases List.prefix_nil.1 h
  | cons l ls ih =>
    cases l with
    | nil => exact ih h
    | cons quote rest =>
      obtain ⟨_, happend⟩ := h
      rw [(List.cons.inj happend).1]

/-- Neighbouring marks of which the second one opens no literal stand in one literal. -/
theorem exists_literal_of_marks {t : Text} {opens : Bool} {a b : Char}
    (h : [(opens, a), (false, b)] <:+: Literal.marks .outside t) :
    ∃ l ∈ literals t, [a, b] <:+: l := by
  have hone : ∀ {l : Text}, [(opens, a), (false, b)] <:+: Literal.marksOf l → [a, b] <:+: l := by
    intro l hin
    have hchars : (Literal.marksOf l).map Prod.snd = l := by
      cases l with
      | nil => rfl
      | cons quote rest =>
        rw [Literal.marksOf, List.map_cons, List.map_map]
        exact congrArg _ (List.map_id rest)
    exact hchars ▸ hin.map Prod.snd
  rw [← flatMap_marksOf_literals .start] at h
  change _ <:+: (literals t).flatMap _ at h
  generalize literals t = ls at h
  induction ls with
  | nil => exact absurd (List.infix_nil.1 h) (List.cons_ne_nil _ _)
  | cons l ls ih =>
    rcases List.infix_append_iff.1 h with hin | hin | ⟨first, second, hsplit, hfirst, hsecond⟩
    · exact ⟨l, List.mem_cons_self, hone hin⟩
    · obtain ⟨l', hl', hinfix⟩ := ih hin
      exact ⟨l', List.mem_cons_of_mem _ hl', hinfix⟩
    · rcases List.cons_eq_append_iff.1 hsplit with ⟨rfl, rfl⟩ | ⟨more, rfl, hmore⟩
      · obtain ⟨l', hl', hinfix⟩ := ih hsecond.isInfix
        exact ⟨l', List.mem_cons_of_mem _ hl', hinfix⟩
      · rcases List.cons_eq_append_iff.1 hmore with ⟨rfl, rfl⟩ | ⟨last, rfl, hlast⟩
        · exact absurd (opens_of_head hsecond) Bool.false_ne_true
        · obtain ⟨rfl, rfl⟩ := List.append_eq_nil_iff.1 hlast.symm
          exact ⟨l, List.mem_cons_self, hone hfirst.isInfix⟩

end Token

end Variants
