import Variants.Source.Segment

/-!
# Where segments begin and end

`segments` cuts a text by functions that look for the end of a comment or literal. This file says
the same without them, by what may stand between the first and the last characters of a segment:

* no line break in a line comment, up to the one that ends it;
* no star with a slash behind it in a block comment, up to the two that end it;
* in a literal no closing quote, where a backslash takes the next character with it
  (`Literal.IsBody`);
* a character stands alone if no segment of the other kinds begins with it.

`Segment.IsFirst` is this rule for one segment and `Cut` for a whole text. A text has exactly one
cut, and it is `segments` (`cut_iff`).
-/

namespace Variants

/-! ## 1. Literals -/

namespace Literal

/-- Whether a text can stand between the two quotes of a literal. -/
inductive IsBody (quote : Char) : Text → Prop where
  | nil : IsBody quote []
  | plain {c : Char} {t : Text} (hback : c ≠ '\\') (hquote : c ≠ quote) (h : IsBody quote t) :
      IsBody quote (c :: t)
  | escape (c : Char) {t : Text} (h : IsBody quote t) : IsBody quote ('\\' :: c :: t)

theorem ne_backslash_of_isQuote {quote : Char} (h : isQuote quote = true) : quote ≠ '\\' := by
  rintro rfl
  cases h

/-- The quote behind a body closes the literal. -/
theorem close_of_isBody {quote : Char} (hquote : quote ≠ '\\') {body : Text}
    (h : IsBody quote body) (rest : Text) :
    close quote (body ++ quote :: rest) = some (body ++ [quote], rest) := by
  induction h with
  | nil =>
    rw [List.nil_append, close.eq_def]
    simp [hquote]
  | plain hback hne _ ih =>
    rw [List.cons_append, close.eq_def]
    simp [hback, hne, ih]
  | escape c _ ih =>
    rw [List.cons_append, List.cons_append, close.eq_def]
    simp [ih]

/-- A literal is closed behind a body. -/
theorem exists_isBody_of_close {quote : Char} {t : Text} {cut : Text × Text}
    (h : close quote t = some cut) : ∃ body, IsBody quote body ∧ cut.1 = body ++ [quote] := by
  fun_induction close quote t generalizing cut with
  | case1 => cases h
  | case2 => cases h
  | case3 d t ih =>
    obtain ⟨inner, hin, rfl⟩ := Option.map_eq_some_iff.1 h
    obtain ⟨body, hbody, hcut⟩ := ih hin
    exact ⟨'\\' :: d :: body, .escape d hbody, by simp [hcut]⟩
  | case4 =>
    cases h
    exact ⟨[], .nil, rfl⟩
  | case5 c t hback hquote ih =>
    obtain ⟨inner, hin, rfl⟩ := Option.map_eq_some_iff.1 h
    obtain ⟨body, hbody, hcut⟩ := ih hin
    exact ⟨c :: body, .plain hback hquote hbody, by simp [hcut]⟩

/-- Whether a text behind an opening quote has no closing one. A backslash at its end has no next
character to take. -/
inductive IsUnclosed (quote : Char) : Text → Prop where
  | nil : IsUnclosed quote []
  | backslash : IsUnclosed quote ['\\']
  | plain {c : Char} {t : Text} (hback : c ≠ '\\') (hquote : c ≠ quote) (h : IsUnclosed quote t) :
      IsUnclosed quote (c :: t)
  | escape (c : Char) {t : Text} (h : IsUnclosed quote t) : IsUnclosed quote ('\\' :: c :: t)

/-- A literal is not closed exactly when there is no closing quote. -/
theorem close_eq_none_iff {quote : Char} {t : Text} :
    close quote t = none ↔ IsUnclosed quote t := by
  constructor
  · intro h
    fun_induction close quote t with
    | case1 => exact .nil
    | case2 => exact .backslash
    | case3 d t ih => exact .escape d (ih (Option.map_eq_none_iff.1 h))
    | case4 => cases h
    | case5 c t hback hquote ih => exact .plain hback hquote (ih (Option.map_eq_none_iff.1 h))
  · intro h
    induction h with
    | nil => rfl
    | backslash => rfl
    | plain hback hne _ ih =>
      rw [close.eq_def]
      simp [hback, hne, ih]
    | escape c _ ih =>
      rw [close.eq_def]
      simp [ih]

end Literal

namespace Source

/-! ## 2. Comments -/

/-- The first line break of a text ends its first line. -/
theorem cutLine_append_newline {body : Text} (h : '\n' ∉ body) (rest : Text) :
    cutLine (body ++ '\n' :: rest) = (body ++ ['\n'], rest) := by
  induction body with
  | nil => rfl
  | cons c body ih =>
    have hc : c ≠ '\n' := (List.ne_of_not_mem_cons h).symm
    rw [List.cons_append, cutLine, if_neg hc, ih (List.not_mem_of_not_mem_cons h)]
    rfl

theorem cutLine_of_not_mem {t : Text} (h : '\n' ∉ t) : cutLine t = (t, []) := by
  induction t with
  | nil => rfl
  | cons c t ih =>
    have hc : c ≠ '\n' := (List.ne_of_not_mem_cons h).symm
    rw [cutLine, if_neg hc, ih (List.not_mem_of_not_mem_cons h)]

/-- A first line ends with the first line break, or it is all of the text. -/
theorem cutLine_ends (t : Text) :
    (∃ body, '\n' ∉ body ∧ (cutLine t).1 = body ++ ['\n']) ∨
      ('\n' ∉ (cutLine t).1 ∧ (cutLine t).2 = []) := by
  by_cases h : '\n' ∈ t
  · obtain ⟨body, rest, rfl, hbody⟩ := List.eq_append_cons_of_mem h
    rw [cutLine_append_newline hbody]
    exact Or.inl ⟨body, hbody, rfl⟩
  · rw [cutLine_of_not_mem h]
    exact Or.inr ⟨h, rfl⟩

/-- The two characters that end a block comment. -/
def blockEnd : Text := ['*', '/']

/-- One character in front of a text makes an end of a comment with the first one of it, or there is
such an end in the text. -/
theorem blockEnd_infix_cons {c : Char} {t : Text} :
    blockEnd <:+: c :: t ↔ (c = '*' ∧ t.head? = some '/') ∨ blockEnd <:+: t := by
  rw [List.infix_cons_iff]
  refine or_congr_left ?_
  cases t with
  | nil => simp [blockEnd]
  | cons d t => simp [blockEnd, eq_comm]

/-- The first star and slash end a block comment. -/
theorem cutBlock_append_blockEnd {body : Text} (h : ¬ blockEnd <:+: body ++ ['*'])
    (rest : Text) : cutBlock (body ++ '*' :: '/' :: rest) = some (body ++ blockEnd, rest) := by
  induction body with
  | nil => simp [cutBlock, blockEnd]
  | cons c body ih =>
    obtain ⟨hfirst, hbody⟩ := not_or.1 (mt blockEnd_infix_cons.2 h)
    cases body with
    | nil =>
      have hcut := ih hbody
      rw [List.nil_append] at hcut
      rw [List.cons_append, List.nil_append, cutBlock, if_neg (by simp), hcut]
      rfl
    | cons d body =>
      have hcut := ih hbody
      rw [List.cons_append] at hcut
      rw [List.cons_append, List.cons_append, cutBlock, if_neg (by simpa using hfirst), hcut]
      rfl

theorem exists_of_cutBlock {t : Text} {cut : Text × Text} (h : cutBlock t = some cut) :
    ∃ body, ¬ blockEnd <:+: body ++ ['*'] ∧ cut.1 = body ++ blockEnd := by
  fun_induction cutBlock t generalizing cut with
  | case1 => cases h
  | case2 => cases h
  | case3 c d t hcd =>
    cases h
    exact ⟨[], by decide, by rw [hcd.1, hcd.2]; rfl⟩
  | case4 c d t hcd ih =>
    obtain ⟨inner, hin, rfl⟩ := Option.map_eq_some_iff.1 h
    obtain ⟨body, hbody, hcut⟩ := ih hin
    have hhead : (body ++ ['*']).head? = some d := by
      have happend := cutBlock_append hin
      rw [hcut] at happend
      cases body with
      | nil => exact congrArg some (List.cons.inj happend).1
      | cons e body => exact congrArg some (List.cons.inj happend).1
    refine ⟨c :: body, fun hin => ?_, by simp [hcut]⟩
    rcases blockEnd_infix_cons.1 hin with ⟨hc, hd⟩ | hin
    · exact hcd ⟨hc, Option.some.inj (hhead.symm.trans hd)⟩
    · exact hbody hin

/-- A comment has no end where star and slash never meet. -/
theorem cutBlock_eq_none_iff {t : Text} : cutBlock t = none ↔ ¬ blockEnd <:+: t := by
  fun_induction cutBlock t with
  | case1 => simp [blockEnd]
  | case2 c =>
    rw [blockEnd_infix_cons]
    simp [blockEnd]
  | case3 c d t hcd => simp [blockEnd_infix_cons, hcd]
  | case4 c d t hcd ih =>
    rw [Option.map_eq_none_iff, ih, blockEnd_infix_cons (c := c), List.head?_cons, or_iff_right]
    rintro ⟨hc, hd⟩
    exact hcd ⟨hc, Option.some.inj hd⟩

/-! ## 3. One segment -/

/-- Whether a segment comes first where it stands before a rest. -/
def Segment.IsFirst (rest : Text) : Segment → Prop
  | .lineComment written => ∃ body, '\n' ∉ body ∧
      (written = '/' :: '/' :: body ++ ['\n'] ∨ written = '/' :: '/' :: body ∧ rest = [])
  | .blockComment written true => ∃ body, ¬ blockEnd <:+: body ++ ['*'] ∧
      written = '/' :: '*' :: body ++ blockEnd
  | .blockComment written false => ∃ body, ¬ blockEnd <:+: body ∧
      written = '/' :: '*' :: body ∧ rest = []
  | .literal written true => ∃ quote body, Literal.isQuote quote = true ∧
      Literal.IsBody quote body ∧ written = quote :: body ++ [quote]
  | .literal written false => ∃ quote body, Literal.isQuote quote = true ∧
      Literal.IsUnclosed quote body ∧ written = quote :: body ∧ rest = []
  | .char c => Literal.isQuote c = false ∧
      ¬ (c = '/' ∧ (rest.head? = some '/' ∨ rest.head? = some '*'))

/-- The segment that is found comes first. -/
theorem isFirst_nextSegment (c : Char) (t : Text) :
    (nextSegment c t).1.IsFirst (nextSegment c t).2 := by
  unfold nextSegment
  split
  · rename_i hline
    obtain ⟨rfl, hslash⟩ := hline
    obtain ⟨u, rfl⟩ := List.head?_eq_some_iff.1 hslash
    rw [cutLine, if_neg (by decide)]
    rcases cutLine_ends u with ⟨body, hbody, hcut⟩ | ⟨hbody, hrest⟩
    · exact ⟨body, hbody, Or.inl (by simp [hcut])⟩
    · exact ⟨_, hbody, Or.inr ⟨rfl, hrest⟩⟩
  · rename_i hline
    split
    · rename_i hblock
      obtain ⟨rfl, hstar⟩ := hblock
      obtain ⟨u, rfl⟩ := List.head?_eq_some_iff.1 hstar
      split
      · rename_i cut hcut
        obtain ⟨body, hbody, hwritten⟩ := exists_of_cutBlock hcut
        exact ⟨body, hbody, by simp [hwritten]⟩
      · rename_i hcut
        exact ⟨u, cutBlock_eq_none_iff.1 hcut, rfl, rfl⟩
    · rename_i hblock
      split
      · rename_i hquote
        split
        · rename_i cut hcut
          obtain ⟨body, hbody, hwritten⟩ := Literal.exists_isBody_of_close hcut
          exact ⟨c, body, hquote, hbody, by simp [hwritten]⟩
        · rename_i hcut
          exact ⟨c, t, hquote, Literal.close_eq_none_iff.1 hcut, rfl, rfl⟩
      · rename_i hquote
        refine ⟨Bool.not_eq_true _ ▸ hquote, fun hslash => ?_⟩
        rcases hslash.2 with hnext | hnext
        · exact hline ⟨hslash.1, hnext⟩
        · exact hblock ⟨hslash.1, hnext⟩

/-- Where a quote stands, a literal is found. -/
theorem nextSegment_quote {quote : Char} (h : Literal.isQuote quote = true) (t : Text) :
    nextSegment quote t =
      match Literal.close quote t with
      | some cut => (.literal (quote :: cut.1) true, cut.2)
      | none => (.literal (quote :: t) false, []) := by
  have hslash : quote ≠ '/' := by
    rintro rfl
    cases h
  unfold nextSegment
  exact (if_neg fun hline => hslash hline.1).trans
    ((if_neg fun hblock => hslash hblock.1).trans (if_pos h))

/-- **A segment that comes first is the one that is found.** -/
theorem nextSegment_of_isFirst {c : Char} {t rest : Text} {segment : Segment}
    (ht : c :: t = segment.text ++ rest) (h : segment.IsFirst rest) :
    nextSegment c t = (segment, rest) := by
  cases segment with
  | lineComment written =>
    obtain ⟨body, hbody, rfl | ⟨rfl, rfl⟩⟩ := h
    · obtain ⟨rfl, rfl⟩ := List.cons.inj ht
      have hslash : '\n' ∉ '/' :: body := List.not_mem_cons_of_ne_of_not_mem (by decide) hbody
      have hcut := cutLine_append_newline hslash rest
      rw [List.cons_append] at hcut
      simp [nextSegment, hcut]
    · obtain ⟨rfl, rfl⟩ := List.cons.inj ht
      have hslash : '\n' ∉ '/' :: body := List.not_mem_cons_of_ne_of_not_mem (by decide) hbody
      simp [nextSegment, cutLine_of_not_mem hslash]
  | blockComment written closed =>
    cases closed with
    | true =>
      obtain ⟨body, hbody, rfl⟩ := h
      obtain ⟨rfl, rfl⟩ := List.cons.inj ht
      have hcut := cutBlock_append_blockEnd hbody rest
      simp [nextSegment, blockEnd, hcut]
    | false =>
      obtain ⟨body, hbody, rfl, rfl⟩ := h
      obtain ⟨rfl, rfl⟩ := List.cons.inj ht
      simp [nextSegment, cutBlock_eq_none_iff.2 hbody]
  | literal written closed =>
    cases closed with
    | true =>
      obtain ⟨quote, body, hquote, hbody, rfl⟩ := h
      simp only [Segment.text, List.cons_append, List.append_assoc, List.nil_append,
        List.cons.injEq] at ht
      obtain ⟨rfl, rfl⟩ := ht
      rw [nextSegment_quote hquote,
        Literal.close_of_isBody (Literal.ne_backslash_of_isQuote hquote) hbody]
      rfl
    | false =>
      obtain ⟨quote, body, hquote, hbody, rfl, rfl⟩ := h
      simp only [Segment.text, List.append_nil, List.cons.injEq] at ht
      obtain ⟨rfl, rfl⟩ := ht
      rw [nextSegment_quote hquote, Literal.close_eq_none_iff.2 hbody]
  | char d =>
    obtain ⟨hquote, hslash⟩ := h
    obtain ⟨rfl, rfl⟩ := List.cons.inj ht
    rw [nextSegment, if_neg fun hline => hslash ⟨hline.1, Or.inl hline.2⟩,
      if_neg fun hblock => hslash ⟨hblock.1, Or.inr hblock.2⟩, if_neg (by simp [hquote])]

/-! ## 4. Whole texts -/

/-- Whether a text is cut, from left to right, into some segments. -/
inductive Cut : Text → List Segment → Prop where
  | nil : Cut [] []
  | cons {segment : Segment} {rest : Text} {more : List Segment} (hfirst : segment.IsFirst rest)
      (hmore : Cut rest more) : Cut (segment.text ++ rest) (segment :: more)

theorem Segment.IsFirst.text_ne_nil {segment : Segment} {rest : Text} (h : segment.IsFirst rest) :
    segment.text ≠ [] := by
  cases segment with
  | lineComment written =>
    obtain ⟨body, _, rfl | ⟨rfl, _⟩⟩ := h
    · exact List.cons_ne_nil _ _
    · exact List.cons_ne_nil _ _
  | blockComment written closed =>
    cases closed with
    | true =>
      obtain ⟨body, _, rfl⟩ := h
      exact List.cons_ne_nil _ _
    | false =>
      obtain ⟨body, _, rfl, _⟩ := h
      exact List.cons_ne_nil _ _
  | literal written closed =>
    cases closed with
    | true =>
      obtain ⟨quote, body, _, _, rfl⟩ := h
      exact List.cons_ne_nil _ _
    | false =>
      obtain ⟨quote, body, _, _, rfl, _⟩ := h
      exact List.cons_ne_nil _ _
  | char c => exact List.cons_ne_nil c []

theorem cut_segments (t : Text) : Cut t (segments t) := by
  fun_induction segments t with
  | case1 => exact .nil
  | case2 c t ih =>
    have hcut := Cut.cons (isFirst_nextSegment c t) ih
    rwa [nextSegment_append] at hcut

/-- **A text has one cut**, and it is the one that is computed. -/
theorem cut_iff {t : Text} {list : List Segment} : Cut t list ↔ list = segments t := by
  constructor
  · intro h
    induction h with
    | nil => rw [segments]
    | @cons segment rest more hfirst _ ih =>
      obtain ⟨c, u, htext⟩ := List.exists_cons_of_ne_nil
        (List.append_ne_nil_of_left_ne_nil hfirst.text_ne_nil rest)
      rw [htext, segments, nextSegment_of_isFirst htext.symm hfirst, ih]
  · rintro rfl
    exact cut_segments t

end Source

end Variants
