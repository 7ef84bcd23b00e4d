import Variants.Proofs.Header
import Variants.Proofs.Rounds
import Variants.Proofs.Splices

/-!
# Where a name ends for the tokens and for a pass

A pass replaces the name of a macro where no word goes on around it, and a token that is a name may
hold a character that belongs to no word, the dollar sign. Two characters of names stand in
different tokens only if the first one ends a number and the other one is a dollar sign
(`Token.ends_with_number`). So the two views differ at dollar signs alone: a name among the tokens
is cut by a replacement exactly where a dollar sign stands around the name that is replaced.

Main statement: `Macro.isCut_iff_of_replaces`.
-/

namespace Variants

open Token

/-! ## 1. Characters at an index -/

section Index

variable {α : Type} {x y z : List α} {i : Nat} {c : α}

/-- What stands at an index of the part in the middle is in it. -/
theorem mem_of_getElem?_middle (h : (x ++ (y ++ z))[i]? = some c) (hle : x.length ≤ i)
    (hlt : i < x.length + y.length) : c ∈ y := by
  rw [List.getElem?_append_right hle, List.getElem?_append_left (by omega)] at h
  exact List.mem_of_getElem? h

theorem getElem?_length_append (x y : List α) : (x ++ y)[x.length]? = y.head? := by
  rw [List.getElem?_append_right (Nat.le_refl _), Nat.sub_self, List.head?_eq_getElem?]

theorem getElem?_pred_length_append (hx : 0 < x.length) :
    (x ++ y)[x.length - 1]? = x.getLast? := by
  rw [List.getElem?_append_left (by omega), List.getLast?_eq_getElem?]

theorem exists_getLast? (hx : 0 < x.length) : ∃ c, x.getLast? = some c :=
  Option.isSome_iff_exists.1 (List.getLast?_isSome.2 (List.ne_nil_of_length_pos hx))

theorem exists_head? (hx : 0 < x.length) : ∃ c, x.head? = some c :=
  Option.isSome_iff_exists.1 (List.isSome_head?.2 (List.ne_nil_of_length_pos hx))

end Index

namespace Token

/-! ## 2. Two characters of names in different tokens -/

/-- **Tokens part two characters of names** only behind a number and in front of a dollar sign. -/
theorem ends_with_number {t : Text} {front back : List Item} (h : items t = front ++ back)
    {d e : Char} (hlast : (itemsText front).getLast? = some d)
    (hhead : (itemsText back).head? = some e) (hd : continuesName d = true)
    (he : continuesName e = true) :
    ∃ start lexeme, front = start ++ [.token .number lexeme] ∧ e = '$' := by
  obtain rfl | ⟨start, item, rfl⟩ := List.eq_nil_or_concat front
  · cases hlast
  rw [List.concat_eq_append, List.append_assoc, List.singleton_append] at h
  have hvalid : item.IsValid := isValid_items t item (h ▸ by simp)
  have hitem : item.text.getLast? = some d := by
    rw [List.concat_eq_append, itemsText_append, itemsText_cons, itemsText_nil, List.append_nil,
      List.getLast?_append_of_ne_nil _ (Item.text_ne_nil hvalid)] at hlast
    exact hlast
  obtain ⟨u, hback⟩ := List.head?_eq_some_iff.1 hhead
  cases item with
  | blank c =>
    obtain rfl : c = d := Option.some.inj hitem
    exact absurd hd (Bool.not_eq_true _ ▸ continuesName_of_isSpace hvalid)
  | token kind lexeme =>
    have hends := runsOn_of_keepsApart (h ▸ keepsApart_items t)
    rw [hback] at hends
    rcases eq_name_or_number hvalid hitem hd (List.cons_ne_nil e u) (Bool.not_eq_true _ ▸ hends)
      with rfl | rfl
    · exact absurd he (Bool.not_eq_true _ ▸ hends)
    · refine ⟨start, lexeme, List.concat_eq_append, Classical.byContradiction fun hdollar => ?_⟩
      -- any other character of names continues a number
      have hword := isWordChar_of_continuesName he hdollar
      have hmore : continuesNumber lexeme (e :: u) = true := by
        rcases Bool.or_eq_true_iff.1 hword with halnum | hscore
        · simp [continuesNumber, halnum]
        · simp [continuesNumber, hscore]
      exact absurd hmore (Bool.not_eq_true _ ▸ hends)

end Token

namespace Macro

/-! ## 3. Replacements -/

/-- Where a pass over a text from an offset on starts. -/
def Cursor.startAt (code : Text) (start : Nat) : Cursor := ⟨code.take start, code.drop start, 0⟩

/-- Whether the pass over a text from an offset on replaces the name and the text `call` behind it,
with `before` in front of the name and `rest` behind the call in the text as it stands then. -/
def Replaces (m : Macro) (code : Text) (start : Nat) (before call rest : Text) : Prop :=
  ∃ n cursor gap text, afterSteps (Cursor.advance m) n (.startAt code start) = some cursor ∧
    Text.cutAt m.name cursor.rest = some (gap, call ++ rest) ∧ before = cursor.done ++ gap ∧
    cursor.advance m = some ⟨before ++ text, rest, cursor.count + 1⟩

/-- Whether a stretch of a text, from `first` up to `last`, is cut by the one from `start` up to
`stop`: the two overlap, and it reaches beyond that one. -/
def IsCut (first last start stop : Nat) : Prop :=
  first < stop ∧ start < last ∧ (first < start ∨ stop < last)

instance (first last start stop : Nat) : Decidable (IsCut first last start stop) :=
  inferInstanceAs (Decidable (_ ∧ _ ∧ (_ ∨ _)))

section Replacement

variable {m : Macro} {code before call rest : Text} {start : Nat}

/-- **What is replaced** stands behind no word character, and is the name with a call in parentheses
or the name alone where no word goes on. -/
theorem of_replaces (h : m.Replaces code start before call rest) :
    startsWithWord before.reverse = false ∧
      ((∃ inside, call = '(' :: (inside ++ [')'])) ∨
        call = [] ∧ startsWithWord rest = false) := by
  obtain ⟨n, cursor, gap, text, _, hcut, rfl, hnext⟩ := h
  rw [Cursor.advance, hcut] at hnext
  dsimp only at hnext
  split at hnext
  · cases hnext
  · -- a name that is kept is not counted
    have hcount := congrArg (Option.map Cursor.count) hnext
    simp at hcount
  · rename_i new left hstep
    obtain rfl : left = rest := congrArg Cursor.rest (Option.some.inj hnext)
    obtain ⟨hword, huse⟩ := of_stepAtName_replace hstep
    refine ⟨(startsWithWord_lineAfter_nil _).symm.trans hword, ?_⟩
    rcases huse with ⟨_, group, hread, _, rfl, _⟩ | ⟨_, hends, hrest, _⟩
    · refine Or.inl ⟨group.inside, ?_⟩
      exact List.append_cancel_right (Call.text_append hread).1
    · have hcall : call = [] := List.append_cancel_right (hrest.symm.trans (List.nil_append _).symm)
      exact Or.inr ⟨hcall, by rwa [hcall, List.nil_append] at hends⟩

/-- A character of names in front of the name can only be a dollar sign. -/
theorem eq_dollar_before (h : m.Replaces code start before call rest) {c : Char}
    (hlast : before.getLast? = some c) (hc : continuesName c = true) : c = '$' := by
  refine Classical.byContradiction fun hdollar => ?_
  have hword := isWordChar_of_continuesName hc hdollar
  have hnone := (of_replaces h).1
  rw [startsWithWord, List.head?_reverse, hlast] at hnone
  exact absurd hword (Bool.not_eq_true _ ▸ hnone)

/-- A character of names behind the name can only be a dollar sign, and there is no call then. -/
theorem eq_dollar_behind (h : m.Replaces code start before call rest) {c : Char}
    (hhead : (call ++ rest).head? = some c) (hc : continuesName c = true) :
    c = '$' ∧ call = [] := by
  rcases (of_replaces h).2 with ⟨inside, rfl⟩ | ⟨rfl, hends⟩
  · obtain rfl : '(' = c := Option.some.inj hhead
    exact absurd hc (by decide)
  · refine ⟨Classical.byContradiction fun hdollar => ?_, rfl⟩
    have hword := isWordChar_of_continuesName hc hdollar
    rw [startsWithWord, show rest.head? = some c from hhead] at hends
    exact absurd hword (Bool.not_eq_true _ ▸ hends)

end Replacement

/-! ## 4. The names among the tokens -/

section Names

variable {before name behind : Text} {front back : List Item} {lexeme : Text}
  (hitems : items (before ++ (name ++ behind)) = front ++ .token .name lexeme :: back)

include hitems

/-- The text as it is made of a name among its tokens. -/
theorem eq_of_items_lexeme :
    before ++ (name ++ behind) = itemsText front ++ (lexeme ++ itemsText back) := by
  rw [← itemsText_items (before ++ (name ++ behind)), hitems, itemsText_append, itemsText_cons]
  rfl

variable (hname : ∀ c ∈ name, continuesName c = true)

include hname

omit hitems in
/-- Where tokens part within the name, with a dollar sign in front of it, a number stands before
and a dollar sign behind. -/
theorem number_of_dollar (hdollar : before.getLast? = some '$') {first second : List Item}
    (hsplit : items (before ++ (name ++ behind)) = first ++ second)
    (hfrom : before.length ≤ (itemsText first).length)
    (hto : (itemsText first).length < before.length + name.length) :
    ∃ start number, first = start ++ [.token .number number] ∧
      (itemsText second).head? = some '$' := by
  have hpos : 0 < before.length := List.length_pos_of_mem (List.mem_of_getLast? hdollar)
  have hwhole : before ++ (name ++ behind) = itemsText first ++ itemsText second := by
    rw [← itemsText_items (before ++ (name ++ behind)), hsplit, itemsText_append]
  have hlength := congrArg List.length hwhole
  simp only [List.length_append] at hlength
  obtain ⟨d, hlast⟩ := exists_getLast? (x := itemsText first) (by omega)
  obtain ⟨e, hhead⟩ := exists_head? (x := itemsText second) (by omega)
  have hatd := (getElem?_pred_length_append (y := itemsText second) (x := itemsText first)
    (by omega)).trans hlast
  have hate := (getElem?_length_append (itemsText first) (itemsText second)).trans hhead
  rw [← hwhole] at hatd hate
  have hd : continuesName d = true := by
    by_cases hi : (itemsText first).length = before.length
    · rw [hi, getElem?_pred_length_append hpos, hdollar] at hatd
      cases hatd
      decide
    · exact hname d (mem_of_getElem?_middle hatd (by omega) (by omega))
  have he : continuesName e = true := hname e (mem_of_getElem?_middle hate hfrom hto)
  obtain ⟨start, number, hfirst, rfl⟩ := ends_with_number hsplit hlast hhead hd he
  exact ⟨start, number, hfirst, hhead⟩

/-- With a dollar sign in front of the name, no name among the tokens starts in it. -/
theorem lt_of_dollar_before (hdollar : before.getLast? = some '$')
    (hlt : (itemsText front).length < before.length + name.length) :
    (itemsText front).length < before.length := by
  refine Nat.not_le.1 fun hle => ?_
  obtain ⟨start, number, rfl, _⟩ := number_of_dollar hname hdollar hitems hle hlt
  have hpos : 0 < before.length := List.length_pos_of_mem (List.mem_of_getLast? hdollar)
  have hvalid : (Item.token .number number).IsValid := isValid_items _ _ (by rw [hitems]; simp)
  have hnone := dollar_not_mem_number hvalid
  rw [List.append_assoc, List.singleton_append] at hitems
  have htext : before ++ (name ++ behind) =
      itemsText start ++ (number ++ itemsText (.token .name lexeme :: back)) := by
    rw [← itemsText_items (before ++ (name ++ behind)), hitems, itemsText_append, itemsText_cons]
    rfl
  simp only [itemsText_append, itemsText_cons, itemsText_nil, List.append_nil, Item.text,
    List.length_append] at hle hlt
  -- the number holds no dollar sign, so it starts in the name, and the text before it parts there
  have hstart : before.length ≤ (itemsText start).length := by
    refine Nat.not_lt.1 fun hbefore => hnone ?_
    have hat := (getElem?_pred_length_append (y := name ++ behind) hpos).trans hdollar
    rw [htext] at hat
    exact mem_of_getElem?_middle hat (by omega) (by omega)
  obtain ⟨_, _, _, hhead⟩ := number_of_dollar hname hdollar hitems hstart (by omega)
  obtain ⟨c, t, hnumber, _⟩ := hvalid
  rw [itemsText_cons, Item.text, hnumber] at hhead
  exact hnone (hnumber ▸ Option.some.inj hhead ▸ List.mem_cons_self)

/-- With a dollar sign behind the name, no name among the tokens ends in it. -/
theorem lt_of_dollar_behind (hdollar : behind.head? = some '$')
    (hlt : before.length < (itemsText front).length + lexeme.length) :
    before.length + name.length < (itemsText front).length + lexeme.length := by
  refine Nat.not_le.1 fun hle => ?_
  have hends := runsOn_of_keepsApart (hitems ▸ keepsApart_items (before ++ (name ++ behind)))
  have htext := eq_of_items_lexeme hitems
  rw [← List.append_assoc (itemsText front)] at htext
  have hlength := congrArg List.length htext
  have hmore : 0 < behind.length := List.length_pos_of_mem (List.mem_of_head? hdollar)
  simp only [List.length_append] at hlength
  obtain ⟨e, hhead⟩ := exists_head? (x := itemsText back) (by omega)
  have hat := (getElem?_length_append (itemsText front ++ lexeme) (itemsText back)).trans hhead
  rw [← htext, List.length_append] at hat
  have he : continuesName e = true := by
    by_cases hi : (itemsText front).length + lexeme.length = before.length + name.length
    · rw [hi, ← List.length_append, ← List.append_assoc, getElem?_length_append, hdollar] at hat
      cases hat
      decide
    · exact hname e (mem_of_getElem?_middle hat (by omega) (by omega))
  rw [runsOn, hhead] at hends
  exact absurd he (Bool.not_eq_true _ ▸ hends)

end Names

/-! ## 5. Names that are cut -/

section Cut

variable {m : Macro} {code before call rest : Text} {start : Nat}
  (h : m.Replaces code start before call rest) {front back : List Item} {lexeme : Text}
  (hitems : items (before ++ (m.name ++ (call ++ rest))) = front ++ .token .name lexeme :: back)

include h hitems

/-- A name among the tokens that is cut starts before the end of the name of the macro, and a dollar
sign stands around that one. -/
theorem dollar_of_isCut (hcut : IsCut (itemsText front).length
      ((itemsText front).length + lexeme.length) before.length
      (before.length + m.name.length + call.length)) :
    (itemsText front).length < before.length + m.name.length ∧
      (before.getLast? = some '$' ∨ (call ++ rest).head? = some '$') := by
  have hname : ∀ c ∈ lexeme, continuesName c = true :=
    continuesName_of_isValid (isValid_items _ _ (by rw [hitems]; simp))
  have htext := eq_of_items_lexeme hitems
  obtain ⟨hstop, hstart, hout⟩ := hcut
  by_cases hbefore : (itemsText front).length < before.length
  · obtain ⟨d, hlast⟩ := exists_getLast? (x := before) (by omega)
    have hat := (getElem?_pred_length_append (y := m.name ++ (call ++ rest)) (x := before)
      (by omega)).trans hlast
    rw [htext] at hat
    have hd := hname d (mem_of_getElem?_middle hat (by omega) (by omega))
    exact ⟨by omega, Or.inl (eq_dollar_before h hlast hd ▸ hlast)⟩
  · have hbehind := hout.resolve_left hbefore
    have hlength := congrArg List.length htext
    simp only [List.length_append] at hlength
    rcases (of_replaces h).2 with ⟨inside, rfl⟩ | ⟨rfl, _⟩
    · -- a name does not hold the parenthesis that closes a call
      have hclose : (before ++ (m.name ++ '(' :: (inside ++ [')']))).getLast? = some ')' := by
        simp [List.getLast?_append, List.getLast?_cons]
      have hat := (getElem?_pred_length_append (y := rest)
        (List.length_pos_of_mem (List.mem_of_getLast? hclose))).trans hclose
      rw [List.append_assoc, List.append_assoc, htext] at hat
      simp only [List.length_append] at hat hstop hbehind
      exact absurd (hname ')' (mem_of_getElem?_middle hat (by omega) (by omega))) (by decide)
    · rw [List.length_nil, Nat.add_zero] at hstop hbehind
      rw [List.length_nil, Nat.zero_add] at hlength
      obtain ⟨e, hhead⟩ := exists_head? (x := rest) (by omega)
      have hat := (getElem?_length_append (before ++ m.name) rest).trans hhead
      rw [List.append_assoc, ← List.nil_append rest, htext, List.length_append] at hat
      have he := hname e (mem_of_getElem?_middle hat (by omega) (by omega))
      exact ⟨hstop, Or.inr ((eq_dollar_behind h hhead he).1 ▸ hhead)⟩

end Cut

/-- **Where the tokens and a pass see other names.** The iterations of a pass from an offset on end
with its text and its count of uses. Whenever one of them replaces the name of the macro, only a
dollar sign can be a character of names around it; and a name among the tokens of the text as it
stands then is cut by the span that is taken out, with its call, exactly if it meets the name of the
macro and a dollar sign stands around that one. -/
theorem isCut_iff_of_replaces {definition : Text} {m : Macro} (hm : ofText? definition = some m)
    (code : Text) (start : Nat) :
    (∃ n ≤ (code.drop start).length, ∃ last,
        afterSteps (Cursor.advance m) n (.startAt code start) = some last ∧
          last.advance m = none ∧ last.text = (m.expandFrom code start).text ∧
          last.count = (m.expandFrom code start).count) ∧
      ∀ before call rest : Text, m.Replaces code start before call rest →
        (∀ c, before.getLast? = some c → continuesName c = true → c = '$') ∧
          (∀ c, (call ++ rest).head? = some c → continuesName c = true → c = '$') ∧
          ∀ (front back : List Item) (lexeme : Text),
            items (before ++ (m.name ++ (call ++ rest))) =
              front ++ .token .name lexeme :: back →
            let first := (itemsText front).length
            let last := first + lexeme.length
            IsCut first last before.length (before.length + m.name.length + call.length) ↔
              first < before.length + m.name.length ∧ before.length < last ∧
                (before.getLast? = some '$' ∨ (call ++ rest).head? = some '$') := by
  constructor
  · obtain ⟨n, hle, last, hlast, hend, hsame⟩ := Cursor.exists_iterations m (.startAt code start)
    obtain ⟨htext, hcount⟩ := Prod.mk.inj hsame
    exact ⟨n, hle, last, hlast, hend, htext, hcount.trans (Nat.zero_add _)⟩
  · intro before call rest h
    refine ⟨fun c => eq_dollar_before h, fun c hhead hc => (eq_dollar_behind h hhead hc).1, ?_⟩
    intro front back lexeme hitems first last
    have hname := continuesName_of_mem hm
    refine ⟨fun hcut => ?_, fun ⟨hin, hmeets, hdollar⟩ => ⟨by omega, hmeets, ?_⟩⟩
    · obtain ⟨hin, hdollar⟩ := dollar_of_isCut h hitems hcut
      exact ⟨hin, hcut.2.1, hdollar⟩
    · rcases hdollar with hbefore | hbehind
      · exact Or.inl (lt_of_dollar_before hitems hname hbefore hin)
      · have hcall := (eq_dollar_behind h hbehind (by decide)).2
        rw [hcall, List.length_nil, Nat.add_zero]
        exact Or.inr (lt_of_dollar_behind hitems hname hbehind hmeets)

/-- A name among the tokens that is cut at its end, and one that is taken out as a whole. -/
theorem isCut_iff_of_replaces_dollar : ∃ m, ofText? " X y".toList = some m ∧
    m.Replaces "X a$X\n".toList 0 "y a$".toList [] "\n".toList ∧ IsCut 2 5 4 5 ∧
    m.Replaces "X a$X\n".toList 0 [] [] " a$X\n".toList ∧ ¬ IsCut 0 1 0 1 := by
  have hm : ofText? " X y".toList = some ⟨['X'], [], [⟨.name, ['y'], ⟨1, 4⟩⟩]⟩ := by
    decide +kernel
  have hfirst : (⟨['X'], [], [⟨.name, ['y'], ⟨1, 4⟩⟩]⟩ : Macro).Replaces "X a$X\n".toList 0 [] []
      " a$X\n".toList :=
    ⟨0, ⟨[], "X a$X\n".toList, 0⟩, [], ['y'], rfl, by decide +kernel, rfl, by decide +kernel⟩
  have hmore : (⟨['X'], [], [⟨.name, ['y'], ⟨1, 4⟩⟩]⟩ : Macro).Replaces "X a$X\n".toList 0
      "y a$".toList [] "\n".toList :=
    ⟨1, ⟨['y'], " a$X\n".toList, 1⟩, " a$".toList, ['y'], by decide +kernel, by decide +kernel, rfl,
      by decide +kernel⟩
  have hreplaces := (isCut_iff_of_replaces hm "X a$X\n".toList 0).2
  have hwhole := (hreplaces _ _ _ hfirst).2.2 []
    [.blank ' ', .token .name "a$X".toList, .blank '\n'] ['X'] (by decide +kernel)
  have hcut := (hreplaces _ _ _ hmore).2.2 [.token .name ['y'], .blank ' '] [.blank '\n']
    "a$X".toList (by decide +kernel)
  exact ⟨_, hm, hmore, hcut.2 (by decide), hfirst, fun h => absurd (hwhole.1 h) (by decide)⟩

/-- A name is replaced behind a dollar sign and in front of one, which for the tokens stand in
longer names. -/
theorem replaces_in_name : continuesName '$' = true ∧ ∃ m, ofText? " X y".toList = some m ∧
    m.Replaces "a$X\n".toList 0 "a$".toList [] "\n".toList ∧
    (tokens "a$X\n".toList).map shape = [(.name, "a$X".toList)] ∧
    (m.expandFrom "a$X\n".toList 0).text = "a$y\n".toList ∧
    m.Replaces "X$a\n".toList 0 [] [] "$a\n".toList ∧
    (tokens "X$a\n".toList).map shape = [(.name, "X$a".toList)] ∧
    (m.expandFrom "X$a\n".toList 0).text = "y$a\n".toList := by
  have hm : ofText? " X y".toList = some ⟨['X'], [], [⟨.name, ['y'], ⟨1, 4⟩⟩]⟩ := by decide +kernel
  refine ⟨by decide, _, hm, ?_, by decide +kernel, by decide +kernel, ?_, by decide +kernel,
    by decide +kernel⟩
  · exact ⟨0, ⟨[], "a$X\n".toList, 0⟩, "a$".toList, ['y'], rfl, by decide +kernel, rfl,
      by decide +kernel⟩
  · exact ⟨0, ⟨[], "X$a\n".toList, 0⟩, [], ['y'], rfl, by decide +kernel, rfl, by decide +kernel⟩

end Macro

end Variants
