import Variants.Proofs.Brackets
import Variants.Proofs.Substitution

/-!
# The tokens of a call

A call is read from its characters, and a bracket or a comma of a literal counts like any other. The
reading of this file goes by the tokens: only the punctuators `(`, `)` and `,` open, close and part
(`Call.readItems?`).

All tokens but literals mean the same to both readings (`Token.eq_mark_of_mem`). So the readings are
equal exactly when the literals do not shift the depth of the parentheses at a place where it counts
(`Call.Agree`, `Call.read?_eq_readItems?_iff`).
-/

namespace Variants

open Token

namespace Token

/-! ## 1. Brackets and commas -/

/-- The characters that make up a call. -/
def marks : Text := ['(', ')', ',']

theorem mem_marks_iff {c : Char} : c ∈ marks ↔ c = '(' ∨ c = ')' ∨ c = ',' := by
  simp [marks]

/-- The punctuator of one character. -/
def Item.mark (c : Char) : Item := .token .punctuator [c]

/-- Whether an item is a string or a character literal. -/
def Item.isLiteral : Item → Bool
  | .blank _ => false
  | .token kind _ => kind == .string || kind == .character

/-- Whether an item is a literal with a bracket or a comma in it. -/
def Item.hidesMark (item : Item) : Bool := item.isLiteral && item.text.any fun c => marks.contains c

/-- **Outside the literals, brackets and commas are tokens.** -/
theorem eq_mark_of_mem {item : Item} {c : Char} (h : item.IsValid)
    (hliteral : item.isLiteral = false) (hc : c ∈ marks) (hmem : c ∈ item.text) :
    item = .mark c := by
  obtain ⟨hspace, hdigit, hnumber, hname, hlong⟩ : Text.isSpace c = false ∧
      Text.isDigit c = false ∧ isNumberChar c = false ∧ continuesName c = false ∧
      ∀ mark ∈ longPunctuators, c ∉ mark := by
    rcases mem_marks_iff.1 hc with rfl | rfl | rfl
    · decide
    · decide
    · decide
  cases item with
  | blank d =>
    obtain rfl := List.mem_singleton.1 hmem
    cases hspace.symm.trans h
  | token kind lexeme =>
    obtain ⟨d, t, rfl, _, hscan⟩ := h
    have hwhole := hscan
    unfold scan at hscan
    split at hscan
    · cases (Prod.mk.inj hscan).1
      cases hliteral
    split at hscan
    · cases (Prod.mk.inj hscan).1
      cases hliteral
    split at hscan
    · rename_i hstart
      exact absurd hmem (not_mem_number hdigit hnumber hstart (Prod.mk.inj hscan).2)
    split at hscan
    · obtain ⟨rfl, _⟩ := Prod.mk.inj hscan
      obtain ⟨hstart, hmore⟩ := of_scan_name hwhole
      rcases List.mem_cons.1 hmem with rfl | hin
      · rw [continuesName, hstart] at hname
        cases hname
      · cases hname.symm.trans (hmore c hin)
    · obtain ⟨rfl, hlength⟩ := Prod.mk.inj hscan
      exact congrArg (Item.token .punctuator) (eq_of_mem_punctuator hlong hlength hmem)

/-- A bracket or a comma is a token by itself, whatever follows it. -/
theorem scan_mark {c : Char} (h : c ∈ marks) (t : Text) : scan c t = (.punctuator, 0) := by
  obtain ⟨hdouble, hsingle, hpoint, hdigit, hname, hlong⟩ : c ≠ '"' ∧ c ≠ '\'' ∧ c ≠ '.' ∧
      Text.isDigit c = false ∧ startsName c = false ∧
      ∀ mark ∈ longPunctuators, mark ≠ [] ∧ mark.head? ≠ some c := by
    rcases mem_marks_iff.1 h with rfl | rfl | rfl
    · decide
    · decide
    · decide
  have hshort : punctuatorLength (c :: t) = 1 := by
    rcases punctuatorLength_eq (c :: t) with hone | ⟨mark, hmark, hfound, _⟩
    · exact hone
    · obtain ⟨hne, hhead⟩ := hlong mark hmark
      rcases List.prefix_cons_iff.1 (List.isPrefixOf_iff_prefix.1 hfound) with rfl | ⟨u, rfl, _⟩
      · exact absurd rfl hne
      · exact absurd rfl hhead
  simp [scan, hdouble, hsingle, hpoint, hdigit, hname, hshort]

end Token

namespace Macro.Call

/-! ## 2. Reading a call from its tokens -/

/-- Reads a call from the items behind its opening parenthesis, or from a place among them that
stands in `depth` inner parentheses. Only tokens open, close or part it. -/
def readItems (depth : Nat) : List Item → Option Call
  | [] => none
  | item :: rest =>
    if item = .mark '(' then (readItems (depth + 1) rest).map (pushText item.text)
    else if item = .mark ')' then
      match depth with
      | 0 => some ⟨[[]], itemsText rest⟩
      | inner + 1 => (readItems inner rest).map (pushText item.text)
    else if item = .mark ',' ∧ depth = 0 then
      (readItems depth rest).map fun call => ⟨[] :: call.pieces, call.rest⟩
    else (readItems depth rest).map (pushText item.text)

/-- Reads a call from the items of a text, the first of which has to be its opening parenthesis. -/
def readItems? : List Item → Option Call
  | [] => none
  | item :: rest => if item = .mark '(' then readItems 0 rest else none

/-- Whether the characters and the tokens of some items make the same of them, where the characters
before have left `depth` inner parentheses open and the tokens `level`: a closing parenthesis or a
comma that is a token stands in inner parentheses for both or for neither, until it ends the call,
and no literal ends or parts the call of the characters. -/
def Agree (depth level : Nat) : List Item → Prop
  | [] => True
  | item :: rest =>
    if item = .mark '(' then Agree (depth + 1) (level + 1) rest
    else if item = .mark ')' then
      match depth, level with
      | 0, 0 => True
      | outer + 1, inner + 1 => Agree outer inner rest
      | _, _ => False
    else if item = .mark ',' then (depth = 0 ↔ level = 0) ∧ Agree depth level rest
    else if item.isLiteral then
      match depthAfter depth item.text with
      | none => False
      | some after => Agree after level rest
    else Agree depth level rest

/-- Only a literal can shift the depth of the characters. -/
theorem agree_cons_of_ne {item : Item} (hopen : item ≠ .mark '(') (hclose : item ≠ .mark ')')
    (hcomma : item ≠ .mark ',') (depth level : Nat) (rest : List Item) :
    Agree depth level (item :: rest) ↔
      if item.isLiteral then
        match depthAfter depth item.text with
        | none => False
        | some after => Agree after level rest
      else Agree depth level rest := by
  simp only [Agree, if_neg hopen, if_neg hclose, if_neg hcomma]

/-! ## 3. The first piece -/

theorem pushText_injective (s : Text) : Function.Injective (pushText s) := by
  rintro ⟨pieces, rest⟩ ⟨pieces', rest'⟩ h
  obtain ⟨hpieces, rfl⟩ := Call.mk.inj h
  cases pieces with
  | nil =>
    cases pieces' with
    | nil => rfl
    | cons piece' more' => cases hpieces
  | cons piece more =>
    cases pieces' with
    | nil => cases hpieces
    | cons piece' more' =>
      obtain ⟨hpiece, rfl⟩ := List.cons.inj hpieces
      rw [List.append_cancel_left hpiece]

/-- A text that belongs to the first piece makes it as long. -/
theorem le_length_of_pushText {s first : Text} {call : Call}
    (h : (pushText s call).pieces.head? = some first) : s.length ≤ first.length := by
  obtain ⟨pieces, rest⟩ := call
  cases pieces with
  | nil => cases h
  | cons piece more =>
    cases h
    rw [List.length_append]
    exact Nat.le_add_right _ _

/-- **A text that ends or parts the call** holds more than the first piece. -/
theorem length_lt_of_depthAfter {depth : Nat} {s t : Text} {call : Call}
    (h : depthAfter depth s = none) (hcall : readFrom depth (s ++ t) = some call) :
    ∃ first, call.pieces.head? = some first ∧ first.length < s.length := by
  have hpush {c : Char} {s : Text} {inner : Call}
      (hinner : ∃ first, inner.pieces.head? = some first ∧ first.length < s.length) :
      ∃ first, (push c inner).pieces.head? = some first ∧ first.length < (c :: s).length := by
    obtain ⟨first, hfirst, hlt⟩ := hinner
    refine ⟨c :: first, ?_, Nat.succ_lt_succ hlt⟩
    rw [push, List.head?_modifyHead, hfirst]
    rfl
  fun_induction depthAfter depth s generalizing call with
  | case1 => cases h
  | case2 depth s ih =>
    simp only [List.cons_append, readFrom, if_pos] at hcall
    obtain ⟨inner, hin, rfl⟩ := Option.map_eq_some_iff.1 hcall
    exact hpush (ih h hin)
  | case3 s hopen =>
    simp only [List.cons_append, readFrom, if_neg hopen, if_pos] at hcall
    cases hcall
    exact ⟨[], rfl, Nat.succ_pos _⟩
  | case4 s inner hopen ih =>
    simp only [List.cons_append, readFrom, if_neg hopen, if_pos] at hcall
    obtain ⟨inside, hin, rfl⟩ := Option.map_eq_some_iff.1 hcall
    exact hpush (ih h hin)
  | case5 depth c s hopen hclose hcomma =>
    simp only [List.cons_append, readFrom, if_neg hopen, if_neg hclose, if_pos hcomma] at hcall
    obtain ⟨inner, hin, rfl⟩ := Option.map_eq_some_iff.1 hcall
    exact ⟨[], rfl, Nat.succ_pos _⟩
  | case6 depth c s hopen hclose hcomma ih =>
    simp only [List.cons_append, readFrom, if_neg hopen, if_neg hclose, if_neg hcomma] at hcall
    obtain ⟨inner, hin, rfl⟩ := Option.map_eq_some_iff.1 hcall
    exact hpush (ih h hin)

/-! ## 4. The two readings -/

/-- Whether two readings are the same exactly where `p` holds or neither finds the end of a call. -/
def EqualWhen (p : Prop) (x y : Option Call) : Prop := x = y ↔ (x = none ∧ y = none) ∨ p

namespace EqualWhen

variable {p : Prop} {x y : Option Call}

theorem of_eq (h : x = y) (hp : p) : EqualWhen p x y := iff_of_true h (Or.inr hp)

theorem of_ne (h : ∀ call, x = some call → y ≠ some call) (hp : ¬ p) : EqualWhen p x y := by
  refine ⟨fun heq => Or.inl ?_, fun hor => ?_⟩
  · cases x with
    | none => exact ⟨rfl, heq.symm⟩
    | some call => exact absurd heq.symm (h call rfl)
  · obtain ⟨hx, hy⟩ := hor.resolve_right hp
    rw [hx, hy]

theorem map {f : Call → Call} (hf : Function.Injective f) (h : EqualWhen p x y) :
    EqualWhen p (x.map f) (y.map f) := by
  rw [EqualWhen, (Option.map_injective hf).eq_iff, Option.map_eq_none_iff, Option.map_eq_none_iff]
  exact h

end EqualWhen

/-- Whether the characters and the tokens of some items are read as the same call where they agree,
and only there. -/
def SameReading (depth level : Nat) (items : List Item) : Prop :=
  EqualWhen (Agree depth level items) (readFrom depth (itemsText items)) (readItems level items)

section Readings

variable {depth level after inner : Nat} {item : Item} {rest : List Item}

/-- An item that belongs to the first piece in both readings. -/
theorem sameReading_of_both (hdepth : depthAfter depth item.text = some after)
    (hlevel : readItems level (item :: rest) = (readItems inner rest).map (pushText item.text))
    (hagree : Agree depth level (item :: rest) ↔ Agree after inner rest)
    (h : SameReading after inner rest) : SameReading depth level (item :: rest) := by
  rw [SameReading, itemsText_cons, readFrom_of_depthAfter hdepth, hlevel, propext hagree]
  exact EqualWhen.map (pushText_injective _) h

/-- An item in which only the characters end or part the call. -/
theorem sameReading_of_tokens (inner : Nat) (hdepth : depthAfter depth item.text = none)
    (hlevel : readItems level (item :: rest) = (readItems inner rest).map (pushText item.text))
    (hagree : ¬ Agree depth level (item :: rest)) : SameReading depth level (item :: rest) := by
  refine EqualWhen.of_ne (fun call hcall hitems => ?_) hagree
  rw [itemsText_cons] at hcall
  obtain ⟨first, hfirst, hlt⟩ := length_lt_of_depthAfter hdepth hcall
  rw [hlevel] at hitems
  obtain ⟨inside, _, rfl⟩ := Option.map_eq_some_iff.1 hitems
  exact Nat.not_le_of_lt hlt (le_length_of_pushText hfirst)

/-- An item that ends or parts the call as a token only. -/
theorem sameReading_of_characters (hitem : item.IsValid) (after : Nat)
    (hdepth : depthAfter depth item.text = some after)
    (hlevel : ∀ call, readItems level (item :: rest) = some call → call.pieces.head? = some [])
    (hagree : ¬ Agree depth level (item :: rest)) : SameReading depth level (item :: rest) := by
  refine EqualWhen.of_ne (fun call hcall hitems => ?_) hagree
  rw [itemsText_cons, readFrom_of_depthAfter hdepth] at hcall
  have hhead := hlevel call hitems
  obtain ⟨inside, _, rfl⟩ := Option.map_eq_some_iff.1 hcall
  have hle := le_length_of_pushText hhead
  exact Item.text_ne_nil hitem (List.eq_nil_of_length_eq_zero (Nat.le_zero.1 hle))

end Readings

/-- Starts a new piece in front. -/
theorem sameReading_comma {rest : List Item} (h : SameReading 0 0 rest) :
    SameReading 0 0 (.mark ',' :: rest) := by
  have hpart : Function.Injective fun call : Call => (⟨[] :: call.pieces, call.rest⟩ : Call) := by
    rintro ⟨pieces, rest⟩ ⟨pieces', rest'⟩ h
    cases h
    rfl
  have hagree : Agree 0 0 (.mark ',' :: rest) ↔ Agree 0 0 rest := and_iff_right Iff.rfl
  rw [SameReading, propext hagree]
  exact EqualWhen.map hpart h

/-- **The characters and the tokens of a call** are read as the same exactly where they agree. -/
theorem sameReading {its : List Item} (h : ∀ item ∈ its, item.IsValid) (depth level : Nat) :
    SameReading depth level its := by
  induction its generalizing depth level with
  | nil => exact EqualWhen.of_eq rfl trivial
  | cons item rest ih =>
    obtain ⟨hitem, hrest⟩ := List.forall_mem_cons.1 h
    replace ih := ih hrest
    by_cases hopen : item = .mark '('
    · subst hopen
      exact sameReading_of_both rfl rfl Iff.rfl (ih (depth + 1) (level + 1))
    by_cases hclose : item = .mark ')'
    · subst hclose
      cases depth with
      | zero =>
        cases level with
        | zero => exact EqualWhen.of_eq rfl trivial
        | succ inner => exact sameReading_of_tokens inner rfl rfl id
      | succ outer =>
        cases level with
        | zero =>
          exact sameReading_of_characters hitem outer rfl
            (fun call hcall => by cases hcall; rfl) id
        | succ inner => exact sameReading_of_both rfl rfl Iff.rfl (ih outer inner)
    by_cases hcomma : item = .mark ','
    · subst hcomma
      cases depth with
      | zero =>
        cases level with
        | zero => exact sameReading_comma (ih 0 0)
        | succ inner =>
          exact sameReading_of_tokens (inner + 1) rfl rfl fun h => nomatch h.1.1 rfl
      | succ outer =>
        cases level with
        | zero =>
          refine sameReading_of_characters hitem (outer + 1) rfl (fun call hcall => ?_)
            fun h => nomatch h.1.2 rfl
          obtain ⟨inside, _, rfl⟩ := Option.map_eq_some_iff.1 hcall
          rfl
        | succ inner =>
          exact sameReading_of_both rfl rfl
            (and_iff_right (iff_of_false (Nat.succ_ne_zero _) (Nat.succ_ne_zero _)))
            (ih (outer + 1) (inner + 1))
    have hlevel : readItems level (item :: rest) =
        (readItems level rest).map (pushText item.text) := by
      simp only [readItems, if_neg hopen, if_neg hclose, hcomma, false_and, if_false]
    have hagree := agree_cons_of_ne hopen hclose hcomma depth level rest
    cases hliteral : item.isLiteral with
    | false =>
      have hplain : depthAfter depth item.text = some depth := by
        refine depthAfter_of_plain (fun c hc => ⟨?_, ?_, ?_⟩) depth
        · rintro rfl
          exact hopen (eq_mark_of_mem hitem hliteral (by decide) hc)
        · rintro rfl
          exact hclose (eq_mark_of_mem hitem hliteral (by decide) hc)
        · rintro rfl
          exact hcomma (eq_mark_of_mem hitem hliteral (by decide) hc)
      rw [hliteral] at hagree
      exact sameReading_of_both hplain hlevel hagree (ih depth level)
    | true =>
      rw [hliteral] at hagree
      cases hdepth : depthAfter depth item.text with
      | none =>
        rw [hdepth] at hagree
        exact sameReading_of_tokens level hdepth hlevel hagree.1
      | some after =>
        rw [hdepth] at hagree
        exact sameReading_of_both hdepth hlevel hagree (ih after level)

/-! ## 5. Calls in a text -/

/-- An opening parenthesis is a token wherever a text starts with one. -/
theorem items_paren (t : Text) : items ('(' :: t) = .mark '(' :: items t := by
  have hspace : ¬ Text.isSpace '(' = true := by decide
  rw [items, if_neg hspace, scan_mark (by decide)]
  rfl

theorem read?_readItems? (t : Text) :
    EqualWhen (Agree 0 0 (items t).tail) (read? t) (readItems? (items t)) := by
  cases t with
  | nil =>
    rw [items]
    exact EqualWhen.of_eq rfl trivial
  | cons c t =>
    by_cases hc : c = '('
    · subst hc
      have h := sameReading (isValid_items t) 0 0
      rw [SameReading, itemsText_items] at h
      rw [items_paren]
      exact h
    · have hread : read? (c :: t) = none := if_neg hc
      have hitems : readItems? (items (c :: t)) = none := by
        rw [items]
        split
        · have hblank : Item.blank c ≠ .token .punctuator ['('] := fun h => by cases h
          rw [readItems?]
          exact if_neg hblank
        · exact if_neg fun h => hc (List.cons.inj (Item.token.inj h).2).1
      exact iff_of_true (hread.trans hitems.symm) (Or.inl ⟨hread, hitems⟩)

/-- The readings agree where no literal holds a bracket or a comma. -/
theorem agree_of_plain {its : List Item} (h : ∀ item ∈ its, item.hidesMark = false)
    (depth : Nat) : Agree depth depth its := by
  induction its generalizing depth with
  | nil => trivial
  | cons item rest ih =>
    obtain ⟨hitem, hrest⟩ := List.forall_mem_cons.1 h
    replace ih := ih hrest
    by_cases hopen : item = .mark '('
    · subst hopen
      exact ih (depth + 1)
    by_cases hclose : item = .mark ')'
    · subst hclose
      cases depth with
      | zero => trivial
      | succ inner => exact ih inner
    by_cases hcomma : item = .mark ','
    · subst hcomma
      exact ⟨Iff.rfl, ih depth⟩
    rw [agree_cons_of_ne hopen hclose hcomma]
    split
    · rename_i hliteral
      have hplain : ∀ c ∈ item.text, c ≠ '(' ∧ c ≠ ')' ∧ c ≠ ',' := by
        simpa [Item.hidesMark, hliteral, marks] using hitem
      rw [depthAfter_of_plain hplain]
      exact ih depth
    · exact ih depth

/-- **Brackets and commas in literals.** A call is read from its characters as it is read from its
tokens exactly where no literal of it makes a difference, or where no end of it is found in either
way; and so wherever no literal holds a bracket or a comma. -/
theorem read?_eq_readItems?_iff (code : Text) (index : Nat) :
    (read? (code.drop index) = readItems? (items (code.drop index)) ↔
      (read? (code.drop index) = none ∧ readItems? (items (code.drop index)) = none) ∨
        Agree 0 0 (items (code.drop index)).tail) ∧
      ((∀ item ∈ items (code.drop index), item.hidesMark = false) →
        read? (code.drop index) = readItems? (items (code.drop index))) := by
  have h := read?_readItems? (code.drop index)
  refine ⟨h, fun hplain => h.2 (Or.inr (agree_of_plain (fun item hitem => ?_) 0))⟩
  exact hplain item (List.mem_of_mem_tail hitem)

/-- A call with a call and with literals in it. -/
theorem read?_eq_readItems?_call :
    (∀ item ∈ items ("F(g(1, 2), \"a b\", \';\') + 1".toList.drop 1), item.hidesMark = false) ∧
    read? ("F(g(1, 2), \"a b\", \';\') + 1".toList.drop 1) =
      readItems? (items ("F(g(1, 2), \"a b\", \';\') + 1".toList.drop 1)) := by
  have hplain : ∀ item ∈ items ("F(g(1, 2), \"a b\", \';\') + 1".toList.drop 1),
      item.hidesMark = false := by decide +kernel
  exact ⟨hplain, (read?_eq_readItems?_iff _ 1).2 hplain⟩

/-- A comma, an opening and a closing parenthesis in a literal: the characters part the call there,
find no end of it, or end it too early. -/
theorem read?_ne_readItems? :
    (read? "(\",\")".toList = some ⟨["\"".toList, "\"".toList], []⟩ ∧
        readItems? (items "(\",\")".toList) = some ⟨["\",\"".toList], []⟩) ∧
      (read? "(\"(\")".toList = none ∧
        readItems? (items "(\"(\")".toList) = some ⟨["\"(\"".toList], []⟩) ∧
      (read? "(\")\")".toList = some ⟨["\"".toList], "\")".toList⟩ ∧
        readItems? (items "(\")\")".toList) = some ⟨["\")\"".toList], []⟩) := by
  decide +kernel

end Macro.Call

end Variants
