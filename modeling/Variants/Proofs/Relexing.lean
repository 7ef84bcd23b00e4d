import Variants.Proofs.TextLines
import Variants.Token.Scanner

/-!
# Tokens that are written one after the other

A text that is put together from tokens need not have these tokens: the reader takes what is
longest, and two tokens without a gap may come out as one. A token runs on into the text behind it
(`Token.runsOn`)

* if it is a name and the text goes on with a character of names,
* if it is a number and the text goes on with one of numbers, such as a sign behind an exponent,
* if it is a punctuator that starts a longer one there, or the point before a digit,
* if it is a literal without its closing quote.

For each kind there is a lemma on how far the reader goes with more text behind the token, and
`scan_append_iff` puts them together. The blanks and tokens of a text are its items, and items have
the tokens that they are written with exactly when none of them runs on (`shapes_itemsText_iff`).
-/

namespace Variants

/-! ## 1. Literals before more text -/

namespace Literal

/-- A closed literal stays what it is. -/
theorem close_append_right {quote : Char} {t : Text} {cut : Text × Text}
    (h : close quote t = some cut) (u : Text) :
    close quote (t ++ u) = some (cut.1, cut.2 ++ u) := by
  fun_induction close quote t generalizing cut with
  | case1 => cases h
  | case2 => cases h
  | case3 d t ih =>
    obtain ⟨inner, hin, rfl⟩ := Option.map_eq_some_iff.1 h
    rw [List.cons_append, List.cons_append, close, if_pos rfl, ih hin]
    rfl
  | case4 t hback =>
    cases h
    rw [List.cons_append, close.eq_def]
    simp only [if_neg hback, if_pos]
  | case5 c t hback hquote ih =>
    obtain ⟨inner, hin, rfl⟩ := Option.map_eq_some_iff.1 h
    rw [List.cons_append, close.eq_def]
    simp only [if_neg hback, if_neg hquote, ih hin, Option.map_some]

/-- A closed literal ends with its quote. -/
theorem getLast?_of_close {quote : Char} {t : Text} {cut : Text × Text}
    (h : close quote t = some cut) : cut.1.getLast? = some quote := by
  have hcons {c : Char} {s : Text} (hs : s.getLast? = some quote) :
      (c :: s).getLast? = some quote := by
    rw [← List.singleton_append, List.getLast?_append, hs, Option.some_or]
  fun_induction close quote t generalizing cut with
  | case1 => cases h
  | case2 => cases h
  | case3 d t ih =>
    obtain ⟨inner, hin, rfl⟩ := Option.map_eq_some_iff.1 h
    exact hcons (hcons (ih hin))
  | case4 =>
    cases h
    rfl
  | case5 c t hback hquote ih =>
    obtain ⟨inner, hin, rfl⟩ := Option.map_eq_some_iff.1 h
    exact hcons (ih hin)

/-- One that is not closed takes in some of the text behind it. -/
theorem length_lt_of_close_append {quote : Char} {t u : Text} {cut : Text × Text}
    (ht : close quote t = none) (h : close quote (t ++ u) = some cut) :
    t.length < cut.1.length := by
  fun_induction close quote t generalizing cut with
  | case1 =>
    exact List.length_pos_of_mem (List.mem_of_getLast? (getLast?_of_close h))
  | case2 =>
    cases u with
    | nil => cases h
    | cons d u =>
      rw [List.cons_append, List.nil_append, close, if_pos rfl] at h
      obtain ⟨inner, _, rfl⟩ := Option.map_eq_some_iff.1 h
      exact Nat.succ_lt_succ (Nat.zero_lt_succ _)
  | case3 d t ih =>
    rw [List.cons_append, List.cons_append, close, if_pos rfl] at h
    obtain ⟨inner, hin, rfl⟩ := Option.map_eq_some_iff.1 h
    exact Nat.succ_lt_succ (Nat.succ_lt_succ (ih (Option.map_eq_none_iff.1 ht) hin))
  | case4 t hback => cases ht
  | case5 c t hback hquote ih =>
    rw [List.cons_append, close.eq_def] at h
    simp only [if_neg hback, if_neg hquote] at h
    obtain ⟨inner, hin, rfl⟩ := Option.map_eq_some_iff.1 h
    exact Nat.succ_lt_succ (ih (Option.map_eq_none_iff.1 ht) hin)

/-- **A literal before more text** is the literal alone, unless it is not closed. -/
theorem length_append_iff (quote : Char) (t u : Text) :
    length quote (t ++ u) = t.length ↔
      length quote t = t.length ∧ ¬ (u ≠ [] ∧ close quote t = none) := by
  unfold length
  cases ht : close quote t with
  | some cut =>
    rw [close_append_right ht u]
    exact ⟨fun h => ⟨h, fun hnone => nomatch hnone.2⟩, fun h => h.1⟩
  | none =>
    cases htu : close quote (t ++ u) with
    | some cut =>
      have hlt := length_lt_of_close_append ht htu
      refine ⟨fun h => absurd h (Nat.ne_of_gt hlt), fun h => absurd ⟨?_, rfl⟩ h.2⟩
      rintro rfl
      rw [List.append_nil, ht] at htu
      cases htu
    | none =>
      refine ⟨fun h => ⟨rfl, fun hu => hu.1 ?_⟩, fun h => ?_⟩
      · dsimp only at h
        rw [List.length_append] at h
        exact List.eq_nil_of_length_eq_zero (by omega)
      · have hu : u = [] := Classical.byContradiction fun hu => h.2 ⟨hu, rfl⟩
        rw [hu, List.append_nil]

/-- Whether a literal has its closing quote. -/
def isClosed : Text → Bool
  | [] => true
  | quote :: t => (close quote t).isSome

end Literal

namespace Token

/-! ## 2. Names, numbers and punctuators before more text -/

theorem length_takeWhile_append_iff (p : Char → Bool) (t u : Text) :
    ((t ++ u).takeWhile p).length = t.length ↔
      (t.takeWhile p).length = t.length ∧ ¬ u.head?.any p = true := by
  induction t with
  | nil =>
    cases u with
    | nil => simp
    | cons c u => by_cases hc : p c = true <;> simp [hc]
  | cons c t ih =>
    by_cases hc : p c = true
    · simp only [List.cons_append, List.takeWhile_cons_of_pos hc, List.length_cons,
        Nat.add_right_cancel_iff, ih]
    · simp [hc]

/-- Whether a number goes on in the text behind it. -/
def continuesNumber (t u : Text) : Bool :=
  u.head?.any fun c => Text.isAlnum c || c == '.' || c == '_' ||
    (t.getLast?.any isExponent && (c == '+' || c == '-'))

/-- A sign continues a number behind an exponent letter only. -/
theorem continuesNumber_cons {c : Char} {t : Text} (h : t ≠ [] ∨ isExponent c = false) (u : Text) :
    continuesNumber (c :: t) u = continuesNumber t u := by
  have hlast : (c :: t).getLast?.any isExponent = t.getLast?.any isExponent := by
    cases t with
    | nil => exact h.resolve_left fun hne => hne rfl
    | cons d t => rw [List.getLast?_cons_cons]
  rw [continuesNumber, continuesNumber, hlast]

theorem numberLength_eq_zero_iff (u : Text) :
    numberLength u = 0 ↔ ¬ continuesNumber [] u = true := by
  cases u with
  | nil => simp [numberLength, continuesNumber]
  | cons c u =>
    have hnext : continuesNumber [] (c :: u) = (Text.isAlnum c || c == '.' || c == '_') := by
      simp [continuesNumber]
    rw [hnext, numberLength.eq_def]
    by_cases hc : isExponent c = true
    · rw [(of_isExponent hc).1]
      simp only [if_pos hc]
      cases u with
      | nil => simp
      | cons d u => by_cases hd : d = '+' ∨ d = '-' <;> simp [hd]
    · simp only [if_neg hc]
      by_cases hmore : (Text.isAlnum c || c == '.' || c == '_') = true
      · simp [hmore]
      · simp [hmore]

/-- **A number before more text** is the number alone, unless it goes on there. -/
theorem numberLength_append_iff (t u : Text) :
    numberLength (t ++ u) = t.length ↔
      numberLength t = t.length ∧ ¬ continuesNumber t u = true := by
  fun_induction numberLength t with
  | case1 =>
    rw [List.nil_append, List.length_nil, numberLength_eq_zero_iff]
    exact ⟨fun h => ⟨rfl, h⟩, fun h => h.2⟩
  | case2 c hc =>
    cases u with
    | nil => simp [numberLength, hc, continuesNumber]
    | cons d u =>
      rw [List.cons_append, List.nil_append, numberLength, if_pos hc]
      by_cases hd : d = '+' ∨ d = '-'
      · have hsign : continuesNumber [c] (d :: u) = true := by
          rcases hd with rfl | rfl
          · simp [continuesNumber, hc]
          · simp [continuesNumber, hc]
        simp [hd, hsign]
      · have hplain : continuesNumber [c] (d :: u) = continuesNumber [] (d :: u) := by
          simp [continuesNumber, not_or.1 hd]
        rw [hplain, ← numberLength_eq_zero_iff]
        simp [hd]
  | case3 c hc d v hd ih =>
    have hsign : isExponent d = false := by
      rcases hd with rfl | rfl
      · rfl
      · rfl
    rw [List.cons_append, List.cons_append, numberLength, if_pos hc,
      continuesNumber_cons (Or.inl (List.cons_ne_nil d v)), continuesNumber_cons (Or.inr hsign)]
    simp only [if_pos hd, List.length_cons, Nat.add_right_cancel_iff]
    exact ih
  | case4 c hc d v hd ih =>
    rw [List.cons_append, List.cons_append, numberLength, if_pos hc,
      continuesNumber_cons (Or.inl (List.cons_ne_nil d v))]
    simp only [if_neg hd, List.length_cons, Nat.add_right_cancel_iff]
    exact ih
  | case5 c t hc hmore ih =>
    rw [List.cons_append, numberLength.eq_def, continuesNumber_cons (Or.inr (by simpa using hc))]
    simp only [if_neg hc, if_pos hmore, List.length_cons, Nat.add_right_cancel_iff]
    exact ih
  | case6 c t hc hmore =>
    rw [List.cons_append, numberLength.eq_def]
    simp [hc, hmore]

/-- No punctuator at the start of a text is longer than the first one found. -/
theorem le_punctuatorLength {mark t : Text} (hmark : mark ∈ longPunctuators)
    (h : mark.isPrefixOf t = true) : mark.length ≤ punctuatorLength t := by
  have hsorted : longPunctuators.Pairwise fun first later => later.length ≤ first.length := by
    decide
  unfold punctuatorLength
  split
  · rename_i first hfirst
    obtain ⟨_, before, behind, hsplit, hnone⟩ := List.find?_eq_some_iff_append.1 hfirst
    rw [hsplit] at hmark hsorted
    rcases List.mem_append.1 hmark with hmem | hmem
    · have hfirst := hnone mark hmem
      rw [h] at hfirst
      cases hfirst
    · rcases List.mem_cons.1 hmem with rfl | hmem
      · exact Nat.le_refl _
      · exact (List.pairwise_cons.1 (List.pairwise_append.1 hsorted).2.1).1 mark hmem
  · rename_i hnone
    exact absurd h (List.find?_eq_none.1 hnone mark hmark)

/-- Whether a longer punctuator starts with one and the text behind it. -/
def continuesPunctuator (t u : Text) : Bool :=
  longPunctuators.any fun mark => t.length < mark.length && mark.isPrefixOf (t ++ u)

/-- **A punctuator before more text** is the punctuator alone, unless a longer one stands there. -/
theorem punctuatorLength_append_iff {t : Text} (ht : t ≠ []) (u : Text) :
    punctuatorLength (t ++ u) = t.length ↔
      punctuatorLength t = t.length ∧ ¬ continuesPunctuator t u = true := by
  have hmono : punctuatorLength t ≤ punctuatorLength (t ++ u) := by
    rcases punctuatorLength_eq t with hone | ⟨mark, hmark, hprefix, hlength⟩
    · rw [hone]
      exact one_le_punctuatorLength _
    · rw [hlength]
      refine le_punctuatorLength hmark (List.isPrefixOf_iff_prefix.2 ?_)
      exact (List.isPrefixOf_iff_prefix.1 hprefix).trans (List.prefix_append t u)
  have hpos : 1 ≤ t.length := List.length_pos_iff.2 ht
  constructor
  · intro h
    refine ⟨Nat.le_antisymm (h ▸ hmono) ?_, fun hlonger => ?_⟩
    · rcases punctuatorLength_eq (t ++ u) with hone | ⟨mark, hmark, hprefix, hlength⟩
      · rw [← h, hone]
        exact one_le_punctuatorLength t
      · have hshort : mark.length ≤ t.length := by omega
        have hmarkt : mark <+: t := List.prefix_of_prefix_length_le
          (List.isPrefixOf_iff_prefix.1 hprefix) (List.prefix_append t u) hshort
        have hle := le_punctuatorLength hmark (List.isPrefixOf_iff_prefix.2 hmarkt)
        omega
    · obtain ⟨mark, hmark, hboth⟩ := List.any_eq_true.1 hlonger
      obtain ⟨hlt, hprefix⟩ := Bool.and_eq_true_iff.1 hboth
      have hle := le_punctuatorLength hmark hprefix
      rw [h] at hle
      exact Nat.not_lt.2 hle (of_decide_eq_true hlt)
  · rintro ⟨h, hshort⟩
    refine Nat.le_antisymm ?_ (h ▸ hmono)
    rcases punctuatorLength_eq (t ++ u) with hone | ⟨mark, hmark, hprefix, hlength⟩
    · rw [hone]
      exact hpos
    · rw [hlength]
      refine Nat.not_lt.1 fun hlt => hshort (List.any_eq_true.2 ⟨mark, hmark, ?_⟩)
      rw [decide_eq_true hlt, hprefix]
      rfl

/-! ## 3. Tokens before more text -/

/-- Whether a token runs on into the text that is written behind it. -/
def runsOn (kind : TokenKind) (lexeme behind : Text) : Bool :=
  match kind with
  | .name => behind.head?.any continuesName
  | .number => continuesNumber lexeme behind
  | .punctuator =>
    continuesPunctuator lexeme behind || (lexeme == ['.'] && behind.head?.any Text.isDigit)
  | _ => !behind.isEmpty && !Literal.isClosed lexeme

section Kinds

variable (c : Char) (t u : Text)

theorem literal_append_iff {kind : TokenKind} (h : kind = .string ∨ kind = .character) :
    Literal.length c (t ++ u) = t.length ↔
      Literal.length c t = t.length ∧ ¬ runsOn kind (c :: t) u = true := by
  have hopen : (!u.isEmpty && !(Literal.close c t).isSome) = true ↔
      u ≠ [] ∧ Literal.close c t = none := by
    simp
  rw [Literal.length_append_iff, ← hopen]
  rcases h with rfl | rfl
  · rfl
  · rfl

variable {c t u}

/-- An exponent letter starts no number. -/
theorem number_append_iff
    (h : (Text.isDigit c || (c == '.' && t.head?.any Text.isDigit)) = true) :
    numberLength (t ++ u) = t.length ↔
      numberLength t = t.length ∧ ¬ runsOn .number (c :: t) u = true := by
  have hexponent : isExponent c = false := by
    refine Bool.not_eq_true _ ▸ fun hexponent => ?_
    obtain ⟨_, hdigit, hpoint⟩ := of_isExponent hexponent
    simp [hdigit, hpoint] at h
  rw [numberLength_append_iff, runsOn, continuesNumber_cons (Or.inr hexponent)]

theorem punctuator_append_iff
    (h : ¬ (Text.isDigit c || (c == '.' && (t ++ u).head?.any Text.isDigit)) = true) :
    punctuatorLength (c :: (t ++ u)) - 1 = t.length ↔
      punctuatorLength (c :: t) - 1 = t.length ∧ ¬ runsOn .punctuator (c :: t) u = true := by
  have hmarks := punctuatorLength_append_iff (List.cons_ne_nil c t) u
  have hdigit : (c :: t == ['.'] && u.head?.any Text.isDigit) = false := by
    refine Bool.not_eq_true _ ▸ fun hpoint => h ?_
    obtain ⟨hdot, hdigit⟩ := Bool.and_eq_true_iff.1 hpoint
    obtain ⟨rfl, rfl⟩ := List.cons.inj (beq_iff_eq.1 hdot)
    rw [List.nil_append, hdigit]
    exact Bool.or_true _
  have hlong := one_le_punctuatorLength (c :: (t ++ u))
  have hshort := one_le_punctuatorLength (c :: t)
  rw [List.cons_append, List.length_cons] at hmarks
  rw [runsOn, hdigit, Bool.or_false, Nat.sub_eq_iff_eq_add hlong, Nat.sub_eq_iff_eq_add hshort]
  exact hmarks

/-- Only the point becomes a number with the text behind it, a digit. -/
theorem eq_point_of_append
    (h : ¬ (Text.isDigit c || (c == '.' && t.head?.any Text.isDigit)) = true)
    (happend : (Text.isDigit c || (c == '.' && (t ++ u).head?.any Text.isDigit)) = true) :
    t = [] ∧ c = '.' ∧ u.head?.any Text.isDigit = true := by
  cases t with
  | nil => simp_all
  | cons d t => exact absurd happend h

/-- A digit continues any number. -/
theorem continuesNumber_of_isDigit (h : u.head?.any Text.isDigit = true) :
    continuesNumber [] u = true := by
  cases u with
  | nil => cases h
  | cons d u =>
    have hd : Text.isDigit d = true := h
    simp [continuesNumber, Text.isAlnum, hd]

end Kinds

/-- **A token before more text** is the token alone, unless it runs on. -/
theorem scan_append_iff (c : Char) (t u : Text) (kind : TokenKind) :
    scan c (t ++ u) = (kind, t.length) ↔
      scan c t = (kind, t.length) ∧ ¬ runsOn kind (c :: t) u = true := by
  have hlift {k : TokenKind} {m n : Nat}
      (h : m = t.length ↔ n = t.length ∧ ¬ runsOn k (c :: t) u = true) :
      (k, m) = (kind, t.length) ↔
        (k, n) = (kind, t.length) ∧ ¬ runsOn kind (c :: t) u = true := by
    rw [Prod.mk.injEq, Prod.mk.injEq]
    constructor
    · rintro ⟨rfl, hm⟩
      exact ⟨⟨rfl, (h.1 hm).1⟩, (h.1 hm).2⟩
    · rintro ⟨⟨rfl, hn⟩, hends⟩
      exact ⟨rfl, h.2 ⟨hn, hends⟩⟩
  unfold scan
  by_cases hdouble : c = '"'
  · rw [if_pos hdouble, if_pos hdouble]
    exact hlift (literal_append_iff c t u (Or.inl rfl))
  by_cases hsingle : c = '\''
  · rw [if_neg hdouble, if_neg hdouble, if_pos hsingle, if_pos hsingle]
    exact hlift (literal_append_iff c t u (Or.inr rfl))
  rw [if_neg hdouble, if_neg hdouble, if_neg hsingle, if_neg hsingle]
  by_cases hnumber : (Text.isDigit c || (c == '.' && t.head?.any Text.isDigit)) = true
  · have happend : (Text.isDigit c || (c == '.' && (t ++ u).head?.any Text.isDigit)) = true := by
      cases t with
      | nil => simp_all
      | cons d t => exact hnumber
    rw [if_pos hnumber, if_pos happend]
    exact hlift (number_append_iff hnumber)
  by_cases happend : (Text.isDigit c || (c == '.' && (t ++ u).head?.any Text.isDigit)) = true
  · -- the point alone is a punctuator, and the digit behind it makes it a number
    obtain ⟨rfl, rfl, hdigit⟩ := eq_point_of_append hnumber happend
    have hruns : runsOn .punctuator ['.'] u = true := by
      rw [runsOn, hdigit]
      exact Bool.or_true _
    rw [if_neg hnumber, if_pos happend, if_neg (by decide)]
    refine ⟨fun h => ?_, fun h => ?_⟩
    · have hnone := (numberLength_eq_zero_iff u).1 (Prod.mk.inj h).2
      exact absurd (continuesNumber_of_isDigit hdigit) hnone
    · exact absurd hruns ((Prod.mk.inj h.1).1 ▸ h.2)
  rw [if_neg hnumber, if_neg happend]
  by_cases hname : startsName c = true
  · rw [if_pos hname, if_pos hname]
    exact hlift (length_takeWhile_append_iff continuesName t u)
  · rw [if_neg hname, if_neg hname]
    exact hlift (punctuator_append_iff happend)

/-! ## 4. Items -/

/-- The kind and the text of a token. -/
def shape (token : Token) : TokenKind × Text := (token.kind, token.lexeme)

/-- A blank or a token of a text. -/
inductive Item where
  | blank (c : Char)
  | token (kind : TokenKind) (lexeme : Text)
  deriving DecidableEq, Repr

namespace Item

def text : Item → Text
  | .blank c => [c]
  | .token _ lexeme => lexeme

def shape? : Item → Option (TokenKind × Text)
  | .blank _ => none
  | .token kind lexeme => some (kind, lexeme)

/-- Whether an item is what it says: whitespace, or a token that is one by itself. -/
def IsValid : Item → Prop
  | .blank c => Text.isSpace c = true
  | .token kind lexeme =>
    ∃ c t, lexeme = c :: t ∧ Text.isSpace c = false ∧ scan c t = (kind, t.length)

theorem text_ne_nil {item : Item} (h : item.IsValid) : item.text ≠ [] := by
  cases item with
  | blank c => exact List.cons_ne_nil c []
  | token kind lexeme =>
    obtain ⟨c, t, rfl, _⟩ := h
    exact List.cons_ne_nil c t

end Item

/-- The text of some items. -/
def itemsText (items : List Item) : Text := items.flatMap Item.text

@[simp] theorem itemsText_nil : itemsText [] = [] := rfl

@[simp] theorem itemsText_append (before behind : List Item) :
    itemsText (before ++ behind) = itemsText before ++ itemsText behind :=
  List.flatMap_append

@[simp] theorem itemsText_cons (item : Item) (rest : List Item) :
    itemsText (item :: rest) = item.text ++ itemsText rest :=
  List.flatMap_cons

/-- Whether none of the tokens of some items runs on into the text behind it. -/
def keepsApart : List Item → Bool
  | [] => true
  | .blank _ :: rest => keepsApart rest
  | .token kind lexeme :: rest => !runsOn kind lexeme (itemsText rest) && keepsApart rest

/-- No token that is kept apart runs on. -/
theorem runsOn_of_keepsApart {before behind : List Item} {kind : TokenKind} {lexeme : Text}
    (h : keepsApart (before ++ .token kind lexeme :: behind) = true) :
    runsOn kind lexeme (itemsText behind) = false := by
  induction before with
  | nil =>
    have hends : (!runsOn kind lexeme (itemsText behind)) = true := (Bool.and_eq_true_iff.1 h).1
    rwa [Bool.not_eq_true'] at hends
  | cons item before ih =>
    cases item with
    | blank c => exact ih h
    | token kind' lexeme' => exact ih (Bool.and_eq_true_iff.1 h).2

/-- **Items are read again as they are** exactly when no token of them runs on. -/
theorem shapes_itemsText_iff {items : List Item} (h : ∀ item ∈ items, item.IsValid)
    (p : Position) :
    (tokensFrom p (itemsText items)).map shape = items.filterMap Item.shape? ↔
      keepsApart items = true := by
  induction items generalizing p with
  | nil => exact ⟨fun _ => rfl, fun _ => by rw [itemsText, List.flatMap_nil, tokensFrom]; rfl⟩
  | cons item rest ih =>
    obtain ⟨hitem, hrest⟩ := List.forall_mem_cons.1 h
    cases item with
    | blank c =>
      have hspace : Text.isSpace c = true := hitem
      have hskip : tokensFrom p (itemsText (.blank c :: rest)) =
          tokensFrom (p.step c) (itemsText rest) := by
        show tokensFrom p (c :: itemsText rest) = _
        rw [tokensFrom, if_pos hspace]
      rw [hskip, List.filterMap_cons_none rfl, keepsApart]
      exact ih hrest _
    | token kind lexeme =>
      obtain ⟨c, t, rfl, hspace, hscan⟩ := hitem
      have hfirst : tokensFrom p (itemsText (.token kind (c :: t) :: rest)) =
          ⟨(scan c (t ++ itemsText rest)).1,
            c :: (t ++ itemsText rest).take (scan c (t ++ itemsText rest)).2, p⟩ ::
          tokensFrom (p.after (c :: (t ++ itemsText rest).take (scan c (t ++ itemsText rest)).2))
            ((t ++ itemsText rest).drop (scan c (t ++ itemsText rest)).2) := by
        show tokensFrom p (c :: (t ++ itemsText rest)) = _
        rw [tokensFrom, if_neg (by rw [hspace]; exact Bool.false_ne_true)]
      have hshapes : (Item.token kind (c :: t) :: rest).filterMap Item.shape? =
          (kind, c :: t) :: rest.filterMap Item.shape? := rfl
      rw [hfirst, hshapes, List.map_cons, List.cons.injEq, keepsApart, Bool.and_eq_true,
        Bool.not_eq_true']
      have happend := scan_append_iff c t (itemsText rest) kind
      by_cases hruns : runsOn kind (c :: t) (itemsText rest) = true
      · refine ⟨fun heq => absurd hruns ?_, fun hends => ?_⟩
        · -- a token of the same length would not have run on
          obtain ⟨hkind, htake⟩ := Prod.mk.inj heq.1
          have hlength := congrArg List.length (List.cons.inj htake).2
          rw [List.length_take, List.length_append] at hlength
          refine (happend.1 (Prod.ext hkind ?_)).2
          by_cases hnil : itemsText rest = []
          · rw [hnil, List.append_nil, hscan]
          · have hpos := List.length_pos_iff.2 hnil
            dsimp only
            omega
        · rw [hruns] at hends
          cases hends.1
      · rw [happend.2 ⟨hscan, hruns⟩]
        dsimp only
        rw [List.take_left, List.drop_left, ih hrest]
        refine ⟨fun heq => ⟨Bool.not_eq_true _ ▸ hruns, heq.2⟩, fun hends => ⟨rfl, hends.2⟩⟩

/-! ## 5. The items of a text -/

/-- The items of a text. -/
def items : Text → List Item
  | [] => []
  | c :: t =>
    if Text.isSpace c then .blank c :: items t
    else
      let extent := scan c t
      .token extent.1 (c :: t.take extent.2) :: items (t.drop extent.2)
termination_by t => t.length
decreasing_by all_goals simp only [List.length_cons, List.length_drop]; omega

/-- Nothing is lost: the items make up the text. -/
theorem itemsText_items (t : Text) : itemsText (items t) = t := by
  fun_induction items t with
  | case1 => rfl
  | case2 c t hc ih =>
    show c :: itemsText (items t) = c :: t
    rw [ih]
  | case3 c t hc extent ih =>
    show c :: (t.take extent.2 ++ itemsText (items (t.drop extent.2))) = c :: t
    rw [ih, List.take_append_drop]

/-- The tokens among the items are the tokens. -/
theorem shapes_items (p : Position) (t : Text) :
    (tokensFrom p t).map shape = (items t).filterMap Item.shape? := by
  fun_induction items t generalizing p with
  | case1 =>
    rw [tokensFrom]
    rfl
  | case2 c t hc ih =>
    rw [tokensFrom, if_pos hc, ih]
    rfl
  | case3 c t hc extent ih =>
    rw [tokensFrom, if_neg hc, List.map_cons, ih]
    rfl

theorem isValid_items (t : Text) : ∀ item ∈ items t, item.IsValid := by
  fun_induction items t with
  | case1 => exact fun item h => absurd h List.not_mem_nil
  | case2 c t hc ih => exact List.forall_mem_cons.2 ⟨hc, ih⟩
  | case3 c t hc extent ih =>
    refine List.forall_mem_cons.2 ⟨⟨c, t.take extent.2, rfl, Bool.not_eq_true _ ▸ hc, ?_⟩, ih⟩
    have hlength : (t.take extent.2).length = extent.2 := List.length_take_of_le (scan_le c t)
    refine ((scan_append_iff c (t.take extent.2) (t.drop extent.2) extent.1).1 ?_).1
    rw [List.take_append_drop, hlength]

/-- A token of a text is one by itself. -/
theorem isValid_token {t : Text} {token : Token} (h : token ∈ tokens t) :
    (Item.token token.kind token.lexeme).IsValid := by
  have hshape : token.shape ∈ (items t).filterMap Item.shape? := by
    rw [← shapes_items .start t]
    exact List.mem_map_of_mem h
  obtain ⟨item, hitem, hsame⟩ := List.mem_filterMap.1 hshape
  cases item with
  | blank c => cases hsame
  | token kind lexeme =>
    cases hsame
    exact isValid_items t _ hitem

/-- The tokens of a text are kept apart in it. -/
theorem keepsApart_items (t : Text) : keepsApart (items t) = true := by
  refine (shapes_itemsText_iff (isValid_items t) .start).1 ?_
  rw [itemsText_items, shapes_items]

end Token

end Variants
