import Variants.Proofs.CallTokens

/-!
# Headers of definitions

A definition is read from the tokens of its text and their places: a parenthesis opens a parameter
list if it stands right behind the name, on the same line and in the column where the name ends. The
place of a token is the place behind the text before it, and only the empty text leaves a place as
it is (`Position.after_ne_self`). So the place says just what it should: nothing stands between the
name and the parenthesis.

A header that is written from a name and its parameters is read back, whatever blanks stand around
them and whatever follows (`exists_ofText?_parameterList`). A name with anything else behind it is
object-like, and all that follows is its body (`exists_ofText?_objectLike`).

Main statement: `ofText?_header`.
-/

namespace Variants

/-! ## 1. Places -/

namespace Position

theorem line_after (p : Position) (t : Text) : (p.after t).line = p.line + Text.breaks t := by
  induction t generalizing p with
  | nil => rfl
  | cons c t ih =>
    rw [after_cons, ih, Text.breaks_cons, step]
    split <;> dsimp only <;> omega

theorem after_of_not_mem {t : Text} (h : '\n' ∉ t) (p : Position) :
    p.after t = ⟨p.line, p.column + t.length⟩ := by
  induction t generalizing p with
  | nil => rfl
  | cons c t ih =>
    have hc : c ≠ '\n' := (List.ne_of_not_mem_cons h).symm
    rw [after_cons, ih (List.not_mem_of_not_mem_cons h), step, if_neg hc, List.length_cons,
      Nat.add_assoc, Nat.add_comm 1]

/-- **Every text moves the place on.** -/
theorem after_ne_self {t : Text} (h : t ≠ []) (p : Position) : p.after t ≠ p := by
  intro hsame
  by_cases hbreak : '\n' ∈ t
  · have hline := line_after p t
    rw [hsame] at hline
    have hnone : Text.breaks t = 0 := by omega
    exact Text.breaks_eq_zero.1 hnone hbreak
  · have hcolumn := congrArg column (after_of_not_mem hbreak p)
    rw [hsame] at hcolumn
    have hpos := List.length_pos_iff.2 h
    dsimp only at hcolumn
    omega

end Position

/-! ## 2. Whitespace -/

/-- The members of some ranges. -/
def CharRanges.members (r : CharRanges) : List Nat :=
  r.flatMap fun row => List.range' row.1 (row.2 + 1 - row.1)

theorem CharRanges.mem_members_of_has {r : CharRanges} {n : Nat} (h : r.has n = true) :
    n ∈ r.members := by
  induction r with
  | nil => cases h
  | cons row rest ih =>
    rw [has] at h
    rw [members, List.flatMap_cons, List.mem_append]
    split at h
    · cases h
    · split at h
      · exact Or.inl (List.mem_range'_1.2 (by omega))
      · exact Or.inr (ih h)

/-- No name goes on with whitespace. -/
theorem Token.continuesName_of_isSpace {c : Char} (h : Text.isSpace c = true) :
    continuesName c = false := by
  have hspaces : ∀ n ∈ Text.spaceRanges.members, continuesName (Char.ofNat n) = false := by
    decide +kernel
  have hmem := hspaces _ (CharRanges.mem_members_of_has h)
  rwa [Char.ofNat_toNat] at hmem

namespace Token

/-! ## 3. Tokens behind one another -/

/-- A text of whitespace. -/
abbrev Blank : Type := { t : Text // t.all Text.isSpace = true }

/-- Whether a text is read as one name. -/
def IsName (t : Text) : Prop := (tokens t).map shape = [(.name, t)]

instance (t : Text) : Decidable (IsName t) := inferInstanceAs (Decidable (_ = _))

/-- A text that is read as one name. -/
abbrev Name : Type := { t : Text // IsName t }

/-- What is read does not depend on the place. -/
theorem shapes_tokensFrom (p : Position) (t : Text) :
    (tokensFrom p t).map shape = (tokens t).map shape := by
  rw [tokens, shapes_items, shapes_items]

/-- Whether a text starts with a name does not depend on the place either. -/
theorem any_isName_head?_tokensFrom (p : Position) (t : Text) :
    (tokensFrom p t).head?.any isName = (tokens t).head?.any isName := by
  have hhead (list : List Token) :
      list.head?.any isName = (list.map shape).head?.any fun s => s.1 == .name := by
    cases list <;> rfl
  rw [hhead, hhead, shapes_tokensFrom]

theorem tokensFrom_blank (w : Blank) (p : Position) (u : Text) :
    tokensFrom p (w.1 ++ u) = tokensFrom (p.after w.1) u := by
  obtain ⟨w, hw⟩ := w
  dsimp only
  induction w generalizing p with
  | nil => rfl
  | cons c w ih =>
    obtain ⟨hc, hw⟩ := Bool.and_eq_true_iff.1 (List.all_cons ▸ hw)
    rw [List.cons_append, tokensFrom, if_pos hc, Position.after_cons]
    exact ih (p.step c) hw

theorem tokensFrom_mark {c : Char} (h : c ∈ marks) (p : Position) (u : Text) :
    tokensFrom p (c :: u) = ⟨.punctuator, [c], p⟩ :: tokensFrom (p.step c) u := by
  have hspace : ¬ Text.isSpace c = true := by
    rcases mem_marks_iff.1 h with rfl | rfl | rfl
    · decide
    · decide
    · decide
  rw [tokensFrom, if_neg hspace, scan_mark h]
  rfl

theorem Name.isValid (n : Name) : (Item.token .name n.1).IsValid := by
  obtain ⟨token, hlist, hshape⟩ := List.map_eq_singleton_iff.1 n.2
  obtain ⟨hkind, hlexeme⟩ := Prod.mk.inj hshape
  have hvalid : (Item.token token.kind token.lexeme).IsValid :=
    isValid_token (hlist ▸ List.mem_singleton_self token)
  rwa [show token.kind = .name from hkind, show token.lexeme = n.1 from hlexeme] at hvalid

theorem Name.continuesName_of_mem (n : Name) : ∀ c ∈ n.1, continuesName c = true :=
  continuesName_of_isValid n.isValid

/-- A character of no name stands in none. -/
theorem Name.not_mem (n : Name) {c : Char} (h : continuesName c = false) : c ∉ n.1 := by
  intro hmem
  rw [n.continuesName_of_mem c hmem] at h
  cases h

/-- A name before a character of no name is a token. -/
theorem tokensFrom_name (n : Name) {u : Text} (hu : u.head?.any continuesName = false)
    (p : Position) :
    tokensFrom p (n.1 ++ u) = ⟨.name, n.1, p⟩ :: tokensFrom (p.after n.1) u := by
  obtain ⟨c, t, hname, hspace, hscan⟩ := n.isValid
  have hends : ¬ runsOn .name (c :: t) u = true := by
    rw [runsOn, hu]
    exact Bool.false_ne_true
  have happend := (scan_append_iff c t u .name).2 ⟨hscan, hends⟩
  rw [hname, List.cons_append, tokensFrom, if_neg (by simp [hspace]), happend]
  dsimp only
  rw [List.take_left, List.drop_left]

/-- No token stands before the place where the text starts. -/
theorem exists_after_of_mem_tokensFrom {p : Position} {t : Text} {token : Token}
    (h : token ∈ tokensFrom p t) : ∃ before, token.position = p.after before := by
  fun_induction tokensFrom p t with
  | case1 => exact absurd h List.not_mem_nil
  | case2 p c t hc ih =>
    obtain ⟨before, hbefore⟩ := ih h
    exact ⟨c :: before, hbefore⟩
  | case3 p c t hc extent lexeme ih =>
    rcases List.mem_cons.1 h with rfl | h
    · exact ⟨[], rfl⟩
    · obtain ⟨before, hbefore⟩ := ih h
      exact ⟨lexeme ++ before, by rw [hbefore, Position.after_append]⟩

/-- **A parenthesis stands right behind a name** only if nothing stands between the two. -/
theorem eq_paren_of_follows {n : Name} {p : Position} {u : Text} {bracket : Token}
    {later : List Token} (h : tokensFrom (p.after n.1) u = bracket :: later)
    (hlexeme : bracket.lexeme = ['(']) (hfollows : bracket.follows ⟨.name, n.1, p⟩ = true) :
    ∃ rest, u = '(' :: rest ∧ later = tokensFrom ((p.after n.1).step '(') rest := by
  have hplace : bracket.position = p.after n.1 := by
    rw [Position.after_of_not_mem (n.not_mem (by decide))]
    rw [follows, Bool.and_eq_true, beq_iff_eq, beq_iff_eq] at hfollows
    rw [hfollows.1, hfollows.2]
  cases u with
  | nil =>
    rw [tokensFrom] at h
    cases h
  | cons c u =>
    rw [tokensFrom] at h
    split at h
    · -- a blank before the parenthesis would have moved it on
      obtain ⟨before, hbefore⟩ :=
        exists_after_of_mem_tokensFrom (h ▸ List.mem_cons_self : bracket ∈ _)
      exact absurd (hbefore.symm.trans hplace)
        (Position.after_ne_self (List.cons_ne_nil c before) (p.after n.1))
    · obtain ⟨hbracket, hlater⟩ := List.cons.inj h
      rw [← hbracket] at hlexeme
      obtain rfl := (List.cons.inj hlexeme).1
      rw [scan_mark (by decide)] at hlater
      exact ⟨u, rfl, hlater.symm⟩

end Token

namespace Macro

open Token

/-! ## 4. Parameter lists -/

/-- A parameter with the blanks around it. -/
structure Parameter where
  before : Blank
  name : Name
  behind : Blank

/-- A parameter as it is written. -/
def Parameter.text (p : Parameter) : Text := p.before.1 ++ p.name.1 ++ p.behind.1

/-- Some parameters in parentheses, with commas between them. -/
def parameterList (parameters : List Parameter) : Text :=
  '(' :: ([','].intercalate (parameters.map Parameter.text) ++ [')'])

/-- Whether a token stands before the end of a parameter list. -/
def isInside (token : Token) : Bool := token.lexeme != [')']

theorem ofTokens?_function {name bracket first close : Token} {inside body : List Token}
    (hname : name.isName = true) (hbracket : bracket.lexeme = ['(']) (hfirst : first.isName = true)
    (hfollows : bracket.follows name = true)
    (hinside : ∀ token ∈ first :: inside, isInside token = true) (hclose : isInside close = false) :
    ofTokens? (name :: bracket :: first :: (inside ++ close :: body)) =
      some ⟨name.lexeme, ((first :: inside).filter Token.isName).map Token.lexeme, body⟩ := by
  have htake : (first :: inside ++ close :: body).takeWhile isInside = first :: inside := by
    rw [List.takeWhile_append_of_pos hinside, List.takeWhile_cons_of_neg (by simp [hclose]),
      List.append_nil]
  have hdrop : (first :: inside ++ close :: body).dropWhile isInside = close :: body := by
    rw [List.dropWhile_append_of_pos hinside, List.dropWhile_cons_of_neg (by simp [hclose])]
  rw [ofTokens?, if_pos hname]
  dsimp only
  rw [if_pos ⟨hbracket, hfirst, hfollows⟩]
  show some (Macro.mk name.lexeme
    (((first :: inside ++ close :: body).takeWhile isInside).filter Token.isName |>.map _)
    ((first :: inside ++ close :: body).dropWhile isInside).tail) = _
  rw [htake, hdrop]
  rfl

theorem ofTokens?_objectLike {name : Token} {rest : List Token} (hname : name.isName = true)
    (hnone : ∀ bracket first more, rest = bracket :: first :: more →
      ¬ (bracket.lexeme = ['('] ∧ first.isName = true ∧ bracket.follows name = true)) :
    ofTokens? (name :: rest) = some ⟨name.lexeme, [], rest⟩ := by
  unfold ofTokens?
  dsimp only
  rw [if_pos hname]
  split
  · rename_i bracket first more
    exact if_neg (hnone bracket first more rfl)
  · rfl

/-- No name goes on with whitespace or with a bracket or comma behind it. -/
theorem head?_blank_mark (w : Blank) {c : Char} (hc : c ∈ marks) (u : Text) :
    (w.1 ++ c :: u).head?.any continuesName = false := by
  obtain ⟨w, hw⟩ := w
  cases w with
  | nil =>
    show continuesName c = false
    rcases mem_marks_iff.1 hc with rfl | rfl | rfl
    · decide
    · decide
    · decide
  | cons d w =>
    exact continuesName_of_isSpace (List.all_eq_true.1 hw d List.mem_cons_self)

/-- A parameter is one token up to the bracket or comma behind it. -/
theorem exists_tokens_parameter (parameter : Parameter) {c : Char} (hc : c ∈ marks) (u : Text)
    (p : Position) : ∃ place after, tokensFrom p (parameter.text ++ c :: u) =
      ⟨.name, parameter.name.1, place⟩ :: ⟨.punctuator, [c], after⟩ ::
        tokensFrom (after.step c) u := by
  rw [Parameter.text, List.append_assoc, List.append_assoc, tokensFrom_blank,
    tokensFrom_name _ (head?_blank_mark parameter.behind hc u), tokensFrom_blank,
    tokensFrom_mark hc]
  exact ⟨_, _, rfl⟩

/-- **The tokens of some parameters** are their names and commas, whatever follows the
parenthesis. -/
theorem exists_tokens_parameters (parameter : Parameter) (more : List Parameter) (u : Text)
    (p : Position) : ∃ first inside place,
      tokensFrom p ([','].intercalate ((parameter :: more).map Parameter.text) ++ ')' :: u) =
        first :: (inside ++ ⟨.punctuator, [')'], place⟩ :: tokensFrom (place.step ')') u) ∧
      first.isName = true ∧ (∀ token ∈ first :: inside, isInside token = true) ∧
      ((first :: inside).filter Token.isName).map Token.lexeme =
        (parameter :: more).map fun other => other.name.1 := by
  have hinside (parameter : Parameter) (place : Position) :
      isInside ⟨.name, parameter.name.1, place⟩ = true := by
    refine bne_iff_ne.2 fun hclose => ?_
    have hname : parameter.name.1 = [')'] := hclose
    have hnone : ')' ∉ parameter.name.1 := parameter.name.not_mem (by decide)
    exact hnone (hname ▸ List.mem_cons_self)
  induction more generalizing parameter p with
  | nil =>
    obtain ⟨place, after, htokens⟩ := exists_tokens_parameter parameter (c := ')') (by decide) u p
    refine ⟨_, [], after, ?_, rfl, List.forall_mem_singleton.2 (hinside parameter place), rfl⟩
    rw [List.map_singleton, List.intercalate_singleton, htokens]
    rfl
  | cons next more ih =>
    obtain ⟨place, after, htokens⟩ := exists_tokens_parameter parameter (c := ',') (by decide)
      ([','].intercalate ((next :: more).map Parameter.text) ++ ')' :: u) p
    obtain ⟨first, inside, last, hmore, hfirst, hall, hnames⟩ := ih next (after.step ',')
    refine ⟨_, ⟨.punctuator, [','], after⟩ :: first :: inside, last, ?_, rfl,
      List.forall_mem_cons.2 ⟨hinside parameter place, List.forall_mem_cons.2 ⟨rfl, hall⟩⟩,
      ?_⟩
    · rw [List.map_cons, List.map_cons, List.intercalate_cons_cons, List.append_assoc,
        List.append_assoc, List.singleton_append, ← List.map_cons, htokens, hmore]
      rfl
    · rw [List.map_cons, ← hnames]
      rfl

/-! ## 5. Definitions -/

/-- **A parameter list is read back**, and all behind it is the body. -/
theorem exists_ofText?_parameterList (w : Blank) (n : Name) (parameter : Parameter)
    (more : List Parameter) (body : Text) : ∃ place,
    ofText? (w.1 ++ n.1 ++ parameterList (parameter :: more) ++ body) =
      some ⟨n.1, (parameter :: more).map fun other => other.name.1, tokensFrom place body⟩ := by
  let start : Position := Position.start.after w.1
  have hends : (parameterList (parameter :: more) ++ body).head?.any continuesName = false :=
    (by decide : continuesName '(' = false)
  obtain ⟨first, inside, place, hlist, hfirst, hinside, hnames⟩ :=
    exists_tokens_parameters parameter more body ((start.after n.1).step '(')
  have htokens : tokens (w.1 ++ n.1 ++ parameterList (parameter :: more) ++ body) =
      ⟨.name, n.1, start⟩ :: ⟨.punctuator, ['('], start.after n.1⟩ :: first ::
        (inside ++ ⟨.punctuator, [')'], place⟩ :: tokensFrom (place.step ')') body) := by
    rw [tokens, List.append_assoc, List.append_assoc, tokensFrom_blank, tokensFrom_name n hends,
      parameterList, List.cons_append, tokensFrom_mark (by decide), List.append_assoc,
      List.singleton_append, hlist]
  have hfollows : follows ⟨.punctuator, ['('], start.after n.1⟩ ⟨.name, n.1, start⟩ = true := by
    rw [Position.after_of_not_mem (n.not_mem (by decide)), follows]
    simp
  refine ⟨place.step ')', ?_⟩
  rw [ofText?, htokens, ofTokens?_function rfl rfl hfirst hfollows hinside rfl, hnames]

/-- **A name without a parameter list** is an object-like macro, and all behind it is the body. -/
theorem exists_ofText?_objectLike (w : Blank) (n : Name) {body : Text}
    (hends : body.head?.any continuesName = false)
    (hopen : ∀ rest, body = '(' :: rest → (tokens rest).head?.any isName = false) : ∃ place,
    ofText? (w.1 ++ n.1 ++ body) = some ⟨n.1, [], tokensFrom place body⟩ := by
  let start : Position := Position.start.after w.1
  have htokens : tokens (w.1 ++ n.1 ++ body) =
      ⟨.name, n.1, start⟩ :: tokensFrom (start.after n.1) body := by
    rw [tokens, List.append_assoc, tokensFrom_blank, tokensFrom_name n hends]
  refine ⟨start.after n.1, ?_⟩
  rw [ofText?, htokens]
  refine ofTokens?_objectLike rfl fun bracket first more hbody hlist => ?_
  obtain ⟨hbracket, hfirst, hfollows⟩ := hlist
  obtain ⟨rest, hrest, hlater⟩ := eq_paren_of_follows hbody hbracket hfollows
  have hnone := hopen rest hrest
  rw [← any_isName_head?_tokensFrom, ← hlater] at hnone
  exact Bool.false_ne_true (hnone.symm.trans hfirst)

/-- **What the text of a definition says.** From blanks, a name, a list of parameters in parentheses
right behind it, each with any blanks around it, and any text, the function-like macro of that name
with these parameters is read, and its body has the tokens of the text. If the name is followed by
something else, which does not go on the name, and neither starts with a parenthesis nor has a name
as the first token behind that parenthesis, the object-like macro of that name is read, and its body
has the tokens of what follows. -/
theorem ofText?_header (w : Blank) (n : Name) :
    (∀ (parameter : Parameter) (more : List Parameter) (body : Text), ∃ m,
      ofText? (w.1 ++ n.1 ++ parameterList (parameter :: more) ++ body) = some m ∧
        m.isFunctionLike = true ∧ m.name = n.1 ∧
        m.parameters = (parameter :: more).map (fun other => other.name.1) ∧
        m.body.map shape = (tokens body).map shape) ∧
      ∀ body : Text, body.head?.any continuesName = false →
        (∀ rest, body = '(' :: rest → (tokens rest).head?.any isName = false) → ∃ m,
          ofText? (w.1 ++ n.1 ++ body) = some m ∧ m.isFunctionLike = false ∧ m.name = n.1 ∧
            m.parameters = [] ∧ m.body.map shape = (tokens body).map shape := by
  constructor
  · intro parameter more body
    obtain ⟨place, hread⟩ := exists_ofText?_parameterList w n parameter more body
    exact ⟨_, hread, rfl, rfl, rfl, shapes_tokensFrom place body⟩
  · intro body hends hopen
    obtain ⟨place, hread⟩ := exists_ofText?_objectLike w n hends hopen
    exact ⟨_, hread, rfl, rfl, rfl, shapes_tokensFrom place body⟩

/-- Blanks with line breaks around the parameters, a dollar sign in a name, and a number behind a
parenthesis. -/
theorem ofText?_header_lines :
    (∃ m, ofText? " F(\n a ,$b\t)a+b".toList = some m ∧ m.isFunctionLike = true ∧
      m.name = ['F'] ∧ m.parameters = [['a'], ['$', 'b']] ∧
      m.body.map shape = (tokens "a+b".toList).map shape) ∧
    "(1)x".toList.head?.any continuesName = false ∧
    (∀ rest, "(1)x".toList = '(' :: rest → (tokens rest).head?.any isName = false) ∧
    ∃ m, ofText? " F(1)x".toList = some m ∧ m.isFunctionLike = false ∧ m.name = ['F'] ∧
      m.parameters = [] ∧ m.body.map shape = (tokens "(1)x".toList).map shape := by
  have hheader := ofText?_header ⟨[' '], by decide⟩ ⟨['F'], by decide +kernel⟩
  have hends : "(1)x".toList.head?.any continuesName = false := by decide
  have hopen : ∀ rest, "(1)x".toList = '(' :: rest → (tokens rest).head?.any isName = false := by
    intro rest hrest
    rw [← (List.cons.inj hrest).2]
    decide +kernel
  refine ⟨?_, hends, hopen, hheader.2 _ hends hopen⟩
  exact hheader.1 ⟨⟨['\n', ' '], by decide⟩, ⟨['a'], by decide +kernel⟩, ⟨[' '], by decide⟩⟩
    [⟨⟨[], by decide⟩, ⟨['$', 'b'], by decide +kernel⟩, ⟨['\t'], by decide⟩⟩] "a+b".toList

end Macro

end Variants
