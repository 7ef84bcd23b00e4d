import Variants.Proofs.Confinement
import Variants.Proofs.LineCount
import Variants.Proofs.Rounds
import Variants.Proofs.Splices

/-!
# Expanding in one text

`expand` parts a text at its first definition and goes on with what follows. This file does the same
in one text that is rewritten in place: a mark says from where it is searched, a definition is cut
out of it, and a pass goes over the whole text from the mark on and looks back over the mark to find
what stands before a use (`Rewriting.advance`).

* Both come to the same, round by round (`exists_rewriting`).
* What stands before the mark plays no part: with whole lines put in front, every round is the same
  behind them (`Rewriting.advance_behind`). So a macro is invisible before its definition
  (`expand_behind_plain`).
-/

namespace Variants.Macro

/-! ## 1. Rounds in one text -/

/-- A text that is being rewritten: the text as it stands, and the place from which it is
searched. -/
structure Rewriting where
  text : Text
  mark : Nat
  deriving DecidableEq, Repr

/-- A text as the macro of a definition leaves it from some place on. -/
def defineFrom (enabled : Bool) (definition text : Text) (start : Nat) : Text :=
  match ofText? definition with
  | none => text
  | some m => if enabled then (m.expandFrom text start).text else text

namespace Rewriting

/-- Where the work starts. -/
def start (t : Text) : Rewriting := ⟨t, 0⟩

/-- The text before the next definition, from its beginning, and the text behind the keyword. A line
starts at the mark if nothing or a line break stands before it. -/
def next? (r : Rewriting) : Option (Text × Text) :=
  let done := r.text.take r.mark
  (cutBefore (done.getLast?.all (· == '\n')) (r.text.drop r.mark)).map fun cut =>
    (done ++ cut.1, cut.2)

/-- One round: the next definition is cut out, its continuations are put back as empty lines, and
its macro makes a pass from the line break behind them on, where the mark is put. -/
def advance (enabled : Bool) (r : Rewriting) : Option Rewriting :=
  match r.next? with
  | none => none
  | some (before, behind) =>
    (cutBody behind).map fun body =>
      let done := before ++ Text.blank body.joins
      ⟨defineFrom enabled body.text (done ++ '\n' :: body.rest) done.length, done.length⟩

/-- What is left of the text in the end: all of it, or what stands before an unfinished
definition. -/
def result (r : Rewriting) : Text := (r.next?.map Prod.fst).getD r.text

/-- Nothing is lost: a text is what stands before its next definition, the keyword and what stands
behind it. -/
theorem next?_append {r : Rewriting} {before behind : Text} (h : r.next? = some (before, behind)) :
    r.text = before ++ (Keyword.define.text ++ behind) := by
  obtain ⟨cut, hcut, hsame⟩ := Option.map_eq_some_iff.1 h
  cases hsame
  rw [List.append_assoc, ← cutBefore_append hcut, List.take_append_drop]

end Rewriting

/-! ## 2. The rounds of an expansion -/

/-- No name stands at a line break, and a line starts behind it. -/
theorem expandUses_newline {m : Macro} (hne : m.name ≠ []) (hname : '\n' ∉ m.name)
    (line rest : Text) :
    m.expandUses line ('\n' :: rest) = (m.expandUses [] rest).keeping ['\n'] := by
  have hnone : (if m.name = [] then none else m.name.isPrefixOf? ('\n' :: rest)) = none := by
    rw [if_neg hne, Option.eq_none_iff_forall_ne_some]
    intro behind hbehind
    obtain ⟨c, name, hcons⟩ := List.exists_cons_of_ne_nil hne
    have hsplit := Text.isPrefixOf?_eq_some_iff.1 hbehind
    rw [hcons, List.cons_append] at hsplit
    rw [hcons, (List.cons.inj hsplit).1] at hname
    exact hname List.mem_cons_self
  exact expandUses_keep (step_keep hnone line)

/-- **A pass in the whole text** is the pass over the text behind the line break. -/
theorem defineFrom_append (enabled : Bool) {definition : Text} (hd : Text.breaks definition = 0)
    (done rest : Text) :
    defineFrom enabled definition (done ++ '\n' :: rest) done.length =
      done ++ '\n' :: (define enabled definition rest).1 := by
  unfold defineFrom define
  cases hm : ofText? definition with
  | none => rfl
  | some m =>
    cases enabled with
    | false => rfl
    | true =>
      simp only [if_true, expandFrom, List.take_left, List.drop_left,
        expandUses_newline (name_ne_nil hm) (newline_not_mem_name hm hd)]
      rfl

/-- A line break is not part of a definition, and behind it a line starts. -/
theorem cutBefore_newline (atStart : Bool) (t : Text) :
    cutBefore atStart ('\n' :: t) = (cutBefore true t).map fun cut => ('\n' :: cut.1, cut.2) := by
  cases atStart <;> rfl

/-- From a line break on, the next definition is the first one behind it. -/
theorem Rewriting.next?_newline (start rest : Text) :
    (Rewriting.mk (start ++ '\n' :: rest) start.length).next? =
      (cutBefore true rest).map fun cut => (start ++ '\n' :: cut.1, cut.2) := by
  simp only [Rewriting.next?, List.take_left, List.drop_left, cutBefore_newline, Option.map_map]
  rfl

/-- The state of an expansion in one text. The mark stands on the line break with which the final
text ends. -/
def Draft.rewriting (draft : Draft) : Rewriting := ⟨draft.done ++ draft.rest, draft.done.length - 1⟩

/-- What is final is made of whole lines. -/
theorem Draft.isWhole_advance {enabled : Bool} {draft next : Draft}
    (h : draft.advance enabled = some next) : Text.IsWhole next.done := by
  unfold Draft.advance at h
  split at h
  · cases h
  · obtain ⟨body, _, rfl⟩ := Option.map_eq_some_iff.1 h
    refine Or.inr ?_
    simp [Text.blank, List.getLast?_append, List.replicate_succ']

section Draft

variable {draft : Draft} (hdone : Text.IsWhole draft.done)

include hdone

theorem Draft.next?_rewriting : draft.rewriting.next? =
    (cutBefore true draft.rest).map fun cut => (draft.done ++ cut.1, cut.2) := by
  rcases hdone with hnil | hlast
  · rw [Draft.rewriting, hnil]
    rfl
  · obtain ⟨start, hstart⟩ := List.getLast?_eq_some_iff.1 hlast
    have hnext := Rewriting.next?_newline start draft.rest
    simp only [Draft.rewriting, hstart, List.append_assoc, List.singleton_append,
      List.length_append, List.length_singleton, Nat.add_sub_cancel]
    exact hnext

theorem Draft.result_rewriting : draft.rewriting.result = draft.text := by
  rw [Rewriting.result, Draft.next?_rewriting hdone, Draft.text]
  cases cutBefore true draft.rest <;> rfl

/-- **A round of an expansion is a round in one text.** -/
theorem Draft.advance_rewriting (enabled : Bool) :
    draft.rewriting.advance enabled = (draft.advance enabled).map Draft.rewriting := by
  unfold Rewriting.advance Draft.advance
  rw [Draft.next?_rewriting hdone]
  cases cutBefore true draft.rest with
  | none => rfl
  | some cut =>
    obtain ⟨before, behind⟩ := cut
    cases hbody : cutBody behind with
    | none => simp [hbody]
    | some body =>
      have hblank : Text.blank (body.joins + 1) = Text.blank body.joins ++ ['\n'] :=
        List.replicate_succ'
      have hpass := defineFrom_append enabled (breaks_cutBody hbody).1
        (draft.done ++ before ++ Text.blank body.joins) body.rest
      simp only [Option.map_some, hbody, hpass, Draft.rewriting, hblank]
      simp only [List.append_assoc, List.singleton_append, List.length_append,
        List.length_singleton, Option.some.injEq, Rewriting.mk.injEq, true_and]
      omega

end Draft

/-- What is unfinished in the end is so from the beginning. -/
theorem Draft.unfinished_advance {enabled : Bool} {draft next : Draft}
    (h : draft.advance enabled = some next) :
    (expand enabled next.rest).unfinished = (expand enabled draft.rest).unfinished := by
  unfold Draft.advance at h
  split at h
  · cases h
  · rename_i before behind hbefore
    obtain ⟨body, hbody, rfl⟩ := Option.map_eq_some_iff.1 h
    rw [expand_defined hbefore hbody]

/-- In the end nothing but an unfinished definition is dropped. -/
theorem Draft.append_of_advance_eq_none {enabled : Bool} {draft : Draft}
    (h : draft.advance enabled = none) :
    draft.done ++ draft.rest = draft.text ++ (expand enabled draft.rest).unfinished.getD [] := by
  unfold Draft.advance at h
  unfold Draft.text
  split at h
  · rename_i hbefore
    rw [expand_eq_self hbefore, hbefore]
    exact (List.append_nil _).symm
  · rename_i before behind hbefore
    rw [expand_unfinished hbefore (Option.map_eq_none_iff.1 h), hbefore]
    have hrest : draft.rest = before ++ (Keyword.define.text ++ behind) := cutBefore_append hbefore
    rw [hrest]
    exact (List.append_assoc _ _ _).symm

/-- **Expanding in one text** goes through the rounds of `expand`, and ends with its text and with
what it drops. -/
theorem exists_rewriting (enabled : Bool) (t : Text) :
    ∃ last, afterSteps (Rewriting.advance enabled) (expand enabled t).definitions.length
        (.start t) = some last ∧ last.advance enabled = none ∧
      last.result = (expand enabled t).text ∧
      last.text = (expand enabled t).text ++ (expand enabled t).unfinished.getD [] := by
  obtain ⟨n, _, draft, hdraft, hend, htext, _, hlength⟩ := exists_rounds enabled t
  have hsteps (k : Nat) : afterSteps (Rewriting.advance enabled) k (Draft.start t).rewriting =
      (afterSteps (Draft.advance enabled) k (.start t)).map Draft.rewriting :=
    afterSteps_map (fun _ _ _ => Draft.isWhole_advance)
      (fun _ hdone => Draft.advance_rewriting hdone enabled) k (Or.inl rfl)
  have hdone : Text.IsWhole draft.done :=
    of_afterSteps (P := fun draft : Draft => Text.IsWhole draft.done)
      (fun _ _ _ => Draft.isWhole_advance) (Or.inl rfl) hdraft
  have hunfinished : (expand enabled draft.rest).unfinished = (expand enabled t).unfinished :=
    eq_of_afterSteps (fun _ _ => Draft.unfinished_advance) hdraft
  refine ⟨draft.rewriting, ?_, ?_, ?_, ?_⟩
  · rw [hlength]
    exact (hsteps n).trans (by rw [hdraft]; rfl)
  · rw [Draft.advance_rewriting hdone, hend]
    rfl
  · rw [Draft.result_rewriting hdone, htext]
  · rw [← hunfinished, ← htext]
    exact Draft.append_of_advance_eq_none hend

/-! ## 3. Whole lines in front -/

/-- The same state with some text in front. -/
def Rewriting.behind (p : Text) (r : Rewriting) : Rewriting := ⟨p ++ r.text, p.length + r.mark⟩

section Front

variable {p : Text} (hp : Text.IsWhole p)

include hp

/-- Behind whole lines the line before a place is the same. -/
theorem lineAfter_front (t : Text) : lineAfter [] (p ++ t) = lineAfter [] t := by
  rw [lineAfter_append]
  rcases hp with rfl | hlast
  · rfl
  · rw [lineAfter_eq_nil hlast]

theorem next?_behind (r : Rewriting) :
    (r.behind p).next? = r.next?.map fun cut => (p ++ cut.1, cut.2) := by
  have hstart : (p ++ r.text.take r.mark).getLast?.all (· == '\n') =
      (r.text.take r.mark).getLast?.all (· == '\n') := by
    rw [List.getLast?_append]
    cases (r.text.take r.mark).getLast? with
    | some c => rfl
    | none =>
      rcases hp with rfl | hlast
      · rfl
      · rw [hlast]
        rfl
  simp only [Rewriting.next?, Rewriting.behind, List.take_length_add_append,
    List.drop_length_add_append, hstart, Option.map_map]
  refine congrArg (Option.map · _) (funext fun cut => ?_)
  rw [Function.comp_apply, List.append_assoc]

theorem defineFrom_behind (enabled : Bool) (definition t : Text) (start : Nat) :
    defineFrom enabled definition (p ++ t) (p.length + start) =
      p ++ defineFrom enabled definition t start := by
  unfold defineFrom
  cases ofText? definition with
  | none => rfl
  | some m =>
    cases enabled with
    | false => rfl
    | true =>
      simp only [if_true, expandFrom, List.take_length_add_append, List.drop_length_add_append,
        lineAfter_front hp, Pass.keeping, List.append_assoc]

/-- **A round behind whole lines**: the search, the cut, the pass and the mark are the same. -/
theorem advance_behind (enabled : Bool) (r : Rewriting) :
    (r.behind p).advance enabled = (r.advance enabled).map (Rewriting.behind p) := by
  unfold Rewriting.advance
  rw [next?_behind hp]
  cases r.next? with
  | none => rfl
  | some cut =>
    obtain ⟨before, behind⟩ := cut
    cases hbody : cutBody behind with
    | none => simp [hbody]
    | some body =>
      have hpass := defineFrom_behind hp enabled body.text
        (before ++ Text.blank body.joins ++ '\n' :: body.rest)
        (before ++ Text.blank body.joins).length
      simp only [List.append_assoc, List.length_append] at hpass
      simp only [Option.map_some, hbody, Rewriting.behind, List.append_assoc, List.length_append,
        hpass]

/-- Where they have no definition, the work may as well start behind them. -/
theorem advance_start_front (hnone : cutBefore true p = none) (enabled : Bool) (r : Text) :
    (Rewriting.start (p ++ r)).advance enabled =
      ((Rewriting.start r).behind p).advance enabled := by
  have hnext : (Rewriting.start (p ++ r)).next? = ((Rewriting.start r).behind p).next? := by
    rw [next?_behind hp]
    have hcut := cutBefore_append_none hnone (hp.imp_left fun hnil => ⟨hnil, rfl⟩) r
    show (cutBefore true (p ++ r)).map _ = ((cutBefore true r).map _).map _
    rw [hcut, Option.map_map, Option.map_map]
    rfl
  unfold Rewriting.advance
  rw [hnext]

end Front

/-- **A macro is invisible before its definition.** Whole lines without a definition stay as they
are, and what follows is expanded as if they were not there: with the same definitions, and in one
text with the same rounds behind them. -/
theorem expand_behind_plain (enabled : Bool) {p : Text} (hp : Text.IsWhole p)
    (hplain : ∀ line ∈ Text.lines p, line ≠ "#define".toList ∧ ¬ "#define ".toList <+: line)
    (r : Text) :
    expand enabled (p ++ r) = ⟨p ++ (expand enabled r).text, (expand enabled r).definitions,
        (expand enabled r).unfinished⟩ ∧
      ∀ n : Nat, afterSteps (Rewriting.advance enabled) (n + 1) (.start (p ++ r)) =
        (afterSteps (Rewriting.advance enabled) (n + 1) (.start r)).map (Rewriting.behind p) := by
  have hnone : cutBefore true p = none := by
    rw [cutBefore_eq_none_iff, if_pos rfl, hp.splitOn_eq, List.forall_mem_append]
    exact ⟨fun line hline => not_or.2 (hplain line hline),
      List.forall_mem_singleton.2 not_startsDefinition_nil⟩
  refine ⟨expand_append hp hnone, fun n => ?_⟩
  have hrounds : afterSteps (Rewriting.advance enabled) (n + 1) ((Rewriting.start r).behind p) =
      (afterSteps (Rewriting.advance enabled) (n + 1) (.start r)).map (Rewriting.behind p) :=
    afterSteps_map (P := fun _ => True) (fun _ _ _ _ => trivial)
      (fun r _ => advance_behind hp enabled r) (n + 1) trivial
  rw [← hrounds, afterSteps, afterSteps, advance_start_front hp hnone]

/-- A use before the definition of its macro. -/
theorem expand_behind_plain_use :
    (expand true "a = B;\n#define B 2\nb = B;\n".toList).text = "a = B;\n\nb = 2;\n".toList ∧
      expand true ("a = B;\n".toList ++ "#define B 2\nb = B;\n".toList) =
        ⟨"a = B;\n".toList ++ (expand true "#define B 2\nb = B;\n".toList).text,
          (expand true "#define B 2\nb = B;\n".toList).definitions,
          (expand true "#define B 2\nb = B;\n".toList).unfinished⟩ :=
  ⟨by decide +kernel, (expand_behind_plain true (p := "a = B;\n".toList) (by decide) (by decide)
    "#define B 2\nb = B;\n".toList).1⟩

/-! ## 4. Line breaks -/

/-- A pass in the whole text keeps its line breaks. -/
theorem breaks_expandFrom {m : Macro} (hbody : ∀ token ∈ m.body, Text.breaks token.lexeme = 0)
    (t : Text) (start : Nat) : Text.breaks (m.expandFrom t start).text = Text.breaks t := by
  rw [expandFrom, Pass.keeping, Text.breaks_append, breaks_expandUses hbody, ← Text.breaks_append,
    List.take_append_drop]

theorem breaks_defineFrom (enabled : Bool) {definition : Text} (hd : Text.breaks definition = 0)
    (t : Text) (start : Nat) :
    Text.breaks (defineFrom enabled definition t start) = Text.breaks t := by
  unfold defineFrom
  cases hm : ofText? definition with
  | none => rfl
  | some m =>
    cases enabled with
    | false => rfl
    | true => exact breaks_expandFrom (breaks_body hm hd) t start

/-- **A round keeps the line breaks of the text**: those of the continuations are put back, and the
one that ends the definition stays. -/
theorem breaks_advance {enabled : Bool} {r next : Rewriting} (h : r.advance enabled = some next) :
    Text.breaks next.text = Text.breaks r.text := by
  unfold Rewriting.advance at h
  split at h
  · cases h
  · rename_i before behind hnext
    obtain ⟨body, hbody, rfl⟩ := Option.map_eq_some_iff.1 h
    obtain ⟨hone, hbreaks⟩ := breaks_cutBody hbody
    have hkeyword : Text.breaks Keyword.define.text = 0 := rfl
    rw [Rewriting.next?_append hnext]
    simp only [breaks_defineFrom enabled hone, Text.breaks_append, Text.breaks_blank,
      Text.breaks_cons, if_true, hkeyword, hbreaks]
    omega

/-- Every line break behind the keyword of an unfinished definition is continued. -/
theorem getLast?_of_cutBody_eq_none {t front back : Text} (h : cutBody t = none)
    (ht : t = front ++ '\n' :: back) : front.getLast? = some '\\' := by
  fun_induction cutBody t generalizing front with
  | case1 => cases front <;> cases ht
  | case2 => cases h
  | case3 c hc =>
    cases front with
    | nil => exact absurd (List.cons.inj ht).1 hc
    | cons d front => cases front <;> cases ht
  | case4 c hc d u hcd ih =>
    obtain ⟨rfl, rfl⟩ := hcd
    cases front with
    | nil => cases ht
    | cons e front =>
      obtain ⟨rfl, hu⟩ := List.cons.inj ht
      cases front with
      | nil => rfl
      | cons e front =>
        have hlast := ih (Option.map_eq_none_iff.1 h) (List.cons.inj hu).2
        rw [List.getLast?_cons, List.getLast?_cons, hlast]
        rfl
  | case5 c hc d u hcd ih =>
    cases front with
    | nil => exact absurd (List.cons.inj ht).1 hc
    | cons e front =>
      have hlast := ih (Option.map_eq_none_iff.1 h) (List.cons.inj ht).2
      rw [List.getLast?_cons, hlast]
      rfl

/-- What is dropped is a keyword with an unfinished definition behind it. -/
theorem exists_of_unfinished {enabled : Bool} {t tail : Text}
    (h : (expand enabled t).unfinished = some tail) :
    ∃ behind, tail = Keyword.define.text ++ behind ∧ cutBody behind = none := by
  fun_induction expand enabled t with
  | case1 => cases h
  | case2 t before behind hbefore hbody =>
    cases h
    exact ⟨behind, rfl, hbody⟩
  | case3 t before behind hbefore body hbody defined later ih => exact ih h

/-- Every line break that is dropped stands right behind a backslash. -/
theorem getLast?_of_unfinished {enabled : Bool} {t tail front back : Text}
    (h : (expand enabled t).unfinished = some tail) (htail : tail = front ++ '\n' :: back) :
    front.getLast? = some '\\' := by
  obtain ⟨behind, rfl, hbody⟩ := exists_of_unfinished h
  have hkeyword : '\n' ∉ Keyword.define.text := by decide
  rcases List.append_eq_append_iff.1 htail with ⟨more, hfront, hbehind⟩ | ⟨more, hmore, hback⟩
  · have hlast := getLast?_of_cutBody_eq_none hbody hbehind
    rw [hfront, List.getLast?_append, hlast]
    rfl
  · cases more with
    | nil =>
      have hbehind : behind = [] ++ '\n' :: back := hback.symm
      have hlast := getLast?_of_cutBody_eq_none hbody hbehind
      cases hlast
    | cons c more =>
      rw [(List.cons.inj hback).1] at hkeyword
      exact absurd (hmore ▸ List.mem_append_right _ List.mem_cons_self) hkeyword

/-- **The line breaks of an expanded text.** An expanded text has the line breaks of the text, less
those of the unfinished definition that is dropped from the text as it stands in the end, if there
is one; each of these stands right behind a backslash. No round changes the number of line breaks,
whatever is continued in the definition that it takes out, and no pass does, whatever the calls and
their arguments are. -/
theorem breaks_expand_dropped (enabled : Bool) (t : Text) :
    ((expand enabled t).unfinished = none →
        Text.breaks (expand enabled t).text = Text.breaks t) ∧
      (∀ tail, (expand enabled t).unfinished = some tail →
        (∃ last, afterSteps (Rewriting.advance enabled) (expand enabled t).definitions.length
            (.start t) = some last ∧ last.text = (expand enabled t).text ++ tail) ∧
          Text.breaks (expand enabled t).text + Text.breaks tail = Text.breaks t ∧
          ∀ front back, tail = front ++ '\n' :: back → front.getLast? = some '\\') ∧
      (∀ r next : Rewriting, r.advance enabled = some next →
        Text.breaks next.text = Text.breaks r.text) ∧
      ∀ (m : Macro) (definition : Text), ofText? definition = some m →
        Text.breaks definition = 0 → ∀ (code : Text) (start : Nat),
          Text.breaks (m.expandFrom code start).text = Text.breaks code := by
  have htotal : Text.breaks (expand enabled t).text +
      Text.breaks ((expand enabled t).unfinished.getD []) = Text.breaks t := breaks_expand enabled t
  refine ⟨fun hnone => ?_, fun tail htail => ⟨?_, ?_, ?_⟩, fun _ _ => breaks_advance, ?_⟩
  · rw [hnone] at htotal
    exact htotal
  · obtain ⟨last, hlast, _, _, htext⟩ := exists_rewriting enabled t
    rw [htail] at htext
    exact ⟨last, hlast, htext⟩
  · rw [htail] at htotal
    exact htotal
  · exact fun front back => getLast?_of_unfinished htail
  · intro m definition hm hd code start
    exact breaks_expandFrom (breaks_body hm hd) code start

/-- A continued definition with a call over two lines that uses its argument twice, and a definition
that is not finished in the last line. -/
theorem breaks_expand_dropped_call :
    ((expand true "#define F(x) x+ \\\nx\nF(1\n);\n".toList).text = "\n\n1+1\n;\n".toList ∧
      Text.breaks (expand true "#define F(x) x+ \\\nx\nF(1\n);\n".toList).text =
        Text.breaks "#define F(x) x+ \\\nx\nF(1\n);\n".toList) ∧
    (∃ tail, (expand true "#define A 1\nA\n#define B \\\nA".toList).unfinished = some tail ∧
      Text.breaks (expand true "#define A 1\nA\n#define B \\\nA".toList).text +
        Text.breaks tail = 3 ∧ tail = "#define B \\".toList ++ '\n' :: ['1'] ∧
      "#define B \\".toList.getLast? = some '\\') ∧
    (∃ next, (Rewriting.start "#define A \\\n1\nA".toList).advance true = some next ∧
      next = ⟨"\n\n1".toList, 1⟩ ∧ Text.breaks next.text = 2) ∧
    ∃ m, ofText? " G(x) 1".toList = some m ∧
      (m.expandFrom "#G\nG(\n)".toList 2).text = "#G\n1\n".toList ∧
      Text.breaks (m.expandFrom "#G\nG(\n)".toList 2).text = 2 := by
  have hcalls := breaks_expand_dropped true "#define F(x) x+ \\\nx\nF(1\n);\n".toList
  have hcut := breaks_expand_dropped true "#define A 1\nA\n#define B \\\nA".toList
  have htail : (expand true "#define A 1\nA\n#define B \\\nA".toList).unfinished =
      some "#define B \\\n1".toList := by decide +kernel
  have hround : (Rewriting.start "#define A \\\n1\nA".toList).advance true =
      some ⟨"\n\n1".toList, 1⟩ := by decide +kernel
  have hmacro : ofText? " G(x) 1".toList =
      some ⟨['G'], [['x']], [⟨.number, ['1'], ⟨1, 7⟩⟩]⟩ := by decide +kernel
  obtain ⟨_, hbreaks, hlast⟩ := hcut.2.1 _ htail
  refine ⟨⟨by decide +kernel, hcalls.1 (by decide +kernel)⟩, ⟨_, htail, hbreaks, rfl, ?_⟩,
    ⟨_, hround, rfl, hcut.2.2.1 _ _ hround⟩, _, hmacro, by decide +kernel, ?_⟩
  · exact hlast "#define B \\".toList ['1'] rfl
  · exact hcut.2.2.2 _ _ hmacro (by decide) _ 2

end Variants.Macro
