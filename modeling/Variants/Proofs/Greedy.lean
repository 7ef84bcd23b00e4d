import Variants.Proofs.Occurrences
import Variants.Proofs.Splices

/-!
# A pass against a scan of the old text

A pass looks at what it has written: whether a use may stand at an occurrence of the name depends on
the line before it as the uses before have left it. The scan of this file decides on the old text
alone (`Macro.greedy`): it takes every occurrence that does not stand behind a word character there
and has a call with an argument for each parameter.

The two treat all occurrences alike exactly when the text that is written in front of each of them
lets the pass do what the scan does (`Macro.IsClear`, `Macro.scan_eq_greedy_iff`): the scan uses the
name where the pass may not if the name then stands right behind a word character that was put in,
or on a line that by then redefines or tests a symbol.
-/

namespace Variants.Macro

/-! ## 1. Scans -/

/-- An occurrence of the name in a text that is scanned: the text in front of it, from the
occurrence before on, and the call behind it, if the two are a use. -/
structure Visit where
  gap : Text
  call? : Option Call
  deriving DecidableEq, Repr

/-- The span of an occurrence. A use is replaced, with its line breaks put behind, and any other
occurrence is left as it is. -/
def Visit.splice (m : Macro) (visit : Visit) : Splice :=
  match visit.call? with
  | none => ⟨visit.gap, m.name, m.name⟩
  | some call =>
    ⟨visit.gap, m.name ++ call.text,
      m.replacement call.arguments ++ Text.blank (Text.breaks (m.name ++ call.text))⟩

/-- A scan of a text: the occurrences of the name that it goes over, and what is left behind the
last one. -/
structure Scan where
  visits : List Visit
  rest : Text
  deriving DecidableEq, Repr

namespace Scan

/-- Puts an occurrence in front. -/
def visiting (visit : Visit) (scan : Scan) : Scan := ⟨visit :: scan.visits, scan.rest⟩

/-- The text that is scanned. -/
def old (m : Macro) (scan : Scan) : Text := oldText scan.rest (scan.visits.map (Visit.splice m))

/-- The text with all uses replaced. -/
def new (m : Macro) (scan : Scan) : Text := newText scan.rest (scan.visits.map (Visit.splice m))

/-- The number of uses. -/
def count (scan : Scan) : Nat := scan.visits.countP fun visit => visit.call?.isSome

theorem old_visiting (m : Macro) (visit : Visit) (scan : Scan) :
    (scan.visiting visit).old m = visit.gap ++ ((visit.splice m).old ++ scan.old m) := by
  obtain ⟨gap, _ | call⟩ := visit <;> rfl

theorem new_visiting (m : Macro) (visit : Visit) (scan : Scan) :
    (scan.visiting visit).new m = visit.gap ++ ((visit.splice m).new ++ scan.new m) := by
  obtain ⟨gap, _ | call⟩ := visit <;> rfl

theorem count_visiting (visit : Visit) (scan : Scan) :
    (scan.visiting visit).count = scan.count + if visit.call?.isSome then 1 else 0 :=
  List.countP_cons

theorem visiting_inj {visit visit' : Visit} {scan scan' : Scan} :
    scan.visiting visit = scan'.visiting visit' ↔ visit = visit' ∧ scan = scan' := by
  obtain ⟨visits, rest⟩ := scan
  obtain ⟨visits', rest'⟩ := scan'
  simp [visiting, and_assoc]

end Scan

/-- The call with which a text starts, if it has an argument for each parameter. -/
def call? (m : Macro) (t : Text) : Option Call :=
  (Call.read? t).filter fun call => call.arguments.length == m.parameters.length

theorem read?_of_call? {m : Macro} {t : Text} {call : Call} (h : m.call? t = some call) :
    Call.read? t = some call :=
  (Option.filter_eq_some_iff.1 h).1

/-! ## 2. The scan of the old text -/

/-- Scans a text from left to right, with the text `before` in front of it. An occurrence of the
name is used if it does not stand right behind a word character and has a call, and the scan goes on
behind the call; from any other occurrence it goes on behind the name. -/
def greedy (m : Macro) (before t : Text) : Scan :=
  match _hcut : Text.cutAt m.name t with
  | none => ⟨[], t⟩
  | some (gap, behind) =>
    match _hcall : if startsWithWord (before ++ gap).reverse then none else m.call? behind with
    | none => (m.greedy (before ++ gap ++ m.name) behind).visiting ⟨gap, none⟩
    | some call =>
      (m.greedy (before ++ gap ++ (m.name ++ call.text)) call.rest).visiting ⟨gap, some call⟩
termination_by t.length
decreasing_by
  · exact Text.length_lt_of_cutAt _hcut
  · split at _hcall
    · cases _hcall
    · exact Nat.lt_trans (Call.length_rest_lt (read?_of_call? _hcall))
        (Text.length_lt_of_cutAt _hcut)

/-- The scan goes over the whole text. -/
theorem old_greedy (m : Macro) (before t : Text) : (m.greedy before t).old m = t := by
  fun_induction greedy m before t with
  | case1 => rfl
  | case2 before t gap behind hcut hcall ih =>
    rw [Scan.old_visiting, ih, Text.cutAt_append hcut]
    rfl
  | case3 before t gap behind hcut call hcall ih =>
    split at hcall
    · cases hcall
    · rw [Scan.old_visiting, ih, Text.cutAt_append hcut,
        (Call.text_append (read?_of_call? hcall)).1]
      simp [Visit.splice]

/-! ## 3. What a pass does at the name -/

section FunctionLike

variable {m : Macro}

/-- The call of the name behind a line, if the line allows to use it. -/
def useAfter? (m : Macro) (line behind : Text) : Option Call :=
  if startsWithWord line = false ∧ allowsUses line.reverse = true then m.call? behind else none

/-- **What a pass does at the name** of a macro with parameters: it ends where the name is defined
again; else it uses the name if the line before it allows to and there is a call. -/
theorem stepAtName_of_isFunctionLike (hm : m.isFunctionLike = true) (line behind : Text) :
    m.stepAtName line behind =
      if line.reverse = redefinition ∧ startsWithWord behind = false then .stop
      else
        match m.useAfter? line behind with
        | none => .keep m.name behind
        | some call =>
          .replace (m.replacement call.arguments ++
            Text.blank (Text.breaks (m.name ++ call.text))) call.rest := by
  unfold useAfter?
  by_cases hallowed : startsWithWord line = false ∧ allowsUses line.reverse = true
  · obtain ⟨hword, hline, htest⟩ : startsWithWord line = false ∧ line.reverse ≠ redefinition ∧
        testOpenings.any (·.isPrefixOf line.reverse) = false := by
      simpa [allowsUses] using hallowed
    rw [if_neg (fun h => hline h.1), if_pos hallowed]
    simp only [stepAtName, hword, hline, htest, hm, call?, Bool.false_eq_true, if_false, if_true]
    cases Call.read? behind with
    | none => rfl
    | some call =>
      rw [Option.filter_some]
      simp only [beq_iff_eq, Text.breaks_append, Call.breaks_text]
      split
      · rfl
      · rfl
  · rw [if_neg hallowed]
    unfold stepAtName
    by_cases hword : startsWithWord line = true
    · rw [if_pos hword, if_neg]
      rintro ⟨hline, _⟩
      rw [List.reverse_eq_iff.1 hline] at hword
      exact absurd hword (by decide)
    rw [if_neg hword]
    by_cases hline : line.reverse = redefinition
    · rw [if_pos hline]
      cases startsWithWord behind with
      | false => rw [if_neg (by decide), if_pos ⟨hline, rfl⟩]
      | true => rw [if_pos rfl, if_neg (by simp)]
    · have htest : testOpenings.any (·.isPrefixOf line.reverse) = true := by
        simpa [allowsUses, hword, hline] using hallowed
      rw [if_neg hline, if_pos htest, if_neg (fun h => hline h.1)]

theorem of_keep (hm : m.isFunctionLike = true) {line behind kept rest : Text}
    (h : m.stepAtName line behind = .keep kept rest) : kept = m.name ∧ rest = behind := by
  rw [stepAtName_of_isFunctionLike hm] at h
  split at h
  · cases h
  · split at h
    · cases h
      exact ⟨rfl, rfl⟩
    · cases h

end FunctionLike

/-! ## 4. The scan of a pass -/

/-- What a pass goes over. `line` is the line before the text, of all that the pass has written. -/
def scan (m : Macro) (line t : Text) : Scan :=
  match _hcut : Text.cutAt m.name t with
  | none => ⟨[], t⟩
  | some (gap, behind) =>
    match _hstep : m.stepAtName (lineAfter line gap) behind with
    | .stop => ⟨[], t⟩
    | .keep kept rest => (m.scan (lineAfter (lineAfter line gap) kept) rest).visiting ⟨gap, none⟩
    | .replace text rest =>
      (m.scan (lineAfter (lineAfter line gap) text) rest).visiting ⟨gap, Call.read? behind⟩
termination_by t.length
decreasing_by
  · exact Nat.lt_of_le_of_lt (length_stepAtName_le (by rw [_hstep]; rfl))
      (Text.length_lt_of_cutAt _hcut)
  · exact Nat.lt_of_le_of_lt (length_stepAtName_le (by rw [_hstep]; rfl))
      (Text.length_lt_of_cutAt _hcut)

section Scans

variable {m : Macro} {line t gap behind kept text rest : Text}

theorem scan_of_cutAt_eq_none (h : Text.cutAt m.name t = none) : m.scan line t = ⟨[], t⟩ := by
  rw [scan]
  split
  · rfl
  · rename_i hcut
    cases h.symm.trans hcut

theorem scan_stop (h : Text.cutAt m.name t = some (gap, behind))
    (hstep : m.stepAtName (lineAfter line gap) behind = .stop) : m.scan line t = ⟨[], t⟩ := by
  rw [scan]
  split
  · rfl
  · rename_i hcut
    cases h.symm.trans hcut
    split
    · rfl
    · rename_i hother
      cases hstep.symm.trans hother
    · rename_i hother
      cases hstep.symm.trans hother

theorem scan_keep (h : Text.cutAt m.name t = some (gap, behind))
    (hstep : m.stepAtName (lineAfter line gap) behind = .keep kept rest) :
    m.scan line t =
      (m.scan (lineAfter (lineAfter line gap) kept) rest).visiting ⟨gap, none⟩ := by
  rw [scan]
  split
  · rename_i hcut
    cases h.symm.trans hcut
  · rename_i hcut
    cases h.symm.trans hcut
    split
    · rename_i hother
      cases hstep.symm.trans hother
    · rename_i hother
      cases hstep.symm.trans hother
      rfl
    · rename_i hother
      cases hstep.symm.trans hother

theorem scan_replace (h : Text.cutAt m.name t = some (gap, behind))
    (hstep : m.stepAtName (lineAfter line gap) behind = .replace text rest) :
    m.scan line t =
      (m.scan (lineAfter (lineAfter line gap) text) rest).visiting ⟨gap, Call.read? behind⟩ := by
  rw [scan]
  split
  · rename_i hcut
    cases h.symm.trans hcut
  · rename_i hcut
    cases h.symm.trans hcut
    split
    · rename_i hother
      cases hstep.symm.trans hother
    · rename_i hother
      cases hstep.symm.trans hother
    · rename_i hother
      cases hstep.symm.trans hother
      rfl

end Scans

/-- **A pass writes what its scan says**: it replaces the uses of the scan and nothing else. -/
theorem expandUses_scan {m : Macro} (hm : m.isFunctionLike = true) (line t : Text) :
    (m.expandUses line t).text = (m.scan line t).new m ∧
      (m.expandUses line t).count = (m.scan line t).count := by
  fun_induction scan m line t with
  | case1 line t hcut =>
    rw [expandUses_of_cutAt_eq_none hcut]
    exact ⟨rfl, rfl⟩
  | case2 line t gap behind hcut hstep =>
    rw [expandUses_of_cutAt hcut, expandAt, hstep]
    exact ⟨(Text.cutAt_append hcut).symm, rfl⟩
  | case3 line t gap behind hcut kept rest hstep ih =>
    obtain ⟨htext, hcount⟩ := ih
    obtain ⟨rfl, rfl⟩ := of_keep hm hstep
    rw [expandUses_of_cutAt hcut, expandAt, hstep, Scan.new_visiting, Scan.count_visiting, ← htext,
      ← hcount]
    exact ⟨rfl, rfl⟩
  | case4 line t gap behind hcut text rest hstep ih =>
    obtain ⟨htext, hcount⟩ := ih
    obtain ⟨_, ⟨_, call, hcall, _, rfl, rfl⟩ | ⟨hobject, _⟩⟩ := of_stepAtName_replace hstep
    · rw [expandUses_of_cutAt hcut, expandAt, hstep, hcall, Scan.new_visiting,
        Scan.count_visiting, ← htext, ← hcount]
      exact ⟨rfl, rfl⟩
    · cases hobject.symm.trans hm

/-! ## 5. Where the two scans agree -/

/-- Whether the text that is written with all uses of a scan replaced lets a pass do the same: each
use stands on a line that allows it, not right behind a word character; and the name is not defined
again where it is no use. `line` is the line before the occurrences, from its end to its start, and
`rest` is the text behind the last one. -/
def IsClear (m : Macro) (rest line : Text) : List Visit → Prop
  | [] => True
  | visit :: later =>
    let here := lineAfter line visit.gap
    (if visit.call?.isSome then startsWithWord here = false ∧ allowsUses here.reverse = true
      else here.reverse = redefinition →
        startsWithWord (oldText rest (later.map (Visit.splice m))) = true) ∧
    IsClear m rest (lineAfter here (visit.splice m).new) later

instance (m : Macro) (rest : Text) : ∀ line visits, Decidable (IsClear m rest line visits)
  | _, [] => inferInstanceAs (Decidable True)
  | line, visit :: later =>
    have := instDecidableIsClear m rest
      (lineAfter (lineAfter line visit.gap) (visit.splice m).new) later
    inferInstanceAs (Decidable (_ ∧ _))

section Agreement

variable {m : Macro} {line gap : Text} {scan : Scan}

theorem isClear_skip :
    IsClear m (scan.visiting ⟨gap, none⟩).rest line (scan.visiting ⟨gap, none⟩).visits ↔
      ((lineAfter line gap).reverse = redefinition → startsWithWord (scan.old m) = true) ∧
        IsClear m scan.rest (lineAfter (lineAfter line gap) m.name) scan.visits :=
  Iff.rfl

theorem isClear_use {call : Call} :
    IsClear m (scan.visiting ⟨gap, some call⟩).rest line (scan.visiting ⟨gap, some call⟩).visits ↔
      (startsWithWord (lineAfter line gap) = false ∧
          allowsUses (lineAfter line gap).reverse = true) ∧
        IsClear m scan.rest (lineAfter (lineAfter line gap) (m.replacement call.arguments ++
          Text.blank (Text.breaks (m.name ++ call.text)))) scan.visits :=
  Iff.rfl

/-- A word character of the old text is kept in front of what comes next. -/
theorem startsWithWord_lineAfter_of_append {before : Text}
    (h : startsWithWord before.reverse = true → startsWithWord line = true) (s : Text)
    (hword : startsWithWord (before ++ s).reverse = true) :
    startsWithWord (lineAfter line s) = true := by
  by_cases hs : s = []
  · rw [hs, List.append_nil] at hword
    rw [hs]
    exact h hword
  · rwa [startsWithWord_lineAfter line hs, ← startsWithWord_append (List.reverse_ne_nil_iff.2 hs),
      ← List.reverse_append]

/-- A call does not end with a word character. -/
theorem startsWithWord_behind_call (s : Text) (call : Call) :
    startsWithWord (s ++ call.text).reverse = false := by
  have hclose : Text.isWordChar ')' = false := by decide
  simpa [Call.text, startsWithWord] using hclose

variable (hm : m.isFunctionLike = true)

include hm

/-- **The two scans go over the same occurrences and use the same of them** exactly where the text
that is written lets the pass do so. -/
theorem scan_eq_greedy_iff_from {before t : Text}
    (hword : startsWithWord before.reverse = true → startsWithWord line = true) :
    m.scan line t = m.greedy before t ↔
      IsClear m (m.greedy before t).rest line (m.greedy before t).visits := by
  fun_induction greedy m before t generalizing line with
  | case1 before t hcut =>
    rw [scan_of_cutAt_eq_none hcut]
    exact iff_of_true rfl trivial
  | case2 before t gap behind hcut hcall ih =>
    have hgap := startsWithWord_lineAfter_of_append hword gap
    have hskip : m.useAfter? (lineAfter line gap) behind = none := by
      unfold useAfter?
      split at hcall
      · rename_i hbefore
        rw [if_neg]
        rintro ⟨hnone, _⟩
        cases hnone.symm.trans (hgap hbefore)
      · rw [hcall, ite_self]
    have hstep := stepAtName_of_isFunctionLike hm (lineAfter line gap) behind
    rw [hskip] at hstep
    by_cases hstop : (lineAfter line gap).reverse = redefinition ∧ startsWithWord behind = false
    · rw [if_pos hstop] at hstep
      rw [scan_stop hcut hstep, isClear_skip, old_greedy]
      refine iff_of_false (fun h => nomatch h) fun h => ?_
      cases hstop.2.symm.trans (h.1 hstop.1)
    · rw [if_neg hstop] at hstep
      rw [scan_keep hcut hstep, Scan.visiting_inj, isClear_skip, old_greedy,
        ih (startsWithWord_lineAfter_of_append hgap m.name)]
      refine and_congr_left fun _ => iff_of_true rfl fun hline => ?_
      exact Bool.of_not_eq_false fun hbehind => hstop ⟨hline, hbehind⟩
  | case3 before t gap behind hcut call hcall ih =>
    split at hcall
    · cases hcall
    have hstep := stepAtName_of_isFunctionLike hm (lineAfter line gap) behind
    rw [isClear_use]
    by_cases hallowed : startsWithWord (lineAfter line gap) = false ∧
        allowsUses (lineAfter line gap).reverse = true
    · rw [useAfter?, if_pos hallowed, hcall, if_neg] at hstep
      · rw [scan_replace hcut hstep, Scan.visiting_inj, read?_of_call? hcall, ih]
        · exact and_congr_left fun _ => iff_of_true rfl hallowed
        · intro hcallword
          rw [← List.append_assoc, startsWithWord_behind_call] at hcallword
          cases hcallword
      · rintro ⟨hline, _⟩
        rw [hline] at hallowed
        exact absurd hallowed.2 (by decide)
    · rw [useAfter?, if_neg hallowed] at hstep
      refine iff_of_false (fun h => ?_) fun h => hallowed h.1
      split at hstep
      · rw [scan_stop hcut hstep] at h
        cases h
      · rw [scan_keep hcut hstep] at h
        cases (Scan.visiting_inj.1 h).1

/-- **Where every use is replaced.** A pass of a macro with parameters replaces the uses of its own
scan. This scan is the one that decides on the old text alone, exactly where the text with all uses
of that one replaced lets the pass do the same; then the pass writes this text. -/
theorem scan_eq_greedy_iff (code : Text) :
    ((m.expandUses [] code).text = (m.scan [] code).new m ∧
        (m.expandUses [] code).count = (m.scan [] code).count) ∧
      (m.scan [] code = m.greedy [] code ↔
        IsClear m (m.greedy [] code).rest [] (m.greedy [] code).visits) ∧
      (IsClear m (m.greedy [] code).rest [] (m.greedy [] code).visits →
        (m.expandUses [] code).text = (m.greedy [] code).new m ∧
          (m.expandUses [] code).count = (m.greedy [] code).count) := by
  have hiff : m.scan [] code = m.greedy [] code ↔
      IsClear m (m.greedy [] code).rest [] (m.greedy [] code).visits :=
    scan_eq_greedy_iff_from hm id
  refine ⟨expandUses_scan hm [] code, hiff, fun hclear => ?_⟩
  rw [← hiff.2 hclear]
  exact expandUses_scan hm [] code

end Agreement

/-- Calls right behind each other, and a name that ends a longer one. -/
theorem scan_eq_greedy_sum : ∃ m, ofText? " ADD(a, b) (a+b)".toList = some m ∧
    m.isFunctionLike = true ∧
    IsClear m (m.greedy [] "ADD(1,2)ADD(f(3),4) xADD(5,6)".toList).rest []
      (m.greedy [] "ADD(1,2)ADD(f(3),4) xADD(5,6)".toList).visits ∧
    (m.expandUses [] "ADD(1,2)ADD(f(3),4) xADD(5,6)".toList).text =
      "(1+2)(f(3)+4) xADD(5,6)".toList := by
  have hm : ofText? " ADD(a, b) (a+b)".toList = some ⟨"ADD".toList, [['a'], ['b']],
    [⟨.punctuator, ['('], ⟨1, 12⟩⟩, ⟨.name, ['a'], ⟨1, 13⟩⟩, ⟨.punctuator, ['+'], ⟨1, 14⟩⟩,
      ⟨.name, ['b'], ⟨1, 15⟩⟩, ⟨.punctuator, [')'], ⟨1, 16⟩⟩]⟩ := by decide +kernel
  refine ⟨_, hm, rfl, by decide +kernel, ?_⟩
  rw [((scan_eq_greedy_iff rfl _).2.2 (by decide +kernel)).1]
  decide +kernel

/-- A use is not replaced right behind a word character that was put in, and not on a line that by
then tests or redefines a symbol. -/
theorem expandUses_ne_greedy :
    (∃ m ∈ ofText? " F(x) x".toList, m.isFunctionLike = true ∧
        (m.expandUses [] "F(a)F(b)".toList).text = "aF(b)".toList ∧
        (m.greedy [] "F(a)F(b)".toList).new m = "ab".toList) ∧
      (∃ m ∈ ofText? " F(x) #ifdef x".toList, m.isFunctionLike = true ∧
        (m.expandUses [] "F(a) F(b)".toList).text = "#ifdef a F(b)".toList ∧
        (m.greedy [] "F(a) F(b)".toList).new m = "#ifdef a #ifdef b".toList) ∧
      (∃ m ∈ ofText? " F(x) #define x".toList, m.isFunctionLike = true ∧
        (m.expandUses [] "F()F\nF(b)".toList).text = "#define F\nF(b)".toList ∧
        (m.greedy [] "F()F\nF(b)".toList).new m = "#define F\n#define b".toList) := by
  decide +kernel

end Variants.Macro
