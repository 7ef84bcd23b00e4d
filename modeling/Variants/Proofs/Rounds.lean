import Variants.Macro.Expand
import Variants.Proofs.Occurrences

/-!
# Expanding comes to an end

Expanding is a loop of rounds, one for each definition, and the pass of a round is a loop over the
occurrences of a name. Neither the length of the text nor the number of its definitions goes down
in a round: a use may put in more than it replaces, and a definition as well. What goes down is

* in a round, the number of line breaks that are left, since a definition takes its own with it and
  no use adds one (`Draft.breaks_advance_lt`),
* in a pass, the text that is left, since it goes on behind what was kept or put in
  (`Cursor.length_advance_lt`).

So both loops end, and both give what `expand` and `expandUses` say (`exists_rounds`,
`exists_iterations`).
-/

namespace Variants

/-! ## 1. Loops -/

section Loop

variable {α β : Type} {step : α → Option α}

/-- The state of a loop after `n` steps; there is none if the loop ends before. -/
def afterSteps (step : α → Option α) : Nat → α → Option α
  | 0, s => some s
  | n + 1, s => (step s).bind (afterSteps step n)

/-- **A loop ends** within the number of steps that a measure allows. -/
theorem exists_afterSteps (size : α → Nat)
    (hsize : ∀ s next, step s = some next → size next < size s) (s : α) :
    ∃ n ≤ size s, ∃ last, afterSteps step n s = some last ∧ step last = none := by
  induction hn : size s using Nat.strongRecOn generalizing s with
  | ind k ih =>
    cases hstep : step s with
    | none => exact ⟨0, Nat.zero_le k, s, rfl, hstep⟩
    | some next =>
      have hlt := hn ▸ hsize s next hstep
      obtain ⟨n, hle, last, hlast, hend⟩ := ih (size next) hlt next rfl
      exact ⟨n + 1, by omega, last, by rw [afterSteps, hstep]; exact hlast, hend⟩

/-- What every step keeps holds as long as the loop goes on. -/
theorem of_afterSteps {P : α → Prop} (hkeep : ∀ s next, P s → step s = some next → P next) {n : Nat}
    {s last : α} (hs : P s) (h : afterSteps step n s = some last) : P last := by
  induction n generalizing s with
  | zero =>
    cases h
    exact hs
  | succ n ih =>
    obtain ⟨next, hstep, hrest⟩ := Option.bind_eq_some_iff.1 h
    exact ih (hkeep s next hs hstep) hrest

/-- What no step changes is not changed by the loop. -/
theorem eq_of_afterSteps {value : α → β}
    (hvalue : ∀ s next, step s = some next → value next = value s) {n : Nat} {s last : α}
    (h : afterSteps step n s = some last) : value last = value s :=
  of_afterSteps (P := fun other => value other = value s)
    (fun other next hsame hstep => (hvalue other next hstep).trans hsame) rfl h

/-- What every step makes one more of is counted by the steps. -/
theorem eq_add_of_afterSteps (count : α → Nat)
    (hcount : ∀ s next, step s = some next → count next = count s + 1) {n : Nat} {s last : α}
    (h : afterSteps step n s = some last) : count last = count s + n := by
  induction n generalizing s with
  | zero =>
    cases h
    rfl
  | succ n ih =>
    obtain ⟨next, hstep, hrest⟩ := Option.bind_eq_some_iff.1 h
    rw [ih hrest, hcount s next hstep]
    omega

/-- **Two loops in step**: where every step of one loop is a step of the other one on corresponding
states, they go through corresponding states. -/
theorem afterSteps_map {step' : β → Option β} {f : α → β} {P : α → Prop}
    (hkeep : ∀ s next, P s → step s = some next → P next)
    (hstep : ∀ s, P s → step' (f s) = (step s).map f) (n : Nat) {s : α} (hs : P s) :
    afterSteps step' n (f s) = (afterSteps step n s).map f := by
  induction n generalizing s with
  | zero => rfl
  | succ n ih =>
    rw [afterSteps, afterSteps, hstep s hs]
    cases hnext : step s with
    | none => rfl
    | some next => exact ih (hkeep s next hs hnext)

end Loop

namespace Macro

/-! ## 2. The iterations of a pass -/

/-- A pass on its way: the text that it has written, the text that is still to be scanned, and the
number of uses so far. -/
structure Cursor where
  done : Text
  rest : Text
  count : Nat
  deriving DecidableEq, Repr

namespace Cursor

/-- Where a pass starts. -/
def start (t : Text) : Cursor := ⟨[], t, 0⟩

/-- The whole text. -/
def text (cursor : Cursor) : Text := cursor.done ++ cursor.rest

/-- One iteration: it goes to the next occurrence of the name, and keeps or replaces it. The pass
ends when the name does not stand in the text any more, and at a redefinition. -/
def advance (m : Macro) (cursor : Cursor) : Option Cursor :=
  match Text.cutAt m.name cursor.rest with
  | none => none
  | some (gap, behind) =>
    match m.stepAtName (lineAfter [] (cursor.done ++ gap)) behind with
    | .stop => none
    | .keep kept rest => some ⟨cursor.done ++ gap ++ kept, rest, cursor.count⟩
    | .replace text rest => some ⟨cursor.done ++ gap ++ text, rest, cursor.count + 1⟩

/-- The outcome of a pass that goes on from here: its text and the number of its uses. -/
def outcome (m : Macro) (cursor : Cursor) : Text × Nat :=
  let pass := m.expandUses (lineAfter [] cursor.done) cursor.rest
  (cursor.done ++ pass.text, cursor.count + pass.count)

variable {m : Macro} {cursor next : Cursor}

/-- **Every iteration shortens the text that is left**, whether it keeps the name or replaces it. -/
theorem length_advance_lt (h : cursor.advance m = some next) :
    next.rest.length < cursor.rest.length := by
  unfold advance at h
  split at h
  · cases h
  · rename_i gap behind hcut
    have hlt : behind.length < cursor.rest.length := Text.length_lt_of_cutAt hcut
    have hle {line after : Text} (hafter : (m.stepAtName line behind).rest? = some after) :
        after.length < cursor.rest.length :=
      Nat.lt_of_le_of_lt (length_stepAtName_le hafter) hlt
    split at h
    · cases h
    · rename_i hstep
      cases h
      exact hle (by rw [hstep]; rfl)
    · rename_i hstep
      cases h
      exact hle (by rw [hstep]; rfl)

/-- An iteration does not change what comes out. -/
theorem outcome_advance (h : cursor.advance m = some next) : next.outcome m = cursor.outcome m := by
  unfold advance at h
  split at h
  · cases h
  · rename_i gap behind hcut
    split at h
    · cases h
    · rename_i hstep
      cases h
      unfold outcome
      rw [expandUses_of_cutAt hcut, expandAt, ← lineAfter_append, hstep,
        lineAfter_append _ (cursor.done ++ gap)]
      simp [Pass.keeping]
    · rename_i hstep
      cases h
      unfold outcome
      rw [expandUses_of_cutAt hcut, expandAt, ← lineAfter_append, hstep,
        lineAfter_append _ (cursor.done ++ gap)]
      simp only [Pass.keeping, Pass.replacing, List.append_assoc, Prod.mk.injEq, true_and]
      omega

/-- When the pass ends, its outcome is the text as it is. -/
theorem outcome_of_advance_eq_none (h : cursor.advance m = none) :
    cursor.outcome m = (cursor.text, cursor.count) := by
  unfold advance at h
  unfold outcome text
  split at h
  · rename_i hcut
    rw [expandUses_of_cutAt_eq_none hcut]
    rfl
  · rename_i gap behind hcut
    have hrest : cursor.rest = gap ++ (m.name ++ behind) := Text.cutAt_append hcut
    split at h
    · rename_i hstep
      rw [expandUses_of_cutAt hcut, expandAt, ← lineAfter_append, hstep, hrest]
      rfl
    · cases h
    · cases h

/-- A pass that is on its way ends with its outcome, after at most as many iterations as characters
are left. -/
theorem exists_iterations (m : Macro) (cursor : Cursor) :
    ∃ n ≤ cursor.rest.length, ∃ last, afterSteps (advance m) n cursor = some last ∧
      last.advance m = none ∧ (last.text, last.count) = cursor.outcome m := by
  have hlength : ∀ other next : Cursor, other.advance m = some next →
      next.rest.length < other.rest.length := fun _ _ => length_advance_lt
  obtain ⟨n, hle, last, hlast, hend⟩ :=
    exists_afterSteps (fun other : Cursor => other.rest.length) hlength cursor
  have hsame : last.outcome m = cursor.outcome m :=
    eq_of_afterSteps (fun _ _ => outcome_advance) hlast
  exact ⟨n, hle, last, hlast, hend, (outcome_of_advance_eq_none hend).symm.trans hsame⟩

end Cursor

/-- **A pass ends** after at most as many iterations as there are characters. -/
theorem exists_iterations (m : Macro) (t : Text) :
    ∃ n ≤ t.length, ∃ last, afterSteps (Cursor.advance m) n (.start t) = some last ∧
      last.advance m = none ∧ last.text = (m.expandUses [] t).text ∧
      last.count = (m.expandUses [] t).count := by
  obtain ⟨n, hle, last, hlast, hend, hsame⟩ := Cursor.exists_iterations m (.start t)
  obtain ⟨htext, hcount⟩ := Prod.mk.inj hsame
  exact ⟨n, hle, last, hlast, hend, htext, hcount.trans (Nat.zero_add _)⟩

/-! ## 3. The rounds of an expansion -/

theorem definitions_expand_defined {t before behind : Text} {body : Body}
    (hbefore : cutBefore true t = some (before, behind)) (hbody : cutBody behind = some body)
    (enabled : Bool) :
    (expand enabled t).definitions = ⟨body.text, (define enabled body.text body.rest).2⟩ ::
      (expand enabled (define enabled body.text body.rest).1).definitions := by
  rw [expand_defined hbefore hbody]

/-- An expansion on its way: the text that is final, the text that is left, and the definitions that
were taken out, whose texts were read as tokens. -/
structure Draft where
  done : Text
  rest : Text
  definitions : List Definition
  deriving DecidableEq, Repr

namespace Draft

/-- Where an expansion starts. -/
def start (t : Text) : Draft := ⟨[], t, []⟩

/-- One round: it takes out the next definition and makes the pass of its macro. The expansion ends
when there is no definition any more, and at an unfinished one. -/
def advance (enabled : Bool) (draft : Draft) : Option Draft :=
  match cutBefore true draft.rest with
  | none => none
  | some (before, behind) =>
    (cutBody behind).map fun body =>
      let defined := define enabled body.text body.rest
      ⟨draft.done ++ (before ++ Text.blank (body.joins + 1)), defined.1,
        draft.definitions ++ [⟨body.text, defined.2⟩]⟩

/-- The whole text, without an unfinished definition at its end. -/
def text (draft : Draft) : Text :=
  draft.done ++ ((cutBefore true draft.rest).map Prod.fst).getD draft.rest

/-- The outcome of an expansion that goes on from here: its text and its definitions. -/
def outcome (enabled : Bool) (draft : Draft) : Text × List Definition :=
  (draft.done ++ (expand enabled draft.rest).text,
    draft.definitions ++ (expand enabled draft.rest).definitions)

variable {enabled : Bool} {draft next : Draft}

/-- **Every round uses up line breaks**, also when its pass puts in new definitions. -/
theorem breaks_advance_lt (h : draft.advance enabled = some next) :
    Text.breaks next.rest < Text.breaks draft.rest := by
  unfold advance at h
  split at h
  · cases h
  · rename_i before behind hbefore
    obtain ⟨body, hbody, rfl⟩ := Option.map_eq_some_iff.1 h
    obtain ⟨hone, hbreaks⟩ := breaks_cutBody hbody
    have hrest := congrArg Text.breaks (cutBefore_append hbefore)
    rw [Text.breaks_append, Text.breaks_append, hbreaks] at hrest
    dsimp only
    rw [breaks_define enabled body.rest hone]
    omega

/-- Every round takes out one definition. -/
theorem length_definitions_advance (h : draft.advance enabled = some next) :
    next.definitions.length = draft.definitions.length + 1 := by
  unfold advance at h
  split at h
  · cases h
  · obtain ⟨body, _, rfl⟩ := Option.map_eq_some_iff.1 h
    rw [List.length_append, List.length_singleton]

/-- A round does not change what comes out. -/
theorem outcome_advance (h : draft.advance enabled = some next) :
    next.outcome enabled = draft.outcome enabled := by
  unfold advance at h
  split at h
  · cases h
  · rename_i before behind hbefore
    obtain ⟨body, hbody, rfl⟩ := Option.map_eq_some_iff.1 h
    unfold outcome
    rw [text_expand_defined hbefore hbody, definitions_expand_defined hbefore hbody]
    simp only [List.append_assoc, List.singleton_append]

/-- When the expansion ends, its outcome is the text as it is. -/
theorem outcome_of_advance_eq_none (h : draft.advance enabled = none) :
    draft.outcome enabled = (draft.text, draft.definitions) := by
  unfold advance at h
  unfold outcome text
  split at h
  · rename_i hbefore
    rw [expand_eq_self hbefore, hbefore, List.append_nil]
    rfl
  · rename_i before behind hbefore
    rw [expand_unfinished hbefore (Option.map_eq_none_iff.1 h), hbefore, List.append_nil]
    rfl

end Draft

/-- **An expansion ends** after at most as many rounds as there are line breaks, and the rounds are
its definitions. -/
theorem exists_rounds (enabled : Bool) (t : Text) :
    ∃ n ≤ Text.breaks t, ∃ last, afterSteps (Draft.advance enabled) n (.start t) = some last ∧
      last.advance enabled = none ∧ last.text = (expand enabled t).text ∧
      last.definitions = (expand enabled t).definitions ∧
      (expand enabled t).definitions.length = n := by
  have hbreaks : ∀ draft next : Draft, draft.advance enabled = some next →
      Text.breaks next.rest < Text.breaks draft.rest := fun _ _ => Draft.breaks_advance_lt
  obtain ⟨n, hle, last, hlast, hend⟩ :=
    exists_afterSteps (fun draft : Draft => Text.breaks draft.rest) hbreaks (Draft.start t)
  have hsame : last.outcome enabled = (Draft.start t).outcome enabled :=
    eq_of_afterSteps (fun _ _ => Draft.outcome_advance) hlast
  rw [Draft.outcome_of_advance_eq_none hend] at hsame
  obtain ⟨htext, hdefinitions⟩ := Prod.mk.inj hsame
  have hcount : last.definitions.length = 0 + n :=
    eq_add_of_afterSteps (fun draft : Draft => draft.definitions.length)
      (fun _ _ => Draft.length_definitions_advance) hlast
  have hall : last.definitions = (expand enabled t).definitions := hdefinitions
  exact ⟨n, hle, last, hlast, hend, htext, hall, by rw [← hall, hcount, Nat.zero_add]⟩

/-! ## 4. Bounds -/

/-- **Expanding is bounded.** Its loop ends within as many rounds as the text has line breaks, each
of which uses up some of them, and at most so many definitions are read as tokens, those that uses
put in included. In each pass every iteration shortens the text that is left, and the loop of the
pass ends within as many iterations as there are characters. -/
theorem expand_bounded (enabled : Bool) (t : Text) :
    (expand enabled t).definitions.length ≤ Text.breaks t ∧
      (∃ last, afterSteps (Draft.advance enabled) (expand enabled t).definitions.length (.start t) =
          some last ∧ last.advance enabled = none ∧ last.text = (expand enabled t).text ∧
          last.definitions = (expand enabled t).definitions) ∧
      (∀ draft next : Draft, draft.advance enabled = some next →
        Text.breaks next.rest < Text.breaks draft.rest) ∧
      ∀ m : Macro,
        (∀ cursor next : Cursor, cursor.advance m = some next →
          next.rest.length < cursor.rest.length) ∧
        ∀ rest : Text, ∃ n ≤ rest.length, ∃ last,
          afterSteps (Cursor.advance m) n (.start rest) = some last ∧ last.advance m = none ∧
            last.text = (m.expandUses [] rest).text ∧
            last.count = (m.expandUses [] rest).count := by
  obtain ⟨n, hle, last, hlast, hend, htext, hdefinitions, hlength⟩ := exists_rounds enabled t
  rw [hlength]
  exact ⟨hle, ⟨last, hlast, hend, htext, hdefinitions⟩, fun _ _ => Draft.breaks_advance_lt,
    fun m => ⟨fun _ _ => Cursor.length_advance_lt, exists_iterations m⟩⟩

/-- A definition that a use puts in, and a macro that puts in its own name. -/
theorem expand_bounded_made :
    ((expand true "#define D #define\nD Y 1\nY\n".toList).definitions.map Definition.text =
        [" D #define".toList, " Y 1".toList] ∧
      (expand true "#define D #define\nD Y 1\nY\n".toList).definitions.length ≤ 3) ∧
    (∃ next, (Draft.start "#define D #define\nD Y 1\nY\n".toList).advance true = some next ∧
      next.rest = "#define Y 1\nY\n".toList ∧ Text.breaks next.rest < 3) ∧
    ∃ m next, (Cursor.start "A;A".toList).advance m = some next ∧
      next.text = "A+1;A".toList ∧ next.rest.length < 3 := by
  have hbound := expand_bounded true "#define D #define\nD Y 1\nY\n".toList
  have hround : (Draft.start "#define D #define\nD Y 1\nY\n".toList).advance true =
      some ⟨['\n'], "#define Y 1\nY\n".toList,
        [⟨" D #define".toList, .expanded ['D'] 1 false⟩]⟩ := by decide +kernel
  have hiteration : (Cursor.start "A;A".toList).advance
      ⟨['A'], [], [⟨.name, ['A'], ⟨1, 4⟩⟩, ⟨.punctuator, ['+'], ⟨1, 5⟩⟩,
        ⟨.number, ['1'], ⟨1, 6⟩⟩]⟩ = some ⟨"A+1".toList, ";A".toList, 1⟩ := by decide +kernel
  exact ⟨⟨by decide +kernel, hbound.1⟩, ⟨_, hround, rfl, hbound.2.2.1 _ _ hround⟩,
    _, _, hiteration, rfl, (hbound.2.2.2 _).1 _ _ hiteration⟩

end Macro

end Variants
