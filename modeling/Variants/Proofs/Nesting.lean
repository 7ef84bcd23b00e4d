import Variants.Directive

/-!
# Well-nested lines

Lines are well nested when every opening directive has an `#endif` of its own, with any number of
`#elif` between them and at most one `#else`, which comes last, and when no `#elif`, `#else` or
`#endif` stands outside such a section. This file says so with trees:

* a `Nesting` is a row of plain lines and sections, and `Branches` is what follows the first branch
  of a section; each line in them carries the proof that it is the directive it stands for, so that
  a tree that is not well nested cannot be written down;
* `Nesting.lines` puts a tree back into lines, and `Nesting.ofLines?` reads lines from the last to
  the first; the two are inverse to each other (`ofLines?_eq_some_iff`), so lines have at most one
  tree and it is decidable whether they have one (`WellNested`).
-/

namespace Variants

/-! ## 1. Trees -/

/-- The conditional directive that a line is, if it is one. -/
def Directive.conditional? (line : Text) : Option Directive :=
  (Directive.ofLine? line).filter Directive.isConditional

/-- A line that is a given conditional directive, or none. -/
abbrev LineOf (directive : Option Directive) : Type :=
  { line : Text // Directive.conditional? line = directive }

mutual

/-- Plain lines and sections, one after the other. -/
inductive Nesting where
  | nil
  | plain (line : LineOf none) (rest : Nesting)
  | opening (form : Opening) (condition : Condition)
      (line : LineOf (some (.opening form condition))) (body : Nesting) (others : Branches)
      (rest : Nesting)

/-- What follows the first branch of a section, up to its end. -/
inductive Branches where
  | endif (line : LineOf (some .endif))
  | elif (condition : Condition) (line : LineOf (some (.elif condition))) (body : Nesting)
      (others : Branches)
  | otherwise (line : LineOf (some .otherwise)) (body : Nesting) (last : LineOf (some .endif))

end

mutual

/-- The lines of a tree. -/
def Nesting.lines : Nesting → List Text
  | .nil => []
  | .plain line rest => line.1 :: rest.lines
  | .opening _ _ line body others rest => line.1 :: (body.lines ++ (others.lines ++ rest.lines))

/-- The lines from the end of the first branch of a section to its `#endif`. -/
def Branches.lines : Branches → List Text
  | .endif line => [line.1]
  | .elif _ line body others => line.1 :: (body.lines ++ others.lines)
  | .otherwise line body last => line.1 :: (body.lines ++ [last.1])

end

/-- Whether the lines of a text are well nested. -/
def WellNested (t : Text) : Prop := ∃ tree : Nesting, tree.lines = Text.lines t

/-! ## 2. Reading lines from the last to the first -/

/-- What is known of some last lines of a text: the tree of the lines before the first unmatched
directive, and for every section that they close without opening it, the innermost first, its
branches and what follows the section. -/
structure Suffix where
  tree : Nesting
  unopened : List (Branches × Nesting)

namespace Suffix

/-- The lines of a suffix. -/
def lines (s : Suffix) : List Text :=
  s.tree.lines ++ s.unopened.flatMap fun part => part.1.lines ++ part.2.lines

/-- The suffix with one more line in front, if that can be the end of well-nested lines. -/
def push (line : Text) (s : Suffix) : Option Suffix :=
  match h : Directive.conditional? line with
  | none => some ⟨.plain ⟨line, h⟩ s.tree, s.unopened⟩
  | some (.opening form condition) =>
    match s.unopened with
    | [] => none
    | (others, rest) :: outer =>
      some ⟨.opening form condition ⟨line, h⟩ s.tree others rest, outer⟩
  | some (.elif condition) =>
    match s.unopened with
    | [] => none
    | (others, rest) :: outer =>
      some ⟨.nil, (.elif condition ⟨line, h⟩ s.tree others, rest) :: outer⟩
  | some .otherwise =>
    match s.unopened with
    | (.endif last, rest) :: outer =>
      some ⟨.nil, (.otherwise ⟨line, h⟩ s.tree last, rest) :: outer⟩
    | _ => none
  | some .endif => some ⟨.nil, (.endif ⟨line, h⟩, s.tree) :: s.unopened⟩
  | some .define => none

/-- The suffix that some lines make up. -/
def ofLines? : List Text → Option Suffix
  | [] => some ⟨.nil, []⟩
  | line :: rest => (ofLines? rest).bind (push line)

end Suffix

/-- The tree of some lines. -/
def Nesting.ofLines? (lines : List Text) : Option Nesting :=
  match Suffix.ofLines? lines with
  | some ⟨tree, []⟩ => some tree
  | _ => none

/-! ## 3. Trees and lines -/

namespace Suffix

/-- A line in front of a suffix is a line in front of its lines. -/
theorem lines_push {line : Text} {s s' : Suffix} (h : push line s = some s') :
    s'.lines = line :: s.lines := by
  obtain ⟨tree, unopened⟩ := s
  unfold push at h
  split at h
  · cases h
    rfl
  · cases unopened with
    | nil => cases h
    | cons part outer =>
      cases h
      simp [lines, Nesting.lines]
  · cases unopened with
    | nil => cases h
    | cons part outer =>
      cases h
      simp [lines, Nesting.lines, Branches.lines]
  · split at h
    · rename_i last rest outer hunopened
      cases h
      simp only at hunopened
      simp [lines, Nesting.lines, Branches.lines, hunopened]
    · cases h
  · cases h
    simp [lines, Nesting.lines, Branches.lines]
  · cases h

/-- A plain line goes in front of the tree. -/
theorem push_plain (line : LineOf none) (tree : Nesting) (unopened : List (Branches × Nesting)) :
    push line.1 ⟨tree, unopened⟩ = some ⟨.plain line tree, unopened⟩ := by
  obtain ⟨line, h⟩ := line
  unfold push
  split <;> rename_i h' <;> cases h.symm.trans h'
  rfl

/-- An opening directive closes the innermost unopened section. -/
theorem push_opening {form : Opening} {condition : Condition}
    (line : LineOf (some (.opening form condition))) (body rest : Nesting) (others : Branches)
    (outer : List (Branches × Nesting)) :
    push line.1 ⟨body, (others, rest) :: outer⟩ =
      some ⟨.opening form condition line body others rest, outer⟩ := by
  obtain ⟨line, h⟩ := line
  unfold push
  split <;> rename_i h' <;> cases h.symm.trans h'
  rfl

theorem push_elif {condition : Condition} (line : LineOf (some (.elif condition)))
    (body rest : Nesting) (others : Branches) (outer : List (Branches × Nesting)) :
    push line.1 ⟨body, (others, rest) :: outer⟩ =
      some ⟨.nil, (.elif condition line body others, rest) :: outer⟩ := by
  obtain ⟨line, h⟩ := line
  unfold push
  split <;> rename_i h' <;> cases h.symm.trans h'
  rfl

theorem push_otherwise (line : LineOf (some .otherwise)) (body rest : Nesting)
    (last : LineOf (some .endif)) (outer : List (Branches × Nesting)) :
    push line.1 ⟨body, (.endif last, rest) :: outer⟩ =
      some ⟨.nil, (.otherwise line body last, rest) :: outer⟩ := by
  obtain ⟨line, h⟩ := line
  unfold push
  split <;> rename_i h' <;> cases h.symm.trans h'
  rfl

/-- An `#endif` makes what follows it the rest of an unopened section. -/
theorem push_endif (line : LineOf (some .endif)) (tree : Nesting)
    (unopened : List (Branches × Nesting)) :
    push line.1 ⟨tree, unopened⟩ = some ⟨.nil, (.endif line, tree) :: unopened⟩ := by
  obtain ⟨line, h⟩ := line
  unfold push
  split <;> rename_i h' <;> cases h.symm.trans h'
  rfl

theorem ofLines?_cons {line : Text} {rest : List Text} {s : Suffix} (h : ofLines? rest = some s) :
    ofLines? (line :: rest) = push line s := by
  rw [ofLines?, h, Option.bind_some]

theorem lines_ofLines? : ∀ {lines : List Text} {s : Suffix}, ofLines? lines = some s →
    s.lines = lines
  | [], _, h => by
    cases h
    rfl
  | line :: rest, s, h => by
    obtain ⟨inner, hinner, hpush⟩ := Option.bind_eq_some_iff.1 h
    rw [lines_push hpush, lines_ofLines? hinner]

end Suffix

mutual

/-- The lines of a tree are read as the tree, whatever unopened sections follow. -/
theorem Nesting.ofLines?_append : ∀ (tree : Nesting) {rest : List Text}
    {unopened : List (Branches × Nesting)}, Suffix.ofLines? rest = some ⟨.nil, unopened⟩ →
    Suffix.ofLines? (tree.lines ++ rest) = some ⟨tree, unopened⟩
  | .nil, _, _, h => h
  | .plain line rest, _, _, h => by
    have hrest := rest.ofLines?_append h
    rw [Nesting.lines, List.cons_append, Suffix.ofLines?_cons hrest]
    exact Suffix.push_plain line rest _
  | .opening form condition line body others rest, _, _, h => by
    have hrest := rest.ofLines?_append h
    have hothers := others.ofLines?_append hrest
    have hbody := body.ofLines?_append hothers
    rw [Nesting.lines, List.cons_append, List.append_assoc, List.append_assoc,
      Suffix.ofLines?_cons hbody]
    exact Suffix.push_opening line body rest others _

/-- The same for what follows the first branch of a section. -/
theorem Branches.ofLines?_append : ∀ (others : Branches) {rest : List Text} {tree : Nesting}
    {unopened : List (Branches × Nesting)}, Suffix.ofLines? rest = some ⟨tree, unopened⟩ →
    Suffix.ofLines? (others.lines ++ rest) = some ⟨.nil, (others, tree) :: unopened⟩
  | .endif line, _, tree, _, h => by
    rw [Branches.lines, List.singleton_append, Suffix.ofLines?_cons h]
    exact Suffix.push_endif line tree _
  | .elif condition line body others, _, tree, _, h => by
    have hothers := others.ofLines?_append h
    have hbody := body.ofLines?_append hothers
    rw [Branches.lines, List.cons_append, List.append_assoc, Suffix.ofLines?_cons hbody]
    exact Suffix.push_elif line body tree others _
  | .otherwise line body last, rest, tree, unopened, h => by
    have hlast : Suffix.ofLines? (last.1 :: rest) = some ⟨.nil, (.endif last, tree) :: unopened⟩ :=
      (Suffix.ofLines?_cons h).trans (Suffix.push_endif last tree unopened)
    have hbody := body.ofLines?_append hlast
    rw [Branches.lines, List.cons_append, List.append_assoc, List.singleton_append,
      Suffix.ofLines?_cons hbody]
    exact Suffix.push_otherwise line body tree last _

end

/-- **Trees and well-nested lines are the same thing**: lines are read as a tree exactly when they
are the lines of the tree. -/
theorem Nesting.ofLines?_eq_some_iff {lines : List Text} {tree : Nesting} :
    Nesting.ofLines? lines = some tree ↔ tree.lines = lines := by
  constructor
  · intro h
    unfold Nesting.ofLines? at h
    split at h
    · rename_i read hread
      cases h
      have hlines := Suffix.lines_ofLines? hread
      rwa [Suffix.lines, List.flatMap_nil, List.append_nil] at hlines
    · cases h
  · rintro rfl
    have hread := tree.ofLines?_append (show Suffix.ofLines? [] = some ⟨.nil, []⟩ from rfl)
    rw [List.append_nil] at hread
    rw [Nesting.ofLines?, hread]

/-- Lines have one tree at most. -/
theorem Nesting.lines_injective {tree tree' : Nesting} (h : tree.lines = tree'.lines) :
    tree = tree' := by
  have h' := Nesting.ofLines?_eq_some_iff.2 h
  rw [Nesting.ofLines?_eq_some_iff.2 rfl] at h'
  exact (Option.some.inj h').symm

/-- Some lines are well nested when they can be read. -/
theorem Nesting.exists_lines_iff {lines : List Text} :
    (∃ tree : Nesting, tree.lines = lines) ↔ (Nesting.ofLines? lines).isSome = true := by
  rw [Option.isSome_iff_exists]
  exact exists_congr fun _ => Nesting.ofLines?_eq_some_iff.symm

instance (lines : List Text) : Decidable (∃ tree : Nesting, tree.lines = lines) :=
  decidable_of_iff _ Nesting.exists_lines_iff.symm

theorem wellNested_iff {t : Text} :
    WellNested t ↔ (Nesting.ofLines? (Text.lines t)).isSome = true := Nesting.exists_lines_iff

instance (t : Text) : Decidable (WellNested t) := decidable_of_iff _ wellNested_iff.symm

end Variants
