import Variants.Macro.Expand
import Variants.Proofs.Parts
import Variants.Proofs.Removal

/-!
# How far definitions reach

A definition and its uses stand on some lines of the text, and expanding keeps the numbers of these
lines. `reaches` lists the definitions in the order in which they are met, each with its lines and
with the text in which its uses are. From this one can tell of some lines of the text whether what
is defined or used in them has to do with the lines around them (`Reach.IsConfined`).

How the first definition of a text is found and taken out only depends on the text up to its end.
-/

namespace Variants

open Macro

namespace Macro

/-! ## 1. Definitions in a text of two parts -/

theorem definition?_append_right {s : Text} (hs : s.getLast? = some '\n') (t : Text) :
    definition? (s ++ t) = (definition? s).map (· ++ t) := by
  unfold definition?
  rw [isPrefixOf?_append (by decide) hs t]
  cases h : Keyword.define.text.isPrefixOf? s with
  | none => rfl
  | some rest =>
    have happend := Text.isPrefixOf?_eq_some_iff.1 h
    cases rest with
    | nil =>
      rw [happend, List.append_nil] at hs
      cases hs
    | cons c rest =>
      show (if Option.all _ (some c) = true then _ else none) =
        Option.map _ (if Option.all _ (some c) = true then _ else none)
      by_cases hhead : (some c).all (fun c => c == ' ' || c == '\n') = true
      · rw [if_pos hhead, if_pos hhead]
        rfl
      · rw [if_neg hhead, if_neg hhead]
        rfl

/-- The first definition of whole lines is the first one of a text that starts with them. -/
theorem cutBefore_append_right {atStart : Bool} {s : Text} {cut : Text × Text}
    (h : cutBefore atStart s = some cut) (hs : Text.IsWhole s) (t : Text) :
    cutBefore atStart (s ++ t) = some (cut.1, cut.2 ++ t) := by
  induction s generalizing atStart cut with
  | nil => cases h
  | cons c s ih =>
    have hlast : (c :: s).getLast? = some '\n' := hs.resolve_left (List.cons_ne_nil c s)
    have hrest : Text.IsWhole s := Text.IsWhole.of_append (show Text.IsWhole ([c] ++ s) from hs)
    have hhere : (if atStart then definition? (c :: (s ++ t)) else none) =
        (if atStart then definition? (c :: s) else none).map (· ++ t) := by
      cases atStart with
      | false => rfl
      | true => exact definition?_append_right hlast t
    rw [cutBefore] at h
    rw [List.cons_append, cutBefore, hhere]
    split at h
    · rename_i rest hdefinition
      cases h
      rw [hdefinition]
      rfl
    · rename_i hdefinition
      obtain ⟨inner, hin, rfl⟩ := Option.map_eq_some_iff.1 h
      rw [hdefinition, ih hin hrest]
      rfl

/-- Behind whole lines without a definition, the first definition is the first one of the rest. -/
theorem cutBefore_append_none {atStart : Bool} {s : Text} (h : cutBefore atStart s = none)
    (hs : (s = [] ∧ atStart = true) ∨ s.getLast? = some '\n') (t : Text) :
    cutBefore atStart (s ++ t) = (cutBefore true t).map fun cut => (s ++ cut.1, cut.2) := by
  induction s generalizing atStart with
  | nil =>
    rcases hs with ⟨_, rfl⟩ | hs
    · simp
    · cases hs
  | cons c s ih =>
    have hlast : (c :: s).getLast? = some '\n' := hs.resolve_left fun h => by cases h.1
    have hrest : (s = [] ∧ (c == '\n') = true) ∨ s.getLast? = some '\n' := by
      refine (Text.IsWhole.of_append (show Text.IsWhole ([c] ++ s) from Or.inr hlast)).imp_left ?_
      rintro rfl
      exact ⟨rfl, beq_iff_eq.2 (Option.some.inj hlast)⟩
    obtain ⟨hhere, hlater⟩ := cutBefore_cons_eq_none_iff.1 h
    have hdefinition : (if atStart then definition? (c :: (s ++ t)) else none) = none := by
      cases atStart with
      | false => rfl
      | true =>
        rw [if_pos rfl, ← List.cons_append, definition?_append_right hlast, hhere rfl]
        rfl
    rw [List.cons_append, cutBefore, hdefinition, ih hlater hrest, Option.map_map]
    rfl

/-- A definition that ends in the first part ends there. -/
theorem cutBody_append {s : Text} {body : Body} (h : cutBody s = some body) (t : Text) :
    cutBody (s ++ t) = some ⟨body.text, body.joins, body.rest ++ t⟩ := by
  fun_induction cutBody s generalizing body with
  | case1 => cases h
  | case2 =>
    cases h
    rw [List.cons_append, cutBody.eq_def]
    exact if_pos rfl
  | case3 => cases h
  | case4 c hc d u hcd ih =>
    obtain ⟨inner, hin, rfl⟩ := Option.map_eq_some_iff.1 h
    have hmore := ih hin
    simp only [List.cons_append, cutBody, if_neg hc, if_pos hcd, hmore, Option.map_some]
  | case5 c hc d u hcd ih =>
    obtain ⟨inner, hin, rfl⟩ := Option.map_eq_some_iff.1 h
    have hmore := ih hin
    rw [List.cons_append] at hmore
    rw [List.cons_append, List.cons_append, cutBody, if_neg hc]
    simp only [if_neg hcd, hmore, Option.map_some]

/-- What follows a definition ends the text. -/
theorem rest_suffix_of_cutBody {s : Text} {body : Body} (h : cutBody s = some body) :
    ∃ front, s = front ++ body.rest := by
  fun_induction cutBody s generalizing body with
  | case1 => cases h
  | case2 s =>
    cases h
    exact ⟨['\n'], rfl⟩
  | case3 => cases h
  | case4 c hc d u hcd ih =>
    obtain ⟨inner, hin, rfl⟩ := Option.map_eq_some_iff.1 h
    obtain ⟨front, hfront⟩ := ih hin
    exact ⟨c :: d :: front, by rw [hfront]; rfl⟩
  | case5 c hc d u hcd ih =>
    obtain ⟨inner, hin, rfl⟩ := Option.map_eq_some_iff.1 h
    obtain ⟨front, hfront⟩ := ih hin
    exact ⟨c :: front, by rw [hfront]; rfl⟩

/-- One that does not takes all lines of the first part. -/
theorem breaks_le_joins {s t : Text} {body : Body} (hs : cutBody s = none)
    (h : cutBody (s ++ t) = some body) : Text.breaks s ≤ body.joins := by
  fun_induction cutBody s generalizing body with
  | case1 => exact Nat.zero_le _
  | case2 => cases hs
  | case3 c hc =>
    rw [Text.breaks_cons, if_neg hc]
    exact Nat.zero_le _
  | case4 c hc d u hcd ih =>
    simp only [List.cons_append, cutBody, if_neg hc, if_pos hcd] at h
    obtain ⟨inner, hin, rfl⟩ := Option.map_eq_some_iff.1 h
    have hle : Text.breaks u ≤ inner.joins := ih (Option.map_eq_none_iff.1 hs) hin
    rw [hcd.1, hcd.2, Text.breaks_cons, Text.breaks_cons]
    exact Nat.succ_le_succ hle
  | case5 c hc d u hcd ih =>
    rw [List.cons_append, List.cons_append, cutBody, if_neg hc] at h
    simp only [if_neg hcd] at h
    obtain ⟨inner, hin, rfl⟩ := Option.map_eq_some_iff.1 h
    have hle : Text.breaks (d :: u) ≤ inner.joins := ih (Option.map_eq_none_iff.1 hs) hin
    rw [Text.breaks_cons, if_neg hc]
    exact hle

/-! ## 2. Reaches -/

/-- Whether a pass was ended by a redefinition. -/
def Outcome.isRedefined : Outcome → Bool
  | .expanded _ _ redefined => redefined
  | _ => false

/-- The sites of the macro that a definition defines, in the text after it, which starts in
line `n`. -/
def sitesAfter (enabled : Bool) (definition : Text) (n : Nat) (rest : Text) : List Site :=
  match ofText? definition with
  | none => []
  | some m => if enabled then m.sites n [] rest else []

/-- A definition leaves every text alone, or its macro makes a pass over every text. -/
theorem define_eq_or (enabled : Bool) (definition : Text) :
    (∀ rest, (define enabled definition rest).1 = rest ∧
        (define enabled definition rest).2.isRedefined = false ∧
        ∀ n, sitesAfter enabled definition n rest = []) ∨
      ∃ m, ofText? definition = some m ∧ ∀ rest,
        (define enabled definition rest).1 = (m.expandUses [] rest).text ∧
          (define enabled definition rest).2.isRedefined = (m.expandUses [] rest).redefined ∧
          ∀ n, sitesAfter enabled definition n rest = m.sites n [] rest := by
  unfold define sitesAfter
  cases ofText? definition with
  | none => exact Or.inl fun rest => ⟨rfl, rfl, fun _ => rfl⟩
  | some m =>
    cases enabled with
    | false => exact Or.inl fun rest => ⟨rfl, rfl, fun _ => rfl⟩
    | true => exact Or.inr ⟨m, rfl, fun rest => ⟨rfl, rfl, fun _ => rfl⟩⟩

/-- How far a definition reaches: the first and the last of its lines, the text in which its macro
is looked for, and the text after it, in which its uses are. -/
structure Reach where
  first : Nat
  last : Nat
  definition : Text
  rest : Text
  deriving DecidableEq, Repr

/-- The reaches of the definitions that are met when a text is expanded, in this order. The text
starts in line `n`. An unfinished definition reaches to the end of the text. -/
def reaches (enabled : Bool) (n : Nat) (t : Text) : List Reach :=
  match _hbefore : cutBefore true t with
  | none => []
  | some (before, behind) =>
    let first := n + Text.breaks before
    match _hbody : cutBody behind with
    | none => [⟨first, n + Text.breaks t, behind, []⟩]
    | some body =>
      let last := first + body.joins
      ⟨first, last, body.text, body.rest⟩ ::
        reaches enabled (last + 1) (define enabled body.text body.rest).1
termination_by Text.breaks t
decreasing_by
  obtain ⟨hbreaks, hrest⟩ := breaks_cutBody _hbody
  rw [breaks_define enabled body.rest hbreaks, cutBefore_append _hbefore]
  simp only [Text.breaks_append]
  omega

section Equations

variable {enabled : Bool} {n : Nat} {t before behind : Text}

theorem reaches_nil (h : cutBefore true t = none) : reaches enabled n t = [] := by
  rw [reaches]
  split
  · rfl
  · rename_i hcut
    cases h.symm.trans hcut

theorem reaches_unfinished (hbefore : cutBefore true t = some (before, behind))
    (hbody : cutBody behind = none) :
    reaches enabled n t = [⟨n + Text.breaks before, n + Text.breaks t, behind, []⟩] := by
  rw [reaches]
  split
  · rename_i h
    cases hbefore.symm.trans h
  · rename_i h
    cases hbefore.symm.trans h
    dsimp only
    split
    · rfl
    · rename_i h
      cases hbody.symm.trans h

theorem reaches_defined {body : Body} (hbefore : cutBefore true t = some (before, behind))
    (hbody : cutBody behind = some body) :
    reaches enabled n t =
      ⟨n + Text.breaks before, n + Text.breaks before + body.joins, body.text, body.rest⟩ ::
        reaches enabled (n + Text.breaks before + body.joins + 1)
          (define enabled body.text body.rest).1 := by
  rw [reaches]
  split
  · rename_i h
    cases hbefore.symm.trans h
  · rename_i h
    cases hbefore.symm.trans h
    dsimp only
    split
    · rename_i h
      cases hbody.symm.trans h
    · rename_i h
      cases hbody.symm.trans h
      rfl

end Equations

namespace Reach

/-- The sites of the macro after its definition. -/
def sites (enabled : Bool) (r : Reach) : List Site :=
  sitesAfter enabled r.definition (r.last + 1) r.rest

/-- The sites that the macro has from a later line on, taken by itself. -/
def sitesFrom (enabled : Bool) (r : Reach) (number : Nat) : List Site :=
  sitesAfter enabled r.definition number (Text.fromLine (number - (r.last + 1)) r.rest)

end Reach

/-- Whether a site is a use. -/
def Site.isUse : Site → Bool
  | .use _ _ => true
  | .redefinition _ => false

theorem any_isUse_eq_false {sites : List Site} (h : ∀ first last, .use first last ∉ sites) :
    sites.any Site.isUse = false := by
  rw [List.any_eq_false]
  intro site hsite
  cases site with
  | use first last => exact absurd hsite (h first last)
  | redefinition => exact Bool.false_ne_true

section Confined

variable (enabled : Bool) (a b : Nat) (r : Reach)

/-- Whether a site stays on one side of the edges of the lines from `a` to before `b`. A use stands
within these lines or outside of them, and outside only if its macro is not defined in them. An
earlier macro that is redefined in them has no use behind them. -/
def Site.IsConfined : Site → Prop
  | .use first last =>
    (a ≤ first ∧ last < b) ∨ ((last < a ∨ b ≤ first) ∧ ¬ (a ≤ r.first ∧ r.last < b))
  | .redefinition line =>
    r.first < a ∧ a ≤ line ∧ line < b → (r.sitesFrom enabled b).any Site.isUse = false

/-- Whether a definition with all that it reaches stays on one side of the edges of the lines from
`a` to before `b`. -/
def Reach.IsConfined : Prop :=
  ((a ≤ r.first ∧ r.last < b) ∨ r.last < a ∨ b ≤ r.first) ∧
    ∀ site ∈ r.sites enabled, site.IsConfined enabled a b r

instance : (site : Site) → Decidable (site.IsConfined enabled a b r)
  | .use _ _ => inferInstanceAs (Decidable (_ ∨ _))
  | .redefinition _ => inferInstanceAs (Decidable (_ → _))

instance : Decidable (r.IsConfined enabled a b) :=
  inferInstanceAs (Decidable (_ ∧ _))

end Confined

end Macro

end Variants
