import Variants.Proofs.Reach
import Variants.Proofs.Structure

/-!
# Lines that keep to themselves

Expanding goes over the whole text again and again, once for each definition. Where no definition
and no use goes over the border of two parts of the text, each pass is one over the first part and
one over the second, and a definition in the first part matters for the second one only by its uses
there (`define_append`). So lines that all reaches are confined to are expanded apart from the text
around them, which is expanded as if it stood around any other such lines
(`expand_around_confined`).
-/

namespace Variants

open Macro

namespace Macro

/-! ## 1. Where sites stand -/

/-- A use stands on lines of the text, from the first to the last of them. -/
theorem le_of_mem_sites {m : Macro} {n first last : Nat} {line t : Text}
    (h : .use first last ∈ m.sites n line t) : n ≤ first ∧ first ≤ last := by
  fun_induction sites m n line t with
  | case1 => cases h
  | case2 => cases List.mem_singleton.1 h
  | case3 n line c t kept rest hstep ih => exact (ih h).imp_left (Nat.le_of_add_right_le)
  | case4 n line c t text rest hstep ih =>
    rcases List.mem_cons.1 h with huse | h
    · cases huse
      exact ⟨Nat.le_refl _, Nat.le_add_right _ _⟩
    · exact (ih h).imp_left (Nat.le_of_add_right_le)

/-- A pass that meets no use changes nothing. -/
theorem text_expandUses_eq_self {m : Macro} {n : Nat} {line t : Text}
    (h : (m.sites n line t).any Site.isUse = false) : (m.expandUses line t).text = t := by
  fun_induction sites m n line t with
  | case1 => rw [expandUses]
  | case2 n line c t hstep => rw [expandUses_stop hstep]
  | case3 n line c t kept rest hstep ih =>
    rw [expandUses_keep hstep, Pass.keeping, ih h, append_of_keep hstep]
  | case4 n line c t text rest hstep ih => cases h

/-- A pass that ends in whole lines ends on one of them. -/
theorem exists_redefinition {m : Macro} (hbody : ∀ token ∈ m.body, Text.breaks token.lexeme = 0)
    {n : Nat} {line s : Text} (hs : Text.IsWhole s)
    (h : (m.expandUses line s).redefined = true) :
    ∃ number, .redefinition number ∈ m.sites n line s ∧ n ≤ number ∧
      number < n + Text.breaks s := by
  fun_induction sites m n line s with
  | case1 =>
    rw [expandUses] at h
    cases h
  | case2 n line c t hstep =>
    have hlast := hs.resolve_left (List.cons_ne_nil c t)
    have hpos : Text.breaks (c :: t) ≠ 0 := fun h =>
      Text.breaks_eq_zero.1 h (List.mem_of_getLast? hlast)
    exact ⟨n, List.mem_singleton_self _, Nat.le_refl n, by omega⟩
  | case3 n line c t kept rest hstep ih =>
    have hsplit := append_of_keep hstep
    rw [expandUses_keep hstep] at h
    rw [hsplit] at hs
    obtain ⟨number, hmem, hle, hlt⟩ := ih (Text.IsWhole.of_append hs) h
    refine ⟨number, hmem, by omega, ?_⟩
    rw [hsplit, Text.breaks_append, ← Nat.add_assoc]
    exact hlt
  | case4 n line c t text rest hstep ih =>
    have hrest : (m.step line c t).rest? = some rest := by rw [hstep]; rfl
    have hbreaks := breaks_step hbody hrest
    rw [hstep] at hbreaks
    obtain ⟨_, _, written, hwritten, _⟩ := of_replace hstep
    rw [expandUses_replace hstep] at h
    have hwhole : Text.IsWhole rest := by
      rw [hwritten] at hs
      exact Text.IsWhole.of_append hs
    obtain ⟨number, hmem, hle, hlt⟩ := ih hwhole h
    refine ⟨number, List.mem_cons_of_mem _ hmem, by omega, ?_⟩
    rw [← hbreaks, ← Nat.add_assoc]
    exact hlt

theorem isWhole_expandUses {m : Macro} (hname : '\n' ∉ m.name) {line s : Text}
    (hs : Text.IsWhole s) : Text.IsWhole (m.expandUses line s).text := by
  rcases hs with rfl | hs
  · rw [expandUses]
    exact Or.inl rfl
  · exact Or.inr (Variants.getLast?_expandUses hname hs)

theorem isWhole_define {enabled : Bool} {definition s : Text} (hd : Text.breaks definition = 0)
    (hs : Text.IsWhole s) : Text.IsWhole (define enabled definition s).1 := by
  rcases define_cases enabled definition s with hsame | ⟨m, hm, _, htext⟩
  · rw [hsame]
    exact hs
  · rw [htext]
    exact isWhole_expandUses (newline_not_mem_name hm hd) hs

/-- What follows a definition in whole lines is whole lines. -/
theorem isWhole_of_cutBody {s before behind : Text} {body : Body} (hs : Text.IsWhole s)
    (hbefore : cutBefore true s = some (before, behind)) (hbody : cutBody behind = some body) :
    Text.IsWhole body.rest := by
  obtain ⟨front, hfront⟩ := rest_suffix_of_cutBody hbody
  have happend : s = before ++ (Keyword.define.text ++ behind) := cutBefore_append hbefore
  rw [happend, hfront] at hs
  exact hs.of_append.of_append.of_append

/-- What stands before a definition is whole lines. -/
theorem isWhole_of_cutBefore {s before behind : Text}
    (h : cutBefore true s = some (before, behind)) : Text.IsWhole before := by
  rcases cutBefore_start h with ⟨hnil, _⟩ | ⟨start, hstart⟩
  · exact Or.inl hnil
  · exact Or.inr (by rw [show before = start ++ ['\n'] from hstart, List.getLast?_concat])

/-- Whole lines are expanded to whole lines. -/
theorem isWhole_expand {enabled : Bool} {s : Text} (hs : Text.IsWhole s) :
    Text.IsWhole (expand enabled s).text := by
  fun_induction expand enabled s with
  | case1 => exact hs
  | case2 t before behind hbefore hbody => exact isWhole_of_cutBefore hbefore
  | case3 t before behind hbefore body hbody defined later ih =>
    have hblank : Text.IsWhole (Text.blank (body.joins + 1)) :=
      Or.inr (by rw [Text.blank, List.replicate_succ', List.getLast?_concat])
    have hrest : Text.IsWhole defined.1 :=
      isWhole_define (breaks_cutBody hbody).1 (isWhole_of_cutBody hs hbefore hbody)
    exact ((isWhole_of_cutBefore hbefore).append hblank).append (ih hrest)

/-! ## 2. Two parts -/

/-- A definition whose macro has no use in a text leaves the text as it is. -/
theorem define_eq_self {enabled : Bool} {definition t : Text} {n : Nat}
    (h : (sitesAfter enabled definition n t).any Site.isUse = false) :
    (define enabled definition t).1 = t := by
  rcases define_eq_or enabled definition with hnone | ⟨m, _, hpass⟩
  · exact (hnone t).1
  · obtain ⟨htext, _, hsites⟩ := hpass t
    rw [hsites] at h
    rw [htext, text_expandUses_eq_self h]

/-- **A definition changes two parts each by itself**, if no use of its macro goes over their
border. If it is redefined in the first part, it leaves the second one alone. -/
theorem define_append {enabled : Bool} {definition : Text} (hd : Text.breaks definition = 0)
    {n : Nat} {s t : Text} (hs : Text.IsWhole s)
    (huses : ∀ first last, .use first last ∈ sitesAfter enabled definition n (s ++ t) →
      ¬ (first < n + Text.breaks s ∧ n + Text.breaks s ≤ last)) :
    (define enabled definition (s ++ t)).1 = (define enabled definition s).1 ++
        (if (define enabled definition s).2.isRedefined = true then t
          else (define enabled definition t).1) ∧
      sitesAfter enabled definition n (s ++ t) = sitesAfter enabled definition n s ++
        (if (define enabled definition s).2.isRedefined = true then []
          else sitesAfter enabled definition (n + Text.breaks s) t) := by
  rcases define_eq_or enabled definition with hnone | ⟨m, hm, hpass⟩
  · obtain ⟨htext, hredefined, hsites⟩ := hnone s
    rw [hredefined, htext, (hnone t).1, (hnone (s ++ t)).1, hsites, (hnone t).2.2,
      (hnone (s ++ t)).2.2]
    exact ⟨rfl, rfl⟩
  · obtain ⟨htext, hredefined, hsites⟩ := hpass s
    rw [(hpass (s ++ t)).2.2] at huses
    rw [hredefined, htext, (hpass t).1, (hpass (s ++ t)).1, hsites, (hpass t).2.2,
      (hpass (s ++ t)).2.2]
    exact expandUses_append (newline_not_mem_name hm hd) (breaks_body hm hd)
      (hs.imp_left fun h => ⟨h, rfl⟩) huses

/-- A definition that is redefined in whole lines is so on one of them. -/
theorem exists_redefinition_after {enabled : Bool} {definition : Text}
    (hd : Text.breaks definition = 0) (n : Nat) {s : Text} (hs : Text.IsWhole s)
    (h : (define enabled definition s).2.isRedefined = true) :
    ∃ number, .redefinition number ∈ sitesAfter enabled definition n s ∧ n ≤ number ∧
      number < n + Text.breaks s := by
  rcases define_eq_or enabled definition with hnone | ⟨m, hm, hpass⟩
  · rw [(hnone s).2.1] at h
    cases h
  · obtain ⟨_, hredefined, hsites⟩ := hpass s
    rw [hredefined] at h
    rw [hsites]
    exact exists_redefinition (breaks_body hm hd) hs h

theorem le_of_mem_sitesAfter {enabled : Bool} {definition t : Text} {n first last : Nat}
    (h : .use first last ∈ sitesAfter enabled definition n t) : n ≤ first ∧ first ≤ last := by
  rcases define_eq_or enabled definition with hnone | ⟨m, _, hpass⟩
  · rw [(hnone t).2.2] at h
    cases h
  · rw [(hpass t).2.2] at h
    exact le_of_mem_sites h

/-! ## 3. Definitions in the first part -/

section First

variable {enabled : Bool} {s t before behind : Text}

/-- **A macro is not visible before its definition**: whole lines without definitions stay as they
are, and what follows them is expanded by itself. -/
theorem expand_append (hs : Text.IsWhole s) (h : cutBefore true s = none) :
    expand enabled (s ++ t) = ⟨s ++ (expand enabled t).text, (expand enabled t).definitions,
      (expand enabled t).unfinished⟩ := by
  have hcut := cutBefore_append_none h (hs.imp_left fun hnil => ⟨hnil, rfl⟩) t
  cases ht : cutBefore true t with
  | none =>
    rw [ht] at hcut
    rw [expand_eq_self ht, expand_eq_self hcut]
  | some cut =>
    obtain ⟨before, behind⟩ := cut
    rw [ht] at hcut
    cases hbody : cutBody behind with
    | none => rw [expand_unfinished ht hbody, expand_unfinished hcut hbody]
    | some body =>
      rw [expand_defined ht hbody, expand_defined hcut hbody]
      simp only [List.append_assoc]

theorem text_expand_append (hs : Text.IsWhole s) (h : cutBefore true s = none) :
    (expand enabled (s ++ t)).text = s ++ (expand enabled t).text := by
  rw [expand_append hs h]

/-- The line breaks of a text are those around the keyword of its first definition. -/
theorem breaks_of_cutBefore (h : cutBefore true s = some (before, behind)) :
    Text.breaks s = Text.breaks before + Text.breaks behind := by
  have hs : s = before ++ (Keyword.define.text ++ behind) := cutBefore_append h
  rw [hs, Text.breaks_append, Text.breaks_append]
  exact congrArg _ (Nat.zero_add _)

/-- What follows the keyword of a definition in whole lines ends with a line break. -/
theorem getLast?_of_cutBefore (hs : Text.IsWhole s)
    (h : cutBefore true s = some (before, behind)) : behind.getLast? = some '\n' := by
  have happend : s = before ++ (Keyword.define.text ++ behind) := cutBefore_append h
  rw [happend] at hs
  rcases hs.of_append with hnil | hlast
  · cases hnil
  · rw [List.getLast?_append] at hlast
    cases hbehind : behind.getLast? with
    | none =>
      rw [hbehind] at hlast
      cases hlast
    | some c =>
      rw [hbehind] at hlast
      exact hlast

/-- A definition that does not end in whole lines reaches over their end. -/
theorem exists_reach_over (hs : Text.IsWhole s) (hbefore : cutBefore true s = some (before, behind))
    (hbody : cutBody behind = none) (n : Nat) :
    ∃ r ∈ reaches enabled n (s ++ t), n ≤ r.first ∧ r.first < n + Text.breaks s ∧
      n + Text.breaks s ≤ r.last := by
  have hcut : cutBefore true (s ++ t) = some (before, behind ++ t) :=
    cutBefore_append_right hbefore hs t
  have hbreaks := breaks_of_cutBefore hbefore
  have hpos : Text.breaks behind ≠ 0 := fun h =>
    Text.breaks_eq_zero.1 h (List.mem_of_getLast? (getLast?_of_cutBefore hs hbefore))
  cases hmore : cutBody (behind ++ t) with
  | none =>
    rw [reaches_unfinished hcut hmore]
    refine ⟨_, List.mem_singleton_self _, Nat.le_add_right _ _, ?_, ?_⟩
    · dsimp only
      omega
    · rw [Text.breaks_append]
      dsimp only
      omega
  | some body =>
    have hjoins := breaks_le_joins hbody hmore
    rw [reaches_defined hcut hmore]
    refine ⟨_, List.mem_cons_self, Nat.le_add_right _ _, ?_, ?_⟩
    · dsimp only
      omega
    · dsimp only
      omega

/-- Behind whole lines without definitions, the reaches are those of the rest. -/
theorem reaches_append (hs : Text.IsWhole s) (h : cutBefore true s = none) (n : Nat) :
    reaches enabled n (s ++ t) = reaches enabled (n + Text.breaks s) t := by
  have hcut := cutBefore_append_none h (hs.imp_left fun hnil => ⟨hnil, rfl⟩) t
  cases ht : cutBefore true t with
  | none =>
    rw [ht] at hcut
    rw [reaches_nil ht, reaches_nil hcut]
  | some cut =>
    obtain ⟨before, behind⟩ := cut
    rw [ht] at hcut
    cases hbody : cutBody behind with
    | none =>
      rw [reaches_unfinished ht hbody, reaches_unfinished hcut hbody]
      simp only [Text.breaks_append, Nat.add_assoc]
    | some body =>
      rw [reaches_defined ht hbody, reaches_defined hcut hbody]
      simp only [Text.breaks_append, Nat.add_assoc]

end First

/-! ## 4. Lines in between -/

/-- A definition all of whose uses stand in some lines leaves what follows them alone. -/
theorem define_append_of_within {enabled : Bool} {definition rest t : Text} {n : Nat}
    (hone : Text.breaks definition = 0) (hrest : Text.IsWhole rest)
    (h : ∀ first last, .use first last ∈ sitesAfter enabled definition n (rest ++ t) →
      last < n + Text.breaks rest) :
    (define enabled definition (rest ++ t)).1 = (define enabled definition rest).1 ++ t := by
  obtain ⟨htext, hsites⟩ := define_append hone hrest fun first last huse hover =>
    Nat.not_le.2 (h first last huse) hover.2
  rw [htext]
  split
  · rfl
  · rename_i hgoes
    rw [if_neg hgoes] at hsites
    -- a use behind the lines would not stand in them
    refine congrArg (_ ++ ·) (define_eq_self (n := n + Text.breaks rest)
      (any_isUse_eq_false fun first last huse => ?_))
    have hlt := h first last (hsites ▸ List.mem_append_right _ huse)
    have hle := le_of_mem_sitesAfter huse
    omega

/-- **Lines whose definitions keep to themselves** are expanded by themselves, and so is what
follows them. -/
theorem expand_append_of_confined {enabled : Bool} {d : Text} (hd : Text.IsWhole d) {a n : Nat}
    (ha : a ≤ n) {t : Text}
    (h : ∀ r ∈ reaches enabled n (d ++ t), r.IsConfined enabled a (n + Text.breaks d)) :
    (expand enabled (d ++ t)).text = (expand enabled d).text ++ (expand enabled t).text ∧
      Text.breaks (expand enabled d).text = Text.breaks d := by
  fun_induction expand enabled d generalizing n with
  | case1 d hbefore => exact ⟨text_expand_append hd hbefore, rfl⟩
  | case2 d before behind hbefore hbody =>
    obtain ⟨r, hr, hfirst, hlt, hlast⟩ := exists_reach_over (t := t) hd hbefore hbody n
    rcases (h r hr).1 with hin | hout | hout
    · omega
    · omega
    · omega
  | case3 d before behind hbefore body hbody defined later =>
    rename_i ih
    have hcut : cutBefore true (d ++ t) = some (before, behind ++ t) :=
      cutBefore_append_right hbefore hd t
    have hmore := cutBody_append hbody t
    obtain ⟨hone, hbehind⟩ := breaks_cutBody hbody
    have hbreaks := breaks_of_cutBefore hbefore
    have hrest := isWhole_of_cutBody hd hbefore hbody
    rw [reaches_defined hcut hmore] at h
    obtain ⟨hhere, hlater⟩ := List.forall_mem_cons.1 h
    -- the definition stands in the lines, and so do its uses
    have hwithin : ∀ first last, .use first last ∈ sitesAfter enabled body.text
        (n + Text.breaks before + body.joins + 1) (body.rest ++ t) →
        last < n + Text.breaks d := by
      intro first last huse
      rcases hhere.2 _ huse with hin | ⟨_, hout⟩
      · exact hin.2
      · refine absurd ⟨?_, ?_⟩ hout
        · dsimp only
          omega
        · dsimp only
          omega
    have htext : (define enabled body.text (body.rest ++ t)).1 =
        (define enabled body.text body.rest).1 ++ t :=
      define_append_of_within hone hrest fun first last huse => by
        have hlt := hwithin first last huse
        omega
    rw [htext] at hlater
    have hkept := breaks_define enabled body.rest hone
    have hend : n + Text.breaks before + body.joins + 1 +
        Text.breaks (define enabled body.text body.rest).1 = n + Text.breaks d := by omega
    obtain ⟨hexpand, hcount⟩ := ih (isWhole_define hone hrest)
      (n := n + Text.breaks before + body.joins + 1) (by omega) fun r hr => by
      rw [hend]
      exact hlater r hr
    refine ⟨?_, ?_⟩
    · rw [text_expand_defined hcut hmore, htext, hexpand, ← List.append_assoc]
    · show Text.breaks
        (before ++ Text.blank (body.joins + 1) ++ (expand enabled defined.1).text) = _
      rw [Text.breaks_append, Text.breaks_append, Text.breaks_blank, hcount.trans hkept]
      omega

/-- A definition before such lines changes what stands around them in one way, whatever these lines
are. -/
theorem define_around_confined {enabled : Bool} {definition rest d t : Text} {first last : Nat}
    (hone : Text.breaks definition = 0) (hrest : Text.IsWhole rest) (hd : Text.IsWhole d)
    (hle : first ≤ last)
    (h : Reach.IsConfined enabled (last + 1 + Text.breaks rest)
      (last + 1 + Text.breaks rest + Text.breaks d) ⟨first, last, definition, rest ++ (d ++ t)⟩) :
    ∃ between, Text.IsWhole between ∧ Text.breaks between = Text.breaks d ∧
      (define enabled definition (rest ++ (d ++ t))).1 = (define enabled definition rest).1 ++
        (between ++ if (define enabled definition rest).2.isRedefined = true then t
          else (define enabled definition t).1) := by
  -- the definition stands before the lines, and its uses on one side of each of their edges
  have huses : ∀ start stop, .use start stop ∈ sitesAfter enabled definition (last + 1)
        (rest ++ (d ++ t)) →
      ¬ (start < last + 1 + Text.breaks rest ∧ last + 1 + Text.breaks rest ≤ stop) ∧
        ¬ (start < last + 1 + Text.breaks rest + Text.breaks d ∧
          last + 1 + Text.breaks rest + Text.breaks d ≤ stop) := by
    intro start stop huse
    have hle := (le_of_mem_sitesAfter huse).2
    rcases h.2 _ huse with hin | ⟨hout, _⟩
    · omega
    · omega
  obtain ⟨htext, hsites⟩ := define_append hone hrest fun start stop huse => (huses _ _ huse).1
  rw [htext]
  by_cases hended : (define enabled definition rest).2.isRedefined = true
  · rw [if_pos hended, if_pos hended]
    exact ⟨d, hd, rfl, rfl⟩
  rw [if_neg hended] at hsites ⊢
  rw [if_neg hended]
  have hmem : ∀ site ∈ sitesAfter enabled definition (last + 1 + Text.breaks rest) (d ++ t),
      site ∈ sitesAfter enabled definition (last + 1) (rest ++ (d ++ t)) := by
    intro site hsite
    rw [hsites]
    exact List.mem_append_right _ hsite
  obtain ⟨htext, hsites⟩ := define_append hone hd fun start stop huse =>
    (huses _ _ (hmem _ huse)).2
  refine ⟨(define enabled definition d).1, isWhole_define hone hd,
    breaks_define enabled d hone, ?_⟩
  rw [htext]
  by_cases hredefined : (define enabled definition d).2.isRedefined = true
  · rw [if_pos hredefined]
    -- it is redefined in the lines, and so it has no use behind them
    obtain ⟨line, hline, hge, hlt⟩ :=
      exists_redefinition_after hone (last + 1 + Text.breaks rest) hd hredefined
    have hmember := hmem _ (hsites ▸ List.mem_append_left _ hline)
    have hfrom := h.2 (.redefinition line) hmember ⟨by dsimp only; omega, hge, hlt⟩
    have hcount : last + 1 + Text.breaks rest + Text.breaks d - (last + 1) =
        Text.breaks (rest ++ d) := by
      rw [Text.breaks_append]
      omega
    rw [Reach.sitesFrom, hcount, ← List.append_assoc,
      Text.fromLine_append (hrest.append hd)] at hfrom
    rw [define_eq_self hfrom]
  · rw [if_neg hredefined]

/-- **What stands around lines that keep to themselves** is expanded in one way, whatever these
lines are: nothing before them or behind them depends on them. -/
theorem expand_around_confined {enabled : Bool} {s : Text} (hs : Text.IsWhole s) (t : Text) :
    ∃ later, ∀ (n : Nat) {d : Text}, Text.IsWhole d →
      (∀ r ∈ reaches enabled n (s ++ (d ++ t)),
        r.IsConfined enabled (n + Text.breaks s) (n + Text.breaks s + Text.breaks d)) →
      Text.breaks (expand enabled s).text = Text.breaks s ∧ ∃ between, Text.IsWhole between ∧
        Text.breaks between = Text.breaks d ∧ (expand enabled (s ++ (d ++ t))).text =
          (expand enabled s).text ++ (between ++ later) := by
  fun_induction expand enabled s generalizing t with
  | case1 s hbefore =>
    refine ⟨(expand enabled t).text, fun n d hd h => ⟨rfl, (expand enabled d).text,
      isWhole_expand hd, ?_⟩⟩
    rw [reaches_append hs hbefore] at h
    obtain ⟨hexpand, hcount⟩ := expand_append_of_confined hd (Nat.le_refl _) h
    refine ⟨hcount, ?_⟩
    rw [text_expand_append hs hbefore, hexpand]
  | case2 s before behind hbefore hbody =>
    refine ⟨[], fun n d _ h => ?_⟩
    obtain ⟨r, hr, hfirst, hlt, hlast⟩ := exists_reach_over (t := d ++ t) hs hbefore hbody n
    rcases (h r hr).1 with hin | hout | hout
    · omega
    · omega
    · omega
  | case3 s before behind hbefore body hbody defined later =>
    rename_i ih
    obtain ⟨hone, hbehind⟩ := breaks_cutBody hbody
    have hbreaks := breaks_of_cutBefore hbefore
    have hrest := isWhole_of_cutBody hs hbefore hbody
    have hkept := breaks_define enabled body.rest hone
    -- the macro goes on behind the lines, unless it was redefined before them
    obtain ⟨later, hlater⟩ := ih (isWhole_define hone hrest)
      (if (define enabled body.text body.rest).2.isRedefined = true then t
        else (define enabled body.text t).1)
    refine ⟨later, fun n d hd h => ?_⟩
    have hcut : cutBefore true (s ++ (d ++ t)) = some (before, behind ++ (d ++ t)) :=
      cutBefore_append_right hbefore hs (d ++ t)
    have hmore := cutBody_append hbody (d ++ t)
    rw [reaches_defined hcut hmore] at h
    obtain ⟨hhere, hothers⟩ := List.forall_mem_cons.1 h
    have hedge : n + Text.breaks s =
        n + Text.breaks before + body.joins + 1 + Text.breaks body.rest := by omega
    rw [hedge] at hhere
    obtain ⟨between, hwhole, hcount, htext⟩ :=
      define_around_confined hone hrest hd (Nat.le_add_right _ _) hhere
    rw [htext, hedge, ← hkept, ← hcount] at hothers
    obtain ⟨hsame, between', hwhole', hcount', hexpand⟩ := hlater _ hwhole hothers
    refine ⟨?_, between', hwhole', hcount'.trans hcount, ?_⟩
    · show Text.breaks
        (before ++ Text.blank (body.joins + 1) ++ (expand enabled defined.1).text) = _
      rw [Text.breaks_append, Text.breaks_append, Text.breaks_blank, hsame.trans hkept]
      omega
    · rw [text_expand_defined hcut hmore, htext, hexpand, ← List.append_assoc]

end Macro

end Variants
