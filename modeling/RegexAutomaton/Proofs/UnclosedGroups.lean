/-
Patterns with a group that is never closed.

If nothing else is wrong with the tokens of a pattern, the innermost group that is
not closed is to blame (`parse_of_openGroup`). There is one case in which a bar is
blamed instead: it ends the pattern, and another bar stands outside all groups. Then
an alternation is open at the end of the pattern (`openedOver_tokens`), so its end
is looked at before the open groups are.
-/
import RegexAutomaton.Proofs.Composition
import RegexAutomaton.Proofs.MarkedCheck

namespace RegexAutomaton

/-! ## Bars outside all groups -/

namespace Nesting

variable {ts : List (Spanned Token)} {depth d : Nat}

theorem snd_barredExits_token (enter : Nesting) (inner : List Bool) (outer : Bool) (t : Spanned Token)
    (later : List (Nat × Nesting)) :
    (barredExits enter inner outer (ofTokens [t] ++ later)).2 =
      (barredExits enter (levelAt enter inner t.value)
        (outer || (decide (t.value = .bar) && inner.isEmpty)) later).2 := by
  obtain ⟨value, offset, width⟩ := t
  have hpart (part : Nesting) : (barredExits enter inner outer ((offset, part) :: later)).2 = _ :=
    congrArg Prod.snd (barredExits_cons ..)
  cases value with
  | groupOpen => exact hpart .opening
  | groupClose => exact hpart .closing
  | bar => exact hpart .bar
  | _ => simp [ofTokens, levelAt, Token.nesting?]

/-- A walk from left to right sees the bars outside all groups. -/
theorem snd_barredExits_forward (inner : List Bool) (outer : Bool) (ts : List (Spanned Token)) :
    (barredExits .opening inner outer (ofTokens ts)).2 =
      (outer || Token.hasTopBar inner.length (ts.map (·.value))) := by
  induction ts generalizing inner outer with
  | nil => simp [ofTokens, barredExits, Token.hasTopBar]
  | cons t ts ih =>
    rw [← List.singleton_append, ofTokens_append, snd_barredExits_token, ih, length_levelAt]
    obtain ⟨value, offset, width⟩ := t
    cases value with
    | bar => cases inner <;> simp [Token.hasTopBar]
    | _ => simp [Token.hasTopBar]

/-- From right to left no more levels are open than there are groups to close. -/
theorem length_levels_backward (h : Token.depthAfter? depth (ts.map (·.value)) = some d) :
    (levels .closing [] (ofTokens ts).reverse).length ≤ depth := by
  induction ts generalizing depth with
  | nil => exact Nat.zero_le _
  | cons t ts ih =>
    have hcons := levels_reverse_cons .closing t ts []
    rw [List.append_nil, List.append_nil] at hcons
    rw [hcons]
    obtain ⟨value, offset, width⟩ := t
    cases value with
    | groupOpen => exact (List.length_tail ..).trans_le (Nat.sub_le_of_le_add (ih h))
    | groupClose =>
      cases depth with
      | zero => cases h
      | succ depth => exact Nat.succ_le_succ (ih h)
    | bar => exact (length_levelAt_bar ..).trans_le (ih h)
    | _ => exact ih h

/-- A walk from right to left sees them too, unless a parenthesis closes nothing. -/
theorem snd_barredExits_backward (h : Token.depthAfter? depth (ts.map (·.value)) = some d)
    (hbar : Token.hasTopBar depth (ts.map (·.value)) = true) :
    (barredExits .closing [] false (ofTokens ts).reverse).2 = true := by
  induction ts generalizing depth with
  | nil => cases hbar
  | cons t ts ih =>
    rw [← List.singleton_append, ofTokens_append, List.reverse_append, barredExits_append, reverse_ofTokens_singleton,
      ← List.append_nil (ofTokens [t]), snd_barredExits_token]
    refine Bool.or_eq_true_iff.2 ?_
    obtain ⟨value, offset, width⟩ := t
    cases value with
    | bar =>
      cases depth with
      | zero =>
        -- From the right no level is open here either, so this bar is seen.
        have hle : (levels .closing [] (ofTokens ts).reverse).length ≤ 0 := length_levels_backward h
        have hlevels := List.length_eq_zero_iff.1 (Nat.le_zero.1 hle)
        exact .inr (by simp [hlevels])
      | succ depth => exact .inl (@ih (depth + 1) h hbar)
    | groupOpen => exact .inl (@ih (depth + 1) h hbar)
    | groupClose =>
      cases depth with
      | zero => cases h
      | succ depth => exact .inl (@ih depth h hbar)
    | _ => exact .inl (ih h hbar)

end Nesting

/-! ## Alternations open at the end -/

namespace Markers

open Nesting Spanned

variable {encoding : Encoding} {pattern : List Char} {before after : List (Spanned Token)} {t u : Spanned Token}
  {x : Nat}

/-- How many of the levels that both walks know of, seen from the left and from the
right, have a bar on either side. -/
def barredLevels (left right : List Bool) : Nat := (List.zipWith or left right).count true

theorem openedOver_concat (m : Markers) (opened : Nat) (ts : List (Spanned Token)) (t : Spanned Token) :
    m.openedOver opened (ts ++ [t]) = m.openedAfter (m.openedOver opened ts) t.offset := by
  rw [openedOver, List.foldl_append]
  rfl

theorem barredLevels_enter (left right : List Bool) : barredLevels (false :: left) right =
    barredLevels left right.tail + (if right.head? = some true then 1 else 0) := by
  cases right with
  | nil => cases left <;> rfl
  | cons b right => cases b <;> simp [barredLevels]

theorem barredLevels_leave (left right : List Bool) : barredLevels left (false :: right) =
    barredLevels left.tail right + (if left.head? = some true then 1 else 0) := by
  cases left with
  | nil => rfl
  | cons b left => cases b <;> simp [barredLevels]

theorem barredLevels_bar (left right : List Bool) :
    barredLevels (levelAt .opening left .bar) right = barredLevels left (levelAt .closing right .bar) := by
  cases left with
  | nil => rfl
  | cons b left => cases right <;> simp [barredLevels, levelAt, level, Token.nesting?]

/-- No alternation both ends and starts right before a token. -/
theorem not_startsAt_of_endsAt (h : (tokens encoding pattern).pieces = before ++ t :: after)
    (hends : ((ofPattern? pattern).getD .empty).endsAt t.offset = true) :
    ¬ ((ofPattern? pattern).getD .empty).startsAt t.offset = true := by
  obtain ⟨hclose, hlevel⟩ := (endsAt_token h).1 hends
  rcases List.eq_nil_or_concat' before with rfl | ⟨ts, u, rfl⟩
  · cases hlevel
  · rw [List.append_assoc, List.singleton_append] at h
    rw [startsAt_token h, hclose]
    rintro ⟨-, hlevel⟩
    cases hlevel

/-- Where markers tell a level from the left they tell it from the right: an
alternation is open for each level that has a bar, before the place or after it. -/
theorem openedOver_eq (h : (tokens encoding pattern).pieces = before ++ after) (hplace : Tiles 0 before x) :
    ((ofPattern? pattern).getD .empty).openedOver 0 before +
        (if ((ofPattern? pattern).getD .empty).startsAt x then 1 else 0) =
      (if ((ofPattern? pattern).getD .empty).startsAt 0 then 1 else 0) +
        barredLevels (levels .opening [] (ofTokens before))
          (levels .closing [] (ofTokens after ++ unread encoding pattern).reverse) := by
  induction before using List.reverseRecOn generalizing after x with
  | nil =>
    obtain rfl : 0 = x := hplace
    exact Nat.add_comm _ _
  | append_singleton ts t ih =>
    rw [List.append_assoc, List.singleton_append] at h
    obtain ⟨x', hts, ⟨rfl, -, rfl⟩⟩ := tiles_append.1 hplace
    have hbefore := ih h hts
    have hends := endsAt_token h
    have hboth := not_startsAt_of_endsAt h
    rw [levels_reverse_cons] at hbefore
    have hstarts := startsAt_finish h
    rw [openedOver_concat, openedAfter, ofTokens_append, levels_append, levels_token]
    generalize levels .closing [] (ofTokens after ++ unread encoding pattern).reverse = right at hbefore hstarts ⊢
    generalize levels .opening [] (ofTokens ts) = left at hbefore hends ⊢
    generalize t.value = value at hbefore hends hstarts ⊢
    have hleaf (hopen : value ≠ .groupOpen) (hclose : value ≠ .groupClose) :
        ¬ ((ofPattern? pattern).getD .empty).startsAt t.finish = true ∧
          ¬ ((ofPattern? pattern).getD .empty).endsAt t.offset = true :=
      ⟨fun h => hopen (hstarts.1 h).1, fun h => hclose (hends.1 h).1⟩
    cases value with
    | groupOpen =>
      have hend : ¬ ((ofPattern? pattern).getD .empty).endsAt t.offset = true := mt hends.1 (by simp)
      have hlevel : levelAt .opening left .groupOpen = false :: left := rfl
      simp only [true_and] at hstarts
      simp only [if_neg hend, hbefore, hlevel, barredLevels_enter, hstarts, Nat.add_assoc]
      rfl
    | groupClose =>
      have hstart : ¬ ((ofPattern? pattern).getD .empty).startsAt t.finish = true := mt hstarts.1 (by simp)
      have hlevel : levelAt .closing right .groupClose = false :: right := rfl
      simp only [true_and] at hends
      simp only [hlevel, barredLevels_leave, ← hends] at hbefore
      rw [if_neg hstart]
      by_cases hend : ((ofPattern? pattern).getD .empty).endsAt t.offset = true
      · rw [if_pos hend, if_neg (hboth hend)] at hbefore ⊢
        have hleave : levelAt .opening left .groupClose = left.tail := rfl
        rw [hleave]
        omega
      · rw [if_neg hend] at hbefore ⊢
        exact hbefore
    | bar =>
      obtain ⟨hstart, hend⟩ := hleaf (by simp) (by simp)
      rw [if_neg hstart, if_neg hend, hbefore, barredLevels_bar]
      rfl
    | _ =>
      obtain ⟨hstart, hend⟩ := hleaf (by simp) (by simp)
      rw [if_neg hstart, if_neg hend, hbefore]
      rfl

/-- **At the end of a pattern whose tokens are all read one alternation is open at
most**, that of the whole pattern. -/
theorem openedOver_tokens (hreason : (tokens encoding pattern).reason = none)
    (hne : (tokens encoding pattern).pieces ≠ []) :
    ((ofPattern? pattern).getD .empty).openedOver 0 (tokens encoding pattern).pieces =
      if ((ofPattern? pattern).getD .empty).startsAt 0 then 1 else 0 := by
  obtain ⟨-, -, hunread⟩ := exists_ofPattern_eq encoding pattern
  have hopened := openedOver_eq (List.append_nil _).symm (tiles_tokens encoding pattern)
  obtain ⟨ts, u, hconcat⟩ := (List.eq_nil_or_concat' (tokens encoding pattern).pieces).resolve_left hne
  have hstart : ¬ ((ofPattern? pattern).getD .empty).startsAt (tokens encoding pattern).stop = true := by
    rw [stop_eq_finish hconcat, startsAt_finish hconcat, hunread hreason]
    rintro ⟨-, hlevel⟩
    cases hlevel
  rw [if_neg hstart, hunread hreason] at hopened
  simpa [ofTokens, levels, barredLevels] using hopened

/-- The end of a pattern ends an alternation if a bar stands outside all groups. -/
theorem endsAt_stop (hreason : (tokens encoding pattern).reason = none) :
    ((ofPattern? pattern).getD .empty).endsAt (tokens encoding pattern).stop =
      Token.hasTopBar 0 (Token.listing encoding pattern) := by
  obtain ⟨hnesting, -, hunread⟩ := exists_ofPattern_eq encoding pattern
  rw [hunread hreason, List.append_nil] at hnesting
  rw [Bool.eq_iff_iff, endsAt_iff, or_iff_right (stop_notMem_barredExits encoding pattern), hnesting,
    snd_barredExits_forward]
  exact and_iff_left (stop_eq_length _ _ hreason)

/-- Then it starts where the pattern does. -/
theorem startsAt_zero_of_hasTopBar {d : Nat} (hreason : (tokens encoding pattern).reason = none)
    (hdepth : Token.depthAfter? 0 (Token.listing encoding pattern) = some d)
    (hbar : Token.hasTopBar 0 (Token.listing encoding pattern) = true) :
    ((ofPattern? pattern).getD .empty).startsAt 0 = true := by
  obtain ⟨hnesting, -, hunread⟩ := exists_ofPattern_eq encoding pattern
  rw [hunread hreason, List.append_nil] at hnesting
  rw [startsAt_zero, hnesting]
  exact snd_barredExits_backward hdepth hbar

end Markers

/-! ## The group to blame -/

namespace Token

theorem depthAfter?_append (depth : Nat) (left right : List Token) :
    depthAfter? depth (left ++ right) = (depthAfter? depth left).bind fun depth => depthAfter? depth right := by
  induction left generalizing depth with
  | nil => rfl
  | cons t left ih =>
    cases t with
    | groupClose =>
      cases depth with
      | zero => rfl
      | succ depth => exact ih depth
    | groupOpen => exact ih (depth + 1)
    | _ => exact ih depth

/-- A group starts at an offset and is never closed, and so many groups inside it are
not closed either. -/
def NeverClosed (ts : List (Spanned Token)) (offset inside : Nat) : Prop :=
  ∃ before t after, ts = before ++ t :: after ∧ t.value = .groupOpen ∧ t.offset = offset ∧
    depthAfter? 0 (after.map (·.value)) = some inside

/-- What closes no more than all the groups inside another leaves this one open. -/
theorem NeverClosed.concat {ts : List (Spanned Token)} {offset inside inside' : Nat} {t : Spanned Token}
    (h : NeverClosed ts offset inside) (ht : depthAfter? inside [t.value] = some inside') :
    NeverClosed (ts ++ [t]) offset inside' := by
  obtain ⟨before, u, after, rfl, hopen, hoffset, hdepth⟩ := h
  refine ⟨before, u, after ++ [t], by simp, hopen, hoffset, ?_⟩
  rw [List.map_append, depthAfter?_append, hdepth]
  exact ht

end Token

namespace Grammar

variable {before last : Role} {groups stillOpen : List Nat} {ts : List (Spanned Token)}

/-- **The groups that a check still has open are those never closed**, the innermost
first. -/
theorem neverClosed_of_checkItems (h : checkItems before [] (ts.map (·.map .token)) = .ok (last, stillOpen))
    {index offset : Nat} (hindex : stillOpen[index]? = some offset) : Token.NeverClosed ts offset index := by
  induction ts using List.reverseRecOn generalizing last stillOpen index with
  | nil =>
    obtain ⟨-, rfl⟩ := Prod.mk.inj (Except.ok.inj h)
    cases hindex
  | append_singleton ts t ih =>
    obtain ⟨middle, inner, hleft, hgroups, -⟩ := checkItems_concat h
    obtain ⟨value, place, width⟩ := t
    cases value with
    | groupOpen =>
      obtain rfl : place :: inner = stillOpen := Except.ok.inj hgroups
      cases index with
      | zero => exact ⟨ts, _, [], rfl, rfl, Option.some.inj hindex, rfl⟩
      | succ index => exact (ih hleft hindex).concat rfl
    | groupClose =>
      cases inner with
      | nil => cases hgroups
      | cons o inner =>
        obtain rfl : inner = stillOpen := Except.ok.inj hgroups
        exact (@ih middle (o :: inner) hleft (index + 1) hindex).concat rfl
    | _ =>
      obtain rfl : inner = stillOpen := Except.ok.inj hgroups
      exact (ih hleft hindex).concat rfl

/-- Tokens pass if no two neighbours refuse each other and no parenthesis closes
nothing. -/
theorem exists_checkItems_eq_ok {depth : Nat}
    (hchain : List.IsChain Role.Admits (before :: (ts.map (·.value)).map Token.role))
    (hdepth : Token.depthAfter? groups.length (ts.map (·.value)) = some depth) :
    ∃ last stillOpen, checkItems before groups (ts.map (·.map .token)) = .ok (last, stillOpen) := by
  induction ts generalizing before groups with
  | nil => exact ⟨before, groups, rfl⟩
  | cons t ts ih =>
    obtain ⟨hadmits, hrest⟩ := List.isChain_cons_cons.1 hchain
    have hstep := depthAfter?_groupsAfter groups (t.map .token) (ts.map (·.value))
    cases hgroups : groupsAfter groups (t.map .token) with
    | error e =>
      rw [hgroups] at hstep
      cases hdepth.symm.trans hstep
    | ok inner =>
      rw [hgroups] at hstep
      obtain ⟨last, stillOpen, hfound⟩ := ih hrest (hstep.symm.trans hdepth)
      exact ⟨last, stillOpen, checkItems_cons_eq_ok_iff.2 ⟨inner, hgroups, hadmits, hfound⟩⟩

end Grammar

namespace NodeList

variable {encoding : Encoding} {pattern : List Char} {options : Options} {depth : Nat}

/-- A pattern with a group that is never closed is cut short if a bar ends it and
there is a bar outside all groups. -/
theorem cutShort_iff {last : Role} {groups : List Nat} (hne : groups ≠ [])
    (hreason : (tokens encoding pattern).reason = none)
    (hcheck : Grammar.checkItems .start [] ((tokens encoding pattern).pieces.map (·.map .token)) = .ok (last, groups)) :
    Markers.CutShort encoding pattern ↔
      (Token.listing encoding pattern).getLast? = some .bar ∧
        Token.hasTopBar 0 (Token.listing encoding pattern) = true := by
  have hlast : last = .bar ↔ (Token.listing encoding pattern).getLast? = some .bar := Grammar.last_eq_bar_iff hcheck
  constructor
  · rintro ⟨-, ⟨groups', -, hcheck'⟩, hends, -⟩
    rw [hcheck] at hcheck'
    exact ⟨hlast.1 (Prod.mk.inj (Except.ok.inj hcheck')).1, (Markers.endsAt_stop hreason).symm.trans hends⟩
  · rintro ⟨hbar, htop⟩
    obtain rfl := hlast.2 hbar
    have hdepth := Grammar.depthAfter?_of_checkItems hcheck
    have hpieces : (tokens encoding pattern).pieces ≠ [] := fun hnil => by
      rw [hnil] at hcheck
      cases hcheck
    refine ⟨hreason, ⟨groups, hne, hcheck⟩, (Markers.endsAt_stop hreason).trans htop, ?_⟩
    rw [Markers.openedOver_tokens hreason hpieces, if_pos (Markers.startsAt_zero_of_hasTopBar hreason hdepth htop)]
    exact Nat.one_pos

/-- **A group that is never closed is to blame**, the innermost one, if nothing else is
wrong with the tokens of a pattern. But if a bar ends the pattern and there is a bar
outside all groups, the end of the pattern is. -/
theorem parse_of_openGroup (hreason : (tokens encoding pattern).reason = none)
    (hchain : List.IsChain Role.Admits (.start :: (Token.listing encoding pattern).map Token.role))
    (hdepth : Token.depthAfter? 0 (Token.listing encoding pattern) = some (depth + 1)) :
    ∃ offset, Token.NeverClosed (tokens encoding pattern).pieces offset 0 ∧
      parse encoding pattern options = .error
        (if (Token.listing encoding pattern).getLast? = some .bar ∧
            Token.hasTopBar 0 (Token.listing encoding pattern) = true
          then ⟨.noBranchAfterBar, pattern.length⟩ else ⟨.unclosedGroup, offset⟩) := by
  obtain ⟨last, stillOpen, hcheck⟩ := @Grammar.exists_checkItems_eq_ok .start [] _ _ hchain hdepth
  have hlength := (Grammar.depthAfter?_of_checkItems hcheck).symm.trans hdepth
  obtain ⟨offset, groups, rfl⟩ := List.exists_cons_of_ne_nil
    (List.ne_nil_of_length_eq_add_one (Option.some.inj hlength))
  refine ⟨offset, Grammar.neverClosed_of_checkItems hcheck rfl, parse_eq_error_iff.2 ?_⟩
  have hshort := cutShort_iff (List.cons_ne_nil offset groups) hreason hcheck
  split
  · next h => exact Grammar.checkPattern_of_cutShort (hshort.2 h)
  · next h =>
    rw [Grammar.checkPattern_marked (mt hshort.1 h), Grammar.checkPattern_empty, hcheck, hreason]
    rfl

theorem parse_of_openGroup_nested :
    (tokens .unicode ['(', 'a', '(', 'b', ')', '(', 'c', '|']).reason = none ∧
      List.IsChain Role.Admits
        (.start :: (Token.listing .unicode ['(', 'a', '(', 'b', ')', '(', 'c', '|']).map Token.role) ∧
      Token.depthAfter? 0 (Token.listing .unicode ['(', 'a', '(', 'b', ')', '(', 'c', '|']) = some 2 ∧
      ∃ offset, Token.NeverClosed (tokens .unicode ['(', 'a', '(', 'b', ')', '(', 'c', '|']).pieces offset 0 ∧
        parse .unicode ['(', 'a', '(', 'b', ')', '(', 'c', '|'] {} = .error
          (if (Token.listing .unicode ['(', 'a', '(', 'b', ')', '(', 'c', '|']).getLast? = some .bar ∧
              Token.hasTopBar 0 (Token.listing .unicode ['(', 'a', '(', 'b', ')', '(', 'c', '|']) = true
            then ⟨.noBranchAfterBar, 8⟩ else ⟨.unclosedGroup, offset⟩) :=
  ⟨rfl, by decide, rfl, parse_of_openGroup rfl (by decide) rfl⟩

/-- The end of an alternation of the whole pattern is held against a bar inside a group
that is still open. -/
theorem parse_bar_in_openGroup :
    (tokens .unicode ['a', '|', '(', 'b', '|']).reason = none ∧
      List.IsChain Role.Admits (.start :: (Token.listing .unicode ['a', '|', '(', 'b', '|']).map Token.role) ∧
      Token.depthAfter? 0 (Token.listing .unicode ['a', '|', '(', 'b', '|']) = some 1 ∧
      Token.NeverClosed (tokens .unicode ['a', '|', '(', 'b', '|']).pieces 2 0 ∧
      parse .unicode ['a', '|', '(', 'b', '|'] {} ≠ .error ⟨.unclosedGroup, 2⟩ := by
  have hparse : parse .unicode ['a', '|', '(', 'b', '|'] {} = .error ⟨.noBranchAfterBar, 5⟩ := rfl
  refine ⟨rfl, by decide, rfl, ⟨[⟨.atom (.literal 'a'), 0, 1⟩, ⟨.bar, 1, 1⟩], ⟨.groupOpen, 2, 1⟩,
    [⟨.atom (.literal 'b'), 3, 1⟩, ⟨.bar, 4, 1⟩], rfl, rfl, rfl, rfl⟩, ?_⟩
  rw [hparse]
  simp

end NodeList

end RegexAutomaton
