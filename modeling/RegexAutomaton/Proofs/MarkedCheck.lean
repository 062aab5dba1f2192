/-
Markers and the check of a pattern.

Markers stand where they can do no harm: an end right before the `)` of an open
group, a start at the start of the pattern or right after a `(`. So the tokens
pass or fail with markers between them just as they do without
(`checkItems_weave`), whatever the pattern. Only a marker at the end of the
pattern makes a difference (`checkPattern_marked`): after a bar it is blamed before
an open group is.
-/
import RegexAutomaton.Proofs.MarkerOffsets
import RegexAutomaton.Proofs.Parsing

namespace RegexAutomaton

/-! ## What a check of tokens knows -/

namespace Nesting

theorem ofTokens_append (left right : List (Spanned Token)) :
    ofTokens (left ++ right) = ofTokens left ++ ofTokens right := List.filterMap_append ..

theorem levels_append (enter : Nesting) (inner : List Bool) (left right : List (Nat × Nesting)) :
    levels enter inner (left ++ right) = levels enter (levels enter inner left) right := List.foldl_append ..

/-- What is known of the levels after one more token. -/
def levelAt (enter : Nesting) (inner : List Bool) (t : Token) : List Bool :=
  (t.nesting?.map (level enter inner)).getD inner

theorem levels_token (enter : Nesting) (inner : List Bool) (t : Spanned Token) :
    levels enter inner (ofTokens [t]) = levelAt enter inner t.value := by
  rw [levelAt, ofTokens]
  cases hv : t.value.nesting? <;> simp [hv, levels]

theorem reverse_ofTokens_singleton (t : Spanned Token) : (ofTokens [t]).reverse = ofTokens [t] := by
  unfold ofTokens
  cases hv : t.value.nesting? <;> simp [hv]

theorem levels_reverse_cons (enter : Nesting) (t : Spanned Token) (ts : List (Spanned Token))
    (later : List (Nat × Nesting)) :
    levels enter [] (ofTokens (t :: ts) ++ later).reverse =
      levelAt enter (levels enter [] (ofTokens ts ++ later).reverse) t.value := by
  rw [← List.singleton_append, ofTokens_append, List.append_assoc, List.reverse_append, levels_append,
    reverse_ofTokens_singleton, levels_token]

theorem length_levelAt_bar (enter : Nesting) (inner : List Bool) :
    (levelAt enter inner .bar).length = inner.length := by
  cases inner <;> rfl

theorem length_levelAt (inner : List Bool) (t : Token) :
    (levelAt .opening inner t).length =
      match t with
      | .groupOpen => inner.length + 1
      | .groupClose => inner.length - 1
      | _ => inner.length := by
  cases t with
  | bar => exact length_levelAt_bar _ inner
  | groupClose => exact List.length_tail ..
  | _ => rfl

end Nesting

namespace Grammar

open Nesting

variable {before last : Role} {groups stillOpen : List Nat} {ts : List (Spanned Token)} {t : Spanned Token}

/-- An item passes if it closes no group that is not open and its left neighbour
admits it. -/
theorem checkItems_cons_eq_ok_iff {item : Spanned Item} {later : List (Spanned Item)} {found : Role × List Nat} :
    checkItems before groups (item :: later) = .ok found ↔
      ∃ inner, groupsAfter groups item = .ok inner ∧ before.Admits item.value.role ∧
        checkItems item.value.role inner later = .ok found := by
  simp only [checkItems, bind, Except.bind]
  cases groupsAfter groups item with
  | error e => simp
  | ok inner =>
    simp only [Except.ok.injEq, exists_eq_left']
    cases hallow : allow before item.value.role item.offset with
    | error e =>
      have hnot : ¬ before.Admits item.value.role := fun h => by
        rw [allow_eq_ok_iff.2 h] at hallow
        cases hallow
      simp [hnot]
    | ok u => simp [allow_eq_ok_iff.1 hallow]

theorem checkItems_cons (before : Role) (groups : List Nat) (item : Spanned Item) (later : List (Spanned Item)) :
    checkItems before groups (item :: later) =
      (checkItems before groups [item]).bind fun found => checkItems found.1 found.2 later :=
  checkItems_append before groups [item] later

/-- A check goes from token to token, with the role of the last one. -/
theorem checkItems_concat (h : checkItems before groups ((ts ++ [t]).map (·.map .token)) = .ok (last, stillOpen)) :
    ∃ middle inner, checkItems before groups (ts.map (·.map .token)) = .ok (middle, inner) ∧
      groupsAfter inner (t.map .token) = .ok stillOpen ∧ last = t.value.role := by
  rw [List.map_append, List.map_singleton, checkItems_append] at h
  cases hleft : checkItems before groups (ts.map (·.map .token)) with
  | error e => rw [hleft] at h; cases h
  | ok found =>
    rw [hleft] at h
    obtain ⟨inner, hgroups, -, hfound⟩ := checkItems_cons_eq_ok_iff.1 h
    obtain ⟨rfl, rfl⟩ := Prod.mk.inj (Except.ok.inj hfound)
    exact ⟨found.1, found.2, rfl, hgroups, rfl⟩

/-- The role that a check ends with is that of the last token. -/
theorem last_eq_bar_iff (h : checkItems .start groups (ts.map (·.map .token)) = .ok (last, stillOpen)) :
    last = .bar ↔ (ts.map (·.value)).getLast? = some .bar := by
  rcases List.eq_nil_or_concat' ts with rfl | ⟨ts, u, rfl⟩
  · obtain ⟨rfl, -⟩ := Prod.mk.inj (Except.ok.inj h)
    simp
  · obtain ⟨-, -, -, -, rfl⟩ := checkItems_concat h
    rw [List.map_append, List.map_singleton, List.getLast?_concat]
    cases u.value <;> simp [Token.role, Item.role]

/-- A token that passes opens and closes as many groups as levels. -/
theorem length_levelAt_of_groupsAfter {inner : List Bool} (h : groupsAfter groups (t.map .token) = .ok stillOpen)
    (hlen : inner.length = groups.length) : (levelAt .opening inner t.value).length = stillOpen.length := by
  rw [length_levelAt, hlen]
  obtain ⟨value, offset, width⟩ := t
  cases value with
  | groupClose =>
    cases groups with
    | nil => cases h
    | cons o groups =>
      cases h
      rfl
  | _ =>
    cases h
    rfl

/-- As many groups are open as there are levels. -/
theorem length_levels (h : checkItems .start [] (ts.map (·.map .token)) = .ok (last, stillOpen)) :
    (levels .opening [] (ofTokens ts)).length = stillOpen.length := by
  induction ts using List.reverseRecOn generalizing last stillOpen with
  | nil =>
    cases h
    rfl
  | append_singleton ts t ih =>
    obtain ⟨middle, inner, hleft, hgroups, -⟩ := checkItems_concat h
    rw [ofTokens_append, levels_append, levels_token]
    exact length_levelAt_of_groupsAfter hgroups (ih hleft)

/-- As many groups are open as the tokens say. -/
theorem depthAfter?_of_checkItems (h : checkItems before groups (ts.map (·.map .token)) = .ok (last, stillOpen)) :
    Token.depthAfter? groups.length (ts.map (·.value)) = some stillOpen.length := by
  induction ts generalizing before groups with
  | nil =>
    obtain ⟨-, rfl⟩ := Prod.mk.inj (Except.ok.inj h)
    rfl
  | cons t ts ih =>
    obtain ⟨inner, hgroups, -, hrest⟩ := checkItems_cons_eq_ok_iff.1 h
    have hstep := depthAfter?_groupsAfter groups (t.map .token) (ts.map (·.value))
    rw [hgroups] at hstep
    exact hstep.trans (ih hrest)

/-- A marker right before a token changes nothing, if it stands where markers may
stand. -/
theorem checkItems_itemsAt {m : Markers} (opened : Nat)
    (hends : m.endsAt t.offset = true → t.value = .groupClose ∧ groups ≠ [] ∧ before ≠ .groupOpen)
    (hstarts : m.startsAt t.offset = true →
      (before = .start ∨ before = .groupOpen) ∧ (t.value = .groupClose → groups = []))
    (later : List (Spanned Item)) :
    checkItems before groups (m.itemsAt opened t.offset ++ t.map .token :: later) =
      checkItems before groups (t.map .token :: later) := by
  obtain ⟨value, offset, width⟩ := t
  unfold Markers.itemsAt
  cases hs : m.startsAt offset with
  | true =>
    obtain ⟨hbefore, hclose⟩ := hstarts hs
    have he : ¬ m.endsAt offset = true := fun he => (hends he).2.1 (hclose (hends he).1)
    rw [Bool.not_eq_true] at he
    rw [he]
    rcases hbefore with rfl | rfl
    all_goals
      cases value with
      | groupClose =>
        obtain rfl := hclose rfl
        rfl
      | _ => rfl
  | false =>
    cases he : m.endsAt offset && decide (0 < opened) with
    | false => rfl
    | true =>
      obtain ⟨hvalue, hgroups, hbefore⟩ := hends (Bool.and_eq_true_iff.1 he).1
      obtain rfl : value = .groupClose := hvalue
      obtain ⟨o, groups, rfl⟩ := List.exists_cons_of_ne_nil hgroups
      cases before <;> first | rfl | exact absurd rfl hbefore

end Grammar

/-! ## Tokens with markers between them -/

namespace Markers

open Nesting Spanned Grammar

variable {encoding : Encoding} {pattern : List Char} {before after : List (Spanned Token)} {t u : Spanned Token}
  {last : Role} {groups : List Nat}

/-- How many alternations are open after some tokens, with `opened` of them open
before. -/
def openedOver (m : Markers) (opened : Nat) (ts : List (Spanned Token)) : Nat :=
  ts.foldl (fun opened t => m.openedAfter opened t.offset) opened

/-- A token starts where the one before it ends. -/
theorem offset_eq_finish {later : List (Spanned Token)}
    (h : (tokens encoding pattern).pieces = before ++ u :: t :: later) : t.offset = u.finish := by
  have htiles := tiles_tokens encoding pattern
  rw [h] at htiles
  obtain ⟨middle, -, -, -, heq, -⟩ := tiles_append.1 htiles
  exact heq

/-- An alternation starts between two tokens if the first one opens a group with a bar
that the second does not close. -/
theorem startsAt_token {later : List (Spanned Token)}
    (h : (tokens encoding pattern).pieces = before ++ u :: t :: later) :
    ((ofPattern? pattern).getD .empty).startsAt t.offset = true ↔
      u.value = .groupOpen ∧
        (levelAt .closing (levels .closing [] (ofTokens later ++ unread encoding pattern).reverse) t.value).head? =
          some true := by
  rw [offset_eq_finish h, startsAt_finish h, levels_reverse_cons]

/-- An alternation that ends before a token is that of an open group, and not empty. -/
theorem ends_in_group (h : (tokens encoding pattern).pieces = before ++ t :: after)
    (hcheck : checkItems .start [] (before.map (·.map .token)) = .ok (last, groups))
    (hends : ((ofPattern? pattern).getD .empty).endsAt t.offset = true) :
    t.value = .groupClose ∧ groups ≠ [] ∧ last ≠ .groupOpen := by
  obtain ⟨hclose, hlevel⟩ := (endsAt_token h).1 hends
  refine ⟨hclose, ?_, ?_⟩
  · rintro rfl
    rw [List.length_eq_zero_iff.1 (length_levels hcheck)] at hlevel
    cases hlevel
  · rintro rfl
    rcases List.eq_nil_or_concat' before with rfl | ⟨ts, u, rfl⟩
    · cases hlevel
    · obtain ⟨-, -, -, -, hrole⟩ := checkItems_concat hcheck
      rw [ofTokens_append, levels_append, levels_token] at hlevel
      generalize u.value = value at hrole hlevel
      cases value <;> cases hrole
      cases hlevel

/-- An alternation that starts before a token starts where the pattern or a group
does, and the group is not closed at once. -/
theorem starts_after_open (h : (tokens encoding pattern).pieces = before ++ t :: after)
    (hcheck : checkItems .start [] (before.map (·.map .token)) = .ok (last, groups))
    (hstarts : ((ofPattern? pattern).getD .empty).startsAt t.offset = true) :
    (last = .start ∨ last = .groupOpen) ∧ (t.value = .groupClose → groups = []) := by
  rcases List.eq_nil_or_concat' before with rfl | ⟨ts, u, rfl⟩
  · cases hcheck
    exact ⟨.inl rfl, fun _ => rfl⟩
  · rw [List.append_assoc] at h
    obtain ⟨hopen, hlevel⟩ := (startsAt_token h).1 hstarts
    obtain ⟨-, -, -, -, hrole⟩ := checkItems_concat hcheck
    rw [hopen] at hrole
    refine ⟨.inr hrole, fun hclose => ?_⟩
    rw [hclose] at hlevel
    cases hlevel

/-- **Tokens are checked with markers between them just as they are without**, up to
the markers where they end. -/
theorem checkItems_weave (h : (tokens encoding pattern).pieces = before ++ after)
    (hcheck : checkItems .start [] (before.map (·.map .token)) = .ok (last, groups)) (opened : Nat) :
    checkItems last groups (((ofPattern? pattern).getD .empty).weave (tokens encoding pattern).stop opened after) =
      (checkItems last groups (after.map (·.map .token))).bind fun found =>
        checkItems found.1 found.2 (((ofPattern? pattern).getD .empty).itemsAt
          (((ofPattern? pattern).getD .empty).openedOver opened after) (tokens encoding pattern).stop) := by
  induction after generalizing before last groups opened with
  | nil => rfl
  | cons t after ih =>
    rw [weave_cons, checkItems_itemsAt opened (ends_in_group h hcheck) (starts_after_open h hcheck), List.map_cons,
      checkItems_cons, checkItems_cons last groups (t.map .token) (after.map _)]
    cases hstep : checkItems last groups [t.map .token] with
    | error e => rfl
    | ok found =>
      have hcheck' : checkItems .start [] ((before ++ [t]).map (·.map .token)) = .ok (found.1, found.2) := by
        rw [List.map_append, checkItems_append, hcheck]
        exact hstep
      exact ih (by simp [h]) hcheck' _

/-! ## The end of the pattern -/

/-- No level is left where the tokens end. -/
theorem stop_notMem_barredExits (encoding : Encoding) (pattern : List Char) :
    (tokens encoding pattern).stop ∉ (barredExits .opening [] false (ofPattern pattern)).1 := by
  obtain ⟨hnesting, hunread, -⟩ := exists_ofPattern_eq encoding pattern
  intro hmem
  obtain ⟨part, hpart, hoffset⟩ := exists_of_mem_barredExits hmem
  rw [hnesting, List.mem_append] at hpart
  rcases hpart with hpart | hpart
  · obtain ⟨t, ht, hpart, -⟩ := offset_of_mem_ofTokens hpart
    have := (tiles_tokens encoding pattern).bounds ht
    simp only [finish] at this
    omega
  · have := hunread part hpart
    omega

/-- No alternation ends where the tokens do, if they do before the pattern. -/
theorem not_endsAt_stop (h : (tokens encoding pattern).reason ≠ none) :
    ¬ ((ofPattern? pattern).getD .empty).endsAt (tokens encoding pattern).stop = true := by
  rw [endsAt_iff]
  rintro (hmem | ⟨-, hlast⟩)
  · exact stop_notMem_barredExits encoding pattern hmem
  · exact absurd hlast (Nat.ne_of_lt (stop_lt_length encoding pattern h))

/-- An alternation starts where the tokens end only if they end with the start of a
group. -/
theorem starts_at_stop (hcheck : checkItems .start [] ((tokens encoding pattern).pieces.map (·.map .token)) =
      .ok (last, groups))
    (hstarts : ((ofPattern? pattern).getD .empty).startsAt (tokens encoding pattern).stop = true) :
    last = .start ∨ last = .groupOpen := by
  rcases List.eq_nil_or_concat' (tokens encoding pattern).pieces with hnil | ⟨ts, u, hconcat⟩
  · rw [hnil] at hcheck
    cases hcheck
    exact .inl rfl
  · rw [stop_eq_finish hconcat, startsAt_finish hconcat] at hstarts
    rw [hconcat] at hcheck
    obtain ⟨-, -, -, -, hrole⟩ := checkItems_concat hcheck
    rw [hstarts.1] at hrole
    exact .inr hrole

/-- A pattern that is cut short after a bar, inside a group that is itself inside an
alternation of the whole pattern. -/
structure CutShort (encoding : Encoding) (pattern : List Char) : Prop where
  reason_eq : (tokens encoding pattern).reason = none
  check_eq : ∃ groups, groups ≠ [] ∧
    checkItems .start [] ((tokens encoding pattern).pieces.map (·.map .token)) = .ok (.bar, groups)
  endsAt : ((ofPattern? pattern).getD .empty).endsAt (tokens encoding pattern).stop = true
  opened_pos : 0 < ((ofPattern? pattern).getD .empty).openedOver 0 (tokens encoding pattern).pieces

end Markers

namespace Grammar

open Markers

/-- What is left of a check where the tokens end. -/
def checkEnd (stop : Nat) (reason : Option SyntaxError) : Role × List Nat → Except SyntaxError Unit
  | (last, groups) =>
    match reason, groups with
    | some e, _ => .error e
    | none, offset :: _ => .error ⟨.unclosedGroup, offset⟩
    | none, [] => allow last .finish stop

theorem check_eq (items : List (Spanned Item)) (stop : Nat) (reason : Option SyntaxError) :
    check items stop reason = (checkItems .start [] items).bind (checkEnd stop reason) := rfl

/-- Markers where the tokens end change nothing, if they stand where markers may
stand and no group is left open after a bar. -/
theorem checkEnd_itemsAt {m : Markers} {opened stop : Nat} {reason : Option SyntaxError} {last : Role}
    {groups : List Nat} (hstarts : m.startsAt stop = true → last = .start ∨ last = .groupOpen)
    (hends : m.endsAt stop = true → 0 < opened → reason = none ∧ (last = .bar → groups = [])) :
    (checkItems last groups (m.itemsAt opened stop)).bind (checkEnd stop reason) =
      checkEnd stop reason (last, groups) := by
  have hgroups (role : Role) (h : last ≠ .bar) (hrole : role ≠ .bar) :
      checkEnd stop reason (role, groups) = checkEnd stop reason (last, groups) := by
    cases reason with
    | some e => rfl
    | none =>
      cases groups with
      | cons o groups => rfl
      | nil => cases role <;> cases last <;> first | rfl | exact absurd rfl h | exact absurd rfl hrole
  unfold itemsAt
  cases he : m.endsAt stop && decide (0 < opened) with
  | false =>
    cases hs : m.startsAt stop with
    | false => rfl
    | true => rcases hstarts hs with rfl | rfl <;> exact hgroups .alternationStart (by decide) (by decide)
  | true =>
    obtain ⟨hend, hopened⟩ := Bool.and_eq_true_iff.1 he
    obtain ⟨rfl, hbar⟩ := hends hend (of_decide_eq_true hopened)
    by_cases hlast : last = .bar
    · obtain rfl := hlast
      obtain rfl := hbar rfl
      rfl
    · have hallow : allow last .alternationEnd stop = .ok () :=
        allow_eq_ok_iff.2 (by cases last <;> first | rfl | exact absurd rfl hlast)
      have hleave : checkItems last groups [⟨.alternationEnd, stop, 0⟩] = .ok (.alternationEnd, groups) := by
        simp only [checkItems, groupsAfter, Item.role, hallow, bind, Except.bind]
      rw [if_pos rfl, checkItems_append, hleave]
      cases hs : m.startsAt stop with
      | false => exact hgroups .alternationEnd hlast (by decide)
      | true => exact hgroups .alternationStart hlast (by decide)

variable {encoding : Encoding} {pattern : List Char}

/-- The check of a pattern, with markers in it. -/
def checkPattern (encoding : Encoding) (m : Markers) (pattern : List Char) : Except SyntaxError Unit :=
  check (m.itemsOf (tokens encoding pattern)) (tokens encoding pattern).stop (tokens encoding pattern).reason

theorem checkPattern_empty (encoding : Encoding) (pattern : List Char) : checkPattern encoding .empty pattern =
    (checkItems .start [] ((tokens encoding pattern).pieces.map (·.map .token))).bind
      (checkEnd (tokens encoding pattern).stop (tokens encoding pattern).reason) := by
  rw [checkPattern, check_eq, itemsOf, weave_empty]

theorem checkPattern_eq (encoding : Encoding) (pattern : List Char) :
    checkPattern encoding ((ofPattern? pattern).getD .empty) pattern =
      (checkItems .start [] ((tokens encoding pattern).pieces.map (·.map .token))).bind fun found =>
        (checkItems found.1 found.2 (((ofPattern? pattern).getD .empty).itemsAt
          (((ofPattern? pattern).getD .empty).openedOver 0 (tokens encoding pattern).pieces)
          (tokens encoding pattern).stop)).bind
            (checkEnd (tokens encoding pattern).stop (tokens encoding pattern).reason) := by
  rw [checkPattern, check_eq, itemsOf, @checkItems_weave _ _ [] _ _ _ rfl rfl]
  cases checkItems .start [] ((tokens encoding pattern).pieces.map (·.map .token)) <;> rfl

/-- **Markers make no difference to the check of a pattern**, unless it is cut short. -/
theorem checkPattern_marked (h : ¬ CutShort encoding pattern) :
    checkPattern encoding ((ofPattern? pattern).getD .empty) pattern = checkPattern encoding .empty pattern := by
  rw [checkPattern_eq, checkPattern_empty]
  cases hcheck : checkItems .start [] ((tokens encoding pattern).pieces.map (·.map .token)) with
  | error e => rfl
  | ok found =>
    obtain ⟨last, groups⟩ := found
    refine checkEnd_itemsAt (starts_at_stop hcheck) fun hends hopened => ?_
    have hreason := not_not.1 fun hreason => not_endsAt_stop hreason hends
    refine ⟨hreason, ?_⟩
    rintro rfl
    exact not_not.1 fun hgroups => h ⟨hreason, ⟨groups, hgroups, hcheck⟩, hends, hopened⟩

/-- A pattern that is cut short is blamed for the bar, not for the open group. -/
theorem checkPattern_of_cutShort (h : CutShort encoding pattern) :
    checkPattern encoding ((ofPattern? pattern).getD .empty) pattern = .error ⟨.noBranchAfterBar, pattern.length⟩ := by
  obtain ⟨groups, -, hcheck⟩ := h.check_eq
  rw [checkPattern_eq, hcheck, itemsAt, h.endsAt, decide_eq_true h.opened_pos, stop_eq_length _ _ h.reason_eq]
  rfl

end Grammar

namespace NodeList

theorem read_eq (encoding : Encoding) (m : Markers) (pattern : List Char) : read encoding m pattern =
    (Grammar.checkPattern encoding m pattern).map fun _ =>
      ofItems (m.itemsOf (tokens encoding pattern)) (tokens encoding pattern).stop := rfl

/-- The passes find no fault. -/
theorem parse_eq_error_iff {encoding : Encoding} {pattern : List Char} {options : Options} {e : SyntaxError} :
    parse encoding pattern options = .error e ↔
      Grammar.checkPattern encoding ((Markers.ofPattern? pattern).getD .empty) pattern = .error e := by
  simp only [parse, read_eq]
  cases Grammar.checkPattern encoding ((Markers.ofPattern? pattern).getD .empty) pattern <;> simp [Except.map]

end NodeList

end RegexAutomaton
