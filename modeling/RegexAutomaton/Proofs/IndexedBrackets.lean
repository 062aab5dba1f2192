/-
Brackets read by position.

The walk through a bracket reads one or two elements at a step and keeps the members
that it has; reading the elements first and joining them afterwards gives the same
members and the same error (`readBracket_eq`). The walk to the end of a bracket finds
the end that is found in the symbols that are left (`extent?_eq`).
-/
import RegexAutomaton.Proofs.BracketGrammar
import RegexAutomaton.Proofs.IndexedNumerals

namespace RegexAutomaton

namespace Indexed

open Checked

variable {ε : Type} {encoding : Encoding} {pattern rest text : List Char} {i j : Nat} {c : Char}

/-! ## The opening -/

theorem getElem?_succ_of_drop (h : pattern.drop i = c :: rest) : pattern[i + 1]? = rest.head? := by
  rw [← drop_succ_of_drop h, List.head?_drop]

theorem isNegated_eq (h : pattern.drop i = c :: rest) :
    (pattern[i + 1]? == some '^') = Bracket.isNegated rest := by
  rw [getElem?_succ_of_drop h, Bracket.isNegated]

theorem firstElement_eq (h : pattern.drop i = c :: rest) :
    firstElement pattern i = i + Bracket.openingWidth rest := by
  rw [firstElement, isNegated_eq h, Bracket.openingWidth]
  split <;> rfl

theorem drop_firstElement (h : pattern.drop i = c :: rest) :
    pattern.drop (firstElement pattern i) = Bracket.body rest := by
  rw [firstElement, isNegated_eq h, Bracket.body]
  split
  · rw [← drop_succ_of_drop h, List.tail_drop]
  · exact drop_succ_of_drop h

/-! ## The end -/

/-- Where a bracket may be closed, the walk looks for the first closing bracket
outside an escape. -/
theorem walk_extentStep (h : pattern.drop j = text) (hij : i ≤ j) (hj : firstElement pattern i ≤ j)
    (hfirst : j = firstElement pattern i → text.head? ≠ some ']') :
    (walk pattern (extentStep pattern i) (fun _ _ => pure none) j () : Checked ε (Option Nat)) =
      answer (.ok ((Escape.indexOf? ']' text).map (· + (j + 1 - i)))) := by
  have hescape (j : Nat) :
      (extentStep pattern i j Escape.backslash () : Checked ε _) = answer (.ok (.goTo (j + 2) ())) := if_pos rfl
  induction text using Escape.indexOf?.induct ']' generalizing j with
  | case1 => exact walk_end (List.getElem?_eq_none (List.drop_eq_nil_iff.1 h))
  | case2 rest =>
    have hstep : (extentStep pattern i j ']' () : Checked ε _) = answer (.ok (.stop (some (j + 1 - i)))) := by
      rw [extentStep, if_neg (by decide), if_pos ⟨rfl, fun hj => hfirst hj rfl⟩, sub_eq (by omega)]
      rfl
    rw [walk_stop (getElem?_of_drop h) hstep, Escape.indexOf?_self, Option.map_some, Nat.zero_add]
  | case3 hne =>
    rw [walk_goTo (getElem?_of_drop h) (hescape j) (by omega)]
    refine (walk_end (List.getElem?_eq_none ?_)).trans rfl
    have hlength := length_of_drop h
    simp only [List.length_nil] at hlength
    omega
  | case4 d rest hne ih =>
    rw [walk_goTo (getElem?_of_drop h) (hescape j) (by omega),
      ih (drop_succ_of_drop (drop_succ_of_drop h)) (by omega) (by omega) (by omega),
      Escape.indexOf?_escaped (by decide), Option.map_map]
    refine congrArg (fun f => answer (.ok ((Escape.indexOf? ']' rest).map f))) (funext fun k => ?_)
    show k + (j + 2 + 1 - i) = k + 2 + (j + 1 - i)
    omega
  | case5 c rest hclose hbackslash ih =>
    have hstep : (extentStep pattern i j c () : Checked ε _) = answer (.ok (.goTo (j + 1) ())) := by
      rw [extentStep, if_neg hbackslash, if_neg fun hc => hclose hc.1]
      rfl
    rw [walk_goTo (getElem?_of_drop h) hstep (by omega), ih (drop_succ_of_drop h) (by omega) (by omega) (by omega),
      Escape.indexOf?_cons rest hclose hbackslash, Option.map_map]
    refine congrArg (fun f => answer (.ok ((Escape.indexOf? ']' rest).map f))) (funext fun k => ?_)
    show k + (j + 1 + 1 - i) = k + 1 + (j + 1 - i)
    omega

theorem extent?_eq (h : pattern.drop i = c :: rest) :
    (extent? pattern i : Checked ε (Option Nat)) = answer (.ok (Bracket.extent? rest)) := by
  have hbody := drop_firstElement h
  have hwidth := firstElement_eq h
  have hpos : 0 < Bracket.openingWidth rest := by
    unfold Bracket.openingWidth
    split <;> decide
  rw [extent?, Bracket.extent?]
  split
  · next hnil =>
    rw [hnil] at hbody
    exact walk_end (List.getElem?_eq_none (List.drop_eq_nil_iff.1 hbody))
  · next first more hcons =>
    rw [hcons] at hbody
    split
    · next hclose =>
      have hstep : (extentStep pattern i (firstElement pattern i) first () : Checked ε _) =
          answer (.ok (.goTo (firstElement pattern i + 1) ())) := by
        rw [extentStep, if_neg (by rw [hclose]; decide), if_neg fun hne => hne.2 rfl]
        rfl
      rw [walk_goTo (getElem?_of_drop hbody) hstep (by omega),
        walk_extentStep (drop_succ_of_drop hbody) (by omega) (by omega) (by omega), hwidth]
      refine congrArg (fun f => answer (.ok ((Escape.indexOf? ']' more).map f))) (funext fun k => ?_)
      omega
    · next hopen =>
      rw [walk_extentStep hbody (by omega) (Nat.le_refl _) (fun _ => by simpa using hopen), hwidth]
      refine congrArg (fun f => answer (.ok ((Escape.indexOf? ']' (first :: more)).map f))) (funext fun k => ?_)
      omega

/-! ## The members -/

open RegexAutomaton.Bracket

theorem insert_eq (members : List CharRange) (r : CharRange) :
    insert members.eraseDups r = (members ++ [r]).eraseDups := by
  rw [insert, List.eraseDups_append]
  by_cases hr : r ∈ members
  · simp [List.removeAll, hr]
  · simp [List.removeAll, hr, List.eraseDups_cons]

/-- The element at a position, once it is not the end of the bracket. -/
def elementAt (encoding : Encoding) (j : Nat) (c : Char) (rest : List Char) : Except SyntaxError (Char × Nat) :=
  if c = Escape.backslash then Escape.read encoding j rest else .ok (c, 1)

theorem readElement_eq (h : pattern.drop j = c :: rest) :
    readElement encoding pattern j = answer (elementAt encoding j c rest) := by
  rw [readElement, entry_eq (getElem?_of_drop h), answer_ok_bind, elementAt]
  by_cases hc : c = Escape.backslash
  · rw [if_pos hc, if_pos hc, readEscape_eq (hc ▸ h)]
  · rw [if_neg hc, if_neg hc]
    rfl

variable {first : Nat} {symbol : Char} {width : Nat} {e : SyntaxError}

theorem element_of_ok (hclose : ¬ (c = ']' ∧ j ≠ first)) (h : elementAt encoding j c rest = .ok (symbol, width)) :
    element encoding first j c rest = .ok (⟨symbol, c = Escape.backslash⟩, width) := by
  rw [element, if_neg hclose]
  unfold elementAt at h
  split at h
  · next hc =>
    rw [if_pos hc, h, decide_eq_true hc]
  · next hc =>
    obtain ⟨rfl, rfl⟩ := Prod.mk.inj (Except.ok.inj h)
    rw [if_neg hc, decide_eq_false hc]

theorem element_of_error (hclose : ¬ (c = ']' ∧ j ≠ first)) (h : elementAt encoding j c rest = .error e) :
    element encoding first j c rest = .error (.failed e) := by
  rw [element, if_neg hclose]
  unfold elementAt at h
  split at h
  · next hc => rw [if_pos hc, h]
  · cases h

/-- The elements of a bracket from a position on. -/
def elementsFrom (encoding : Encoding) (pattern : List Char) (first j : Nat) : Scan Element Finish :=
  (element encoding first).scanFrom 0 j (pattern.drop j)

theorem elementsFrom_end (h : pattern[j]? = none) : elementsFrom encoding pattern first j = ⟨[], j, none⟩ := by
  rw [elementsFrom, List.drop_eq_nil_of_le (List.getElem?_eq_none_iff.1 h), Reader.scanFrom_nil]

theorem elementsFrom_closed (h : pattern[j]? = some ']') (hj : j ≠ first) :
    elementsFrom encoding pattern first j = ⟨[], j, some .closed⟩ := by
  rw [elementsFrom, drop_of_getElem? h, Reader.scanFrom_error _ (if_pos ⟨rfl, hj⟩)]

theorem elementsFrom_error (h : pattern.drop j = c :: rest) (hclose : ¬ (c = ']' ∧ j ≠ first))
    (hread : elementAt encoding j c rest = .error e) :
    elementsFrom encoding pattern first j = ⟨[], j, some (.failed e)⟩ := by
  rw [elementsFrom, h, Reader.scanFrom_error _ (element_of_error hclose hread)]

theorem elementsFrom_ok (h : pattern.drop j = c :: rest) (hclose : ¬ (c = ']' ∧ j ≠ first))
    (hread : elementAt encoding j c rest = .ok (symbol, width)) :
    elementsFrom encoding pattern first j =
      let later := elementsFrom encoding pattern first (j + width)
      { later with pieces := ⟨⟨symbol, c = Escape.backslash⟩, j, width⟩ :: later.pieces } := by
  rw [elementsFrom, h, Reader.scanFrom_step (fits_element encoding first) (element_of_ok hclose hread), ← h,
    List.drop_drop]
  rfl

theorem elementsFrom_dash (h : pattern[j]? = some '-') :
    elementsFrom encoding pattern first j =
      let later := elementsFrom encoding pattern first (j + 1)
      { later with pieces := ⟨dash, j, 1⟩ :: later.pieces } :=
  elementsFrom_ok (drop_of_getElem? h) (fun hc => absurd hc.1 (by decide)) (if_neg (by decide))

/-- Whether the symbol at a position is a plain dash with an element behind it. -/
def Joins (pattern : List Char) (k : Nat) : Prop :=
  pattern[k]? = some '-' ∧ pattern[k + 1]?.isSome ∧ pattern[k + 1]? ≠ some ']'

theorem joins_of_joinsNext {k : Nat} (h : JoinsNext (pattern.drop k)) : Joins pattern k := by
  obtain ⟨d, rest, hdrop, hd⟩ := h
  have hnext : pattern[k + 1]? = some d := getElem?_succ_of_drop hdrop
  exact ⟨getElem?_of_drop hdrop, by rw [hnext]; rfl, by simpa [hnext] using hd⟩

/-- An element is a range of its own unless a dash joins it to the element behind. -/
theorem ranges_single {k : Nat} (lo : Spanned Element) (hfirst : first < k) (hjoins : ¬ Joins pattern k) :
    ranges (lo :: (elementsFrom encoding pattern first k).pieces) =
      (ranges (elementsFrom encoding pattern first k).pieces).map (.single lo.value.symbol :: ·) :=
  ranges_cons_of_not_joinsNext encoding lo hfirst (mt joins_of_joinsNext hjoins)

/-- What a bracket gives whose elements are scanned after some members. -/
def conclude (negated : Bool) (i : Nat) (members : List CharRange) (scan : Scan Element Finish) :
    Except SyntaxError (CharSet × Nat) :=
  match ranges scan.pieces with
  | .error e => .error e
  | .ok more =>
    match scan.reason with
    | none => .error ⟨.unclosedBracket, i⟩
    | some (.failed e) => .error e
    | some .closed => .ok (⟨negated, (members ++ more).eraseDups⟩, scan.stop + 1 - i)

theorem conclude_cons {negated : Bool} {members : List CharRange} {r : CharRange} {scan : Scan Element Finish}
    {pieces : List (Spanned Element)} (h : ranges pieces = (ranges scan.pieces).map (r :: ·)) :
    conclude negated i members { scan with pieces } = conclude negated i (members ++ [r]) scan := by
  rw [conclude, conclude, h]
  cases ranges scan.pieces with
  | error e => rfl
  | ok more => simp only [Except.map, List.append_assoc, List.singleton_append]

/-! The steps of the walk: the end of the bracket, an element that cannot be read, an
element of its own, and two elements joined by a dash. -/

section Steps

variable {members : List CharRange} {lo hi d : Char} {width' : Nat}

theorem bracketStep_closed (hclose : c = ']' ∧ j ≠ firstElement pattern i) (hij : i ≤ j) :
    bracketStep encoding pattern i j c members =
      answer (.ok (.stop (⟨pattern[i + 1]? == some '^', members⟩, j + 1 - i))) := by
  rw [bracketStep, if_pos hclose, sub_eq (by omega)]
  rfl

theorem bracketStep_error (h : pattern.drop j = c :: rest) (hclose : ¬ (c = ']' ∧ j ≠ firstElement pattern i))
    (hlo : elementAt encoding j c rest = .error e) :
    bracketStep encoding pattern i j c members = answer (.error e) := by
  rw [bracketStep, if_neg hclose, readElement_eq h, hlo]
  rfl

theorem bracketStep_single (h : pattern.drop j = c :: rest) (hclose : ¬ (c = ']' ∧ j ≠ firstElement pattern i))
    (hlo : elementAt encoding j c rest = .ok (lo, width)) (hjoins : ¬ Joins pattern (j + width)) :
    bracketStep encoding pattern i j c members.eraseDups =
      answer (.ok (.goTo (j + width) (members ++ [CharRange.single lo]).eraseDups)) := by
  rw [bracketStep, if_neg hclose, readElement_eq h, hlo, answer_ok_bind, ← insert_eq]
  exact if_neg hjoins

theorem bracketStep_joined_error (h : pattern.drop j = c :: rest)
    (hclose : ¬ (c = ']' ∧ j ≠ firstElement pattern i)) (hlo : elementAt encoding j c rest = .ok (lo, width))
    (hjoins : Joins pattern (j + width)) (hafter : pattern.drop (j + width + 1) = d :: text)
    (hhi : elementAt encoding (j + width + 1) d text = .error e) :
    bracketStep encoding pattern i j c members = answer (.error e) := by
  rw [bracketStep, if_neg hclose, readElement_eq h, hlo, answer_ok_bind]
  refine (if_pos hjoins).trans ?_
  rw [readElement_eq hafter, hhi]
  rfl

theorem bracketStep_joined (members : List CharRange) (h : pattern.drop j = c :: rest)
    (hclose : ¬ (c = ']' ∧ j ≠ firstElement pattern i)) (hlo : elementAt encoding j c rest = .ok (lo, width))
    (hjoins : Joins pattern (j + width)) (hafter : pattern.drop (j + width + 1) = d :: text)
    (hhi : elementAt encoding (j + width + 1) d text = .ok (hi, width')) :
    bracketStep encoding pattern i j c members.eraseDups =
      answer (if hi < lo then .error ⟨.invertedRange, j⟩
        else .ok (.goTo (j + width + 1 + width') (members ++ [CharRange.mk lo hi]).eraseDups)) := by
  rw [bracketStep, if_neg hclose, readElement_eq h, hlo, answer_ok_bind]
  refine (if_pos hjoins).trans ?_
  rw [readElement_eq hafter, hhi, answer_ok_bind, ← insert_eq]
  by_cases hinverted : hi < lo
  · rw [if_pos hinverted]
    exact if_pos hinverted
  · rw [if_neg hinverted]
    exact if_neg hinverted

end Steps

/-- The walk through a bracket joins elements as it reads them. -/
theorem walk_bracketStep {members : List CharRange} (hij : i ≤ j) (hj : firstElement pattern i ≤ j) :
    walk pattern (bracketStep encoding pattern i) (fun _ _ => throw ⟨.unclosedBracket, i⟩) j members.eraseDups =
      answer (conclude (pattern[i + 1]? == some '^') i members
        (elementsFrom encoding pattern (firstElement pattern i) j)) := by
  induction hn : pattern.length - j using Nat.strongRecOn generalizing j members with
  | ind n ih =>
    cases hc : pattern[j]? with
    | none =>
      rw [walk_end hc, elementsFrom_end hc]
      rfl
    | some c =>
      have hlt := (List.getElem?_eq_some_iff.1 hc).1
      by_cases hclose : c = ']' ∧ j ≠ firstElement pattern i
      · rw [walk_stop hc (bracketStep_closed hclose hij), elementsFrom_closed (hclose.1 ▸ hc) hclose.2]
        simp only [conclude, ranges, List.append_nil]
      · have hdrop := drop_of_getElem? hc
        cases hlo : elementAt encoding j c (pattern.drop (j + 1)) with
        | error e =>
          rw [walk_error hc (bracketStep_error hdrop hclose hlo), elementsFrom_error hdrop hclose hlo]
          rfl
        | ok found =>
          obtain ⟨lo, width⟩ := found
          obtain ⟨hpos, -⟩ := fits_element _ _ (element_of_ok hclose hlo)
          rw [elementsFrom_ok hdrop hclose hlo]
          by_cases hjoins : Joins pattern (j + width)
          · obtain ⟨hdash, hsome, hne⟩ := id hjoins
            obtain ⟨d, hd⟩ := Option.isSome_iff_exists.1 hsome
            have hafter := drop_of_getElem? hd
            have hopen : ¬ (d = ']' ∧ j + width + 1 ≠ firstElement pattern i) := fun h => hne (h.1 ▸ hd)
            rw [elementsFrom_dash hdash]
            cases hhi : elementAt encoding (j + width + 1) d (pattern.drop (j + width + 1 + 1)) with
            | error e =>
              rw [walk_error hc (bracketStep_joined_error hdrop hclose hlo hjoins hafter hhi),
                elementsFrom_error hafter hopen hhi]
              rfl
            | ok found =>
              obtain ⟨hi, width'⟩ := found
              rw [elementsFrom_ok hafter hopen hhi]
              have hstep := bracketStep_joined members hdrop hclose hlo hjoins hafter hhi
              by_cases hinverted : hi < lo
              · rw [walk_error hc (hstep.trans (congrArg answer (if_pos hinverted))), conclude, ranges, if_pos rfl,
                  if_pos hinverted]
              · rw [walk_goTo hc (hstep.trans (congrArg answer (if_neg hinverted))) (by omega),
                  ih _ (by omega) (by omega) (by omega) rfl]
                refine congrArg answer (conclude_cons ?_).symm
                rw [ranges, if_pos rfl, if_neg hinverted]
          · rw [walk_goTo hc (bracketStep_single hdrop hclose hlo hjoins) (by omega),
              ih _ (by omega) (by omega) (by omega) rfl]
            exact congrArg answer (conclude_cons (ranges_single ⟨⟨lo, _⟩, j, width⟩ (by omega) hjoins)).symm

/-- **Reading a bracket by position is never stuck**, and gives what is read from the
symbols that are left. -/
theorem readBracket_eq (h : pattern.drop i = '[' :: rest) :
    readBracket encoding pattern i = answer (Bracket.read encoding i rest) := by
  have hexpect : (pattern[i]? == some '[') = true := by rw [getElem?_of_drop h]; rfl
  have hfirst := firstElement_eq h
  have hwalk := @walk_bracketStep encoding pattern i _ [] (by omega) (Nat.le_refl (firstElement pattern i))
  rw [readBracket, hexpect]
  refine hwalk.trans (congrArg answer ?_)
  rw [elementsFrom, drop_firstElement h, hfirst, isNegated_eq h]
  rfl

end Indexed

end RegexAutomaton
