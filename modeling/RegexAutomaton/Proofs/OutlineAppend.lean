/-
Outlines with another one at their end.

The states of two outlines in a row are those of the first, in a setting that
says what the second is to it, and then those of the second (`states_append`). The
passes treat the two apart as long as no run of literals goes on from the one to
the other (`rewritten_append_bar`, `rewritten_append`).
-/
import RegexAutomaton.Proofs.OutlineStates
import RegexAutomaton.Proofs.OutlinePasses
import RegexAutomaton.Proofs.PhraseAppend

namespace RegexAutomaton

namespace Outline

variable {o t : Outline} {c : Setting} {n m : Nat}

/-! ## Passes -/

theorem collapse_append (o t : Outline) : (o.append t).collapse = o.collapse.append t.collapse := by
  induction o with
  | nil => rfl
  | leaf kind hleaf rest ih => simp [append, collapse, ih]
  | bar rest ih => simp [append, collapse, ih]
  | group inner rest _ ih => simp [append, collapse, ih]

theorem collapseBody_of_not_barred (h : o.barred = false) : o.collapseBody = o.collapse := by
  simp [collapseBody, set?, h]

theorem quantifier?_append (h : t.quantifier? = none) (o : Outline) : (o.append t).quantifier? = o.quantifier? := by
  cases o with
  | nil => exact h
  | _ => rfl

theorem lone?_append_bar (kind : NodeKind) (o t : Outline) : lone? kind (o.append (bar t)) = lone? kind o := by
  unfold lone?
  rw [quantifier?_append rfl]

theorem run_append_bar (o t : Outline) : (o.append (bar t)).run = o.run := by
  induction o with
  | leaf kind hleaf rest ih => simp only [append, run, lone?_append_bar, ih]
  | _ => rfl

theorem coalesce_append_bar (inside : Bool) (o t : Outline) :
    (o.append (bar t)).coalesce inside = (o.coalesce inside).append (bar (t.coalesce false)) := by
  induction o generalizing inside with
  | nil => rfl
  | leaf kind hleaf rest ih =>
    simp only [append, coalesce, lone?_append_bar, run_append_bar, ih]
    cases lone? kind rest with
    | none => rfl
    | some symbol => cases inside <;> rfl
  | bar rest ih => simp [append, coalesce, ih]
  | group inner rest _ ih => simp [append, coalesce, ih]

theorem rewritten_append_bar {options : Options} (h : options.collapses = false) (o t : Outline) :
    (o.append (bar t)).rewritten options = (o.rewritten options).append (bar (t.rewritten options)) := by
  simp only [rewritten, collapsed, h, Bool.false_eq_true, if_false]
  split
  · exact coalesce_append_bar false o t
  · rfl

theorem rewritten_append {options : Options} (h : options.coalesces = false) (ho : o.barred = false)
    (ht : t.barred = false) : (o.append t).rewritten options = (o.rewritten options).append (t.rewritten options) := by
  have hboth : (o.append t).barred = false := by rw [barred_append, ho, ht, Bool.or_false]
  simp only [rewritten, collapsed, h, Bool.false_eq_true, if_false]
  split
  · rw [collapseBody_of_not_barred ho, collapseBody_of_not_barred ht, collapseBody_of_not_barred hboth,
      collapse_append]
  · rfl

theorem barred_rewritten_of_not_barred {options : Options} (h : o.barred = false) :
    (o.rewritten options).barred = false := by
  have hcollapsed : (o.collapsed options).barred = false := by
    unfold collapsed
    split
    · rw [collapseBody_of_not_barred h, barred_collapse, h]
    · exact h
  unfold rewritten
  split
  · rw [barred_coalesce, hcollapsed]
  · exact hcollapsed

theorem quantifier?_rewritten {options : Options} (h : o.barred = false) :
    (o.rewritten options).quantifier? = o.quantifier? := by
  have hcollapsed : (o.collapsed options).quantifier? = o.quantifier? := by
    unfold collapsed
    split
    · rw [collapseBody_of_not_barred h, quantifier?_collapse]
    · rfl
  unfold rewritten
  split
  · rw [quantifier?_coalesce, hcollapsed]
  · exact hcollapsed

/-! ## States -/

@[simp] theorem size_append (o t : Outline) : (o.append t).size = o.size + t.size := by
  induction o with
  | nil => exact (Nat.zero_add _).symm
  | leaf kind hleaf rest ih => simp only [append, size, ih, Nat.add_assoc]
  | bar rest ih => exact ih
  | group inner rest _ ih => simp only [append, size, ih, Nat.add_assoc]

theorem opens_append (o t : Outline) : (o.append t).opens = (o.opens || (!o.barred && t.opens)) := by
  induction o with
  | nil => simp [append, opens, barred]
  | leaf kind hleaf rest ih => simp [append, opens, barred, ih, Bool.or_assoc]
  | bar rest _ => rfl
  | group inner rest _ _ => rfl

/-- Without bars and without states in its only branch there are none. -/
theorem size_of_not_opens (hbarred : o.barred = false) (h : o.opens = false) : o.size = 0 := by
  induction o with
  | nil => rfl
  | leaf kind hleaf rest ih =>
    obtain ⟨hbears, hrest⟩ := Bool.or_eq_false_iff.1 h
    simp [size, hbears, ih hbarred hrest]
  | bar rest _ => cases hbarred
  | group inner rest _ _ => cases h

theorem fallback_of_not_barred (h : o.barred = false) (c : Setting) (n : Nat) : o.fallback c n = c.fail := by
  induction o generalizing n with
  | nil => rfl
  | leaf kind hleaf rest ih => exact ih h _
  | bar rest _ => cases h
  | group inner rest _ ih => exact ih h _

/-- The setting of what comes right before an outline whose first state has the
number `m`. -/
def settingBefore (t : Outline) (c : Setting) (m : Nat) : Setting :=
  { c with follow := t.entry c m, fail := t.fallback c m }

/-- An outline goes on from the branch before it only if that is the only branch, in
no group. -/
def Follows (t o : Outline) (c : Setting) : Prop := t.opens = true → o.barred = false ∧ c.member = false

theorem entry_append (h : t.Follows o c) (hm : m = n + o.size) :
    (o.append t).entry c n = o.entry (t.settingBefore c m) n := by
  unfold entry
  rw [opens_append]
  cases hopens : o.opens with
  | true => rfl
  | false =>
    simp only [Bool.false_or, Bool.false_eq_true, if_false, settingBefore, entry]
    cases ht : t.opens with
    | false => simp
    | true =>
      have hbarred := (h ht).1
      rw [hm, size_of_not_opens hbarred hopens, hbarred]
      rfl

theorem fallback_append (o t : Outline) (c : Setting) (hm : m = n + o.size) :
    (o.append t).fallback c n = o.fallback (t.settingBefore c m) n := by
  induction o generalizing n with
  | nil =>
    obtain rfl : m = n := hm
    rfl
  | leaf kind hleaf rest ih =>
    refine ih ?_
    simp only [size] at hm
    omega
  | bar rest _ => rfl
  | group inner rest _ ih =>
    refine ih ?_
    simp only [size] at hm
    omega

theorem stateBefore_append {rest : Outline} (h : t.Follows rest c) (hquantifier : t.quantifier? = none) {after : Nat}
    (hm : m = after + rest.size) (n next close : Nat) (opensGroup : Bool) (guard : Guard) :
    (rest.append t).stateBefore c n next after close opensGroup guard =
      rest.stateBefore (t.settingBefore c m) n next after close opensGroup guard := by
  have hends : (c.member && !(rest.append t).opens) = (c.member && !rest.opens) := by
    rw [opens_append]
    cases ht : t.opens with
    | false => simp
    | true => simp [(h ht).2]
  have hrepetition : (rest.append t).repetition = rest.repetition := by
    rw [repetition, quantifier?_append hquantifier, repetition]
  rw [stateBefore, stateBefore, fallback_append rest t c hm, hrepetition, hends]
  rfl

/-- **The states of two outlines in a row** are those of the first and then those of
the second. -/
theorem states_append (h : t.Follows o c) (hquantifier : t.quantifier? = none) (hm : m = n + o.size) :
    (o.append t).states c n = o.states (t.settingBefore c m) n ++ t.states c m := by
  induction o using states_induction generalizing n with
  | nil =>
    obtain rfl : m = n := hm
    rfl
  | idle kind hleaf rest hguard ih =>
    rw [size_idle hguard] at hm
    rw [append, states_idle hguard, states_idle hguard, ih h hm]
  | bears kind hleaf rest guard hguard ih =>
    have hrest : m = n + 1 + rest.size := by
      rw [size_leaf hguard] at hm
      omega
    have hfollows : t.Follows rest c := h
    rw [append, states_leaf hguard, states_leaf hguard, ih h hrest, entry_append hfollows hrest,
      stateBefore_append hfollows hquantifier hrest]
    rfl
  | bar rest ih => exact ih (fun ht => by cases (h ht).1) hm
  | group inner rest _ ih =>
    have hrest : m = n + 1 + inner.size + rest.size := by
      simp only [size] at hm
      omega
    have hfollows : t.Follows rest c := h
    have hinside : (rest.append t).inside c n (n + 1 + inner.size) =
        rest.inside (t.settingBefore c m) n (n + 1 + inner.size) := by
      rw [inside, inside, entry_append hfollows hrest, fallback_append rest t c hrest]
      rfl
    rw [append, states_group, states_group, ih h hrest, hinside, entry_append hfollows hrest,
      stateBefore_append hfollows hquantifier hrest, List.cons_append, List.append_assoc]

end Outline

end RegexAutomaton
