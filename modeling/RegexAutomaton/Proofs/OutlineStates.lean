/-
The states of an outline.

A `Setting` is what the states of a part of a pattern have to know of what is
around the part. With that they can be listed one after the other
(`Outline.states`), and they are numbered in that order (`map_id_states`).
-/
import RegexAutomaton.Proofs.OutlineWalk

namespace RegexAutomaton

/-- What is around a part of a pattern, for the states in it. -/
structure Setting where
  /-- Where matching goes on after each branch. -/
  follow : Nat
  /-- Where the last branch falls back to. -/
  fail : Nat
  /-- The entry of the group around the part, or the rejecting state. -/
  group : Nat
  /-- There is a group around the part. -/
  member : Bool
  /-- The accepting state. -/
  accept : Nat
  deriving DecidableEq, Repr

/-- The setting of a whole pattern with `size` states. -/
def Setting.top (size : Nat) : Setting :=
  { follow := size, fail := size + 1, group := size + 1, member := false, accept := size }

namespace Outline

theorem size_pos_of_leads {o : Outline} (h : o.leads = true) : 0 < o.size := by
  cases o with
  | nil => cases h
  | bar rest => cases h
  | leaf kind hleaf rest =>
    have hbears : kind.bearsState = true := h
    simp only [size, hbears, if_true]
    omega
  | group inner rest =>
    simp only [size]
    omega

theorem size_pos_of_opens {o : Outline} (h : o.opens = true) : 0 < o.size := by
  induction o with
  | nil => cases h
  | bar rest _ => cases h
  | leaf kind hleaf rest ih =>
    simp only [opens, Bool.or_eq_true] at h
    simp only [size]
    rcases h with h | h
    · rw [if_pos h]
      omega
    · have := ih h
      omega
  | group inner rest =>
    simp only [size]
    omega

/-- Where the branch that comes first is entered, if its first state has the
number `n`. -/
def entry (o : Outline) (c : Setting) (n : Nat) : Nat := if o.opens then n else c.follow

theorem entry_of_opens {o : Outline} {c : Setting} {n : Nat} (h : o.opens = true) : o.entry c n = n := if_pos h

/-- Where the branch that comes first falls back to: the branch after it, if
there is one. -/
def fallback : Outline → Setting → (n : Nat) → Nat
  | nil, c, _ => c.fail
  | leaf kind _ rest, c, n => rest.fallback c (n + if kind.bearsState then 1 else 0)
  | bar _, _, n => n
  | group inner rest, c, n => rest.fallback c (n + 1 + inner.size)

/-- How often what is right before the outline repeats. -/
def repetition (o : Outline) : Repetition := o.quantifier?.getD .once

/-- The state of the node right before an outline whose first state has the
number `after`. -/
def stateBefore (rest : Outline) (c : Setting) (n next after close : Nat) (opensGroup : Bool)
    (guard : Guard) : State :=
  .closed n next (rest.fallback c after) c.group close rest.repetition
    { optional := rest.repetition.isOptional
      member := c.member
      repeatable := rest.repetition.isRepeatable
      endsGroup := c.member && !rest.opens
      opensGroup }
    guard

/-- The setting inside a group with the entry `n` that comes right before an
outline. -/
def inside (rest : Outline) (c : Setting) (n after : Nat) : Setting :=
  { follow := rest.entry c after
    fail := rest.fallback c after
    group := n
    member := true
    accept := c.accept }

/-- The states, without their ways out. The first of them has the number
`n`. -/
def states : Outline → Setting → (n : Nat) → List State
  | nil, _, _ => []
  | leaf kind _ rest, c, n =>
    match Guard.ofKind? kind with
    | some guard =>
      rest.stateBefore c n (rest.entry c (n + 1)) (n + 1) c.accept false guard :: rest.states c (n + 1)
    | none => rest.states c n
  | bar rest, c, n => rest.states c n
  | group inner rest, c, n =>
    let after := n + 1 + inner.size
    let within := rest.inside c n after
    rest.stateBefore c n (inner.entry within (n + 1)) after (rest.entry c after) true .group ::
      (inner.states within (n + 1) ++ rest.states c after)

variable {c : Setting} {n : Nat}

theorem bearsState_iff {kind : NodeKind} : kind.bearsState = true ↔ ∃ guard, Guard.ofKind? kind = some guard := by
  rw [← Guard.isSome_ofKind?, Option.isSome_iff_exists]

section

variable {kind : NodeKind} {hleaf : kind.isStructural = false} {rest : Outline} {guard : Guard}

theorem bearsState_of_guard (h : Guard.ofKind? kind = some guard) : kind.bearsState = true :=
  bearsState_iff.2 ⟨guard, h⟩

theorem bearsState_of_idle (h : Guard.ofKind? kind = none) : kind.bearsState = false := by
  rw [← Guard.isSome_ofKind?, h]
  rfl

theorem size_leaf (h : Guard.ofKind? kind = some guard) : (leaf kind hleaf rest).size = 1 + rest.size := by
  rw [size, if_pos (bearsState_of_guard h)]

theorem size_idle (h : Guard.ofKind? kind = none) : (leaf kind hleaf rest).size = rest.size := by
  simp [size, bearsState_of_idle h]

theorem states_leaf (h : Guard.ofKind? kind = some guard) :
    (leaf kind hleaf rest).states c n =
      rest.stateBefore c n (rest.entry c (n + 1)) (n + 1) c.accept false guard :: rest.states c (n + 1) := by
  rw [states, h]

theorem states_idle (h : Guard.ofKind? kind = none) : (leaf kind hleaf rest).states c n = rest.states c n := by
  rw [states, h]

end

theorem states_group (inner rest : Outline) (c : Setting) (n : Nat) :
    (group inner rest).states c n =
      rest.stateBefore c n (inner.entry (rest.inside c n (n + 1 + inner.size)) (n + 1)) (n + 1 + inner.size)
          (rest.entry c (n + 1 + inner.size)) true .group ::
        (inner.states (rest.inside c n (n + 1 + inner.size)) (n + 1) ++
          rest.states c (n + 1 + inner.size)) := rfl

/-- **Induction over an outline as its states are listed**: a leaf bears a state with some
guard, or it is idle and is passed over. -/
theorem states_induction {motive : Outline → Prop} (nil : motive nil)
    (idle : ∀ kind hleaf rest, Guard.ofKind? kind = none → motive rest → motive (leaf kind hleaf rest))
    (bears : ∀ kind hleaf rest guard, Guard.ofKind? kind = some guard → motive rest → motive (leaf kind hleaf rest))
    (bar : ∀ rest, motive rest → motive (bar rest))
    (group : ∀ inner rest, motive inner → motive rest → motive (group inner rest)) (o : Outline) : motive o := by
  induction o with
  | nil => exact nil
  | leaf kind hleaf rest ih =>
    cases hguard : Guard.ofKind? kind with
    | none => exact idle kind hleaf rest hguard ih
    | some guard => exact bears kind hleaf rest guard hguard ih
  | bar rest ih => exact bar rest ih
  | group inner rest ihInner ihRest => exact group inner rest ihInner ihRest

/-- The states are numbered in order. -/
theorem map_id_states (o : Outline) (c : Setting) (n : Nat) :
    (o.states c n).map (·.id) = List.range' n o.size := by
  induction o using states_induction generalizing c n with
  | nil => rfl
  | bears kind hleaf rest guard hguard ih =>
    rw [states_leaf hguard, size_leaf hguard, Nat.add_comm 1, List.map_cons, ih, List.range'_succ]
    rfl
  | idle kind hleaf rest hguard ih => rw [states_idle hguard, size_idle hguard, ih]
  | bar rest ih => exact ih c n
  | group inner rest ihInner ihRest =>
    have hsize : (group inner rest).size = inner.size + rest.size + 1 := by
      simp only [size]
      omega
    rw [states_group, hsize, List.map_cons, List.map_append, ihInner, ihRest, List.range'_succ,
      ← List.range'_append_1]
    rfl

theorem id_of_getElem?_states {o : Outline} {k : Nat} {s : State} (h : (o.states c n)[k]? = some s) : s.id = n + k := by
  have hid := congrArg (·[k]?) (o.map_id_states c n)
  simp only [List.getElem?_map, h, Option.map_some] at hid
  obtain ⟨_, hid⟩ := List.getElem?_eq_some_iff.1 hid.symm
  rw [← hid, List.getElem_range', Nat.one_mul]

@[simp] theorem length_states (o : Outline) (c : Setting) (n : Nat) : (o.states c n).length = o.size := by
  have hlen := congrArg List.length (o.map_id_states c n)
  simpa using hlen

end Outline

end RegexAutomaton
