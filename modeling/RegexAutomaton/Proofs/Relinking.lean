/-
The same states with other numbers.

A `Relinking` gives new numbers to a state and to what it leads to. The states of
an outline in one setting are those in another, relinked as the one setting is
carried to the other (`Outline.map_relink_states`), and giving states their ways
out makes no difference to that (`State.connected_relink`).
-/
import RegexAutomaton.Proofs.OutlineAutomaton

namespace RegexAutomaton

/-- The way out with another number. -/
def Transition.map (f : Nat → Nat) : Transition → Transition
  | halt => halt
  | goto id => goto (f id)

/-- New numbers for a state and for what it leads to. -/
structure Relinking where
  id : Nat → Nat
  /-- For where matching goes on, and for where a way out leads. -/
  next : Nat → Nat
  fail : Nat → Nat
  group : Nat → Nat
  /-- For where matching goes on after a group, given whether the state opens
  one. -/
  close : Bool → Nat → Nat

/-- The state with new numbers. -/
def State.relink (r : Relinking) (s : State) : State :=
  { s with
    id := r.id s.id
    onMatch := r.next s.onMatch
    onFail := r.fail s.onFail
    group := r.group s.group
    close := r.close s.flags.opensGroup s.close
    primary := s.primary.map r.next
    failed := s.failed.map r.next
    lookahead := s.lookahead.map r.next }

/-! ## Ways out -/

/-- Flags that are left by a way out turn it on. -/
structure Flags.Allow (f : Flags) (exit : Exit) : Prop where
  parent : exit = .parent → f.member = true
  close : exit = .close → f.opensGroup = true

namespace Flags

theorem allow_onward (f : Flags) : f.Allow f.onward := by
  unfold onward
  split
  · next h => exact ⟨fun _ => (Bool.and_eq_true_iff.1 h).2, nofun⟩
  · exact ⟨nofun, nofun⟩

theorem allow_primary (f : Flags) : f.Allow f.primary := by
  unfold primary
  split
  · exact ⟨nofun, nofun⟩
  · split
    · exact ⟨nofun, nofun⟩
    · exact f.allow_onward

theorem allow_failed (f : Flags) : f.Allow f.failed := by
  unfold failed
  split
  · next h => exact ⟨nofun, fun _ => h⟩
  · split
    · exact f.allow_onward
    · exact ⟨nofun, nofun⟩

theorem allow_lookahead (f : Flags) : f.Allow f.lookahead := by
  unfold lookahead
  split
  · next h =>
    split
    · exact ⟨nofun, fun _ => h⟩
    · exact ⟨nofun, nofun⟩
  · exact f.allow_onward

end Flags

/-- **Giving a state its ways out and giving it new numbers may change places**, if
the new numbers of what the ways out lead to agree. -/
theorem State.connected_relink {r : Relinking} {s : State} (hid : r.next s.id = r.id s.id)
    (hgroup : s.flags.member = true → r.next s.group = r.group s.group)
    (hclose : s.flags.opensGroup = true → r.next s.close = r.close s.flags.opensGroup s.close) :
    s.connected.relink r = (s.relink r).connected := by
  have htarget {exit : Exit} (h : s.flags.Allow exit) :
      (s.target exit).map r.next = (s.relink r).target exit := by
    cases exit with
    | self => exact congrArg Transition.goto hid
    | next => rfl
    | parent => exact congrArg Transition.goto (hgroup (h.parent rfl))
    | close => exact congrArg Transition.goto (hclose (h.close rfl))
    | halt => rfl
  have hprimary := htarget s.flags.allow_primary
  have hfailed := htarget s.flags.allow_failed
  have hlookahead := htarget s.flags.allow_lookahead
  simp only [connected, relink, target] at hprimary hfailed hlookahead ⊢
  rw [hprimary, hfailed, hlookahead]

/-! ## States of an outline -/

/-- The numbers of `size` states, the first of which has the number `n`, become
those from `n'` on. -/
def Renumbers (f : Nat → Nat) (n n' size : Nat) : Prop := ∀ k < size, f (n + k) = n' + k

theorem Renumbers.drop {f : Nat → Nat} {n n' size : Nat} (h : Renumbers f n n' size) (j : Nat) {size' : Nat}
    (hle : j + size' ≤ size) : Renumbers f (n + j) (n' + j) size' := fun k hk => by
  rw [Nat.add_assoc, h (j + k) (by omega), Nat.add_assoc]

/-- What is around some states becomes what the setting `c'` says. -/
structure Relinking.Carries (r : Relinking) (c c' : Setting) (n n' size : Nat) : Prop where
  numbers : ∀ f ∈ [r.id, r.next, r.fail, r.group, r.close true], Renumbers f n n' size
  follow : r.next c.follow = c'.follow
  close : r.close true c.follow = c'.follow
  fail : r.fail c.fail = c'.fail
  group : r.group c.group = c'.group
  member : c.member = c'.member
  parent : c.member = true → r.next c.group = c'.group
  accept : r.close false c.accept = c'.accept

theorem Relinking.Carries.drop {r : Relinking} {c c' : Setting} {n n' size : Nat} (h : r.Carries c c' n n' size)
    (j : Nat) {size' : Nat} (hle : j + size' ≤ size) : r.Carries c c' (n + j) (n' + j) size' :=
  { h with numbers := fun f hf => (h.numbers f hf).drop j hle }

namespace Outline

variable {o inner rest : Outline} {r : Relinking} {c c' : Setting} {f : Nat → Nat} {n n' : Nat}

theorem entry_renumbers (h : Renumbers f n n' o.size) (hfollow : f c.follow = c'.follow) :
    f (o.entry c n) = o.entry c' n' := by
  unfold entry
  split
  · next hopens => exact h 0 (size_pos_of_opens hopens)
  · exact hfollow

theorem fallback_renumbers (hsound : o.Sound) (h : Renumbers f n n' o.size) (hfail : f c.fail = c'.fail) :
    f (o.fallback c n) = o.fallback c' n' := by
  induction o generalizing n n' with
  | nil => exact hfail
  | leaf kind hleaf rest ih => exact ih hsound.2 (h.drop _ (Nat.le_refl _))
  | bar rest _ => exact h 0 (size_pos_of_leads (o := rest) hsound.1)
  | group inner rest _ ih =>
    have hrest := h.drop (1 + inner.size) (Nat.le_refl _)
    rw [← Nat.add_assoc, ← Nat.add_assoc] at hrest
    exact ih hsound.2.2 hrest

theorem stateBefore_relink {size : Nat} (hcarries : r.Carries c c' n n' size) (hpos : 0 < size)
    {after after' next next' close close' : Nat} {opensGroup : Bool} {guard : Guard} (hnext : r.next next = next')
    (hfail : r.fail (rest.fallback c after) = rest.fallback c' after') (hclose : r.close opensGroup close = close')
    (hcloses : opensGroup = true → r.next close = close') :
    (rest.stateBefore c n next after close opensGroup guard).connected.relink r =
      (rest.stateBefore c' n' next' after' close' opensGroup guard).connected := by
  have hid : r.id n = n' := hcarries.numbers r.id (by simp) 0 hpos
  have hself : r.next n = n' := hcarries.numbers r.next (by simp) 0 hpos
  rw [State.connected_relink]
  · simp only [stateBefore, State.closed, State.relink, Transition.map, hid, hnext, hfail, hcarries.group, hclose,
      hcarries.member]
  · exact hself.trans hid.symm
  · exact fun hmember => (hcarries.parent hmember).trans hcarries.group.symm
  · exact fun hopens => (hcloses hopens).trans hclose.symm

/-- **The states of an outline in one setting are those in another**, with other
numbers. -/
theorem map_relink_states (hsound : o.Sound) (h : r.Carries c c' n n' o.size) :
    ((o.states c n).map State.connected).map (State.relink r) = (o.states c' n').map State.connected := by
  induction o using states_induction generalizing c c' n n' with
  | nil => rfl
  | idle kind hleaf rest hguard ih =>
    rw [states_idle hguard, states_idle hguard]
    rw [size_idle hguard] at h
    exact ih hsound.2 h
  | bears kind hleaf rest guard hguard ih =>
    rw [size_leaf hguard] at h
    have hrest := h.drop 1 (Nat.le_refl _)
    rw [states_leaf hguard, states_leaf hguard]
    simp only [List.map_cons, ih hsound.2 hrest]
    rw [stateBefore_relink h (by omega)]
    · exact entry_renumbers (hrest.numbers r.next (by simp)) h.follow
    · exact fallback_renumbers hsound.2 (hrest.numbers r.fail (by simp)) h.fail
    · exact h.accept
    · exact fun h => by cases h
  | bar rest ih => exact ih hsound.2 h
  | group inner rest ihInner ihRest =>
    obtain ⟨-, hinner, hrest⟩ := hsound
    have hbehind := h.drop (1 + inner.size) (Nat.le_refl _)
    rw [← Nat.add_assoc, ← Nat.add_assoc] at hbehind
    have hnumbers (f : Nat → Nat) (hf : f ∈ [r.id, r.next, r.fail, r.group, r.close true]) :
        Renumbers f (n + 1 + inner.size) (n' + 1 + inner.size) rest.size := hbehind.numbers f hf
    have hself (f : Nat → Nat) (hf : f ∈ [r.id, r.next, r.fail, r.group, r.close true]) : f n = n' :=
      h.numbers f hf 0 (by simp only [size]; omega)
    have hfollow := entry_renumbers (hnumbers r.next (by simp)) h.follow
    have hclose := entry_renumbers (hnumbers (r.close true) (by simp)) h.close
    have hfail := fallback_renumbers hrest (hnumbers r.fail (by simp)) h.fail
    have hwithin : r.Carries (rest.inside c n (n + 1 + inner.size)) (rest.inside c' n' (n' + 1 + inner.size))
        (n + 1) (n' + 1) inner.size :=
      { numbers := fun f hf => (h.numbers f hf).drop 1 (by simp only [size]; omega)
        follow := hfollow
        close := hclose
        fail := hfail
        group := hself r.group (by simp)
        member := rfl
        parent := fun _ => hself r.next (by simp)
        accept := h.accept }
    rw [states_group, states_group]
    simp only [List.map_cons, List.map_append, ihInner hinner hwithin, ihRest hrest hbehind]
    rw [stateBefore_relink h (by simp only [size]; omega)]
    · exact entry_renumbers (hwithin.numbers r.next (by simp)) hwithin.follow
    · exact hfail
    · exact hclose
    · exact fun _ => hfollow

end Outline

end RegexAutomaton
