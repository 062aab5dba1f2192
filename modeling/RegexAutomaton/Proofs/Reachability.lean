/-
No state is dead.

Every state of a compiled pattern can be reached from the first one along its
links (`reaches_of_compile`). What is reached is closed under the links, so it is
enough to follow them through an outline (`Outline.reached_of_closed`): a
branch is entered from the one before it, a group from its own state, and what
comes after a group from the state of the group again.
-/
import RegexAutomaton.Proofs.Grouping

namespace RegexAutomaton

/-- A link of the state leads to a number. Only the state of a group has a link to what
comes after the group. -/
inductive State.Leads (s : State) : Nat → Prop where
  | onMatch : s.Leads s.onMatch
  | onFail : s.Leads s.onFail
  | close (h : s.flags.opensGroup = true) : s.Leads s.close

/-- A number can be reached from the first state along links. -/
inductive Automaton.Reaches (a : Automaton) : Nat → Prop where
  | start : a.Reaches a.start
  | link {k next : Nat} {s : State} (h : a.Reaches k) (hs : a.states[k]? = some s) (hnext : s.Leads next) :
      a.Reaches next

/-- Numbers that hold, with the number of a state, all that its links lead to. -/
def ClosedUnderLinks (reached : Nat → Prop) (states : List State) : Prop :=
  ∀ s ∈ states, reached s.id → ∀ next, s.Leads next → reached next

theorem closedUnderLinks_cons {reached : Nat → Prop} {s : State} {states : List State} :
    ClosedUnderLinks reached (s :: states) ↔
      (reached s.id → ∀ next, s.Leads next → reached next) ∧ ClosedUnderLinks reached states :=
  List.forall_mem_cons

theorem closedUnderLinks_append {reached : Nat → Prop} {states later : List State} :
    ClosedUnderLinks reached (states ++ later) ↔ ClosedUnderLinks reached states ∧ ClosedUnderLinks reached later :=
  List.forall_mem_append

/-! ## Outlines -/

namespace Outline

variable {o : Outline} {c : Setting} {n : Nat} {reached : Nat → Prop}

/-- **Numbers that are closed under the links of an outline hold all of it**, and what
follows it, if they hold its entry. An outline without a state in its first branch
falls back as what comes before it does, so this is asked for as well. -/
theorem reached_of_closed (hsound : o.Sound) (hclosed : ClosedUnderLinks reached (o.states c n))
    (hentry : reached (o.entry c n)) (hfallback : o.opens = false → reached (o.fallback c n)) :
    (∀ k, n ≤ k → k < n + o.size → reached k) ∧ reached c.follow ∧ reached c.fail := by
  induction o using states_induction generalizing c n with
  | nil => exact ⟨fun k hle hlt => absurd hlt (Nat.not_lt.2 hle), hentry, hfallback rfl⟩
  | idle kind hleaf rest hguard ih =>
    have hbears := bearsState_of_idle hguard
    have hopens : (leaf kind hleaf rest).opens = rest.opens := by simp [opens, hbears]
    rw [entry, hopens] at hentry
    simp only [hopens, fallback, hbears, Bool.false_eq_true, if_false, Nat.add_zero] at hfallback
    rw [states_idle hguard] at hclosed
    rw [size_idle hguard]
    exact ih hsound.2 hclosed hentry hfallback
  | bears kind hleaf rest guard hguard ih =>
    have hopens : (leaf kind hleaf rest).opens = true := by simp [opens, bearsState_of_guard hguard]
    rw [entry_of_opens hopens] at hentry
    rw [states_leaf hguard, closedUnderLinks_cons] at hclosed
    obtain ⟨hstate, hclosed⟩ := hclosed
    obtain ⟨hrest, hends⟩ := ih hsound.2 hclosed (hstate hentry _ .onMatch) fun _ => hstate hentry _ .onFail
    refine ⟨fun k hle hlt => ?_, hends⟩
    rw [size_leaf hguard] at hlt
    rcases Nat.eq_or_lt_of_le hle with rfl | hle
    · exact hentry
    · exact hrest k hle (by omega)
  | bar rest ih =>
    have hopens := opens_of_leads hsound.1
    refine ih hsound.2 hclosed ?_ fun h => ?_
    · rw [entry_of_opens hopens]
      exact hfallback rfl
    · exact absurd hopens (Bool.eq_false_iff.1 h)
  | group inner rest ihInner ihRest =>
    obtain ⟨hleads, hinner, hrest⟩ := hsound
    rw [states_group, closedUnderLinks_cons, closedUnderLinks_append] at hclosed
    obtain ⟨hstate, hclosedInner, hclosedRest⟩ := hclosed
    obtain ⟨hbody, -⟩ := ihInner hinner hclosedInner (hstate hentry _ .onMatch) fun h =>
      absurd (opens_of_leads hleads) (Bool.eq_false_iff.1 h)
    obtain ⟨hafter, hends⟩ :=
      ihRest hrest hclosedRest (hstate hentry _ (.close rfl)) fun _ => hstate hentry _ .onFail
    refine ⟨fun k hle hlt => ?_, hends⟩
    simp only [size] at hlt
    rcases Nat.eq_or_lt_of_le hle with rfl | hle
    · exact hentry
    · rcases Nat.lt_or_ge k (n + 1 + inner.size) with hk | hk
      · exact hbody k hle hk
      · exact hafter k hk (by omega)

end Outline

/-! ## Patterns -/

/-- What an automaton reaches is closed under the links of its states. -/
theorem Automaton.closed_reaches_ofStates (o : Outline) (c : Setting) (groupCount : Nat) (neverMatches : Bool) :
    ClosedUnderLinks (ofStates (o.states c 0) groupCount neverMatches).Reaches (o.states c 0) := by
  intro s hs hreaches next hnext
  obtain ⟨k, hk⟩ := List.mem_iff_getElem?.1 hs
  have hlt : k < ((o.states c 0).map State.connected).length := by
    rw [List.length_map]
    exact (List.getElem?_eq_some_iff.1 hk).1
  have hstate : (ofStates (o.states c 0) groupCount neverMatches).states[k]? = some s.connected := by
    rw [ofStates, List.getElem?_append_left hlt, List.getElem?_map, hk]
    rfl
  rw [Outline.id_of_getElem?_states hk, Nat.zero_add] at hreaches
  refine .link hreaches hstate ?_
  cases hnext with
  | onMatch => exact .onMatch (s := s.connected)
  | onFail => exact .onFail (s := s.connected)
  | close hopens => exact .close (s := s.connected) hopens

section

variable {encoding : Encoding} {pattern : List Char} {options : Options} {a : Automaton}

/-- **No state of a compiled pattern is dead**: every state up to the accepting one can be
reached from the first, and so can the rejecting one if there are others than the two
that are final. -/
theorem reaches_of_compile (h : compile encoding pattern options = .ok a) :
    (∀ k ≤ a.accept, a.Reaches k) ∧ (0 < a.accept → a.Reaches a.reject) := by
  obtain ⟨p, -, (hchecks : p.Checks), rfl⟩ := compile_eq_ok_iff.1 h
  have haccept : (p.automaton pattern.length options).accept = (p.outline.rewritten options).size := by
    rw [Phrase.automaton, Automaton.accept_ofStates, Outline.length_states]
  have hreject : (p.automaton pattern.length options).reject = (p.outline.rewritten options).size + 1 := by
    simp [Phrase.automaton, Automaton.reject, Automaton.size, Automaton.ofStates]
  rw [hreject, haccept]
  by_cases hne : p.roles = []
  · obtain rfl : p = .nil := by cases p <;> simp_all
    refine ⟨fun k hk => ?_, fun hlt => ?_⟩
    · rw [Phrase.outline, Outline.rewritten_nil] at hk
      obtain rfl := Nat.le_zero.1 hk
      exact .start
    · rw [Phrase.outline, Outline.rewritten_nil] at hlt
      cases hlt
  · have hopens : (p.outline.rewritten options).opens = true :=
      Outline.opens_of_leads (Outline.leads_rewritten (hchecks.leads_outline hne))
    have hsound := Outline.sound_rewritten options (Phrase.sound_outline_of_check hchecks)
    obtain ⟨hall, hfollow, hfail⟩ := Outline.reached_of_closed hsound
      (Automaton.closed_reaches_ofStates _ (.top (p.outline.rewritten options).size) _ _)
      (by rw [Outline.entry_of_opens hopens]; exact .start) fun h => absurd hopens (Bool.eq_false_iff.1 h)
    refine ⟨fun k hk => ?_, fun _ => hfail⟩
    rcases Nat.eq_or_lt_of_le hk with rfl | hlt
    · exact hfollow
    · exact hall k (Nat.zero_le k) (by omega)

/-- A group in a group, a run of literals and branches both in the groups and around
them. -/
theorem reaches_of_compile_nested :
    ∃ a, compile .unicode ['(', '(', 'b', ')', '*', 'a', 'c', '|', 'x', ')', '+', 'd', '|', 'e', 'f'] {} = .ok a ∧
      a.accept = 7 ∧ (∀ k ≤ 7, a.Reaches k) ∧ a.Reaches a.reject := by
  refine ⟨_, rfl, by rfl, ?_⟩
  obtain ⟨hall, hreject⟩ := @reaches_of_compile .unicode
    ['(', '(', 'b', ')', '*', 'a', 'c', '|', 'x', ')', '+', 'd', '|', 'e', 'f'] {} _ rfl
  exact ⟨hall, hreject (by decide)⟩

end

end RegexAutomaton
