/-
A pattern in parentheses.

The automaton of a pattern in parentheses is a state for the group and then the
states of the pattern, with the next numbers (`compile_group`). Those that were in
no group are now in the new one, and return to its state where they led to the end
of the pattern (`State.enclosed`).
-/
import RegexAutomaton.Proofs.Composition
import RegexAutomaton.Proofs.States

namespace RegexAutomaton

namespace State

/-- The state of a group around a whole pattern, for an automaton that accepts in
the state `accept`. -/
def groupAround (accept : Nat) : State :=
  (closed 0 1 (accept + 1) (accept + 1) accept .once { Flags.empty with opensGroup := true } .group).connected

/-- The state of a pattern that accepted in the state `accept`, with a group around
the pattern. -/
def enclosed (accept : Nat) (s : State) : State :=
  let moved := s.relink (.shift 1)
  if s.flags.member then moved
  else
    connected { moved with
      group := 0
      flags := { s.flags with
        member := true
        endsGroup := s.flags.endsGroup || s.continuation == accept } }

/-- Ways out that a state already has play no part in those that its flags give it. -/
theorem connected_of_exits (s : State) (primary failed lookahead : Transition) :
    connected { s with primary, failed, lookahead } = s.connected := by
  have htarget (exit : Exit) : target { s with primary, failed, lookahead } exit = s.target exit := by
    cases exit <;> rfl
  simp only [connected, htarget]

theorem enclosed_of_member {accept : Nat} {s : State} (h : s.flags.member = true) :
    s.enclosed accept = s.relink (.shift 1) := if_pos h

theorem enclosed_connected {accept : Nat} {s : State} (h : s.flags.member = false) :
    s.connected.enclosed accept =
      connected { s.relink (.shift 1) with
        group := 0
        flags := { s.flags with member := true, endsGroup := s.flags.endsGroup || s.continuation == accept } } := by
  have hmember : ¬ s.connected.flags.member = true := by
    show ¬ s.flags.member = true
    simp [h]
  rw [enclosed, if_neg hmember]
  exact connected_of_exits { s.relink (.shift 1) with
    group := 0
    flags := { s.flags with member := true, endsGroup := s.flags.endsGroup || s.continuation == accept } } ..

end State

/-- The setting of a pattern in parentheses that accepted in the state `accept`. -/
def Setting.grouped (accept : Nat) : Setting :=
  { follow := accept + 1, fail := accept + 2, group := 0, member := true, accept := accept + 1 }

/-! ## Phrases -/

namespace Phrase

variable {p : Phrase} {encoding : Encoding} {pattern : List Char}

/-- The phrase of a pattern of the given length, in parentheses. -/
def grouped (p : Phrase) (length : Nat) : Phrase := group 0 (p.shift 1) (length + 1) nil

theorem values_grouped (p : Phrase) (length : Nat) :
    (p.grouped length).values = .groupOpen :: (p.values ++ [.groupClose]) := by
  simp [grouped]

theorem outline_grouped (p : Phrase) (length : Nat) : (p.grouped length).outline = .group p.outline .nil := by
  simp [grouped, outline, outline_shift]

/-- A group tells the pattern around it whether it is dead, and there is nothing else
in the pattern. -/
theorem dead_grouped (p : Phrase) (length : Nat) : (p.grouped length).dead = p.dead := by
  have hinner : (p.shift 1).dead = p.dead := by rw [dead, after_shift, dead]
  rw [dead, grouped, after_group, hinner]
  cases p.dead <;> rfl

theorem reads_grouped (h : (Token.read encoding).Reads 0 pattern p.tokens) :
    (Token.read encoding).Reads 0 ('(' :: (pattern ++ [')'])) (p.grouped pattern.length).tokens := by
  have hopen : Token.read encoding 0 '(' (pattern ++ [')']) = .ok (.groupOpen, 1) :=
    Token.read_eq_ok_iff.2 (.groupOpen rfl)
  have hclose : Token.read encoding (0 + 1 + pattern.length) ')' [] = .ok (.groupClose, 1) :=
    Token.read_eq_ok_iff.2 (.groupClose rfl)
  have htail := Token.reads_append h 1 (.cons hclose (.nil _))
  have hplace : 0 + 1 + pattern.length = pattern.length + 1 := by omega
  rw [hplace] at htail
  simp only [grouped, tokens, tokens_shift]
  exact .cons hopen htail

/-- A phrase that is well formed, and not empty, is so in parentheses. -/
theorem Checks.grouped (h : p.Checks) (hne : p.roles ≠ []) (length : Nat) : (p.grouped length).Checks := by
  have hfirst {t : Token} (h : Role.start.Admits t.role) (hclose : t.role ≠ .groupClose) :
      Role.groupOpen.Admits t.role := by
    cases t <;> first | rfl | exact absurd rfl hclose | cases h
  have hlast {t : Token} (h : t.role.Admits .finish) (hopen : t.role ≠ .groupOpen) :
      t.role.Admits .groupClose := by
    cases t <;> first | rfl | exact absurd rfl hopen | cases h
  have hroles : (p.grouped length).roles = .groupOpen :: (p.roles ++ [.groupClose]) := by
    rw [roles, values_grouped, List.map_cons, List.map_append]
    rfl
  rw [checks_iff] at h
  obtain ⟨hchain, hstart, hfinish⟩ := h
  rw [checks_iff, hroles, List.isChain_cons, List.isChain_append, List.head?_append_of_ne_nil _ hne]
  refine ⟨⟨fun r hr => ?_, hchain, List.isChain_singleton _, fun r hr r' hr' => ?_⟩, ?_, ?_⟩
  · obtain ⟨t, -, rfl⟩ := List.mem_map.1 (List.mem_of_head? hr)
    exact hfirst (hstart _ hr) (head?_roles hr)
  · obtain rfl : Role.groupClose = r' := Option.some.inj hr'
    obtain ⟨t, -, rfl⟩ := List.mem_map.1 (List.mem_of_getLast? hr)
    exact hlast (hfinish _ hr) (getLast?_roles hr)
  · rintro r hr
    obtain rfl : Role.groupOpen = r := Option.some.inj hr
    rfl
  · rintro r hr
    rw [List.getLast?_cons, List.getLast?_append] at hr
    obtain rfl : Role.groupClose = r := Option.some.inj hr
    rfl

/-- A phrase that is well formed, and not empty, starts with what bears a state. -/
theorem Checks.leads_outline (h : p.Checks) (hne : p.roles ≠ []) : p.outline.leads = true := by
  have hinner := h.grouped hne 0
  rw [Checks, roles, values_grouped, List.map_cons, List.map_append, List.cons_append, List.append_assoc,
    List.isChain_cons_cons] at hinner
  exact Phrase.leads_outline hinner.2 (.inr rfl) (by decide)

end Phrase

/-! ## Outlines -/

namespace Outline

variable {o rest : Outline} {options : Options} {accept n : Nat}

theorem opens_of_leads (h : o.leads = true) : o.opens = true := by
  cases o with
  | nil => cases h
  | bar rest => cases h
  | leaf kind hleaf rest =>
    have hbears : kind.bearsState = true := h
    simp [opens, hbears]
  | group inner rest => rfl

theorem leads_rewritten (h : o.leads = true) : (o.rewritten options).leads = true := by
  have hcollapsed : (o.collapsed options).leads = true := by
    unfold collapsed
    split
    · exact leads_collapseBody h
    · exact h
  unfold rewritten
  split
  · exact leads_coalesce hcollapsed
  · exact hcollapsed

theorem rewritten_nil (options : Options) : nil.rewritten options = nil := by
  unfold rewritten collapsed
  split <;> split <;> rfl

/-- The body of a group is rewritten as a whole pattern is. -/
theorem rewritten_group (options : Options) (o : Outline) :
    (group o nil).rewritten options = group (o.rewritten options) nil := by
  have hcollapsed : (group o nil).collapsed options = group (o.collapsed options) nil := by
    unfold collapsed
    split <;> rfl
  unfold rewritten
  rw [hcollapsed]
  split <;> rfl

/-! ## States -/

theorem member_of_mem_states {c : Setting} {s : State} (hmember : c.member = true) (hs : s ∈ o.states c n) :
    s.flags.member = true := by
  induction o using states_induction generalizing c n with
  | nil => cases hs
  | idle kind hleaf rest hguard ih =>
    rw [states_idle hguard] at hs
    exact ih hmember hs
  | bears kind hleaf rest guard hguard ih =>
    rw [states_leaf hguard] at hs
    rcases List.mem_cons.1 hs with rfl | hs
    · exact hmember
    · exact ih hmember hs
  | bar rest ih => exact ih hmember hs
  | group inner rest ihInner ihRest =>
    rw [states_group] at hs
    rcases List.mem_cons.1 hs with rfl | hs
    · exact hmember
    · rcases List.mem_append.1 hs with hs | hs
      · exact ihInner rfl hs
      · exact ihRest hmember hs

/-- A state of a pattern in no group, with a group around the pattern. -/
theorem stateBefore_enclosed {next next' after after' close close' : Nat} {opensGroup : Bool} {guard : Guard}
    (hnext : next + 1 = next') (hclose : close + 1 = close')
    (hfail : rest.fallback (.top accept) after + 1 = rest.fallback (.grouped accept) after')
    (hends : ((if opensGroup then close else next) == accept) = !rest.opens) :
    (rest.stateBefore (.top accept) n next after close opensGroup guard).connected.enclosed accept =
      (rest.stateBefore (.grouped accept) (n + 1) next' after' close' opensGroup guard).connected := by
  subst hnext hclose
  rw [State.enclosed_connected rfl]
  simp only [stateBefore, State.closed, State.relink, Relinking.shift, State.continuation, Setting.top,
    Setting.grouped, Transition.map, hends, Bool.false_and, Bool.false_or, Bool.true_and] at hfail ⊢
  rw [hfail]

/-- A branch of a whole pattern goes on with one of its own states or is the end. -/
theorem entry_top_beq (h : n + rest.size ≤ accept) : (rest.entry (.top accept) n == accept) = !rest.opens := by
  unfold entry
  cases hopens : rest.opens with
  | true =>
    have hpos := size_pos_of_opens hopens
    simp
    omega
  | false => simp [Setting.top]

theorem map_enclosed_states (hsound : o.Sound) (h : n + o.size ≤ accept) :
    ((o.states (.top accept) n).map State.connected).map (State.enclosed accept) =
      (o.states (.grouped accept) (n + 1)).map State.connected := by
  have hnumbers (n size : Nat) : Renumbers (· + 1) n (n + 1) size := fun k _ => Nat.add_right_comm n k 1
  have hentry {rest : Outline} (n : Nat) : rest.entry (.top accept) n + 1 = rest.entry (.grouped accept) (n + 1) :=
    entry_renumbers (hnumbers n rest.size) rfl
  have hfallback {rest : Outline} (hsound : rest.Sound) (n : Nat) :
      rest.fallback (.top accept) n + 1 = rest.fallback (.grouped accept) (n + 1) :=
    fallback_renumbers hsound (hnumbers n rest.size) rfl
  induction o using states_induction generalizing n with
  | nil => rfl
  | idle kind hleaf rest hguard ih =>
    rw [size_idle hguard] at h
    rw [states_idle hguard, states_idle hguard, ih hsound.2 h]
  | bears kind hleaf rest guard hguard ih =>
    rw [size_leaf hguard] at h
    have hrest : n + 1 + rest.size ≤ accept := by omega
    rw [states_leaf hguard, states_leaf hguard]
    simp only [List.map_cons, ih hsound.2 hrest]
    refine congrArg (· :: _) ?_
    exact stateBefore_enclosed (hentry _) rfl (hfallback hsound.2 _) (entry_top_beq hrest)
  | bar rest ih => exact ih hsound.2 h
  | group inner rest _ ih =>
    obtain ⟨-, hinner, hrest⟩ := hsound
    have hlast : n + 1 + inner.size + rest.size ≤ accept := by
      simp only [size] at h
      omega
    have hplace : n + 1 + 1 + inner.size = n + 1 + inner.size + 1 := by omega
    have hwithin : (Relinking.shift 1).Carries (rest.inside (.top accept) n (n + 1 + inner.size))
        (rest.inside (.grouped accept) (n + 1) (n + 1 + 1 + inner.size)) (n + 1) (n + 1 + 1) inner.size := by
      rw [hplace]
      exact
        { numbers := fun f hf => by
            simp only [Relinking.shift, List.mem_cons, List.not_mem_nil, or_false, or_self] at hf
            rw [hf]
            exact hnumbers _ _
          follow := hentry _
          close := hentry _
          fail := hfallback hrest _
          group := rfl
          member := rfl
          parent := fun _ => rfl
          accept := rfl }
    -- What is in a group already is only moved.
    have hmoved : ((inner.states (rest.inside (.top accept) n (n + 1 + inner.size)) (n + 1)).map State.connected).map
          (State.enclosed accept) =
        ((inner.states (rest.inside (.top accept) n (n + 1 + inner.size)) (n + 1)).map State.connected).map
          (State.relink (.shift 1)) := by
      refine List.map_congr_left fun s hs => State.enclosed_of_member ?_
      obtain ⟨s', hs', rfl⟩ := List.mem_map.1 hs
      have hmember : s'.flags.member = true := member_of_mem_states rfl hs'
      exact hmember
    rw [states_group, states_group]
    simp only [List.map_cons, List.map_append, hmoved, map_relink_states hinner hwithin, ih hrest hlast, hplace]
    have hfirst : inner.entry (rest.inside (.top accept) n (n + 1 + inner.size)) (n + 1) + 1 =
        inner.entry (rest.inside (.grouped accept) (n + 1) (n + 1 + inner.size + 1)) (n + 1 + 1) :=
      entry_renumbers (hnumbers _ _) (hentry _)
    refine congrArg (· :: _) ?_
    exact stateBefore_enclosed hfirst (hentry _) (hfallback hrest _) (entry_top_beq hlast)

/-- **The automaton of an outline in a group.** -/
theorem ofStates_grouped (hsound : o.Sound) (hleads : o.leads = true) (groupCount : Nat) (neverMatches : Bool) :
    Automaton.ofStates ((group o nil).states (.top (group o nil).size) 0) groupCount neverMatches =
      { states := State.groupAround (o.size + 1) ::
          ((o.states (.top o.size) 0).map State.connected).map (State.enclosed o.size) ++ Automaton.sinks (o.size + 1)
        groupCount, neverMatches } := by
  have hsize : (group o nil).size = o.size + 1 := by
    simp only [size]
    omega
  have hinside : nil.inside (.top (o.size + 1)) 0 (0 + 1 + o.size) = .grouped o.size := rfl
  have hentry : o.entry (.grouped o.size) (0 + 1) = 1 := entry_of_opens (opens_of_leads hleads)
  have hstates : (group o nil).states (.top (o.size + 1)) 0 =
      .closed 0 1 (o.size + 2) (o.size + 2) (o.size + 1) .once { Flags.empty with opensGroup := true } .group ::
        o.states (.grouped o.size) (0 + 1) := by
    rw [states_group, hinside, hentry]
    simp [states]
    rfl
  rw [Automaton.ofStates, length_states, hsize, hstates, List.map_cons,
    map_enclosed_states hsound (Nat.le_of_eq (Nat.zero_add _))]
  rfl

end Outline

/-! ## Patterns -/

section

variable {encoding : Encoding} {p : List Char} {options : Options} {a : Automaton}

/-- **The automaton of a pattern in parentheses.** -/
theorem compile_group (hp : p ≠ []) (ha : compile encoding p options = .ok a) :
    compile encoding ('(' :: (p ++ [')'])) options = .ok
      { states := State.groupAround (a.accept + 1) :: a.inner.map (State.enclosed a.accept) ++
          Automaton.sinks (a.accept + 1)
        groupCount := a.groupCount + 1
        neverMatches := a.neverMatches } := by
  obtain ⟨P, hP, (hchecks : P.Checks), rfl⟩ := compile_eq_ok_iff.1 ha
  have hne := Phrase.roles_ne_nil_of_reads hP hp
  refine compile_eq_ok_iff.2 ⟨P.grouped p.length, Phrase.reads_grouped hP, hchecks.grouped hne p.length, ?_⟩
  have hsound := Outline.sound_rewritten options (Phrase.sound_outline_of_check hchecks)
  have hleads : (P.outline.rewritten options).leads = true := Outline.leads_rewritten (hchecks.leads_outline hne)
  have hcount : (P.grouped p.length).values.count .groupOpen = P.values.count .groupOpen + 1 := by
    simp [Phrase.values_grouped, List.count_append]
  simp only [Phrase.automaton_eq, Phrase.outline_grouped, Outline.rewritten_group, Phrase.dead_grouped, hcount,
    Automaton.inner_ofStates, Automaton.accept_ofStates, Outline.length_states]
  exact (Outline.ofStates_grouped hsound hleads _ _).symm

theorem compile_group_of_alternation :
    ['a', 'b', '|', '(', 'c', ')', '*'] ≠ [] ∧ ∃ a,
      compile .unicode ['a', 'b', '|', '(', 'c', ')', '*'] {} = .ok a ∧
      compile .unicode ['(', 'a', 'b', '|', '(', 'c', ')', '*', ')'] {} = .ok
        { states := State.groupAround (a.accept + 1) :: a.inner.map (State.enclosed a.accept) ++
            Automaton.sinks (a.accept + 1)
          groupCount := a.groupCount + 1
          neverMatches := a.neverMatches } := by
  refine ⟨by simp, _, rfl, ?_⟩
  exact @compile_group .unicode ['a', 'b', '|', '(', 'c', ')', '*'] {} _ (by simp) rfl

end

end RegexAutomaton
