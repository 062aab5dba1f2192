/-
Groups are encapsulated.

The states in a group are those whose ids come right after that of its entry.
Among them matching goes on, falls back and closes groups only as far as the
group itself does, and from elsewhere no way leads into their midst
(`encapsulates_of_opensGroup`). Over an outline this is an induction in which
each group has a last state (`exists_last`).
-/
import Mathlib.Tactic.Tauto
import RegexAutomaton.Proofs.OutlineAutomaton

namespace RegexAutomaton

/-! ## Where the links of an outline lead -/

namespace Outline

variable {o inner rest : Outline} {c : Setting} {n : Nat} {s : State}

theorem entry_bounds (o : Outline) (c : Setting) (n : Nat) :
    o.entry c n = c.follow ∨ o.entry c n = n ∧ 0 < o.size := by
  unfold entry
  split
  · next hopens => exact .inr ⟨rfl, size_pos_of_opens hopens⟩
  · exact .inl rfl

theorem fallback_bounds (hsound : o.Sound) (c : Setting) (n : Nat) :
    o.fallback c n = c.fail ∨ n ≤ o.fallback c n ∧ o.fallback c n < n + o.size := by
  induction o generalizing n with
  | nil => exact .inl rfl
  | leaf kind hleaf rest ih =>
    have := ih hsound.2 (n + if kind.bearsState then 1 else 0)
    simp only [fallback, size]
    omega
  | bar rest _ =>
    have := size_pos_of_leads hsound.1
    simp only [fallback, size]
    omega
  | group inner rest _ ih =>
    have := ih hsound.2.2 (n + 1 + inner.size)
    simp only [fallback, size]
    omega

/-- Where the links of a state lead that is one of `size`, the first of which
has the number `n`: to one of these, or as the setting says. -/
structure Bounds (c : Setting) (n size : Nat) (s : State) : Prop where
  id : n ≤ s.id ∧ s.id < n + size
  onMatch : s.onMatch = c.follow ∨ n ≤ s.onMatch ∧ s.onMatch < n + size
  onFail : s.onFail = c.fail ∨ n ≤ s.onFail ∧ s.onFail < n + size
  close : if s.flags.opensGroup then s.close = c.follow ∨ n ≤ s.close ∧ s.close < n + size
    else s.close = c.accept
  group : s.group = c.group ∨ n ≤ s.group ∧ s.group < s.id

/-- The bounds are the wider the more states there are. -/
theorem Bounds.mono {n' size size' : Nat} (h : Bounds c n size s) (hfirst : n' ≤ n)
    (hlast : n + size ≤ n' + size') : Bounds c n' size' s := by
  obtain ⟨hid, hmatch, hfail, hclose, hgroup⟩ := h
  refine ⟨by omega, by omega, by omega, ?_, by omega⟩
  split at hclose
  · next hopens =>
    rw [if_pos hopens]
    omega
  · next hopens => rwa [if_neg hopens]

/-- **The links of a state lead to states of its outline, or as the setting
says.** -/
theorem bounds (hsound : o.Sound) (hs : s ∈ o.states c n) : Bounds c n o.size s := by
  induction o using states_induction generalizing c n with
  | nil => cases hs
  | idle kind hleaf rest hguard ih =>
    rw [states_idle hguard] at hs
    exact (ih hsound.2 hs).mono (Nat.le_refl n) (by simp only [size]; omega)
  | bears kind hleaf rest guard hguard ih =>
    have hsize : (leaf kind hleaf rest).size = 1 + rest.size := size_leaf hguard
    have hentry := rest.entry_bounds c (n + 1)
    have hfallback := fallback_bounds hsound.2 c (n + 1)
    rw [states_leaf hguard, List.mem_cons] at hs
    rcases hs with rfl | hs
    · rw [hsize]
      exact ⟨⟨Nat.le_refl n, by simp only [stateBefore, State.closed]; omega⟩,
        by simp only [stateBefore, State.closed]; omega,
        by simp only [stateBefore, State.closed]; omega, rfl, .inl rfl⟩
    · exact (ih hsound.2 hs).mono (by omega) (by omega)
  | bar rest ih => exact ih hsound.2 hs
  | group inner rest ihInner ihRest =>
    obtain ⟨hleads, hinner, hrest⟩ := hsound
    have hsize : (group inner rest).size = 1 + inner.size + rest.size := rfl
    have hpos := size_pos_of_leads hleads
    have hclose := rest.entry_bounds c (n + 1 + inner.size)
    have hentry := inner.entry_bounds (rest.inside c n (n + 1 + inner.size)) (n + 1)
    have hfallback := fallback_bounds hrest c (n + 1 + inner.size)
    rw [states_group, List.mem_cons, List.mem_append] at hs
    rcases hs with rfl | hs | hs
    · simp only [inside] at hentry
      refine ⟨⟨Nat.le_refl n, ?_⟩, ?_, ?_, ?_, .inl rfl⟩ <;>
        simp only [stateBefore, State.closed, inside, if_true] <;> omega
    · obtain ⟨hid, hmatch, hfail, hgroupClose, hgroup⟩ := ihInner hinner hs
      simp only [inside] at hmatch hfail hgroupClose hgroup
      refine ⟨by omega, by omega, by omega, ?_, by omega⟩
      split at hgroupClose
      · next hopens =>
        rw [if_pos hopens]
        omega
      · next hopens => rwa [if_neg hopens]
    · exact (ihRest hrest hs).mono (by omega) (by omega)

/-! ## The last state of a group -/

/-- Nothing around lies among `size` states, the first of which has the number
`n`. -/
structure Apart (c : Setting) (n size : Nat) : Prop where
  follow : c.follow < n ∨ n + size ≤ c.follow
  fail : c.fail < n ∨ n + size ≤ c.fail
  group : c.group < n ∨ n + size ≤ c.group
  accept : c.accept < n ∨ n + size ≤ c.accept

theorem Apart.mono {n' size size' : Nat} (h : Apart c n size) (hfirst : n ≤ n')
    (hlast : n' + size' ≤ n + size) : Apart c n' size' := by
  obtain ⟨hfollow, hfail, hgroup, haccept⟩ := h
  exact ⟨by omega, by omega, by omega, by omega⟩

theorem Apart.inside (h : Apart c n (1 + inner.size + rest.size)) (hsound : rest.Sound) :
    Apart (rest.inside c n (n + 1 + inner.size)) (n + 1) inner.size := by
  obtain ⟨hfollow, hfail, -, haccept⟩ := h
  have hclose := rest.entry_bounds c (n + 1 + inner.size)
  have hfallback := fallback_bounds hsound c (n + 1 + inner.size)
  refine ⟨?_, ?_, .inl (Nat.lt_succ_self n), ?_⟩ <;> simp only [Outline.inside] <;> omega

/-- A number is that of a state of the group `g`, whose last state has the
number `last`. -/
def InBody (g : State) (last k : Nat) : Prop := g.id < k ∧ k ≤ last

/-- A state keeps to the rules of a group. -/
structure Keeps (g : State) (last : Nat) (s : State) : Prop where
  onMatch : InBody g last s.id → InBody g last s.onMatch ∨ s.onMatch = g.close
  onFail : InBody g last s.id → InBody g last s.onFail ∨ s.onFail = g.onFail
  close : InBody g last s.id → s.flags.opensGroup = true → InBody g last s.close ∨ s.close = g.close
  group : InBody g last s.id → g.id ≤ s.group ∧ s.group < s.id
  /-- From outside no link leads into the group. -/
  away : ¬ InBody g last s.id → s.id ≠ g.id →
    ¬ InBody g last s.onMatch ∧ ¬ InBody g last s.onFail ∧ ¬ InBody g last s.close
  around : ¬ InBody g last s.id → s.group ≠ g.id ∧ ¬ InBody g last s.group

variable {g : State} {last size : Nat}

theorem Keeps.of_away (hid : ¬ InBody g last s.id) (hmatch : ¬ InBody g last s.onMatch)
    (hfail : ¬ InBody g last s.onFail) (hclose : ¬ InBody g last s.close)
    (hgroup : s.group ≠ g.id ∧ ¬ InBody g last s.group) : Keeps g last s where
  onMatch := fun h => absurd h hid
  onFail := fun h => absurd h hid
  close := fun h => absurd h hid
  group := fun h => absurd h hid
  away := fun _ _ => ⟨hmatch, hfail, hclose⟩
  around := fun _ => hgroup

/-- Nothing around is in a group. -/
structure Clear (c : Setting) (g : State) (last : Nat) : Prop where
  follow : ¬ InBody g last c.follow
  fail : ¬ InBody g last c.fail
  group : c.group ≠ g.id ∧ ¬ InBody g last c.group
  accept : ¬ InBody g last c.accept

theorem Apart.clear (h : Apart c n size) (hfirst : n ≤ g.id) (hlast : last < n + size)
    (hg : g.id < n + size) : Clear c g last := by
  obtain ⟨hfollow, hfail, hgroup, haccept⟩ := h
  refine ⟨?_, ?_, ?_, ?_⟩ <;> simp only [InBody] <;> omega

/-- The state lies beside the group, with all that is around it. -/
theorem Bounds.keeps (h : Bounds c n size s) (hclear : Clear c g last)
    (hside : ∀ k, n ≤ k → k < n + size → k ≠ g.id ∧ ¬ InBody g last k) : Keeps g last s := by
  obtain ⟨hid, hmatch, hfail, hclose, hgroup⟩ := h
  have hout (k : Nat) (hk : n ≤ k ∧ k < n + size) : ¬ InBody g last k := (hside k hk.1 hk.2).2
  refine .of_away (hout s.id hid) ?_ ?_ ?_ ?_
  · rcases hmatch with heq | hmatch
    · rw [heq]
      exact hclear.follow
    · exact hout _ hmatch
  · rcases hfail with heq | hfail
    · rw [heq]
      exact hclear.fail
    · exact hout _ hfail
  · split at hclose
    · rcases hclose with heq | hclose
      · rw [heq]
        exact hclear.follow
      · exact hout _ hclose
    · rw [hclose]
      exact hclear.accept
  · rcases hgroup with heq | hgroup
    · rw [heq]
      exact hclear.group
    · exact hside _ hgroup.1 (by omega)

/-- The state lies in the group. -/
theorem Bounds.keeps_of_inside (h : Bounds c n size s) (hfollow : c.follow = g.close) (hfail : c.fail = g.onFail)
    (hgroup : c.group = g.id) (hbody : ∀ k, InBody g last k ↔ n ≤ k ∧ k < n + size) : Keeps g last s := by
  have hin : InBody g last s.id := (hbody s.id).2 h.id
  obtain ⟨hid, hmatch, hfail', hclose, hgroup'⟩ := h
  refine ⟨fun _ => ?_, fun _ => ?_, fun _ hopens => ?_, fun _ => ?_, fun hout => absurd hin hout,
    fun hout => absurd hin hout⟩
  · rcases hmatch with heq | hmatch
    · exact .inr (heq.trans hfollow)
    · exact .inl ((hbody _).2 hmatch)
  · rcases hfail' with heq | hfail'
    · exact .inr (heq.trans hfail)
    · exact .inl ((hbody _).2 hfail')
  · rw [if_pos hopens] at hclose
    rcases hclose with heq | hclose
    · exact .inr (heq.trans hfollow)
    · exact .inl ((hbody _).2 hclose)
  · rcases hgroup' with heq | hgroup'
    · rw [heq, hgroup]
      exact ⟨Nat.le_refl _, hin.1⟩
    · exact ⟨Nat.le_of_lt ((hbody _).2 ⟨hgroup'.1, by omega⟩).1, hgroup'.2⟩

/-- The group with the entry `g` lies in an outline and has the last state `last`:
all states keep to the rules of the group, and the outline is not entered in its
midst. -/
structure Encloses (o : Outline) (c : Setting) (n : Nat) (g : State) (last : Nat) : Prop where
  first : n ≤ g.id
  nonempty : g.id < last
  within : last < n + o.size
  keeps : ∀ s ∈ o.states c n, Keeps g last s
  entryOut : ¬ InBody g last (o.entry c n)
  fallbackOut : ¬ InBody g last (o.fallback c n)

theorem Encloses.clear {c' : Setting} {n' : Nat} (h : Encloses o c n g last) (hapart : Apart c' n' size)
    (hfirst : n' ≤ n) (hlast : n + o.size ≤ n' + size) : Clear c' g last := by
  obtain ⟨hg, hne, hwithin, -, -, -⟩ := h
  exact hapart.clear (by omega) (by omega) (by omega)

theorem Encloses.of_idle {kind : NodeKind} {hleaf : kind.isStructural = false} (hguard : Guard.ofKind? kind = none)
    (h : Encloses rest c n g last) : Encloses (leaf kind hleaf rest) c n g last := by
  have hbears := bearsState_of_idle hguard
  have hentry : (leaf kind hleaf rest).entry c n = rest.entry c n := by simp [entry, opens, hbears]
  have hfallback : (leaf kind hleaf rest).fallback c n = rest.fallback c n := by simp [fallback, hbears]
  obtain ⟨hfirst, hne, hlast, hkeeps, hentryOut, hfallbackOut⟩ := h
  refine ⟨hfirst, hne, ?_, ?_, ?_, ?_⟩
  · rwa [size_idle hguard]
  · rwa [states_idle hguard]
  · rwa [hentry]
  · rwa [hfallback]

theorem Encloses.of_leaf {kind : NodeKind} {hleaf : kind.isStructural = false} {guard : Guard}
    (hguard : Guard.ofKind? kind = some guard) (hapart : Apart c n (leaf kind hleaf rest).size)
    (h : Encloses rest c (n + 1) g last) : Encloses (leaf kind hleaf rest) c n g last := by
  have hbears := bearsState_of_guard hguard
  have hsize : (leaf kind hleaf rest).size = 1 + rest.size := size_leaf hguard
  have hentry : (leaf kind hleaf rest).entry c n = n := by simp [entry, opens, hbears]
  have hfallback : (leaf kind hleaf rest).fallback c n = rest.fallback c (n + 1) := by simp [fallback, hbears]
  have hclear : Clear c g last := h.clear hapart (by omega) (by omega)
  obtain ⟨hfirst, hne, hlast, hkeeps, hentryOut, hfallbackOut⟩ := h
  have hout : ¬ InBody g last n := by
    simp only [InBody]
    omega
  refine ⟨by omega, hne, by omega, ?_, ?_, ?_⟩
  · rw [states_leaf hguard, List.forall_mem_cons]
    exact ⟨.of_away hout hentryOut hfallbackOut hclear.accept hclear.group, hkeeps⟩
  · rwa [hentry]
  · rwa [hfallback]

theorem Encloses.of_bar (hapart : Apart c n (bar rest).size) (h : Encloses rest c n g last) :
    Encloses (bar rest) c n g last := by
  have hclear : Clear c g last := h.clear hapart (Nat.le_refl n) (Nat.le_refl _)
  obtain ⟨hfirst, hne, hlast, hkeeps, -, -⟩ := h
  refine ⟨hfirst, hne, hlast, hkeeps, hclear.follow, ?_⟩
  simp only [fallback, InBody]
  omega

/-- The group that comes first in an outline. -/
theorem encloses_group (hsound : (group inner rest).Sound) (hapart : Apart c n (group inner rest).size)
    (hg : g = rest.stateBefore c n (inner.entry (rest.inside c n (n + 1 + inner.size)) (n + 1))
      (n + 1 + inner.size) (rest.entry c (n + 1 + inner.size)) true .group) :
    Encloses (group inner rest) c n g (n + inner.size) := by
  obtain ⟨hleads, hinner, hrest⟩ := hsound
  have hsize : (group inner rest).size = 1 + inner.size + rest.size := rfl
  have hpos := size_pos_of_leads hleads
  have hid : g.id = n := by rw [hg]; rfl
  have hclose : g.close = (rest.inside c n (n + 1 + inner.size)).follow := by rw [hg]; rfl
  have hfail : g.onFail = (rest.inside c n (n + 1 + inner.size)).fail := by rw [hg]; rfl
  have hgroup : g.group = c.group := by rw [hg]; rfl
  have hbody (k : Nat) : InBody g (n + inner.size) k ↔ n + 1 ≤ k ∧ k < n + 1 + inner.size := by
    simp only [InBody, hid]
    omega
  have hself : ¬ InBody g (n + inner.size) n := by simp [InBody, hid]
  have hout : ¬ InBody g (n + inner.size) g.id := by rwa [hid]
  have hclear : Clear c g (n + inner.size) := hapart.clear (by omega) (by omega) (by omega)
  refine ⟨by omega, by omega, by omega, ?_, ?_, ?_⟩
  · rw [states_group, ← hg, List.forall_mem_cons, List.forall_mem_append]
    refine ⟨?_, fun s hs => ?_, fun s hs => ?_⟩
    · exact ⟨fun h => absurd h hout, fun h => absurd h hout, fun h => absurd h hout,
        fun h => absurd h hout, fun _ hne => absurd rfl hne, fun _ => hgroup ▸ hclear.group⟩
    · exact (bounds hinner hs).keeps_of_inside hclose.symm hfail.symm hid.symm hbody
    · refine (bounds hrest hs).keeps hclear fun k hk _ => ?_
      rw [hbody]
      omega
  · exact hself
  · have hfallback := fallback_bounds hrest c (n + 1 + inner.size)
    have hfail := hapart.fail
    rw [fallback, hbody]
    omega

/-- A group inside the one that comes first. -/
theorem Encloses.of_inner (hrest : rest.Sound) (hapart : Apart c n (group inner rest).size)
    (h : Encloses inner (rest.inside c n (n + 1 + inner.size)) (n + 1) g last) :
    Encloses (group inner rest) c n g last := by
  have hsize : (group inner rest).size = 1 + inner.size + rest.size := rfl
  have hclear : Clear c g last := h.clear hapart (by omega) (by omega)
  have hclear' : Clear (rest.inside c n (n + 1 + inner.size)) g last :=
    h.clear (hapart.inside hrest) (Nat.le_refl _) (Nat.le_refl _)
  obtain ⟨hfirst, hne, hlast, hkeeps, hentry, -⟩ := h
  have hout : ¬ InBody g last n := by
    simp only [InBody]
    omega
  refine ⟨by omega, hne, by omega, ?_, hout, hclear'.fail⟩
  rw [states_group, List.forall_mem_cons, List.forall_mem_append]
  refine ⟨?_, hkeeps, fun s hs => ?_⟩
  · exact .of_away hout hentry hclear'.fail hclear'.follow hclear.group
  · refine (bounds hrest hs).keeps hclear fun k hk _ => ?_
    simp only [InBody]
    omega

/-- A group behind the one that comes first. -/
theorem Encloses.of_rest (hinner : inner.Sound) (hapart : Apart c n (group inner rest).size)
    (h : Encloses rest c (n + 1 + inner.size) g last) : Encloses (group inner rest) c n g last := by
  have hsize : (group inner rest).size = 1 + inner.size + rest.size := rfl
  have hclear : Clear c g last := h.clear hapart (by omega) (by omega)
  obtain ⟨hfirst, hne, hlast, hkeeps, hclose, hfallback⟩ := h
  have hout (k : Nat) (hk : k < n + 1 + inner.size) : k ≠ g.id ∧ ¬ InBody g last k := by
    simp only [InBody]
    omega
  have hclear' : Clear (rest.inside c n (n + 1 + inner.size)) g last :=
    ⟨hclose, hfallback, hout n (by omega), hclear.accept⟩
  have hentry : ¬ InBody g last (inner.entry (rest.inside c n (n + 1 + inner.size)) (n + 1)) := by
    rcases inner.entry_bounds (rest.inside c n (n + 1 + inner.size)) (n + 1) with heq | ⟨heq, hpos⟩ <;>
      rw [heq]
    · exact hclose
    · exact (hout (n + 1) (by omega)).2
  have hself := (hout n (by omega)).2
  refine ⟨by omega, hne, by omega, ?_, hself, hfallback⟩
  rw [states_group, List.forall_mem_cons, List.forall_mem_append]
  refine ⟨?_, fun s hs => ?_, hkeeps⟩
  · exact .of_away hself hentry hfallback hclose hclear.group
  · exact (bounds hinner hs).keeps hclear' fun k _ hk => hout k hk

/-- **Every group of an outline has a last state.** -/
theorem exists_last (hsound : o.Sound) (hapart : Apart c n o.size) {g : State} (hg : g ∈ o.states c n)
    (hopens : g.flags.opensGroup = true) : ∃ last, Encloses o c n g last := by
  induction o using states_induction generalizing c n with
  | nil => cases hg
  | idle kind hleaf rest hguard ih =>
    rw [states_idle hguard] at hg
    rw [size_idle hguard] at hapart
    obtain ⟨last, hlast⟩ := ih hsound.2 hapart hg
    exact ⟨last, hlast.of_idle hguard⟩
  | bears kind hleaf rest guard hguard ih =>
    have hsize : (leaf kind hleaf rest).size = 1 + rest.size := size_leaf hguard
    rw [states_leaf hguard] at hg
    rcases List.mem_cons.1 hg with rfl | hg
    · cases hopens
    · obtain ⟨last, hlast⟩ := ih hsound.2 (hapart.mono (by omega) (by omega)) hg
      exact ⟨last, hlast.of_leaf hguard hapart⟩
  | bar rest ih =>
    obtain ⟨last, hlast⟩ := ih hsound.2 hapart hg
    exact ⟨last, hlast.of_bar hapart⟩
  | group inner rest ihInner ihRest =>
    obtain ⟨hleads, hinner, hrest⟩ := hsound
    have hsize : (group inner rest).size = 1 + inner.size + rest.size := rfl
    rw [states_group, List.mem_cons, List.mem_append] at hg
    -- The group is this one, or inside it, or behind it.
    rcases hg with hself | hg | hg
    · exact ⟨n + inner.size, encloses_group ⟨hleads, hinner, hrest⟩ hapart hself⟩
    · obtain ⟨last, hlast⟩ := ihInner hinner (hapart.inside hrest) hg
      exact ⟨last, hlast.of_inner hrest hapart⟩
    · obtain ⟨last, hlast⟩ := ihRest hrest (hapart.mono (by omega) (by omega)) hg
      exact ⟨last, hlast.of_rest hinner hapart⟩

end Outline

/-! ## Groups of an automaton -/

/-- A state has a link or a way out to the state with the id `k`, other than to
the group around it. -/
def State.LeadsTo (s : State) (k : Nat) : Prop :=
  s.onMatch = k ∨ s.onFail = k ∨ s.close = k ∨
    s.primary = .goto k ∨ s.failed = .goto k ∨ s.lookahead = .goto k

/-- A way out of a state leads where its links do, or to the state itself. -/
theorem State.goto_of_target {s : State} {exit : Exit} {k : Nat} (h : s.target exit = .goto k) :
    k = s.id ∨ k = s.onMatch ∨ k = s.group ∨ k = s.close := by
  cases exit <;> cases h <;> simp

theorem State.leadsTo_connected {s : State} {k : Nat} (h : s.connected.LeadsTo k) :
    k = s.id ∨ k = s.onMatch ∨ k = s.onFail ∨ k = s.group ∨ k = s.close := by
  rcases h with rfl | rfl | rfl | h | h | h
  · exact .inr (.inl rfl)
  · exact .inr (.inr (.inl rfl))
  · exact .inr (.inr (.inr (.inr rfl)))
  all_goals
    have := goto_of_target h
    tauto

/-- A final state leads nowhere but to itself. -/
theorem State.leadsTo_final {k k' : Nat} (h : (State.final k).looped.LeadsTo k') : k' = k := by
  simp only [LeadsTo, looped, final, closed, Transition.goto.injEq] at h
  omega

namespace Automaton

/-- A state lies in the group with the entry `g`, or in a group in it. -/
inductive Inside (a : Automaton) (g : Nat) : Nat → Prop
  | direct {s : State} (hs : s ∈ a.states) (h : s.group = g) : Inside a g s.id
  | nested {s : State} (hs : s ∈ a.states) (h : Inside a g s.group) : Inside a g s.id

/-- The group with the entry `g` is left only as the group is, and entered only
by its entry. -/
structure Encapsulates (a : Automaton) (g : State) : Prop where
  /-- The states of the group come right after its entry. -/
  interval : ∃ last, g.id < last ∧ last < a.accept ∧ ∀ k, a.Inside g.id k ↔ g.id < k ∧ k ≤ last
  onMatch : ∀ s ∈ a.states, a.Inside g.id s.id → a.Inside g.id s.onMatch ∨ s.onMatch = g.close
  onFail : ∀ s ∈ a.states, a.Inside g.id s.id → a.Inside g.id s.onFail ∨ s.onFail = g.onFail
  close : ∀ s ∈ a.states, a.Inside g.id s.id → s.flags.opensGroup = true →
    a.Inside g.id s.close ∨ s.close = g.close
  outside : ∀ s ∈ a.states, ¬ a.Inside g.id s.id → s.id ≠ g.id → ∀ k, s.LeadsTo k → ¬ a.Inside g.id k

theorem mem_ofStates {states : List State} {groupCount : Nat} {neverMatches : Bool} {s : State} :
    s ∈ (ofStates states groupCount neverMatches).states ↔
      (∃ s' ∈ states, s = s'.connected) ∨ s = (State.final states.length).looped ∨
        s = (State.final (states.length + 1)).looped := by
  simp [ofStates, eq_comm]

section

variable {o : Outline} {groupCount : Nat} {neverMatches : Bool} {g : State} {last : Nat}

/-- In the automaton of an outline the states in a group are those that come
before its last. -/
theorem inside_iff (hg : g.id < last) (hlast : last < o.size)
    (hkeeps : ∀ s ∈ o.states (.top o.size) 0, Outline.Keeps g last s) (k : Nat) :
    (ofStates (o.states (.top o.size) 0) groupCount neverMatches).Inside g.id k ↔ Outline.InBody g last k := by
  constructor
  · intro h
    -- What a group around a state is, whatever state it is.
    have hstep {s : State} (hs : s ∈ (ofStates (o.states (.top o.size) 0) groupCount neverMatches).states)
        (hgroup : s.group = g.id ∨ Outline.InBody g last s.group) : Outline.InBody g last s.id := by
      rw [mem_ofStates, Outline.length_states] at hs
      rcases hs with ⟨s, hs, rfl⟩ | rfl | rfl
      · by_contra hout
        obtain ⟨hne, hnot⟩ := (hkeeps s hs).around hout
        rcases hgroup with heq | hin
        · exact hne heq
        · exact hnot hin
      · simp only [State.looped, State.final, State.closed, Outline.InBody] at hgroup
        omega
      · simp only [State.looped, State.final, State.closed, Outline.InBody] at hgroup
        omega
    induction h with
    | direct hs hgroup => exact hstep hs (.inl hgroup)
    | nested hs _ ih => exact hstep hs (.inr ih)
  · intro h
    induction k using Nat.strongRecOn with
    | ind k ih =>
      obtain ⟨s, hs, rfl⟩ : ∃ s ∈ o.states (.top o.size) 0, s.id = k := by
        have hmem : k ∈ (o.states (.top o.size) 0).map (·.id) := by
          rw [Outline.map_id_states, List.mem_range'_1]
          have := h.2
          omega
        exact List.mem_map.1 hmem
      have hmem : s.connected ∈ (ofStates (o.states (.top o.size) 0) groupCount neverMatches).states :=
        mem_ofStates.2 (.inl ⟨s, hs, rfl⟩)
      obtain ⟨hle, hlt⟩ := (hkeeps s hs).group h
      by_cases heq : s.group = g.id
      · exact Inside.direct (s := s.connected) hmem heq
      · have hlast' := h.2
        exact Inside.nested (s := s.connected) hmem (ih s.group hlt ⟨by omega, by omega⟩)

theorem encapsulates_ofStates (hsound : o.Sound)
    (hg : g ∈ (ofStates (o.states (.top o.size) 0) groupCount neverMatches).states)
    (hopens : g.flags.opensGroup = true) :
    (ofStates (o.states (.top o.size) 0) groupCount neverMatches).Encapsulates g := by
  rw [mem_ofStates] at hg
  rcases hg with ⟨g, hg, rfl⟩ | rfl | rfl
  · have hapart : Outline.Apart (.top o.size) 0 o.size :=
      ⟨by simp [Setting.top], by simp [Setting.top], by simp [Setting.top], by simp [Setting.top]⟩
    obtain ⟨last, -, hlt, hlast, hkeeps, -, -⟩ := Outline.exists_last hsound hapart hg hopens
    rw [Nat.zero_add] at hlast
    have hinside (k : Nat) :
        (ofStates (o.states (.top o.size) 0) groupCount neverMatches).Inside g.connected.id k ↔
          Outline.InBody g last k := inside_iff hlt hlast hkeeps k
    -- The final states are not in the group, so a state in it is one of the others.
    have hfinal (k : Nat) (hk : o.size ≤ k) : ¬ Outline.InBody g last k := by
      simp only [Outline.InBody]
      omega
    have hstate {s : State} (hs : s ∈ (ofStates (o.states (.top o.size) 0) groupCount neverMatches).states) :
        (∃ s' ∈ o.states (.top o.size) 0, s = s'.connected) ∨ ∃ k, o.size ≤ k ∧ s = (State.final k).looped := by
      rw [mem_ofStates, Outline.length_states] at hs
      rcases hs with hs | rfl | rfl
      · exact .inl hs
      · exact .inr ⟨_, Nat.le_refl _, rfl⟩
      · exact .inr ⟨_, Nat.le_succ _, rfl⟩
    refine ⟨⟨last, hlt, by rwa [accept_ofStates, Outline.length_states], hinside⟩, ?_, ?_, ?_, ?_⟩
    · intro s hs hin
      rw [hinside] at hin ⊢
      rcases hstate hs with ⟨s, hmem, rfl⟩ | ⟨k, hk, rfl⟩
      · exact (hkeeps s hmem).onMatch hin
      · exact absurd hin (hfinal k hk)
    · intro s hs hin
      rw [hinside] at hin ⊢
      rcases hstate hs with ⟨s, hmem, rfl⟩ | ⟨k, hk, rfl⟩
      · exact (hkeeps s hmem).onFail hin
      · exact absurd hin (hfinal k hk)
    · intro s hs hin hopens
      rw [hinside] at hin ⊢
      rcases hstate hs with ⟨s, hmem, rfl⟩ | ⟨k, hk, rfl⟩
      · exact (hkeeps s hmem).close hin hopens
      · cases hopens
    · intro s hs hout hne k hleads
      rw [hinside] at hout ⊢
      rcases hstate hs with ⟨s, hmem, rfl⟩ | ⟨k', hk, rfl⟩
      · obtain ⟨hmatch, hfail, hclose⟩ := (hkeeps s hmem).away hout hne
        have hgroup := ((hkeeps s hmem).around hout).2
        rcases State.leadsTo_connected hleads with rfl | rfl | rfl | rfl | rfl
        · exact hout
        · exact hmatch
        · exact hfail
        · exact hgroup
        · exact hclose
      · rw [State.leadsTo_final hleads]
        exact hfinal k' hk
  · cases hopens
  · cases hopens

end

end Automaton

/-- **The groups of a pattern are encapsulated.** The states in a group come right
after its entry, they are left only as the group is, and nothing around leads
to them but the entry. -/
theorem encapsulates_of_opensGroup {encoding : Encoding} {pattern : List Char} {options : Options} {a : Automaton}
    (h : compile encoding pattern options = .ok a) {g : State} (hg : g ∈ a.states)
    (hopens : g.flags.opensGroup = true) : a.Encapsulates g := by
  obtain ⟨p, -, hchain, rfl⟩ := compile_eq_ok_iff.1 h
  have hsound := Outline.sound_rewritten options (Phrase.sound_outline_of_check hchain)
  exact Automaton.encapsulates_ofStates hsound hg hopens

theorem encapsulates_of_opensGroup_nested :
    ∃ a g, compile .unicode ['(', 'a', '|', '(', 'b', ')', 'c', ')', 'd'] {} = .ok a ∧ g ∈ a.states ∧
      g.flags.opensGroup = true ∧ a.Encapsulates g := by
  refine ⟨_, _, rfl, List.mem_cons_self, rfl, ?_⟩
  exact @encapsulates_of_opensGroup .unicode ['(', 'a', '|', '(', 'b', ')', 'c', ')', 'd'] {} _ rfl _
    List.mem_cons_self rfl

end RegexAutomaton
