/-
A pattern that is seen never to match never matches.

What `Liveness` knows after each item is true of the reading of the same
items (`Tells`): a branch it takes for dead matches nothing, and so do the
branches before it if it takes them for dead. A quantifier changes what the
last item means, so while one may come, a dead branch has to be dead before
its last item.
-/
import RegexAutomaton.Proofs.Rewriting

namespace RegexAutomaton

/-! ## Bodies -/

/-- What is known of a body is true of what it means. -/
structure Body.Tells (b : Body) (f : Frame) : Prop where
  others : b.othersDead = true → f.earlier = .never
  last : b.lastDead = true → f.branch = .never

namespace Body.Tells

variable {b : Body} {f : Frame}

theorem fresh : Body.fresh.Tells .fresh := ⟨fun _ => rfl, nofun⟩

theorem push (h : b.Tells f) (item : Meaning) : b.Tells (f.push item) where
  others := h.others
  last := fun hlast => by
    show f.branch.seq item = .never
    rw [h.last hlast, Meaning.never_seq]

theorem kill (h : b.Tells f) (hbranch : f.branch = .never) : b.kill.Tells f := ⟨h.others, fun _ => hbranch⟩

theorem whole (h : b.Tells f) (hdead : b.isDead = true) : f.whole = .never := by
  obtain ⟨hothers, hlast⟩ := Bool.and_eq_true_iff.1 hdead
  rw [Frame.whole, h.others hothers, h.last hlast, Meaning.never_alt]

theorem bar (h : b.Tells f) : b.bar.Tells f.bar := ⟨fun hdead => h.whole hdead, nofun⟩

end Body.Tells

namespace Liveness

/-! ## What is known and what is read -/

/-- What is known after an item of the given role is true of the reading that
has come as far. -/
structure Tells (s : Liveness) (role : Role) (r : Reading) : Prop where
  body : s.body.Tells r.body
  outer : List.Forall₂ Body.Tells s.outer r.outer
  /-- While a quantifier may come, the last item is not what makes its branch
  dead. -/
  before : role = .atom ∨ role = .groupClose → s.body.lastDead = true → r.body.before = .never
  closedDead : s.closedDead = true → r.body.last = .never
  afterAtom : s.afterAtom = true → r.body.last.Consumes
  afterRequired : s.afterRequired = true → r.body.last.Consumes

variable {s : Liveness} {role : Role} {r : Reading} {text : List Char}

theorem tells_fresh : fresh.Tells .start .fresh := ⟨.fresh, .nil, nofun, nofun, nofun, nofun⟩

@[simp] theorem outer_settle (s : Liveness) (spared : Bool) : (s.settle spared).outer = s.outer := by
  unfold settle kill
  cases s.closedDead && !spared <;> rfl

@[simp] theorem closedDead_settle (s : Liveness) (spared : Bool) : (s.settle spared).closedDead = false := by
  unfold settle kill
  cases s.closedDead && !spared <;> rfl

theorem body_settle (s : Liveness) (spared : Bool) :
    (s.settle spared).body = if s.closedDead && !spared then s.body.kill else s.body := by
  unfold settle kill
  cases s.closedDead && !spared <;> rfl

/-- What is known of the items before another, when that one comes. -/
def atNext (s : Liveness) (item : Item) : Liveness :=
  { s.settle (spares item) with afterAtom := false, afterRequired := false }

/-- Nothing is known of the last item alone. -/
structure Settled (s : Liveness) (r : Reading) : Prop where
  body : s.body.Tells r.body
  outer : List.Forall₂ Body.Tells s.outer r.outer
  closedDead : s.closedDead = false
  afterAtom : s.afterAtom = false
  afterRequired : s.afterRequired = false

/-- A dead group has made its branch dead when the next item comes. -/
theorem Tells.atNext (h : s.Tells role r) (item : Item) : (s.atNext item).Settled r := by
  refine ⟨?_, ?_, closedDead_settle s _, rfl, rfl⟩
  · show (s.settle (spares item)).body.Tells r.body
    rw [body_settle]
    split
    · next hdead =>
      have hlast : r.body.last = .never := h.closedDead (Bool.and_eq_true_iff.1 hdead).1
      refine h.body.kill ?_
      rw [Frame.branch, hlast, Meaning.seq_never]
    · exact h.body
  · show List.Forall₂ Body.Tells (s.settle (spares item)).outer r.outer
    rw [outer_settle]
    exact h.outer

/-- With nothing known of the last item, only the bodies matter. -/
theorem tells_of_bodies (hbody : s.body.Tells r.body) (houter : List.Forall₂ Body.Tells s.outer r.outer)
    (hbefore : role = .atom ∨ role = .groupClose → s.body.lastDead = true → r.body.before = .never)
    (hclosed : s.closedDead = false) (hatom : s.afterAtom = false) (hrequired : s.afterRequired = false) :
    s.Tells role r where
  body := hbody
  outer := houter
  before := hbefore
  closedDead := fun h => absurd (hclosed.symm.trans h) Bool.false_ne_true
  afterAtom := fun h => absurd (hatom.symm.trans h) Bool.false_ne_true
  afterRequired := fun h => absurd (hrequired.symm.trans h) Bool.false_ne_true

namespace Settled

/-- One more item, whatever it is, leaves dead branches dead. -/
theorem push (h : s.Settled r) (item : Meaning) : s.Tells role (r.push item) :=
  tells_of_bodies (h.body.push item) h.outer (fun _ => h.body.last) h.closedDead h.afterAtom
    h.afterRequired

/-- An item that cannot match where it stands makes its branch dead. -/
theorem push_kill (h : s.Settled r) {item : Meaning} (hdead : r.body.branch.seq item = .never)
    (hrole : ¬ (role = .atom ∨ role = .groupClose)) : s.kill.Tells role (r.push item) :=
  tells_of_bodies ((h.body.push item).kill hdead) h.outer (fun hrole' => absurd hrole' hrole)
    h.closedDead h.afterAtom h.afterRequired

theorem enter (h : s.Settled r) : s.enter.Tells role r.enter :=
  tells_of_bodies .fresh (.cons h.body h.outer) nofun h.closedDead h.afterAtom h.afterRequired

theorem bar (h : s.Settled r) :
    { s with body := s.body.bar }.Tells role { r with body := r.body.bar } :=
  tells_of_bodies h.body.bar h.outer nofun h.closedDead h.afterAtom h.afterRequired

/-- The end of a body is an item of the body around it, and matches nothing if
the body is dead. -/
theorem leave (h : s.Settled r) : ∃ (around : Reading) (item : Meaning),
    r.leave = around.push item ∧ s.leave.Settled around ∧ (s.leavesDead = true → item = .never) := by
  obtain ⟨body, outer, closedDead, afterAtom, afterRequired⟩ := s
  obtain ⟨frame, frames⟩ := r
  cases h.outer with
  | nil => exact ⟨⟨frame, []⟩, .empty, rfl, h, nofun⟩
  | cons hhead htail =>
    exact ⟨⟨_, _⟩, _, rfl, ⟨hhead, htail, h.closedDead, h.afterAtom, h.afterRequired⟩, h.body.whole⟩

end Settled

/-! ## One item -/

namespace Tells

theorem step_atom (h : s.Tells role r) (a : Atom) (groups : List Nat) :
    (s.step (.token (.atom a))).Tells .atom (r.step text (.ofItem groups (.token (.atom a)))) := by
  have hpush : ∃ item : Meaning, r.step text (.ofItem groups (.token (.atom a))) = r.push item ∧
      item.Consumes := by
    cases a with
    | literal c =>
      refine ⟨.run text [c], rfl, ?_⟩
      rw [Meaning.run_singleton]
      exact Meaning.consumes_symbol text _
    | bracket set => exact ⟨_, rfl, Meaning.consumes_symbol text set⟩
    | dot => exact ⟨_, rfl, Meaning.consumes_symbol text .any⟩
  obtain ⟨item, hstep, hconsumes⟩ := hpush
  have hs := h.atNext (.token (.atom a))
  rw [hstep]
  exact ⟨hs.body.push item, hs.outer, fun _ => hs.body.last,
    fun hclosed => absurd (hs.closedDead.symm.trans hclosed) Bool.false_ne_true,
    fun _ => hconsumes, fun _ => hconsumes⟩

theorem step_quantifier (h : s.Tells role r) (hrole : role = .atom ∨ role = .groupClose)
    (q : Quantifier) : (s.step (.token (.quantifier q))).Tells .quantifier (r.step text (.quantifier q)) := by
  have hs := h.atNext (.token (.quantifier q))
  have hbranch (hdead : (s.settle (spares (.token (.quantifier q)))).body.lastDead = true) :
      r.body.before.seq (r.body.last.repeated q.repetition) = .never := by
    rw [body_settle] at hdead
    split at hdead
    · next hclosed =>
      -- The group before is dead and has to match.
      obtain ⟨hclosed, hspared⟩ := Bool.and_eq_true_iff.1 hclosed
      have hrequired : q.repetition.isOptional = false := by simpa [spares] using hspared
      rw [h.closedDead hclosed, Meaning.never_repeated hrequired, Meaning.seq_never]
    · rw [h.before hrole hdead, Meaning.never_seq]
  refine ⟨⟨hs.body.others, hbranch⟩, hs.outer, nofun,
    fun hclosed => absurd (hs.closedDead.symm.trans hclosed) Bool.false_ne_true, nofun, ?_⟩
  intro hrequired
  obtain ⟨hatom, hoptional⟩ := Bool.and_eq_true_iff.1 hrequired
  exact (h.afterAtom hatom).repeated (by simpa using hoptional)

theorem step_anchorStart (h : s.Tells role r) :
    (s.step (.token .anchorStart)).Tells .anchorStart (r.step text .anchorStart) := by
  have hs := h.atNext (.token .anchorStart)
  show (if s.afterRequired then (s.atNext (.token .anchorStart)).kill
    else s.atNext (.token .anchorStart)).Tells .anchorStart (r.push .atStart)
  by_cases hrequired : s.afterRequired = true
  · rw [if_pos hrequired]
    refine hs.push_kill ?_ (by decide)
    rw [Frame.branch, Meaning.seq_assoc, (h.afterRequired hrequired).seq_atStart, Meaning.seq_never]
  · rw [if_neg hrequired]
    exact hs.push _

theorem step_groupClose (h : s.Tells role r) (opened : Nat) :
    (s.step (.token .groupClose)).Tells .groupClose (r.step text (.groupClose opened)) := by
  obtain ⟨around, item, hleave, hs, hdead⟩ := (h.atNext (.token .groupClose)).leave
  show ({ (s.atNext (.token .groupClose)).leave with
    closedDead := (s.atNext (.token .groupClose)).leavesDead }).Tells .groupClose r.leave
  rw [hleave]
  exact { hs.push item with closedDead := hdead }

theorem step_alternationEnd (h : s.Tells role r) :
    (s.step .alternationEnd).Tells .alternationEnd (r.step text .alternationEnd) := by
  obtain ⟨around, item, hleave, hs, hdead⟩ := (h.atNext .alternationEnd).leave
  show (if (s.atNext .alternationEnd).leavesDead then (s.atNext .alternationEnd).leave.kill
    else (s.atNext .alternationEnd).leave).Tells .alternationEnd r.leave
  rw [hleave]
  by_cases hleaves : (s.atNext .alternationEnd).leavesDead = true
  · rw [if_pos hleaves]
    refine hs.push_kill ?_ (by decide)
    rw [hdead hleaves, Meaning.seq_never]
  · rw [if_neg hleaves]
    exact hs.push item

/-- **What is known stays true**, whatever item comes. -/
theorem step (h : s.Tells role r) {item : Item} (hrole : Role.Repeats role item.role) (groups : List Nat) :
    (s.step item).Tells item.role (r.step text (.ofItem groups item)) := by
  cases item with
  | token t =>
    cases t with
    | atom a => exact h.step_atom a groups
    | quantifier q => exact h.step_quantifier (hrole rfl) q
    | anchorStart => exact h.step_anchorStart
    | anchorEnd => exact (h.atNext (.token .anchorEnd)).push _
    | groupOpen => exact (h.atNext (.token .groupOpen)).enter
    | groupClose => exact h.step_groupClose _
    | bar => exact (h.atNext (.token .bar)).bar
  | alternationStart => exact (h.atNext .alternationStart).enter
  | alternationEnd => exact h.step_alternationEnd

/-! ## Whole patterns -/

theorem steps {items : List (Spanned Item)} (h : s.Tells role r)
    (hchain : List.IsChain Role.Repeats (role :: (items.map (·.value.role) ++ [.finish]))) (index : Nat)
    (groups : List Nat) :
    ∃ role', (items.foldl (fun s item => s.step item.value) s).Tells role'
      (r.steps text ((Node.ofItems index groups items).map (·.kind))) := by
  induction items generalizing s role r index groups with
  | nil => exact ⟨role, h⟩
  | cons item items ih =>
    obtain ⟨hrepeats, hrest⟩ := List.isChain_cons_cons.1 hchain
    exact ih (h.step hrepeats groups) hrest _ _

end Tells

/-- Items that are seen never to match mean nothing. -/
theorem denote_of_neverMatches {items : List (Spanned Item)} (stop : Nat)
    (hchain : List.IsChain Role.Repeats (.start :: (items.map (·.value.role) ++ [.finish])))
    (h : neverMatches items = true) (text : List Char) :
    denote text (NodeList.ofItems items stop).nodes = .never := by
  obtain ⟨role, htells⟩ := @Tells.steps _ _ _ text _ tells_fresh hchain 0 []
  -- Nothing comes after the last item, so nothing spares a dead group there.
  have hsettled := htells.atNext (.token .anchorEnd)
  have houtermost := Reading.forall₂_outermost hsettled.body hsettled.outer
  rw [denote, NodeList.ofItems, List.map_append, Reading.steps_append]
  exact houtermost.whole h

end Liveness

/-- **A pattern that is seen never to match has no match**, in any text and
between any two places. -/
theorem no_match_of_neverMatches {encoding : Encoding} {pattern : List Char} {options : Options}
    {list : NodeList} (h : NodeList.parse encoding pattern options = .ok list)
    (hnever : list.neverMatches = true) (text : List Char) (i j : Nat) : ¬ denote text list.nodes i j := by
  obtain ⟨p, hp, hchain, rfl⟩ := NodeList.parse_eq_ok_iff.1 h
  have hnothing := Liveness.denote_of_neverMatches pattern.length
    (p.isChain_repeats 0 pattern.length hchain) hnever text
  have hpasses := denote_passes text (Node.steady_of_phrase pattern.length hchain) options
  intro hmatch
  have hraw : denote text (NodeList.ofItems (p.body 0 pattern.length) pattern.length).nodes i j := by
    rw [← hpasses]
    exact hmatch
  rw [hnothing] at hraw
  exact hraw

theorem no_match_of_anchor_after_atom :
    ∃ list, NodeList.parse .unicode ['(', 'a', '^', '|', 'b', '+', '^', ')', '{', '2', '}'] {} = .ok list ∧
      list.neverMatches = true ∧ ∀ text i j, ¬ denote text list.nodes i j := by
  refine ⟨_, rfl, rfl, ?_⟩
  exact @no_match_of_neverMatches .unicode ['(', 'a', '^', '|', 'b', '+', '^', ')', '{', '2', '}'] {} _
    rfl rfl

end RegexAutomaton
