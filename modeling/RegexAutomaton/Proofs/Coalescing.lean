/-
Coalescing keeps what a list of nodes means.

The nodes are followed one by one. Inside a run, one side has read the whole
run already and the other has the rest of it ahead (`agrees_rewrite`). The two
sides may differ in what they take for the last item, so no quantifier may
come there: it may come only after a node that leaves both with the same last
item (`MayMeet`).
-/
import Mathlib.Data.List.Chain
import RegexAutomaton.Node.Coalesce
import RegexAutomaton.Proofs.Denotation

namespace RegexAutomaton

/-! ## Where a quantifier may come -/

namespace NodeKind

/-- Whether a quantifier may follow. -/
def isRepeatable : NodeKind → Bool
  | literal _ | bracket _ | dot | groupClose _ => true
  | _ => false

/-- A quantifier comes only after what it may follow. -/
def MayMeet (before after : NodeKind) : Prop :=
  after.repetition?.isSome = true → before.isRepeatable = true

end NodeKind

/-! ## Readings that mean the same -/

/-- Two frames mean the same, and go on meaning the same unless the last item
is repeated. -/
structure Frame.Agrees (f f' : Frame) : Prop where
  earlier : f.earlier = f'.earlier
  branch : f.branch = f'.branch

theorem Frame.Agrees.whole {f f' : Frame} (h : f.Agrees f') : f.whole = f'.whole := by
  rw [Frame.whole, Frame.whole, h.earlier, h.branch]

theorem Frame.Agrees.push {f f' : Frame} (h : f.Agrees f') (item : Meaning) :
    f.push item = f'.push item := by
  rw [Frame.push, Frame.push, h.earlier, h.branch]

namespace Reading

variable {text : List Char} {s s' : Reading}

structure Agrees (s s' : Reading) : Prop where
  body : s.body.Agrees s'.body
  outer : List.Forall₂ Frame.Agrees s.outer s'.outer

theorem Agrees.refl (s : Reading) : s.Agrees s :=
  ⟨⟨rfl, rfl⟩, List.forall₂_same.2 fun _ _ => ⟨rfl, rfl⟩⟩

/-- With the innermost frames equal, nothing can tell the readings apart. -/
theorem agrees_of_body_eq (hbody : s.body = s'.body) (houter : List.Forall₂ Frame.Agrees s.outer s'.outer) :
    s.Agrees s' := ⟨⟨hbody ▸ rfl, hbody ▸ rfl⟩, houter⟩

theorem Agrees.leave (h : s.Agrees s') :
    s.leave.body = s'.leave.body ∧ List.Forall₂ Frame.Agrees s.leave.outer s'.leave.outer := by
  have houter := h.outer
  unfold Reading.leave
  cases hs : s.outer with
  | nil =>
    rw [hs] at houter
    cases hs' : s'.outer with
    | nil => exact ⟨h.body.push _, h.outer⟩
    | cons frame outer =>
      rw [hs'] at houter
      cases houter
  | cons frame outer =>
    rw [hs] at houter
    cases hs' : s'.outer with
    | nil =>
      rw [hs'] at houter
      cases houter
    | cons frame' outer' =>
      rw [hs'] at houter
      obtain ⟨hframe, houter⟩ := List.forall₂_cons.1 houter
      refine ⟨?_, houter⟩
      show frame.push s.body.whole = frame'.push s'.body.whole
      rw [h.body.whole, hframe.push]

/-- After what a quantifier may follow, the last items are the same. -/
theorem Agrees.body_eq {kind : NodeKind} (h : s.Agrees s') (hkind : kind.isRepeatable = true) :
    (s.step text kind).body = (s'.step text kind).body := by
  cases kind with
  | literal | bracket | dot => exact h.body.push _
  | groupClose => exact h.leave.1
  | _ => cases hkind

theorem Agrees.step {kind : NodeKind} (h : s.Agrees s')
    (hquantifier : kind.repetition?.isSome = true → s.body = s'.body) :
    (s.step text kind).Agrees (s'.step text kind) := by
  cases kind with
  | literal | bracket | collapsedStart | dot | anchorStart | anchorEnd =>
    exact agrees_of_body_eq (h.body.push _) h.outer
  | groupClose | alternationEnd => exact agrees_of_body_eq h.leave.1 h.leave.2
  | groupOpen | alternationStart => exact ⟨⟨rfl, rfl⟩, .cons h.body h.outer⟩
  | bar => exact ⟨⟨h.body.whole, rfl⟩, h.outer⟩
  | quantifier q =>
    refine agrees_of_body_eq ?_ h.outer
    show s.body.repeatLast _ = s'.body.repeatLast _
    rw [hquantifier rfl]
  | collapsedEnd | inert | sentinel => exact h

theorem Agrees.outermost_whole (h : s.Agrees s') : s.outermost.whole = s'.outermost.whole :=
  (forall₂_outermost h.body h.outer).whole

/-- An empty item makes no difference. -/
theorem Agrees.of_push_empty (h : (s.push .empty).Agrees s') : s.Agrees s' := by
  refine ⟨⟨h.body.earlier, ?_⟩, h.outer⟩
  rw [← h.body.branch]
  exact (Meaning.seq_empty _).symm

theorem Agrees.push_empty (h : s.Agrees s') : (s.push .empty).Agrees s' := by
  refine ⟨⟨h.body.earlier, ?_⟩, h.outer⟩
  rw [← h.body.branch]
  exact Meaning.seq_empty _

/-- A run may be read in two parts. -/
theorem Agrees.push_run {c : Char} {later : List Char} (h : (s.push (.run text (c :: later))).Agrees s') :
    ((s.push (.run text [c])).push (.run text later)).Agrees s' := by
  refine ⟨⟨h.body.earlier, ?_⟩, h.outer⟩
  rw [← h.body.branch]
  show (s.body.branch.seq (.run text [c])).seq (.run text later) =
    s.body.branch.seq (.run text (c :: later))
  rw [Meaning.seq_assoc, ← Meaning.run_cons]

end Reading

/-! ## Runs -/

namespace Coalesce

variable {text : List Char}

theorem lone?_eq_some {node : Node} {rest : List Node} {c : Char} (h : lone? node rest = some c) :
    node.kind = .literal [c] ∧ quantifierFirst rest = false := by
  unfold lone? at h
  split at h
  · next hkind =>
    split at h
    · cases h
    · next hfirst =>
      obtain rfl := Option.some.inj h
      exact ⟨hkind, Bool.eq_false_iff.2 hfirst⟩
  · cases h

/-- The symbols that the first node of a run holds for the nodes ahead, when
the place reached is inside the run. -/
def pending (inside : Bool) (nodes : List Node) : List Char :=
  if inside then (run nodes).map (·.1) else []

/-- **Reading goes the same way with and without runs joined**, but for the
symbols that a run holds ahead. -/
theorem agrees_rewrite {nodes : List Node} (hchain : List.IsChain NodeKind.MayMeet (nodes.map (·.kind)))
    (inside : Bool) {s s' : Reading} (hs : (s.push (.run text (pending inside nodes))).Agrees s')
    (hfirst : quantifierFirst nodes = true → s.body = s'.body) :
    (s.steps text (nodes.map (·.kind))).Agrees (s'.steps text ((rewrite inside nodes).map (·.kind))) := by
  induction nodes generalizing inside s s' with
  | nil => cases inside <;> exact hs.of_push_empty
  | cons node rest ih =>
    obtain ⟨hmeet, hrest⟩ := List.isChain_cons.1 hchain
    rw [rewrite]
    cases hlone : lone? node rest with
    | none =>
      have hpending : pending inside (node :: rest) = [] := by simp [pending, run, hlone]
      rw [hpending] at hs
      have hagrees : s.Agrees s' := hs.of_push_empty
      refine ih hrest false (hagrees.step hfirst).push_empty fun hquantifier => ?_
      -- A quantifier comes next, so this node is what it repeats.
      cases rest with
      | nil => cases hquantifier
      | cons next rest => exact hagrees.body_eq (hmeet next.kind rfl hquantifier)
    | some c =>
      obtain ⟨hkind, hnext⟩ := lone?_eq_some hlone
      have hrun : (run (node :: rest)).map (·.1) = c :: (run rest).map (·.1) := by simp [run, hlone]
      have hnot : quantifierFirst rest = true → (s.push (.run text [c])).body = s'.body := fun h =>
        absurd (hnext.symm.trans h) (by decide)
      rw [List.map_cons, Reading.steps_cons, hkind]
      cases inside with
      | true =>
        have hahead : (s.push (.run text (c :: (run rest).map (·.1)))).Agrees s' := by
          rwa [pending, if_pos rfl, hrun] at hs
        exact ih hrest true hahead.push_run hnot
      | false =>
        have hagrees : s.Agrees s' := hs.of_push_empty
        have hjoined : (s.step text (.literal (c :: (run rest).map (·.1)))).Agrees
            (s'.step text (.literal (c :: (run rest).map (·.1)))) := by
          refine hagrees.step fun hquantifier => ?_
          cases hquantifier
        exact ih hrest true (Reading.Agrees.push_run hjoined) fun h => absurd (hnext.symm.trans h) (by decide)

end Coalesce

end RegexAutomaton
