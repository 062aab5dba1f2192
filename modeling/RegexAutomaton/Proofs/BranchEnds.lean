/-
The last node of a branch.

Linking flags the nodes with which a branch of a group ends, and leaves flags that
are there as they are. Whether a node ends its branch depends on what is on its right
(`Tails`). Rewriting puts no new node there that bears a state, so what ended its
branch before still does (`Timely`), in whatever order the passes are done
(`Pass.timely_runAll`).
-/
import RegexAutomaton.Proofs.LiteralRuns
import RegexAutomaton.Proofs.Rewriting
import RegexAutomaton.Proofs.RewritingOrder

namespace RegexAutomaton

/-- For each group that ends on the right, from the inside out: whether the next node on
the left is the last of its branch. -/
abbrev Tails := List Bool

namespace Tails

/-- Note in the innermost group whether the next node is the last of its branch. -/
def note (tail : Bool) : Tails → Tails
  | [] => []
  | _ :: outer => tail :: outer

/-- What is known on the left of a node. -/
def before (kind : NodeKind) (tails : Tails) : Tails :=
  match kind with
  | .groupClose _ => true :: tails
  | .bar => note true tails
  | .groupOpen => note false tails.tail
  | kind => if kind.bearsState then note false tails else tails

/-- Whether a node is the last of its branch of a group. -/
def ends (kind : NodeKind) (tails : Tails) : Bool :=
  (if kind = .groupOpen then tails.tail else tails).headD false

/-- The next node is the last of its branch there if it is so here. -/
def Carries (tails tails' : Tails) : Prop := List.Forall₂ (fun a b : Bool => a = true → b = true) tails tails'

variable {kind : NodeKind} {tails tails' : Tails}

theorem before_of_bears (h : kind.bearsState = true) (hopen : kind ≠ .groupOpen) :
    tails.before kind = tails.note false := by
  cases kind <;> first | rfl | contradiction

theorem Carries.note (h : tails.Carries tails') {a b : Bool} (hab : a = true → b = true) :
    (tails.note a).Carries (tails'.note b) := by
  cases h with
  | nil => exact .nil
  | cons _ hrest => exact .cons hab hrest

/-- Notes that all groups get are lost on neither side. -/
theorem Carries.note_left (h : tails.Carries tails') : (tails.note false).Carries tails' := by
  cases h with
  | nil => exact .nil
  | cons _ hrest => exact .cons nofun hrest

theorem Carries.tail (h : tails.Carries tails') : Carries tails.tail tails'.tail := by
  cases h with
  | nil => exact .nil
  | cons _ hrest => exact hrest

theorem Carries.before (h : tails.Carries tails') (kind : NodeKind) :
    (tails.before kind).Carries (tails'.before kind) := by
  cases kind with
  | groupClose opened => exact .cons id h
  | groupOpen => exact h.tail.note id
  | _ => first | exact h.note id | exact h

theorem Carries.ends (h : tails.Carries tails') (hends : tails.ends kind = true) : tails'.ends kind = true := by
  have hhead {tails tails' : Tails} (h : tails.Carries tails') (hends : tails.headD false = true) :
      tails'.headD false = true := by
    cases h with
    | nil => exact hends
    | cons hle _ => exact hle hends
  unfold Tails.ends at hends ⊢
  split at hends
  · next hopen =>
    rw [if_pos hopen]
    exact hhead h.tail hends
  · next hopen =>
    rw [if_neg hopen]
    exact hhead h hends

end Tails

namespace Node

/-- What is known on the left of some nodes. -/
def tails (nodes : List Node) : Tails := nodes.foldr (fun node tails => tails.before node.kind) []

/-- Of the nodes that bear a state only those are said to end a branch that do. -/
def Timely : List Node → Prop
  | [] => True
  | node :: rest =>
    (node.endsGroup = true → node.kind ≠ .alternationStart ∧
      (node.kind.bearsState = true → (tails rest).ends node.kind = true)) ∧ Timely rest

theorem tails_cons (node : Node) (rest : List Node) : tails (node :: rest) = (tails rest).before node.kind := rfl

theorem timely_of_not_endsGroup {nodes : List Node} (h : ∀ node ∈ nodes, node.endsGroup = false) : Timely nodes := by
  induction nodes with
  | nil => trivial
  | cons node rest ih =>
    obtain ⟨hnode, hrest⟩ := List.forall_mem_cons.1 h
    exact ⟨fun hends => absurd hends (by simp [hnode]), ih hrest⟩

end Node

/-! ## Rewriting -/

namespace Collapse

/-- A node that may be a branch bears a state. -/
theorem before_of_choice? {kind : NodeKind} {set : CharSet} (h : choice? kind = some set) (tails : Tails) :
    tails.before kind = tails.note false := by
  refine Tails.before_of_bears ?_ ?_
  · cases kind <;> first | rfl | cases h
  · rintro rfl
    cases h

/-- The first branch of an alternation bears a state, and no group is closed in it. -/
theorem Choices.tails_eq {inner : List Node} {sets : List CharSet} (h : Choices inner sets) (later : List Node) :
    Node.tails (inner ++ later) = (Node.tails later).note false := by
  have hnote (a b : Bool) (tails : Tails) : (tails.note a).note b = tails.note b := by cases tails <;> rfl
  induction h with
  | one hchoice => exact before_of_choice? hchoice _
  | more hchoice hbar _ ih =>
    rw [List.cons_append, List.cons_append, Node.tails_cons, Node.tails_cons, ih, before_of_choice? hchoice, hbar]
    show (((Node.tails later).note false).note true).note false = _
    rw [hnote, hnote]

theorem tails_hollow (inner later : List Node) : Node.tails (inner.map hollow ++ later) = Node.tails later := by
  induction inner with
  | nil => rfl
  | cons node inner ih => exact ih

variable {nodes nodes' : List Node}

theorem Collapses.carries (h : Collapses nodes nodes') : (Node.tails nodes).Carries (Node.tails nodes') := by
  induction h with
  | nil => exact .nil
  | keep node _ ih => exact ih.before node.kind
  | @set start finish inner nodes nodes' sets length hstart hinner hfinish _ ih =>
    rw [Node.tails_cons, hstart, hinner.tails_eq, Node.tails_cons, Node.tails_cons, hfinish, tails_hollow]
    exact ih.note id

theorem timely_hollow (inner : List Node) {later : List Node} (h : Node.Timely later) :
    Node.Timely (inner.map hollow ++ later) := by
  induction inner with
  | nil => exact h
  | cons node inner ih => exact ⟨fun _ => ⟨nofun, nofun⟩, ih⟩

theorem timely_of_append {left right : List Node} (h : Node.Timely (left ++ right)) : Node.Timely right := by
  induction left with
  | nil => exact h
  | cons node left ih => exact ih h.2

theorem Collapses.timely (h : Collapses nodes nodes') (htimely : Node.Timely nodes) : Node.Timely nodes' := by
  induction h with
  | nil => trivial
  | keep node hrest ih =>
    refine ⟨fun hends => ?_, ih htimely.2⟩
    obtain ⟨hstart, hlast⟩ := htimely.1 hends
    exact ⟨hstart, fun hbears => hrest.carries.ends (hlast hbears)⟩
  | set length hstart _ _ _ ih =>
    refine ⟨fun hends => absurd hstart (htimely.1 hends).1, timely_hollow _ ⟨fun _ => ⟨nofun, nofun⟩, ih ?_⟩⟩
    exact (timely_of_append htimely.2).2

end Collapse

namespace Coalesce

theorem before_of_lone? {node : Node} {rest : List Node} {c : Char} (h : lone? node rest = some c) (tails : Tails) :
    tails.before node.kind = tails.note false := by
  rw [(lone?_eq_some h).1]
  rfl

theorem carries_rewrite (inside : Bool) (nodes : List Node) :
    (Node.tails nodes).Carries (Node.tails (rewrite inside nodes)) := by
  induction inside, nodes using rewrite_induction with
  | nil => exact .nil
  | keep inside node rest _ ih => exact ih.before node.kind
  | first node rest c hlone ih =>
    rw [Node.tails_cons, before_of_lone? hlone]
    exact ih.note id
  | later node rest c hlone ih =>
    rw [Node.tails_cons, before_of_lone? hlone]
    exact ih.note_left

theorem timely_rewrite (inside : Bool) {nodes : List Node} (h : Node.Timely nodes) :
    Node.Timely (rewrite inside nodes) := by
  induction inside, nodes using rewrite_induction with
  | nil => trivial
  | keep inside node rest _ ih =>
    obtain ⟨hnode, hrest⟩ := h
    refine ⟨fun hends => ⟨(hnode hends).1, fun hbears => ?_⟩, ih hrest⟩
    exact (carries_rewrite false rest).ends ((hnode hends).2 hbears)
  | first node rest c hlone ih =>
    obtain ⟨hnode, hrest⟩ := h
    refine ⟨fun hends => ⟨by simp [joinedAll, joined], fun _ => ?_⟩, ih hrest⟩
    have hkind := (lone?_eq_some hlone).1
    have hlast := (hnode hends).2 (by rw [hkind]; rfl)
    rw [hkind] at hlast
    exact (carries_rewrite true rest).ends hlast
  | later node rest c hlone ih =>
    obtain ⟨-, hrest⟩ := h
    exact ⟨fun _ => ⟨by simp, by simp [NodeKind.bearsState]⟩, ih hrest⟩

end Coalesce

/-! ## Linking -/

namespace Outlook

/-- What the walk knows of the groups it is in. -/
def tails (o : Outlook) : Tails := o.groups.map (·.2)

theorem tails_pass (o : Outlook) (index : Nat) (node : Node) :
    (o.pass index node).2.tails = o.tails.before node.kind := by
  obtain ⟨follow, groups, alternations⟩ := o
  obtain ⟨kind, offset, length, next, close, group, endsGroup⟩ := node
  -- The start of a group leaves the group, so the one around it matters too.
  rcases groups with _ | ⟨inner, _ | ⟨outer, groups⟩⟩ <;> cases kind <;> rfl

theorem endsGroup_pass (o : Outlook) (index : Nat) {node : Node} (h : node.kind.bearsState = true) :
    (o.pass index node).1.endsGroup = (node.endsGroup || o.tails.ends node.kind) := by
  obtain ⟨follow, groups, alternations⟩ := o
  obtain ⟨kind, offset, length, next, close, group, endsGroup⟩ := node
  rcases groups with _ | ⟨inner, _ | ⟨outer, groups⟩⟩ <;> cases kind <;> first | rfl | cases h

theorem pass_of_idle (o : Outlook) (index : Nat) {node : Node} (h : node.kind.bearsState = false) :
    (o.pass index node).1 = node := by
  obtain ⟨kind, offset, length, next, close, group, endsGroup⟩ := node
  cases kind <;> first | rfl | cases h

variable {o : Outlook} {nodes : List Node}

theorem tails_passAll (h : o.tails = []) (index : Nat) (nodes : List Node) :
    (o.passAll index nodes).2.tails = Node.tails nodes := by
  induction nodes generalizing index with
  | nil => exact h
  | cons node rest ih =>
    rw [passAll_cons, tails_pass, ih]
    rfl

theorem tails_linked (o : Outlook) (index : Nat) (nodes : List Node) :
    Node.tails (o.passAll index nodes).1 = Node.tails nodes := by
  have hkinds (nodes : List Node) : Node.tails nodes = (nodes.map (·.kind)).foldr Tails.before [] :=
    (List.foldr_map ..).symm
  rw [hkinds, map_kind_passAll, ← hkinds]

/-- **Flags that are left from linking stay right when the nodes are linked again.** -/
theorem timely_passAll (ho : o.tails = []) (h : Node.Timely nodes) (index : Nat) :
    Node.Timely (o.passAll index nodes).1 := by
  induction nodes generalizing index with
  | nil => trivial
  | cons node rest ih =>
    obtain ⟨hnode, hrest⟩ := h
    rw [passAll_cons]
    refine ⟨fun hends => ?_, ih hrest (index + 1)⟩
    simp only [kind_pass, tails_linked]
    cases hbears : node.kind.bearsState with
    | false =>
      rw [pass_of_idle _ _ hbears] at hends
      exact ⟨(hnode hends).1, nofun⟩
    | true =>
      have hstart : node.kind ≠ .alternationStart := by
        rintro hstart
        rw [hstart] at hbears
        cases hbears
      rw [endsGroup_pass _ _ hbears, tails_passAll ho, Bool.or_eq_true] at hends
      exact ⟨hstart, fun _ => hends.elim (fun hends => (hnode hends).2 hbears) id⟩

end Outlook

theorem Pass.timely_runAll (passes : List Pass) {nodes : List Node} (h : Node.Timely nodes) :
    Node.Timely (runAll passes nodes) := by
  refine runAll_induction (motive := Node.Timely) (fun nodes h => ?collapse) (fun nodes h => ?coalesce)
    (fun nodes h => ?link) passes h
  case collapse => exact (Collapse.collapses_rewrite nodes).timely h
  case coalesce => exact Coalesce.timely_rewrite false h
  case link => exact Outlook.timely_passAll rfl h 0

end RegexAutomaton
