/-
The nodes of a pattern, as those of an outline.

No pass looks at places. So but for its places a pattern has the linked nodes
of one outline (`NodeList.placeless_after`), which is as sound as the outline
of its phrase.
-/
import RegexAutomaton.Proofs.OutlineCoalesce
import RegexAutomaton.Proofs.OutlineCollapse

namespace RegexAutomaton

namespace Outlook

theorem pass_placeless (o : Outlook) (index : Nat) (node : Node) :
    o.pass index node.placeless = ((o.pass index node).1.placeless, (o.pass index node).2) := by
  obtain ⟨kind, offset, length, next, close, group, endsGroup⟩ := node
  cases kind <;> rfl

theorem passAll_placeless (o : Outlook) (index : Nat) (nodes : List Node) :
    o.passAll index (nodes.map Node.placeless) =
      ((o.passAll index nodes).1.map Node.placeless, (o.passAll index nodes).2) := by
  induction nodes generalizing index with
  | nil => rfl
  | cons node rest ih => simp only [List.map_cons, passAll_cons, ih, pass_placeless]

end Outlook

theorem linkNodes_placeless (nodes : List Node) :
    linkNodes (nodes.map Node.placeless) = (linkNodes nodes).map Node.placeless := by
  rw [linkNodes, Outlook.passAll_placeless, linkNodes]

namespace Outline

/-- What collapsing makes of a whole pattern, if the options ask for it. -/
def collapsed (options : Options) (o : Outline) : Outline := if options.collapses then o.collapseBody else o

/-- What the options make of a whole pattern. -/
def rewritten (options : Options) (o : Outline) : Outline :=
  if options.coalesces then (o.collapsed options).coalesce false else o.collapsed options

theorem sound_rewritten (options : Options) {o : Outline} (h : o.Sound) : (o.rewritten options).Sound := by
  have hcollapsed : (o.collapsed options).Sound := by
    unfold collapsed
    split
    · exact sound_collapseBody_of (sound_collapse h)
    · exact h
  unfold rewritten
  split
  · exact sound_coalesce hcollapsed false
  · exact hcollapsed

/-- The nodes after a pattern. -/
def sentinels : List Node := [.bare .sentinel 0 0 none, .bare .sentinel 0 0 none]

/-- The nodes of a pattern, not linked yet. -/
def list (o : Outline) : List Node := o.body none 0 ++ sentinels

end Outline

/-- The nodes that a pattern is read into are those of the outline of its phrase. -/
theorem NodeList.placeless_ofItems (p : Phrase) (stop : Nat) :
    (ofItems (p.body 0 stop) stop).nodes.map Node.placeless = p.outline.list := by
  have hbody := @Phrase.placeless_mark p [] 0 0 stop [] (p.placeless_ofItems [])
  rw [List.append_nil] at hbody
  rw [ofItems, List.map_append, Phrase.body, hbody, Node.ofItems]
  simp [Outline.list, Outline.sentinels, Node.bare, Node.placeless]

/-- **The nodes of a pattern are the linked nodes of an outline**, but for
their places. -/
theorem NodeList.placeless_after (p : Phrase) (stop : Nat) (options : Options) :
    ((ofItems (p.body 0 stop) stop).after options.passes).nodes.map Node.placeless =
      linkNodes (p.outline.rewritten options).list := by
  have hitems := placeless_ofItems p stop
  have hcollapse : (Pass.runAll (if options.collapses then [.collapse] else [])
      (ofItems (p.body 0 stop) stop).nodes).map Node.placeless = (p.outline.collapsed options).list := by
    unfold Outline.collapsed
    split
    · show (Collapse.rewrite false _).map _ = _
      rw [← Collapse.rewrite_placeless, hitems, Outline.list, Outline.collapse_body]
      rfl
    · exact hitems
  unfold after Options.passes
  rw [Pass.runAll_append, Pass.runAll_append]
  show (linkNodes _).map _ = _
  rw [← linkNodes_placeless, Outline.rewritten]
  congr 1
  split
  · have hstops : Outline.Stops Outline.sentinels := Outline.stops_cons (.inr rfl) _
    show (Coalesce.rewrite false _).map _ = _
    rw [← Coalesce.rewrite_placeless, hcollapse, Outline.list,
      Outline.coalesce_body _ none 0 hstops]
    rfl
  · exact hcollapse

end RegexAutomaton
