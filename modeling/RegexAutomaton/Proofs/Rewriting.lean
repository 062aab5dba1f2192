/-
Rewriting keeps what a pattern means.

In the nodes of a pattern every quantifier has something to repeat, and
collapsing leaves that so (`Steady`). All passes then keep the meaning, so the
options make no difference to it (`parse_denote_eq`).
-/
import RegexAutomaton.Proofs.Coalescing
import RegexAutomaton.Proofs.Collapsing
import RegexAutomaton.Proofs.Parsing

namespace RegexAutomaton

/-- Every quantifier of a list of nodes has something to repeat. -/
def Node.Steady (nodes : List Node) : Prop :=
  List.IsChain NodeKind.MayMeet (.sentinel :: nodes.map (·.kind))

/-! ## The passes -/

namespace Outlook

@[simp] theorem kind_pass (o : Outlook) (index : Nat) (node : Node) : (o.pass index node).1.kind = node.kind := by
  unfold pass
  split
  · rfl
  · rfl
  · rfl
  · rfl
  · rfl
  · split <;> rfl

/-- Linking leaves the kinds of the nodes as they are. -/
theorem map_kind_passAll (o : Outlook) (index : Nat) (nodes : List Node) :
    (o.passAll index nodes).1.map (·.kind) = nodes.map (·.kind) := by
  induction nodes generalizing index with
  | nil => rfl
  | cons node rest ih =>
    rw [passAll_cons]
    simp only [List.map_cons, kind_pass, ih]

end Outlook

/-- Collapsing leaves alone what neighbours must be to each other, if that is asked only of
what comes before a quantifier. -/
theorem Collapse.Collapses.isChain {R : NodeKind → NodeKind → Prop}
    (hfree : ∀ before after, after.repetition? = none → R before after)
    (hend : ∀ after, R .alternationEnd after → R .collapsedEnd after) {nodes nodes' : List Node}
    (h : Collapses nodes nodes') (before : NodeKind) (hchain : List.IsChain R (before :: nodes.map (·.kind))) :
    List.IsChain R (before :: nodes'.map (·.kind)) := by
  induction h generalizing before with
  | nil => exact hchain
  | keep node _ ih =>
    obtain ⟨hmeet, hrest⟩ := List.isChain_cons_cons.1 hchain
    exact List.isChain_cons_cons.2 ⟨hmeet, ih node.kind hrest⟩
  | @set start finish inner nodes nodes' sets length hstart hinner hfinish _ ih =>
    have hhollow (before : NodeKind) {later : List NodeKind} (h : List.IsChain R (.collapsedEnd :: later)) :
        List.IsChain R (before :: ((inner.map hollow).map (·.kind) ++ .collapsedEnd :: later)) := by
      clear hinner hchain
      induction inner generalizing before with
      | nil => exact List.isChain_cons_cons.2 ⟨hfree _ _ rfl, h⟩
      | cons node inner ih => exact List.isChain_cons_cons.2 ⟨hfree _ _ rfl, ih .inert⟩
    have hlater : List.IsChain R (.alternationEnd :: nodes.map (·.kind)) := by
      rw [List.map_cons, List.map_append, List.map_cons, hfinish, List.isChain_cons_cons] at hchain
      exact ((@List.isChain_split _ _ .alternationEnd (start.kind :: inner.map (·.kind)) _).1
        hchain.2).2
    rw [List.map_cons, List.map_append, List.map_cons]
    refine List.isChain_cons_cons.2 ⟨hfree _ _ rfl, hhollow _ ?_⟩
    exact (ih .alternationEnd hlater).imp_head fun hmeet => hend _ hmeet

theorem denote_linkNodes (text : List Char) (nodes : List Node) :
    denote text (linkNodes nodes) = denote text nodes := by
  rw [denote, linkNodes, Outlook.map_kind_passAll, denote]

theorem denote_collapse (text : List Char) (nodes : List Node) :
    denote text (collapse nodes) = denote text nodes := by
  rw [denote, collapse, (Collapse.collapses_rewrite nodes).steps_eq, denote]

theorem denote_coalesce (text : List Char) {nodes : List Node} (h : Node.Steady nodes) :
    denote text (coalesce nodes) = denote text nodes := by
  obtain ⟨hfirst, hchain⟩ := List.isChain_cons.1 h
  have hnot : Coalesce.quantifierFirst nodes = true → Reading.fresh.body = Reading.fresh.body :=
    fun _ => rfl
  exact (Coalesce.agrees_rewrite hchain false (Reading.Agrees.refl _).push_empty
    hnot).outermost_whole.symm

theorem Node.Steady.collapse {nodes : List Node} (h : Steady nodes) :
    Steady (RegexAutomaton.collapse nodes) :=
  -- What may not follow the end of an alternation may not follow that of a set.
  (Collapse.collapses_rewrite nodes).isChain
    (fun _ _ hnone hquantifier => by rw [hnone] at hquantifier; cases hquantifier)
    (fun _ hmeet hquantifier => absurd (hmeet hquantifier) nofun) .sentinel h

/-- **The passes leave the meaning of a list as it is**, whichever of them are
asked for. -/
theorem denote_passes (text : List Char) {nodes : List Node} (h : Node.Steady nodes) (options : Options) :
    denote text (Pass.runAll options.passes nodes) = denote text nodes := by
  unfold Options.passes
  rw [Pass.runAll_append, Pass.runAll_append]
  have hcollapse : denote text (Pass.runAll (if options.collapses then [.collapse] else []) nodes) =
        denote text nodes ∧
      Node.Steady (Pass.runAll (if options.collapses then [.collapse] else []) nodes) := by
    split
    · exact ⟨denote_collapse text nodes, h.collapse⟩
    · exact ⟨rfl, h⟩
  obtain ⟨hmeaning, hsteady⟩ := hcollapse
  rw [← hmeaning]
  refine (denote_linkNodes text _).trans ?_
  split
  · exact denote_coalesce text hsteady
  · rfl

/-! ## The nodes of a pattern -/

theorem NodeKind.role_of_repetition? {groups : List Nat} {item : Item}
    (h : (ofItem groups item).repetition?.isSome = true) : item.role = .quantifier := by
  cases item with
  | token t =>
    cases t with
    | quantifier q => rfl
    | atom a => cases a <;> cases h
    | _ => cases h
  | alternationStart => cases h
  | alternationEnd => cases h

theorem NodeKind.isRepeatable_ofItem {groups : List Nat} {item : Item}
    (h : item.role = .atom ∨ item.role = .groupClose) : (ofItem groups item).isRepeatable = true := by
  cases item with
  | token t =>
    cases t with
    | atom a => cases a <;> rfl
    | groupClose => rfl
    | _ => rcases h with h | h <;> cases h
  | alternationStart => rcases h with h | h <;> cases h
  | alternationEnd => rcases h with h | h <;> cases h

theorem Node.isChain_ofItems {items : List (Spanned Item)} {before : Role} {kind : NodeKind}
    (hbefore : before = .atom ∨ before = .groupClose → kind.isRepeatable = true)
    (h : List.IsChain Role.Repeats (before :: (items.map (·.value.role) ++ [.finish])))
    (index : Nat) (groups : List Nat) :
    List.IsChain NodeKind.MayMeet (kind :: ((ofItems index groups items).map (·.kind) ++
      [.sentinel, .sentinel])) := by
  induction items generalizing before kind index groups with
  | nil => exact .cons_cons nofun (List.isChain_pair.2 nofun)
  | cons item items ih =>
    obtain ⟨hrepeats, hrest⟩ := List.isChain_cons_cons.1 h
    refine List.isChain_cons_cons.2 ⟨fun hquantifier => ?_, ih NodeKind.isRepeatable_ofItem hrest _ _⟩
    exact hbefore (hrepeats (NodeKind.role_of_repetition? hquantifier))

/-- Every quantifier of a pattern has something to repeat. -/
theorem Node.steady_of_phrase {p : Phrase} (stop : Nat)
    (h : List.IsChain Role.Admits (.start :: (p.roles ++ [.finish]))) :
    Steady (NodeList.ofItems (p.body 0 stop) stop).nodes := by
  unfold Steady
  rw [NodeList.ofItems, List.map_append]
  have hstart : Role.start = .atom ∨ Role.start = .groupClose →
      NodeKind.sentinel.isRepeatable = true := by
    intro hmem
    rcases hmem with hatom | hgroup
    · cases hatom
    · cases hgroup
  exact isChain_ofItems hstart (p.isChain_repeats 0 stop h) 0 []

/-- **What a pattern means does not depend on the options.** -/
theorem parse_denote_eq {encoding : Encoding} {pattern : List Char} {options : Options} {list : NodeList}
    (h : NodeList.parse encoding pattern options = .ok list) (other : Options) :
    ∃ list', NodeList.parse encoding pattern other = .ok list' ∧
      ∀ text, denote text list'.nodes = denote text list.nodes := by
  obtain ⟨p, hp, hchain, rfl⟩ := NodeList.parse_eq_ok_iff.1 h
  refine ⟨_, NodeList.parse_eq_ok_iff.2 ⟨p, hp, hchain, rfl⟩, fun text => ?_⟩
  have hsteady := Node.steady_of_phrase pattern.length hchain
  exact (denote_passes text hsteady other).trans (denote_passes text hsteady options).symm

theorem parse_denote_eq_of_run_and_set :
    ∃ list, NodeList.parse .unicode ['a', 'b', '(', 'c', '|', 'd', ')', '*'] {} = .ok list ∧
      ∃ list', NodeList.parse .unicode ['a', 'b', '(', 'c', '|', 'd', ')', '*']
          ⟨some false, some false⟩ = .ok list' ∧
        ∀ text, denote text list'.nodes = denote text list.nodes :=
  ⟨_, rfl, parse_denote_eq rfl ⟨some false, some false⟩⟩

end RegexAutomaton
