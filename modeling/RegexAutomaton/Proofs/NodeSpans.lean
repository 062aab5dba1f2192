/-
Where the nodes of a pattern lie in it.

The nodes that are left after rewriting lie side by side and cover the pattern: the
tokens do, markers are empty, and a node that takes others in reaches as far as they
did (`abut_rewrite` for collapsing and for joining literals). A node of literals holds
what its part of the pattern spells, symbol by symbol or escape by escape
(`Node.Spelled`).
-/
import RegexAutomaton.Proofs.ChoiceAlternations
import RegexAutomaton.Proofs.LiteralRuns
import RegexAutomaton.Proofs.PassOrder

namespace RegexAutomaton

/-! ## Spans side by side -/

/-- Spans, each with its offset and its length, lie side by side from `first` to
`last`. Some may be empty. -/
def Abut : (first : Nat) → (spans : List (Nat × Nat)) → (last : Nat) → Prop
  | first, [], last => first = last
  | first, (offset, length) :: rest, last => offset = first ∧ Abut (offset + length) rest last

namespace Abut

variable {first last : Nat} {left right : List (Nat × Nat)}

theorem le {spans : List (Nat × Nat)} (h : Abut first spans last) : first ≤ last := by
  induction spans generalizing first with
  | nil => exact Nat.le_of_eq h
  | cons span rest ih =>
    obtain ⟨hoffset, hrest⟩ := h
    have hle := ih hrest
    omega

theorem le_of_mem {spans : List (Nat × Nat)} (h : Abut first spans last) : ∀ span ∈ spans, first ≤ span.1 := by
  induction spans generalizing first with
  | nil => exact nofun
  | cons span rest ih =>
    obtain ⟨hoffset, hrest⟩ := h
    refine List.forall_mem_cons.2 ⟨Nat.le_of_eq hoffset.symm, fun later hlater => ?_⟩
    have hle := ih hrest later hlater
    omega

theorem append_iff : Abut first (left ++ right) last ↔ ∃ middle, Abut first left middle ∧ Abut middle right last := by
  induction left generalizing first with
  | nil => simp [Abut]
  | cons span left ih => simp only [List.cons_append, Abut, ih, exists_and_left, and_assoc]

end Abut

namespace Node

/-- The spans of the nodes that have not been rewritten away. -/
def spans (nodes : List Node) : List (Nat × Nat) :=
  (nodes.filter (·.kind ≠ .inert)).map fun node => (node.offset, node.length)

theorem spans_cons {node : Node} (h : node.kind ≠ .inert) (rest : List Node) :
    spans (node :: rest) = (node.offset, node.length) :: spans rest := by
  simp [spans, h]

theorem spans_cons_inert {node : Node} (h : node.kind = .inert) (rest : List Node) :
    spans (node :: rest) = spans rest := by
  simp [spans, h]

@[simp] theorem spans_append (left right : List Node) : spans (left ++ right) = spans left ++ spans right := by
  simp [spans]

theorem exists_abut_of_cons {node : Node} {rest : List Node} {first last : Nat}
    (h : Abut first (spans (node :: rest)) last) : ∃ place, Abut place (spans rest) last := by
  by_cases hinert : node.kind = .inert
  · rw [spans_cons_inert hinert] at h
    exact ⟨first, h⟩
  · rw [spans_cons hinert] at h
    exact ⟨_, h.2⟩

theorem spans_of_inert {nodes : List Node} (h : ∀ node ∈ nodes, node.kind = .inert) : spans nodes = [] := by
  simpa [spans] using h

/-- What is left of the nodes behind one goes on where that one ends. -/
theorem abut_behind {nodes : List Node} {node : Node} {first last i : Nat} (h : Abut first (spans nodes) last)
    (hnode : nodes[i]? = some node) (hlive : node.kind ≠ .inert) :
    Abut node.finish (spans (nodes.drop (i + 1))) last := by
  rw [← List.take_append_drop i nodes, drop_of_getElem? hnode, spans_append, spans_cons hlive] at h
  obtain ⟨_, -, -, hlater⟩ := Abut.append_iff.1 h
  exact hlater

/-- Links play no part in it. -/
theorem spans_map_unlinked (nodes : List Node) : spans (nodes.map unlinked) = spans nodes := by
  simp only [spans, List.filter_map, List.map_map]
  rfl

theorem spans_linkNodes (nodes : List Node) : spans (linkNodes nodes) = spans nodes := by
  rw [← spans_map_unlinked, linkNodes, Outlook.map_unlinked_passAll, spans_map_unlinked]

theorem exists_of_mem_linkNodes {nodes : List Node} {node : Node} (h : node ∈ linkNodes nodes) :
    ∃ node' ∈ nodes, node'.unlinked = node.unlinked := by
  have hmem : node.unlinked ∈ nodes.map unlinked := by
    rw [← Outlook.map_unlinked_passAll Outlook.empty 0 nodes]
    exact List.mem_map_of_mem h
  exact List.mem_map.1 hmem

theorem spans_ofItems (index : Nat) (groups : List Nat) (items : List (Spanned Item)) :
    spans (ofItems index groups items) = items.map fun item => (item.offset, item.width) := by
  induction items generalizing index groups with
  | nil => rfl
  | cons item items ih =>
    have hkind : (ofItem groups item).kind ≠ .inert := by
      obtain ⟨value, offset, width⟩ := item
      rcases value with (a | q | _ | _ | _ | _ | _) | _ | _
      · cases a <;> exact nofun
      all_goals exact nofun
    rw [ofItems, spans_cons hkind, ih, List.map_cons]
    rfl

end Node

namespace Phrase

/-- The spans of items. -/
def spans (items : List (Spanned Item)) : List (Nat × Nat) := items.map fun item => (item.offset, item.width)

/-- Markers at its ends leave a body as it is. -/
theorem abut_mark {first last : Nat} {items : List (Spanned Item)} (h : Abut first (spans items) last)
    (barred : Bool) : Abut first (spans (mark barred first last items)) last := by
  cases barred with
  | false => exact h
  | true =>
    have hmarked : Abut first (spans items ++ [(last, 0)]) last := Abut.append_iff.2 ⟨last, h, rfl, rfl⟩
    rw [spans, mark, if_pos rfl, List.map_cons, List.map_append]
    exact ⟨rfl, hmarked⟩

/-- **The items of a phrase lie side by side**, because its tokens do. -/
theorem abut_items {p : Phrase} {first last : Nat} (h : Spanned.Tiles first p.tokens last) :
    Abut first (spans p.items) last := by
  induction p generalizing first last with
  | nil => exact h
  | leaf t hleaf rest ih =>
    obtain ⟨hoffset, -, hrest⟩ := h
    exact ⟨hoffset, ih hrest⟩
  | group o inner z rest ihInner ihRest =>
    obtain ⟨rfl, -, hbody⟩ := h
    obtain ⟨_, hinner, rfl, -, hrest⟩ := Spanned.tiles_append.1 hbody
    have hmarked := abut_mark (ihInner hinner) inner.barred
    rw [items, spans, List.map_cons, List.map_append, List.map_cons]
    exact ⟨rfl, Abut.append_iff.2 ⟨_, hmarked, rfl, ihRest hrest⟩⟩

end Phrase

/-! ## What rewriting does to spans -/

namespace Collapse

open Node

theorem spans_replaced (start : Node) (inner : List Node) (finish : Node) (sets : List CharSet) :
    spans (replaced start inner finish sets) =
      [(start.offset, finish.offset - start.offset), (finish.offset, finish.length)] := by
  have hinner : spans (inner.map hollow) = [] := spans_of_inert (by simp [hollow])
  rw [replaced, spans_cons (by simp [asSet]), spans_append, hinner, spans_cons (by simp)]
  rfl

/-- A set takes the place of the nodes between the ends of its alternation. -/
theorem abut_rewrite (nodes : List Node) :
    ∀ first last, Abut first (spans nodes) last → Abut first (spans (rewrite false nodes)) last := by
  induction nodes using rewrite_induction with
  | nil => exact fun _ _ h => h
  | keep node rest _ ih =>
    intro first last h
    by_cases hinert : node.kind = .inert
    · rw [spans_cons_inert hinert] at h ⊢
      exact ih first last h
    · rw [spans_cons hinert] at h ⊢
      exact ⟨h.1, ih _ _ h.2⟩
  | set start inner finish sets right hstart _ hfinish ih =>
    intro first last h
    have hne : start.kind ≠ .inert := by simp [hstart]
    have hne' : finish.kind ≠ .inert := by simp [hfinish]
    rw [whole, spans_append, spans_cons hne, spans_append, spans_cons hne'] at h
    obtain ⟨rfl, hrest⟩ := h
    obtain ⟨middle, hbody, hright⟩ := Abut.append_iff.1 hrest
    obtain ⟨middle', hinner, rfl, hend⟩ := Abut.append_iff.1 hbody
    have hle := hinner.le
    rw [spans_append, spans_replaced]
    refine ⟨rfl, ?_, ?_⟩
    · omega
    · obtain rfl : finish.offset + finish.length = middle := hend
      exact ih _ _ hright

theorem spans_rewrite_ne_nil (nodes : List Node) : spans nodes ≠ [] → spans (rewrite false nodes) ≠ [] := by
  induction nodes using rewrite_induction with
  | nil => exact id
  | keep node rest _ ih =>
    by_cases hinert : node.kind = .inert
    · rw [spans_cons_inert hinert, spans_cons_inert hinert]
      exact ih
    · rw [spans_cons hinert, spans_cons hinert]
      exact fun _ => List.cons_ne_nil _ _
  | set start inner finish sets right _ _ _ _ =>
    rw [spans_append (replaced start inner finish sets), spans_replaced]
    exact fun _ => List.cons_ne_nil _ _

end Collapse

namespace Coalesce

open Node

variable {node : Node} {rest : List Node} {first : Nat}

/-- Runs go to the right. -/
theorem le_runEnd {nodes : List Node} {last : Nat} (h : Abut first (spans nodes) last) :
    first ≤ runEnd first nodes := by
  induction nodes generalizing first with
  | nil => exact Nat.le_refl _
  | cons node rest ih =>
    cases hlone : lone? node rest with
    | none => rw [runEnd_of_not_lone hlone]
    | some c =>
      rw [spans_cons (ne_inert_of_lone hlone)] at h
      obtain ⟨rfl, hrest⟩ := h
      rw [runEnd_of_lone hlone]
      exact (Nat.le_add_right node.offset node.length).trans (ih hrest)

theorem finish_joinedAll (symbols : List Char) {last : Nat} (h : Abut node.finish (spans rest) last) :
    (joinedAll node symbols node.finish rest).finish = runEnd node.finish rest :=
  Nat.add_sub_cancel' ((Nat.le_add_right node.offset node.length).trans (le_runEnd h))

/-- The first node of a run takes the place of all of them; inside a run nothing is
left up to its end. -/
theorem abut_rewrite (inside : Bool) (nodes : List Node) : ∀ first last, Abut first (spans nodes) last →
    Abut (if inside then runEnd first nodes else first) (spans (rewrite inside nodes)) last := by
  induction inside, nodes using rewrite_induction with
  | nil inside => cases inside <;> exact fun _ _ h => h
  | keep inside node rest hlone ih =>
    intro first last h
    rw [runEnd_of_not_lone hlone, ite_self]
    by_cases hinert : node.kind = .inert
    · rw [spans_cons_inert hinert] at h ⊢
      exact ih first last h
    · rw [spans_cons hinert] at h ⊢
      exact ⟨h.1, ih _ _ h.2⟩
  | first node rest c hlone ih =>
    intro first last h
    rw [spans_cons (ne_inert_of_lone hlone)] at h
    obtain ⟨rfl, hrest⟩ := h
    have hjoined : (joinedAll node [c] node.finish rest).kind ≠ .inert := nofun
    rw [spans_cons hjoined]
    refine ⟨rfl, ?_⟩
    show Abut (joinedAll node [c] node.finish rest).finish _ _
    rw [finish_joinedAll _ hrest]
    exact ih _ _ hrest
  | later node rest c hlone ih =>
    intro first last h
    rw [spans_cons (ne_inert_of_lone hlone)] at h
    rw [spans_cons_inert rfl, if_pos rfl, runEnd_of_lone hlone]
    exact ih _ _ h.2

theorem spans_rewrite_ne_nil (nodes : List Node) : spans nodes ≠ [] → spans (rewrite false nodes) ≠ [] := by
  induction nodes with
  | nil => exact id
  | cons node rest ih =>
    cases hlone : lone? node rest with
    | none =>
      rw [rewrite_of_not_lone hlone]
      by_cases hinert : node.kind = .inert
      · rw [spans_cons_inert hinert, spans_cons_inert hinert]
        exact ih
      · rw [spans_cons hinert, spans_cons hinert]
        exact fun _ => List.cons_ne_nil _ _
    | some c =>
      have hjoined : (joinedAll node [c] node.finish rest).kind ≠ .inert := by simp [joinedAll, joined]
      rw [rewrite_lone hlone, spans_cons hjoined]
      exact fun _ => List.cons_ne_nil _ _

end Coalesce

/-! ## Where items are read -/

/-- Every piece is what is read where it lies in the whole text. -/
theorem Reader.Reads.read_of_mem {α ε : Type} {read : Reader α ε} {offset : Nat} {whole text : List Char}
    {pieces : List (Spanned α)} (h : Reads read offset text pieces) (hwhole : whole.drop offset = text) :
    ∀ piece ∈ pieces, ∃ c rest, whole.drop piece.offset = c :: rest ∧
      read piece.offset c rest = .ok (piece.value, piece.width) := by
  induction h with
  | nil => exact nofun
  | @cons offset c rest value width pieces head tail ih =>
    refine List.forall_mem_cons.2 ⟨⟨c, rest, hwhole, head⟩, ih ?_⟩
    rw [← hwhole, List.drop_drop]

/-- An item lies where it is read, and a marker takes no room. -/
inductive Item.ReadAt (encoding : Encoding) (pattern : List Char) : Spanned Item → Prop
  | token {t : Token} {offset width : Nat} {c : Char} {rest : List Char} (hdrop : pattern.drop offset = c :: rest)
      (hread : Token.read encoding offset c rest = .ok (t, width)) : ReadAt encoding pattern ⟨.token t, offset, width⟩
  | start (place : Nat) : ReadAt encoding pattern ⟨.alternationStart, place, 0⟩
  | finish (place : Nat) : ReadAt encoding pattern ⟨.alternationEnd, place, 0⟩

namespace Phrase

open Item

variable {encoding : Encoding} {pattern : List Char}

theorem readAt_mark {items : List (Spanned Item)} (h : ∀ item ∈ items, ReadAt encoding pattern item) (barred : Bool)
    (first last : Nat) : ∀ item ∈ mark barred first last items, ReadAt encoding pattern item := by
  cases barred with
  | false => exact h
  | true =>
    have hlast : ∀ item ∈ items ++ [⟨.alternationEnd, last, 0⟩], ReadAt encoding pattern item :=
      List.forall_mem_append.2 ⟨h, List.forall_mem_singleton.2 (.finish last)⟩
    exact List.forall_mem_cons.2 ⟨.start first, hlast⟩

theorem readAt_items {p : Phrase} (h : ∀ t ∈ p.tokens, ReadAt encoding pattern (t.map .token)) :
    ∀ item ∈ p.items, ReadAt encoding pattern item := by
  induction p with
  | nil => exact nofun
  | leaf t hleaf rest ih =>
    obtain ⟨ht, hrest⟩ := List.forall_mem_cons.1 h
    exact List.forall_mem_cons.2 ⟨ht, ih hrest⟩
  | group o inner z rest ihInner ihRest =>
    obtain ⟨hopen, hlater⟩ := List.forall_mem_cons.1 h
    obtain ⟨hinner, hend⟩ := List.forall_mem_append.1 hlater
    obtain ⟨hclose, hrest⟩ := List.forall_mem_cons.1 hend
    have hbody := readAt_mark (ihInner hinner) inner.barred (o + 1) z
    exact List.forall_mem_cons.2 ⟨hopen, List.forall_mem_append.2
      ⟨hbody, List.forall_mem_cons.2 ⟨hclose, ihRest hrest⟩⟩⟩

theorem readAt_body {p : Phrase} (h : (Token.read encoding).Reads 0 pattern p.tokens) (first last : Nat) :
    ∀ item ∈ p.body first last, ReadAt encoding pattern item := by
  refine readAt_mark (readAt_items fun t ht => ?_) p.barred first last
  obtain ⟨c, rest, hdrop, hread⟩ := h.read_of_mem List.drop_zero t ht
  exact .token hdrop hread

end Phrase

/-! ## What literals spell -/

/-- The symbols from `first` to `last`, taken one glyph at a time, are these
literals. -/
inductive Glyph.Literals (encoding : Encoding) (pattern : List Char) : (first last : Nat) → List Char → Prop
  | nil (place : Nat) : Literals encoding pattern place place []
  | cons {first width last : Nat} {c symbol : Char} {rest symbols : List Char}
      (hdrop : pattern.drop first = c :: rest)
      (head : Glyph.read encoding first c rest = .ok (.literal symbol, width))
      (tail : Literals encoding pattern (first + width) last symbols) :
      Literals encoding pattern first last (symbol :: symbols)

theorem Token.read_eq_literal_iff {encoding : Encoding} {offset width : Nat} {c symbol : Char} {rest : List Char} :
    read encoding offset c rest = .ok (atom (.literal symbol), width) ↔
      Glyph.read encoding offset c rest = .ok (.literal symbol, width) := by
  constructor
  · intro h
    cases read_eq_ok_iff.1 h with
    | plain hb hc => simp only [Glyph.read, if_neg hb, Metachar.ofChar?_eq_none_iff.2 hc]
    | escape hc hread => simp only [Glyph.read, if_pos hc, hread, Except.map]
  · intro h
    simp only [read, h]

namespace Glyph.Literals

variable {encoding : Encoding} {pattern : List Char} {first middle last : Nat} {symbols later : List Char}

theorem append (h : Literals encoding pattern first middle symbols) (h' : Literals encoding pattern middle last later) :
    Literals encoding pattern first last (symbols ++ later) := by
  induction h with
  | nil => exact h'
  | cons hdrop head _ ih => exact .cons hdrop head (ih h')

theorem le (h : Literals encoding pattern first last symbols) : first ≤ last := by
  induction h with
  | nil => exact Nat.le_refl _
  | cons _ _ _ ih => omega

/-- A span spells at most one thing. -/
theorem eq (h : Literals encoding pattern first last symbols) (h' : Literals encoding pattern first last later) :
    symbols = later := by
  induction h generalizing later with
  | nil =>
    cases h' with
    | nil => rfl
    | cons hdrop head tail =>
      have hpos := (Token.fits_read encoding (Token.read_eq_literal_iff.2 head)).1
      have hle := tail.le
      omega
  | cons hdrop head tail ih =>
    cases h' with
    | nil =>
      have hpos := (Token.fits_read encoding (Token.read_eq_literal_iff.2 head)).1
      have hle := tail.le
      omega
    | cons hdrop' head' tail' =>
      obtain ⟨rfl, rfl⟩ := List.cons.inj (hdrop.symm.trans hdrop')
      obtain ⟨hglyph, rfl⟩ := Prod.mk.inj (Except.ok.inj (head.symm.trans head'))
      obtain rfl := Glyph.literal.inj hglyph
      rw [ih tail']

end Glyph.Literals

namespace Node

variable {encoding : Encoding} {pattern : List Char} {nodes : List Node}

/-- A node of literals holds what its span spells. -/
def Spelled (encoding : Encoding) (pattern : List Char) (node : Node) : Prop :=
  ∀ run, node.kind = .literal run → Glyph.Literals encoding pattern node.offset node.finish run

theorem Spelled.of_unlinked {node node' : Node} (h : node.Spelled encoding pattern)
    (heq : node'.unlinked = node.unlinked) : node'.Spelled encoding pattern := by
  simp only [unlinked, mk.injEq] at heq
  obtain ⟨hkind, hoffset, hlength, -⟩ := heq
  intro run hrun
  rw [finish, hoffset, hlength]
  exact h run (hkind.symm.trans hrun)

theorem spelled_ofItem (groups : List Nat) {item : Spanned Item} (h : Item.ReadAt encoding pattern item) :
    (ofItem groups item).Spelled encoding pattern := by
  intro run hrun
  cases h with
  | start => cases hrun
  | finish => cases hrun
  | @token t offset width c rest hdrop hread =>
    obtain ⟨symbol, rfl, rfl⟩ : ∃ symbol, t = .atom (.literal symbol) ∧ run = [symbol] := by
      rcases t with (symbol | set | _) | q | _ | _ | _ | _ | _
      case atom.literal => exact ⟨symbol, rfl, (NodeKind.literal.inj hrun).symm⟩
      all_goals cases hrun
    exact .cons hdrop (Token.read_eq_literal_iff.1 hread) (.nil _)

theorem spelled_rewrite_collapse (h : ∀ node ∈ nodes, node.Spelled encoding pattern) :
    ∀ node ∈ Collapse.rewrite false nodes, node.Spelled encoding pattern := by
  induction nodes using Collapse.rewrite_induction with
  | nil => exact h
  | keep node rest _ ih =>
    rw [List.forall_mem_cons] at h ⊢
    exact ⟨h.1, ih h.2⟩
  | set start inner finish sets right hstart hinner hfinish ih =>
    rw [List.forall_mem_append] at h ⊢
    refine ⟨fun node hnode run hrun => ?_, ih h.2⟩
    simp only [Collapse.replaced, List.mem_cons, List.mem_append, List.mem_map, List.not_mem_nil, or_false] at hnode
    rcases hnode with rfl | ⟨node, -, rfl⟩ | rfl
    · cases hrun
    · cases hrun
    · cases hrun

/-- The symbols of a run are spelled up to its end. -/
theorem literals_run {first last : Nat} (habut : Abut first (spans nodes) last)
    (h : ∀ node ∈ nodes, node.Spelled encoding pattern) :
    Glyph.Literals encoding pattern first (Coalesce.runEnd first nodes) ((Coalesce.run nodes).map (·.1)) := by
  induction nodes generalizing first with
  | nil => exact .nil first
  | cons node rest ih =>
    cases hlone : Coalesce.lone? node rest with
    | none =>
      have hrun : Coalesce.run (node :: rest) = [] := by simp [Coalesce.run, hlone]
      rw [Coalesce.runEnd_of_not_lone hlone, hrun]
      exact .nil first
    | some c =>
      obtain ⟨hnode, hrest⟩ := List.forall_mem_cons.1 h
      have hrun : Coalesce.run (node :: rest) = (c, node.finish) :: Coalesce.run rest := by
        simp [Coalesce.run, hlone]
      rw [spans_cons (Coalesce.ne_inert_of_lone hlone)] at habut
      obtain ⟨rfl, hlater⟩ := habut
      rw [Coalesce.runEnd_of_lone hlone, hrun]
      exact (hnode [c] (Coalesce.lone?_eq_some hlone).1).append (ih hlater hrest)

theorem spelled_rewrite_coalesce (inside : Bool) (nodes : List Node) : ∀ first last, Abut first (spans nodes) last →
    (∀ node ∈ nodes, node.Spelled encoding pattern) →
      ∀ node ∈ Coalesce.rewrite inside nodes, node.Spelled encoding pattern := by
  induction inside, nodes using Coalesce.rewrite_induction with
  | nil inside => exact fun _ _ _ h => h
  | keep inside node rest hlone ih =>
    intro first last habut h
    obtain ⟨hnode, hrest⟩ := List.forall_mem_cons.1 h
    obtain ⟨place, hlater⟩ := exists_abut_of_cons habut
    exact List.forall_mem_cons.2 ⟨hnode, ih _ _ hlater hrest⟩
  | first node rest c hlone ih =>
    intro first last habut h
    obtain ⟨hnode, hrest⟩ := List.forall_mem_cons.1 h
    rw [spans_cons (Coalesce.ne_inert_of_lone hlone)] at habut
    refine List.forall_mem_cons.2 ⟨fun run hrun => ?_, ih _ _ habut.2 hrest⟩
    obtain rfl := NodeKind.literal.inj hrun
    rw [Coalesce.finish_joinedAll _ habut.2]
    exact (hnode [c] (Coalesce.lone?_eq_some hlone).1).append (literals_run habut.2 hrest)
  | later node rest c hlone ih =>
    intro first last habut h
    rw [spans_cons (Coalesce.ne_inert_of_lone hlone)] at habut
    exact List.forall_mem_cons.2 ⟨nofun, ih _ _ habut.2 (List.forall_mem_cons.1 h).2⟩

end Node

/-! ## Whole patterns -/

namespace Node

variable {encoding : Encoding} {pattern : List Char} {nodes : List Node}

/-- The nodes that are left cover the pattern, and those of literals hold what their
spans spell. -/
structure Covers (encoding : Encoding) (pattern : List Char) (nodes : List Node) : Prop where
  abut : Abut 0 (spans nodes) pattern.length
  nonempty : spans nodes ≠ []
  spelled : ∀ node ∈ nodes, node.Spelled encoding pattern

theorem covers_ofItems {p : Phrase} (h : (Token.read encoding).Reads 0 pattern p.tokens) :
    Covers encoding pattern (NodeList.ofItems (p.body 0 pattern.length) pattern.length).nodes where
  abut := by
    have hbody := Phrase.abut_mark (Phrase.abut_items (Markers.tiles_pattern h)) p.barred
    rw [NodeList.ofItems, spans_append, spans_ofItems]
    exact Abut.append_iff.2 ⟨_, hbody, rfl, rfl, rfl⟩
  nonempty := by simp [NodeList.ofItems, spans, bare]
  spelled := by
    rw [NodeList.ofItems, List.forall_mem_append]
    constructor
    · intro node hnode
      obtain ⟨item, hitem, groups, rfl⟩ := exists_of_mem_ofItems hnode
      exact spelled_ofItem groups (Phrase.readAt_body h _ _ item hitem)
    · intro node hnode run hrun
      rcases List.mem_pair.1 hnode with rfl | rfl <;> cases hrun

theorem Covers.collapse (h : Covers encoding pattern nodes) : Covers encoding pattern (collapse nodes) where
  abut := Collapse.abut_rewrite nodes _ _ h.abut
  nonempty := Collapse.spans_rewrite_ne_nil nodes h.nonempty
  spelled := spelled_rewrite_collapse h.spelled

theorem Covers.coalesce (h : Covers encoding pattern nodes) : Covers encoding pattern (coalesce nodes) where
  abut := Coalesce.abut_rewrite false nodes _ _ h.abut
  nonempty := Coalesce.spans_rewrite_ne_nil nodes h.nonempty
  spelled := spelled_rewrite_coalesce false nodes _ _ h.abut h.spelled

theorem Covers.linkNodes (h : Covers encoding pattern nodes) : Covers encoding pattern (linkNodes nodes) where
  abut := by rw [spans_linkNodes]; exact h.abut
  nonempty := by rw [spans_linkNodes]; exact h.nonempty
  spelled := by
    intro node hnode
    obtain ⟨node', hnode', heq⟩ := exists_of_mem_linkNodes hnode
    exact (h.spelled node' hnode').of_unlinked heq.symm

/-- **No pass leaves a gap.** -/
theorem Covers.runAll (h : Covers encoding pattern nodes) (passes : List Pass) :
    Covers encoding pattern (Pass.runAll passes nodes) :=
  Pass.runAll_induction (motive := Covers encoding pattern) (fun _ => Covers.collapse) (fun _ => Covers.coalesce)
    (fun _ => Covers.linkNodes) passes h

/-- Spans side by side, said of neighbours. -/
theorem ends_of_abut {first last : Nat} (hne : nodes ≠ [])
    (h : Abut first (nodes.map fun node => (node.offset, node.length)) last) :
    nodes.head?.map (·.offset) = some first ∧ nodes.IsChain (fun node later => node.finish = later.offset) ∧
      nodes.getLast?.map (·.finish) = some last := by
  induction nodes generalizing first with
  | nil => exact absurd rfl hne
  | cons node rest ih =>
    obtain ⟨hoffset, hrest⟩ := h
    cases rest with
    | nil => exact ⟨congrArg some hoffset, .singleton _, congrArg some hrest⟩
    | cons later rest =>
      obtain ⟨hhead, hchain, hlast⟩ := ih (List.cons_ne_nil _ _) hrest
      have hmeet : node.finish = later.offset := (Option.some.inj hhead).symm
      exact ⟨congrArg some hoffset, .cons_cons hmeet hchain, by rwa [List.getLast?_cons_cons]⟩

end Node

variable {encoding : Encoding} {pattern : List Char} {options : Options} {list : NodeList}

/-- **The nodes that are left cover the pattern** without gaps or overlaps, and each node
of literals holds exactly what is spelled where it lies. -/
theorem NodeList.live_cover_of_parse (h : parse encoding pattern options = .ok list) :
    let live := list.nodes.filter (·.kind ≠ .inert)
    (live.head?.map (·.offset) = some 0 ∧ live.IsChain (fun node later => node.finish = later.offset) ∧
        live.getLast?.map (·.finish) = some pattern.length) ∧
      ∀ node ∈ list.nodes, ∀ run, node.kind = .literal run →
        ∀ symbols, Glyph.Literals encoding pattern node.offset node.finish symbols ↔ symbols = run := by
  obtain ⟨p, hp, -, rfl⟩ := parse_eq_ok_iff.1 h
  have hcovers := (Node.covers_ofItems hp).runAll options.passes
  refine ⟨Node.ends_of_abut (fun hnil => hcovers.nonempty ?_) hcovers.abut, ?_⟩
  · exact congrArg (List.map _) hnil
  · intro node hnode run hrun symbols
    have hspelled := hcovers.spelled node hnode run hrun
    constructor
    · exact fun hsymbols => hsymbols.eq hspelled
    · rintro rfl
      exact hspelled

theorem NodeList.live_cover_of_parse_escaped :
    ∃ list, parse .unicode ['a', '\\', 'n', 'b', '(', 'c', '|', '\\', 't', ')', 'd', '+'] {} = .ok list ∧
      let live := list.nodes.filter (·.kind ≠ .inert)
      (live.head?.map (·.offset) = some 0 ∧ live.IsChain (fun node later => node.finish = later.offset) ∧
          live.getLast?.map (·.finish) = some 12) ∧
        ∀ node ∈ list.nodes, ∀ run, node.kind = .literal run →
          ∀ symbols, Glyph.Literals .unicode ['a', '\\', 'n', 'b', '(', 'c', '|', '\\', 't', ')', 'd', '+']
            node.offset node.finish symbols ↔ symbols = run := by
  refine ⟨_, rfl, ?_⟩
  exact @live_cover_of_parse .unicode ['a', '\\', 'n', 'b', '(', 'c', '|', '\\', 't', ')', 'd', '+'] {} _ rfl

end RegexAutomaton
