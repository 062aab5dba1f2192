/-
Sets that read back as they are written.

What is written for a set is read as that set, wherever it stands (`ReadsBack`), and so
is the listing of the range that stands for a set with one member. The sets of a pattern
are of this sort (`Bracket.legible_of_read`), and those that the passes make of them too
(`Pass.legible_runAll`), unless they hold everything.
-/
import RegexAutomaton.Guard
import RegexAutomaton.Proofs.Symbols
import RegexAutomaton.Proofs.Writing

namespace RegexAutomaton

variable {encoding : Encoding} {nodes nodes' : List Node}

/-! ## The sets that passes make -/

/-- The union of sets that can be written can be written too. -/
theorem CharSet.legible_union {sets : List CharSet} (hne : sets ≠ [])
    (h : ∀ set ∈ sets, set = .any ∨ set.Legible encoding) : union sets = .any ∨ (union sets).Legible encoding := by
  unfold union
  split
  · exact .inl rfl
  · next hany =>
    have hlegible : ∀ set ∈ sets, set.Legible encoding := fun set hset =>
      (h set hset).resolve_left fun heq => hany (List.any_eq_true.2 ⟨set, hset, isAny_iff.2 heq⟩)
    obtain ⟨set, hset⟩ := List.exists_mem_of_ne_nil sets hne
    obtain ⟨r, hr⟩ := List.exists_mem_of_ne_nil _ (hlegible set hset).ne_nil
    refine .inr (legible_ofMembers (List.ne_nil_of_mem (List.mem_flatMap.2 ⟨set, hset, hr⟩)) fun r hr => ?_)
    obtain ⟨set, hset, hr⟩ := List.mem_flatMap.1 hr
    exact ⟨(hlegible set hset).ordered r hr, (hlegible set hset).has r hr⟩

namespace Collapse

theorem legible_of_choice? {kind : NodeKind} {set : CharSet} (h : choice? kind = some set)
    (hkind : kind.Legible encoding) : set = .any ∨ set.Legible encoding := by
  rcases choice?_eq_some h with ⟨c, rfl, rfl⟩ | ⟨rfl, -⟩ | ⟨rfl, rfl⟩
  · have hc : encoding.Has c := hkind c (List.mem_singleton_self c)
    exact .inr ⟨List.cons_ne_nil _ _, List.pairwise_singleton _ _, List.forall_mem_singleton.2 (Char.le_refl c),
      List.forall_mem_singleton.2 ⟨hc, hc⟩⟩
  · exact .inr hkind
  · exact .inl rfl

theorem Choices.forall_legible {sets : List CharSet} (h : Choices nodes sets)
    (hnodes : ∀ node ∈ nodes, node.kind.Legible encoding) : ∀ set ∈ sets, set = .any ∨ set.Legible encoding := by
  induction h with
  | one hchoice =>
    rw [List.forall_mem_singleton] at hnodes ⊢
    exact legible_of_choice? hchoice hnodes
  | more hchoice hbar _ ih =>
    obtain ⟨hbranch, hrest⟩ := List.forall_mem_cons.1 hnodes
    exact List.forall_mem_cons.2 ⟨legible_of_choice? hchoice hbranch, ih (List.forall_mem_cons.1 hrest).2⟩

theorem Choices.ne_nil {sets : List CharSet} (h : Choices nodes sets) : sets ≠ [] := by
  cases h <;> exact List.cons_ne_nil _ _

theorem Collapses.forall_legible (h : Collapses nodes nodes') (hnodes : ∀ node ∈ nodes, node.kind.Legible encoding) :
    ∀ node ∈ nodes', node.kind.Legible encoding := by
  induction h with
  | nil => exact hnodes
  | keep node _ ih =>
    obtain ⟨hnode, hrest⟩ := List.forall_mem_cons.1 hnodes
    exact List.forall_mem_cons.2 ⟨hnode, ih hrest⟩
  | @set start finish inner nodes nodes' sets length hstart hinner hfinish _ ih =>
    obtain ⟨-, hrest⟩ := List.forall_mem_cons.1 hnodes
    obtain ⟨hbranches, hrest⟩ := List.forall_mem_append.1 hrest
    refine List.forall_mem_cons.2 ⟨CharSet.legible_union hinner.ne_nil (hinner.forall_legible hbranches), ?_⟩
    refine List.forall_mem_append.2 ⟨fun node hnode => ?_, List.forall_mem_cons.2 ⟨trivial, ?_⟩⟩
    · obtain ⟨_, -, rfl⟩ := List.mem_map.1 hnode
      trivial
    · exact ih (List.forall_mem_cons.1 hrest).2

end Collapse

theorem Coalesce.forall_legible (inside : Bool) (nodes : List Node) :
    (∀ node ∈ nodes, node.kind.Legible encoding) → ∀ node ∈ rewrite inside nodes, node.kind.Legible encoding := by
  induction inside, nodes using rewrite_induction with
  | nil => exact id
  | keep inside node rest _ ih =>
    intro h
    obtain ⟨hnode, hrest⟩ := List.forall_mem_cons.1 h
    exact List.forall_mem_cons.2 ⟨hnode, ih hrest⟩
  | first node rest c hlone ih =>
    intro h
    obtain ⟨hnode, hrest⟩ := List.forall_mem_cons.1 h
    refine List.forall_mem_cons.2 ⟨fun d hd => ?_, ih hrest⟩
    rcases List.mem_cons.1 hd with rfl | hd
    · rw [(lone?_eq_some hlone).1] at hnode
      exact hnode d (List.mem_singleton_self d)
    · obtain ⟨later, hlater, hd⟩ := List.mem_flatMap.1 (symbols_run_subset rest hd)
      exact (hrest later hlater).has d hd
  | later node rest c hlone ih =>
    intro h
    exact List.forall_mem_cons.2 ⟨trivial, ih (List.forall_mem_cons.1 h).2⟩

/-- **Passes keep nodes legible.** -/
theorem Pass.legible_runAll (passes : List Pass) (h : ∀ node ∈ nodes, node.kind.Legible encoding) :
    ∀ node ∈ runAll passes nodes, node.kind.Legible encoding := by
  refine runAll_induction (motive := fun nodes => ∀ node ∈ nodes, node.kind.Legible encoding)
    (fun nodes h => ?collapse) (fun nodes h => ?coalesce) (fun nodes h => ?link) passes h
  case collapse => exact (Collapse.collapses_rewrite nodes).forall_legible h
  case coalesce => exact Coalesce.forall_legible false nodes h
  case link =>
    intro node hnode
    have hkind : node.kind ∈ nodes.map (·.kind) := by
      rw [← Outlook.map_kind_passAll .empty 0 nodes]
      exact List.mem_map_of_mem hnode
    obtain ⟨node', hnode', heq⟩ := List.mem_map.1 hkind
    exact heq ▸ h node' hnode'

/-! ## Reading back -/

/-- Whatever stands before and after it, the text is a bracket that is read as the set. -/
def CharSet.ReadsBack (encoding : Encoding) (text : List Char) (s : CharSet) : Prop :=
  ∀ left right, ∃ rest, (left ++ text ++ right).drop left.length = '[' :: rest ∧
    Bracket.read encoding left.length rest = .ok (s, text.length)

theorem Bracket.SetText.readsBack {text : List Char} {s : CharSet} (h : SetText encoding text s.negated s.members)
    (hnodup : s.members.Nodup) : s.ReadsBack encoding text := by
  intro left right
  obtain ⟨own, rfl, -⟩ := id h
  have hread := h.read left.length right
  rw [eraseDups_of_nodup hnodup] at hread
  exact ⟨_, by rw [List.append_assoc, List.drop_left]; rfl, hread⟩

/-- The listing of a range is a bracket, whose ends are written with no regard to dashes. -/
theorem Guard.setText_range {lo hi : Char} (hlo : encoding.Has lo) (hhi : encoding.Has hi) (h : lo ≤ hi) :
    Bracket.SetText encoding (Guard.range lo hi).text false [⟨lo, hi⟩] := by
  obtain ⟨hlow, hstart⟩ := Bracket.symbolText_write hlo
  obtain ⟨hhigh, hopen⟩ := Bracket.symbolText_write hhi
  refine ⟨(Escape.write lo ++ '-' :: Escape.write hi) ++ [']'], rfl, fun _ hd => ?_,
    .cons (.inl rfl) (.range hlow hhigh (fun hd => (hopen ']' hd).2 rfl) h) .close⟩
  rw [List.append_assoc, List.head?_append_of_ne_nil _ hlow.ne_nil] at hd
  exact (hstart '^' hd).1 rfl

/-- **A set is read back from what is written for it**, and from the listing of its guard
where that is a range. So are the sets of brackets and those that collapsing makes. -/
theorem CharSet.reads_back (encoding : Encoding) :
    (∀ s : CharSet, s.Legible encoding → s.ReadsBack encoding s.text ∧
      ∀ lo hi, s = ⟨false, [⟨lo, hi⟩]⟩ → lo < hi →
        Guard.ofSet s = .range lo hi ∧ s.ReadsBack encoding (Guard.ofSet s).text) ∧
    (∀ offset rest s width, (∀ d ∈ rest, encoding.Has d) → Bracket.read encoding offset rest = .ok (s, width) →
      s.Legible encoding) ∧
    (∀ markers pattern list passes, (∀ d ∈ pattern, encoding.Has d) →
      NodeList.read encoding markers pattern = .ok list → ∀ node ∈ Pass.runAll passes list.nodes,
        ∀ s, node.kind = .collapsedStart s → s.isAny = false → s.Legible encoding) := by
  refine ⟨fun s h => ⟨(Bracket.setText_text h).readsBack h.nodup, ?_⟩, fun offset rest s width hrest h => ?_, ?_⟩
  · rintro lo hi rfl hlt
    have hne : lo ≠ hi := fun heq => Char.lt_irrefl lo (heq ▸ hlt)
    have hguard : Guard.ofSet ⟨false, [⟨lo, hi⟩]⟩ = .range lo hi := by
      simp [Guard.ofSet, isAny, CharRange.isSingle, hne]
    have hmem : (⟨lo, hi⟩ : CharRange) ∈ [⟨lo, hi⟩] := List.mem_singleton_self _
    obtain ⟨hlo, hhi⟩ := h.has _ hmem
    rw [hguard]
    exact ⟨rfl, Bracket.SetText.readsBack (Guard.setText_range hlo hhi (h.ordered _ hmem)) h.nodup⟩
  · exact Bracket.legible_of_read hrest h
  · intro markers pattern list passes hpattern h node hnode s hkind hany
    have hlegible := Pass.legible_runAll passes (NodeList.legible_of_read hpattern h) node hnode
    rw [hkind] at hlegible
    refine hlegible.resolve_left fun heq => ?_
    rw [isAny_iff.2 heq] at hany
    cases hany

/-- A caret, a dash and brackets come back as members, `[\+--]` as the range from a plus to a
dash, and the sets of `[]-a]` and `a|b` can be written. -/
theorem CharSet.reads_back_special :
    ReadsBack .unicode ['[', '^', '\\', '^', '\\', '-', '\\', ']', ']']
        ⟨true, [.single '^', .single '-', .single ']']⟩ ∧
      ReadsBack .byte ['[', '\\', '+', '-', '-', ']'] ⟨false, [⟨'+', '-'⟩]⟩ ∧
      Legible .unicode ⟨false, [⟨']', 'a'⟩]⟩ ∧ Legible .unicode ⟨false, [.single 'a', .single 'b']⟩ := by
  have hspecial : Legible .unicode ⟨true, [.single '^', .single '-', .single ']']⟩ :=
    ⟨by decide, by decide, by decide, fun r _ => ⟨Encoding.has_unicode r.lo, Encoding.has_unicode r.hi⟩⟩
  have hrange : Legible .byte ⟨false, [⟨'+', '-'⟩]⟩ :=
    ⟨by decide, by decide, by decide, by simp [Encoding.has_byte_iff]⟩
  refine ⟨((reads_back .unicode).1 _ hspecial).1, (((reads_back .byte).1 _ hrange).2 '+' '-' rfl (by decide)).2,
    (reads_back .unicode).2.1 0 [']', '-', 'a', ']'] _ 5 (fun c _ => Encoding.has_unicode c) (by decide), ?_⟩
  exact (reads_back .unicode).2.2 ((Markers.ofPattern? ['a', '|', 'b']).getD .empty) ['a', '|', 'b'] _ [.collapse]
    (fun c _ => Encoding.has_unicode c) rfl _ (.head _) _ rfl rfl

end RegexAutomaton
