/-
The meaning that the grammar gives a pattern.

`Means` goes along with `Derives` and says what every category of tokens means
from what its parts mean. Everything that is derived has such a meaning
(`Derives.exists_means`), and it is what the nodes of the pattern mean
(`denote_eq_of_means`), although those are read without a derivation and with
markers among them.
-/
import RegexAutomaton.Proofs.Derivation
import RegexAutomaton.Proofs.Rewriting

namespace RegexAutomaton

/-- What one atom means in a text. -/
def Atom.meaning (text : List Char) : Atom → Meaning
  | literal c => .run text [c]
  | bracket set => .symbol text set
  | dot => .symbol text .any

/-- What the tokens of each category mean in a text. -/
inductive Means (text : List Char) : Category → List Token → Meaning → Prop
  | empty : Means text .pattern [] .empty
  | whole {ts : List Token} {M : Meaning} (h : Means text .alternation ts M) : Means text .pattern ts M
  | last {ts : List Token} {M : Meaning} (h : Means text .branch ts M) : Means text .alternation ts M
  | bar {ts us : List Token} {M N : Meaning} (h : Means text .branch ts M)
      (later : Means text .alternation us N) : Means text .alternation (ts ++ .bar :: us) (M.alt N)
  | pieces {pieces : List (List Token × Meaning)} (hne : pieces ≠ [])
      (h : ∀ piece ∈ pieces, Means text .piece piece.1 piece.2)
      (inOrder : (pieces.map (·.1)).Pairwise MayPrecede) :
      Means text .branch (pieces.map (·.1)).flatten (pieces.foldr (fun piece M => piece.2.seq M) .empty)
  | anchorStart : Means text .piece [.anchorStart] .atStart
  | anchorEnd : Means text .piece [.anchorEnd] (.atEnd text)
  | once {ts : List Token} {M : Meaning} (h : Means text .unit ts M) : Means text .piece ts M
  | repeated {ts : List Token} {M : Meaning} (h : Means text .unit ts M) (q : Quantifier) :
      Means text .piece (ts ++ [.quantifier q]) (M.repeated q.repetition)
  | atom (a : Atom) : Means text .unit [.atom a] (a.meaning text)
  | group {ts : List Token} {M : Meaning} (h : Means text .alternation ts M) :
      Means text .unit (.groupOpen :: (ts ++ [.groupClose])) M

variable {text : List Char}

/-- What is derived has a meaning. -/
theorem Derives.exists_means {category : Category} {ts : List Token} (h : Derives category ts) :
    ∃ M, Means text category ts M := by
  induction h with
  | empty => exact ⟨_, .empty⟩
  | whole _ ih =>
    obtain ⟨M, hM⟩ := ih
    exact ⟨M, .whole hM⟩
  | last _ ih =>
    obtain ⟨M, hM⟩ := ih
    exact ⟨M, .last hM⟩
  | bar _ _ ih ih' =>
    obtain ⟨M, hM⟩ := ih
    obtain ⟨N, hN⟩ := ih'
    exact ⟨_, .bar hM hN⟩
  | @pieces pieces hne h inOrder ih =>
    have hpairs : ∃ pairs : List (List Token × Meaning), pairs.map (·.1) = pieces ∧
        ∀ pair ∈ pairs, Means text .piece pair.1 pair.2 := by
      clear hne h inOrder
      induction pieces with
      | nil => exact ⟨[], rfl, nofun⟩
      | cons ts pieces ihPieces =>
        obtain ⟨hhead, htail⟩ := List.forall_mem_cons.1 ih
        obtain ⟨M, hM⟩ := hhead
        obtain ⟨pairs, hmap, hpairs⟩ := ihPieces htail
        exact ⟨(ts, M) :: pairs, by rw [List.map_cons, hmap], List.forall_mem_cons.2 ⟨hM, hpairs⟩⟩
    obtain ⟨pairs, rfl, hpairs⟩ := hpairs
    refine ⟨_, .pieces ?_ hpairs inOrder⟩
    intro heq
    subst heq
    exact hne rfl
  | anchorStart => exact ⟨_, .anchorStart⟩
  | anchorEnd => exact ⟨_, .anchorEnd⟩
  | once _ ih =>
    obtain ⟨M, hM⟩ := ih
    exact ⟨M, .once hM⟩
  | repeated _ q ih =>
    obtain ⟨M, hM⟩ := ih
    exact ⟨_, .repeated hM q⟩
  | atom a => exact ⟨_, .atom a⟩
  | group _ ih =>
    obtain ⟨M, hM⟩ := ih
    exact ⟨M, .group hM⟩

/-! ## Reading tokens -/

/-- The kind of node that a token gives, but for the start of a group that
ends. -/
def Token.kind (t : Token) : NodeKind := .ofItem [] (.token t)

namespace Means

/-- What reading the tokens of each category does. -/
def ReadsAs (text : List Char) (ts : List Token) (M : Meaning) : Category → Prop
  | .unit | .piece => ∀ s : Reading, s.steps text (ts.map Token.kind) = s.push M
  | .branch => ∀ s : Reading, ∃ f : Frame, s.steps text (ts.map Token.kind) = ⟨f, s.outer⟩ ∧
      f.earlier = s.body.earlier ∧ f.branch = s.body.branch.seq M
  | .alternation | .pattern => ∀ s : Reading, s.body.branch = .empty →
      ∃ f : Frame, s.steps text (ts.map Token.kind) = ⟨f, s.outer⟩ ∧ f.whole = s.body.earlier.alt M

theorem readsAs_flatten {pieces : List (List Token × Meaning)}
    (h : ∀ piece ∈ pieces, ReadsAs text piece.1 piece.2 .piece) :
    ReadsAs text (pieces.map (·.1)).flatten (pieces.foldr (fun piece M => piece.2.seq M) .empty)
      .branch := by
  intro s
  induction pieces generalizing s with
  | nil => exact ⟨s.body, rfl, rfl, (Meaning.seq_empty _).symm⟩
  | cons piece pieces ih =>
    obtain ⟨hhead, htail⟩ := List.forall_mem_cons.1 h
    obtain ⟨f, hsteps, hearlier, hbranch⟩ := ih htail (s.push piece.2)
    refine ⟨f, ?_, hearlier, ?_⟩
    · rw [List.map_cons, List.flatten_cons, List.map_append, Reading.steps_append, hhead]
      exact hsteps
    · rw [hbranch, List.foldr_cons, ← Meaning.seq_assoc]
      rfl

/-- **Reading tokens from left to right finds what the grammar says they
mean.** -/
theorem readsAs {category : Category} {ts : List Token} {M : Meaning} (h : Means text category ts M) :
    ReadsAs text ts M category := by
  induction h with
  | empty =>
    intro s hs
    refine ⟨s.body, rfl, ?_⟩
    rw [Frame.whole, hs]
  | whole _ ih => exact ih
  | last _ ih =>
    intro s hs
    obtain ⟨f, hsteps, hearlier, hbranch⟩ := ih s
    refine ⟨f, hsteps, ?_⟩
    rw [Frame.whole, hearlier, hbranch, hs, Meaning.empty_seq]
  | bar _ _ ih ih' =>
    intro s hs
    obtain ⟨f, hsteps, hearlier, hbranch⟩ := ih s
    obtain ⟨f', hsteps', hwhole⟩ := ih' ⟨f.bar, s.outer⟩ (Meaning.empty_seq _)
    refine ⟨f', ?_, ?_⟩
    · rw [List.map_append, Reading.steps_append, hsteps]
      exact hsteps'
    · rw [hwhole, ← Meaning.alt_assoc]
      show f.whole.alt _ = _
      rw [Frame.whole, hearlier, hbranch, hs, Meaning.empty_seq]
  | pieces _ _ _ ih => exact readsAs_flatten ih
  | anchorStart => exact fun s => rfl
  | anchorEnd => exact fun s => rfl
  | once _ ih => exact ih
  | repeated _ q ih =>
    intro s
    rw [List.map_append, Reading.steps_append, ih s]
    rfl
  | atom a =>
    intro s
    cases a <;> rfl
  | group _ ih =>
    intro s
    obtain ⟨f, hsteps, hwhole⟩ := ih s.enter (Meaning.empty_seq _)
    rw [List.map_cons, List.map_append, Reading.steps_cons]
    show s.enter.steps text _ = _
    rw [Reading.steps_append, hsteps]
    show Reading.mk (s.body.push f.whole) s.outer = s.push _
    rw [hwhole]
    show Reading.mk (s.body.push (Meaning.never.alt _)) s.outer = s.push _
    rw [Meaning.never_alt]
    rfl

end Means

/-! ## Reading nodes -/

theorem Reading.step_ofItem (s : Reading) (groups : List Nat) (item : Item) :
    s.step text (.ofItem groups item) = s.step text (.ofItem [] item) := by
  cases item with
  | token t =>
    cases t with
    | atom a => cases a <;> rfl
    | _ => rfl
  | alternationStart => rfl
  | alternationEnd => rfl

/-- Where a group starts makes no difference to a reading. -/
theorem Reading.steps_ofItems (items : List (Spanned Item)) (s : Reading) (index : Nat)
    (groups : List Nat) :
    s.steps text ((Node.ofItems index groups items).map (·.kind)) =
      s.steps text (items.map fun item => .ofItem [] item.value) := by
  induction items generalizing s index groups with
  | nil => rfl
  | cons item items ih =>
    rw [Node.ofItems, List.map_cons, List.map_cons, steps_cons, steps_cons, ih]
    exact congrArg (fun s => steps text s _) (s.step_ofItem groups item.value)

namespace Phrase

/-- The kinds of nodes that the items of a phrase give, but for where groups
start. -/
def kinds (items : List (Spanned Item)) : List NodeKind := items.map fun item => .ofItem [] item.value

/-- Items read like some tokens, whatever is around them. -/
def ReadLike (text : List Char) (items : List (Spanned Item)) (ts : List Token) : Prop :=
  ∃ F : Frame → Frame, ∀ (f : Frame) (outer : List Frame),
    Reading.steps text ⟨f, outer⟩ (kinds items) = ⟨F f, outer⟩ ∧
      Reading.steps text ⟨f, outer⟩ (ts.map Token.kind) = ⟨F f, outer⟩

/-- Markers leave what a whole body means as it is. -/
theorem readLike_mark {items : List (Spanned Item)} {ts : List Token} (h : ReadLike text items ts)
    (barred : Bool) (first last : Nat) :
    ∃ f g : Frame, f.whole = g.whole ∧ ∀ outer,
      Reading.steps text ⟨.fresh, outer⟩ (kinds (mark barred first last items)) = ⟨f, outer⟩ ∧
        Reading.steps text ⟨.fresh, outer⟩ (ts.map Token.kind) = ⟨g, outer⟩ := by
  obtain ⟨F, hF⟩ := h
  cases barred with
  | false => exact ⟨F .fresh, F .fresh, rfl, fun outer => hF .fresh outer⟩
  | true =>
    refine ⟨Frame.fresh.push (F .fresh).whole, F .fresh, ?_, fun outer => ⟨?_, (hF .fresh outer).2⟩⟩
    · show Meaning.never.alt ((Meaning.empty.seq .empty).seq (F .fresh).whole) = (F .fresh).whole
      rw [Meaning.never_alt, Meaning.empty_seq, Meaning.empty_seq]
    · have hinner := (hF .fresh (.fresh :: outer)).1
      rw [kinds, mark, if_pos rfl, List.map_cons, List.map_append, Reading.steps_cons,
        Reading.steps_append]
      exact congrArg (fun s => Reading.step text s .alternationEnd) hinner

/-- The items of a phrase read like its tokens. -/
theorem readLike_items (p : Phrase) : ReadLike text p.items p.values := by
  induction p with
  | nil => exact ⟨id, fun f outer => ⟨rfl, rfl⟩⟩
  | leaf t hleaf rest ih =>
    obtain ⟨F, hF⟩ := ih
    have hstep (f : Frame) (outer : List Frame) : Reading.step text ⟨f, outer⟩ t.value.kind =
        ⟨(Reading.step text ⟨f, []⟩ t.value.kind).body, outer⟩ := by
      obtain ⟨value, offset, width⟩ := t
      cases value with
      | groupOpen => exact absurd rfl hleaf.1
      | groupClose => exact absurd rfl hleaf.2
      | atom a => cases a <;> rfl
      | _ => rfl
    refine ⟨fun f => F (Reading.step text ⟨f, []⟩ t.value.kind).body, fun f outer => ?_⟩
    obtain ⟨hitems, htokens⟩ := hF (Reading.step text ⟨f, []⟩ t.value.kind).body outer
    rw [← hstep] at hitems htokens
    exact ⟨hitems, htokens⟩
  | group o inner z rest ihInner ihRest =>
    obtain ⟨F, hF⟩ := ihRest
    obtain ⟨fInner, gInner, hwhole, hInner⟩ := readLike_mark ihInner inner.barred (o + 1) z
    refine ⟨fun f => F (f.push fInner.whole), fun f outer => ?_⟩
    obtain ⟨hitems, htokens⟩ := hF (f.push fInner.whole) outer
    obtain ⟨hInnerItems, hInnerTokens⟩ := hInner (f :: outer)
    constructor
    · rw [kinds, items, List.map_cons, List.map_append, List.map_cons, Reading.steps_cons,
        Reading.steps_append, ← hitems]
      exact congrArg (fun s => (Reading.step text s (.groupClose 0)).steps text _) hInnerItems
    · rw [values_group, List.map_cons, List.map_append, List.map_cons, Reading.steps_cons,
        Reading.steps_append, ← htokens, hwhole]
      exact congrArg (fun s => (Reading.step text s (.groupClose 0)).steps text _) hInnerTokens

end Phrase

/-- **What a pattern means is what the grammar says that its tokens mean.** -/
theorem denote_eq_of_means {encoding : Encoding} {pattern : List Char} {options : Options}
    {list : NodeList} (h : NodeList.parse encoding pattern options = .ok list) {ts : List Token}
    (hts : Token.Splits encoding 0 pattern ts) {M : Meaning} (hM : Means text .pattern ts M) :
    denote text list.nodes = M := by
  obtain ⟨p, hp, hchain, rfl⟩ := NodeList.parse_eq_ok_iff.1 h
  obtain ⟨pieces, hpieces, rfl⟩ := Token.splits_iff_reads.1 hts
  obtain rfl : pieces = p.tokens :=
    congrArg Scan.pieces ((tokens_of_reads hpieces).symm.trans (tokens_of_reads hp))
  have hlike : Phrase.ReadLike text p.items p.values := p.readLike_items
  obtain ⟨f, g, hwhole, hsteps⟩ := Phrase.readLike_mark hlike p.barred 0 pattern.length
  obtain ⟨hitems, htokens⟩ := hsteps []
  obtain ⟨g', hsteps', hwhole'⟩ := hM.readsAs .fresh (Meaning.empty_seq _)
  have hg : g = g' := congrArg Reading.body (htokens.symm.trans hsteps')
  have hraw : denote text (NodeList.ofItems (p.body 0 pattern.length) pattern.length).nodes = f.whole := by
    rw [denote, NodeList.ofItems, List.map_append, Reading.steps_append, Reading.steps_ofItems]
    exact congrArg (fun s => (Reading.steps text s [.sentinel, .sentinel]).outermost.whole) hitems
  have hpasses := denote_passes text (Node.steady_of_phrase pattern.length hchain) options
  calc denote text (Pass.runAll options.passes _) = f.whole := hpasses.trans hraw
    _ = g'.whole := by rw [hwhole, hg]
    _ = M := by
      rw [hwhole']
      exact Meaning.never_alt M

end RegexAutomaton
