/-
The grammar of patterns.

`Derives` says which tokens make a pattern, by a grammar that knows nothing
of neighbours or of markers. What it derives passes the check
(`Derives.check`), because no two tokens of a derivation refuse each other;
and what passes is derived (`exists_rest`), from left to right over the
matched groups. So a pattern is read exactly if the grammar derives its tokens
(`parse_ok_iff_derives`).
-/
import RegexAutomaton.Proofs.Parsing

namespace RegexAutomaton

/-! ## The grammar -/

/-- What the grammar tells apart. -/
inductive Category where
  /-- A whole pattern. -/
  | pattern
  /-- One branch or more, with bars between them. -/
  | alternation
  | branch
  | piece
  /-- What a quantifier may follow. -/
  | unit
  deriving DecidableEq, Repr

/-- A piece may come later in a branch than another: after an end anchor,
only end anchors may. -/
def MayPrecede (earlier later : List Token) : Prop :=
  earlier = [.anchorEnd] → later = [.anchorEnd]

/-- The tokens that are of each category. -/
inductive Derives : Category → List Token → Prop
  | empty : Derives .pattern []
  | whole {ts : List Token} (h : Derives .alternation ts) : Derives .pattern ts
  | last {ts : List Token} (h : Derives .branch ts) : Derives .alternation ts
  | bar {ts us : List Token} (h : Derives .branch ts) (later : Derives .alternation us) :
      Derives .alternation (ts ++ .bar :: us)
  | pieces {pieces : List (List Token)} (hne : pieces ≠ [])
      (h : ∀ ts ∈ pieces, Derives .piece ts) (inOrder : pieces.Pairwise MayPrecede) :
      Derives .branch pieces.flatten
  | anchorStart : Derives .piece [.anchorStart]
  | anchorEnd : Derives .piece [.anchorEnd]
  | once {ts : List Token} (h : Derives .unit ts) : Derives .piece ts
  | repeated {ts : List Token} (h : Derives .unit ts) (q : Quantifier) :
      Derives .piece (ts ++ [.quantifier q])
  | atom (a : Atom) : Derives .unit [.atom a]
  | group {ts : List Token} (h : Derives .alternation ts) :
      Derives .unit (.groupOpen :: (ts ++ [.groupClose]))

/-! ## What is derived passes the check -/

namespace Role

/-- A branch may start with the role. -/
def Starts (r : Role) : Prop := r ∈ [atom, anchorStart, anchorEnd, groupOpen]

/-- A branch may end with the role. -/
def Ends (r : Role) : Prop := r ∈ [atom, anchorStart, anchorEnd, groupClose, quantifier]

instance (r : Role) : Decidable r.Starts := inferInstanceAs (Decidable (_ ∈ _))

instance (r : Role) : Decidable r.Ends := inferInstanceAs (Decidable (_ ∈ _))

theorem Starts.after_boundary {r : Role} (h : r.Starts) :
    start.Admits r ∧ bar.Admits r ∧ groupOpen.Admits r := by
  cases r <;> first | exact absurd h (by decide) | decide

theorem Ends.before_boundary {r : Role} (h : r.Ends) :
    r.Admits finish ∧ r.Admits bar ∧ r.Admits groupClose := by
  cases r <;> first | exact absurd h (by decide) | decide

/-- Between pieces of a branch, only an end anchor refuses anything. -/
theorem Ends.admits {r r' : Role} (h : r.Ends) (h' : r'.Starts) (hr : r = anchorEnd → r' = anchorEnd) :
    r.Admits r' := by
  cases r <;> cases r' <;>
    first
      | exact absurd h (by decide)
      | exact absurd h' (by decide)
      | exact absurd (hr rfl) (by decide)
      | decide

end Role

/-- Tokens from one role to another that match their own groups and of which
no two neighbours refuse each other. -/
structure Fragment (first last : Role) (ts : List Token) : Prop where
  head : (ts.map Token.role).head? = some first
  getLast : (ts.map Token.role).getLast? = some last
  isChain : List.IsChain Role.Admits (ts.map Token.role)
  balanced : ∀ depth later, Token.depthAfter? depth (ts ++ later) = Token.depthAfter? depth later

namespace Fragment

variable {first last first' last' : Role} {ts us : List Token}

theorem leaf (t : Token) (h : t.IsLeaf) : Fragment t.role t.role [t] where
  head := rfl
  getLast := rfl
  isChain := .singleton _
  balanced := fun depth later => Token.depthAfter?_leaf h depth later

theorem append (h : Fragment first last ts) (h' : Fragment first' last' us) (hmeet : last.Admits first') :
    Fragment first last' (ts ++ us) where
  head := by rw [List.map_append, List.head?_append, h.head]; rfl
  getLast := by rw [List.map_append, List.getLast?_append, h'.getLast]; rfl
  isChain := by
    rw [List.map_append, List.isChain_append, h.getLast, h'.head]
    refine ⟨h.isChain, h'.isChain, fun x hx y hy => ?_⟩
    obtain rfl := Option.some.inj hx
    obtain rfl := Option.some.inj hy
    exact hmeet
  balanced := fun depth later => by rw [List.append_assoc, h.balanced, h'.balanced]

/-- The roles of a fragment between two others. -/
theorem isChain_between (h : Fragment first last ts) {before after : Role} (hbefore : before.Admits first)
    (hafter : last.Admits after) :
    List.IsChain Role.Admits (before :: (ts.map Token.role ++ [after])) := by
  rw [List.isChain_cons, List.head?_append, h.head, List.isChain_append, h.getLast]
  refine ⟨fun x hx => ?_, h.isChain, .singleton _, fun x hx y hy => ?_⟩
  · obtain rfl := Option.some.inj hx
    exact hbefore
  · obtain rfl := Option.some.inj hx
    obtain rfl := Option.some.inj hy
    exact hafter

theorem group (h : Fragment first last ts) (hfirst : first.Starts) (hlast : last.Ends) :
    Fragment .groupOpen .groupClose (.groupOpen :: (ts ++ [.groupClose])) where
  head := rfl
  getLast := by
    rw [← List.cons_append, List.map_append, List.getLast?_append]
    rfl
  isChain := by
    rw [List.map_cons, List.map_append]
    exact h.isChain_between hfirst.after_boundary.2.2 hlast.before_boundary.2.2
  balanced := fun depth later => by
    rw [List.cons_append, List.append_assoc]
    exact h.balanced (depth + 1) (.groupClose :: later)

end Fragment

namespace Derives

/-- What the tokens of a category look like from outside. -/
def Shape : Category → List Token → Prop
  | .pattern, ts => ts = [] ∨ ∃ first last, Fragment first last ts ∧ first.Starts ∧ last.Ends
  | .alternation, ts | .branch, ts => ∃ first last, Fragment first last ts ∧ first.Starts ∧ last.Ends
  | .piece, ts => ∃ first last, Fragment first last ts ∧ first.Starts ∧ last.Ends ∧
      (last = .anchorEnd → ts = [.anchorEnd])
  | .unit, ts => ∃ first last, Fragment first last ts ∧ first.Starts ∧
      (last = .atom ∨ last = .groupClose)

/-- Pieces in order make a branch. -/
theorem shape_flatten {pieces : List (List Token)} (hne : pieces ≠ [])
    (h : ∀ ts ∈ pieces, Shape .piece ts) (inOrder : pieces.Pairwise MayPrecede) :
    ∃ first last, Fragment first last pieces.flatten ∧ first.Starts ∧ last.Ends ∧
      ∀ ts ∈ pieces.head?, (ts.map Token.role).head? = some first := by
  induction pieces with
  | nil => exact absurd rfl hne
  | cons ts later ih =>
    obtain ⟨first, last, hts, hfirst, hlast, hanchor⟩ := h ts (by simp)
    by_cases hlater : later = []
    · subst hlater
      refine ⟨first, last, ?_, hfirst, hlast, ?_⟩
      · rwa [List.flatten_singleton]
      · rintro _ ⟨⟩
        exact hts.head
    · obtain ⟨hfront, hrest⟩ := List.pairwise_cons.1 inOrder
      obtain ⟨first', last', hus, hfirst', hlast', hhead⟩ :=
        ih hlater (fun us hus => h us (by simp [hus])) hrest
      refine ⟨first, last', ?_, hfirst, hlast', ?_⟩
      · rw [List.flatten_cons]
        refine hts.append hus (hlast.admits hfirst' fun hend => ?_)
        -- After an end anchor the next piece is one too, and so is its first token.
        obtain ⟨us, hus'⟩ := Option.ne_none_iff_exists'.1 (mt List.head?_eq_none_iff.1 hlater)
        have hus_anchor : us = [.anchorEnd] :=
          hfront us (List.mem_of_mem_head? hus') (hanchor hend)
        have hrole := hhead us hus'
        rw [hus_anchor] at hrole
        exact (Option.some.inj hrole).symm
      · rintro _ ⟨⟩
        exact hts.head

theorem shape {category : Category} {ts : List Token} (h : Derives category ts) :
    Shape category ts := by
  induction h with
  | empty => exact .inl rfl
  | whole _ ih => exact .inr ih
  | last _ ih => exact ih
  | bar _ _ ih ih' =>
    obtain ⟨first, last, hts, hfirst, hlast⟩ := ih
    obtain ⟨first', last', hus, hfirst', hlast'⟩ := ih'
    have hbar : Fragment .bar .bar [.bar] := .leaf .bar ⟨nofun, nofun⟩
    have hjoined := hts.append (hbar.append hus hfirst'.after_boundary.2.1) hlast.before_boundary.2.1
    exact ⟨first, last', hjoined, hfirst, hlast'⟩
  | pieces hne _ inOrder ih =>
    obtain ⟨first, last, hts, hfirst, hlast, -⟩ := shape_flatten hne ih inOrder
    exact ⟨first, last, hts, hfirst, hlast⟩
  | anchorStart => exact ⟨_, _, .leaf .anchorStart ⟨nofun, nofun⟩, by decide, by decide, nofun⟩
  | anchorEnd => exact ⟨_, _, .leaf .anchorEnd ⟨nofun, nofun⟩, by decide, by decide, fun _ => rfl⟩
  | once _ ih =>
    obtain ⟨first, last, hts, hfirst, hlast⟩ := ih
    refine ⟨first, last, hts, hfirst, ?_, ?_⟩
    · rcases hlast with rfl | rfl <;> decide
    · rcases hlast with rfl | rfl <;> exact nofun
  | repeated _ q ih =>
    obtain ⟨first, last, hts, hfirst, hlast⟩ := ih
    have hq : Fragment .quantifier .quantifier [.quantifier q] := .leaf (.quantifier q) ⟨nofun, nofun⟩
    refine ⟨first, _, hts.append hq ?_, hfirst, by decide, nofun⟩
    rcases hlast with rfl | rfl <;> decide
  | atom a => exact ⟨.atom, .atom, .leaf (.atom a) ⟨nofun, nofun⟩, by decide, .inl rfl⟩
  | group _ ih =>
    obtain ⟨first, last, hts, hfirst, hlast⟩ := ih
    exact ⟨_, _, hts.group hfirst hlast, by decide, .inr rfl⟩

/-- The tokens of a pattern pass the check. -/
theorem check {ts : List Token} (h : Derives .pattern ts) :
    List.IsChain Role.Admits (.start :: (ts.map Token.role ++ [.finish])) ∧
      Token.depthAfter? 0 ts = some 0 := by
  rcases h.shape with rfl | ⟨first, last, hts, hfirst, hlast⟩
  · exact ⟨by decide, rfl⟩
  · refine ⟨hts.isChain_between hfirst.after_boundary.1 hlast.before_boundary.1, ?_⟩
    have hdepth := hts.balanced 0 []
    rwa [List.append_nil] at hdepth

end Derives

/-! ## What passes the check is derived -/

theorem Derives.unit_ne {ts : List Token} (h : Derives .unit ts) (quantifiers : List Token) :
    ts ++ quantifiers ≠ [.anchorEnd] := by
  cases h <;> simp

/-- What is left of an alternation between two roles: perhaps the quantifier
of what comes before, then the pieces left of the branch, then perhaps more
branches. -/
structure Rest (before after : Role) (quantifiers : List Token) (pieces : List (List Token))
    (later : List Token) : Prop where
  quantified : quantifiers = [] ∨ ∃ q, quantifiers = [.quantifier q] ∧ before.Admits .quantifier
  derived : ∀ ts ∈ pieces, Derives .piece ts
  inOrder : pieces.Pairwise MayPrecede
  anchored : before = .anchorEnd → ∀ ts ∈ pieces, ts = [.anchorEnd]
  branches : later = [] ∨ ∃ us, later = .bar :: us ∧ Derives .alternation us
  stuck : quantifiers = [] → pieces = [] → before.Admits .bar ∨ (later = [] ∧ before.Admits after)

namespace Rest

variable {before before' after : Role} {quantifiers later : List Token} {pieces : List (List Token)}

theorem not_quantified (h : Rest before after quantifiers pieces later)
    (hbefore : ¬ before.Admits .quantifier) : quantifiers = [] := by
  rcases h.quantified with hnone | ⟨q, -, hadmits⟩
  · exact hnone
  · exact absurd hadmits hbefore

/-- The rest of an alternation is an alternation itself if a branch has to
start with it. -/
theorem alternation (h : Rest before after [] pieces later) (hne : pieces ≠ []) :
    Derives .alternation (pieces.flatten ++ later) := by
  have hbranch : Derives .branch pieces.flatten := .pieces hne h.derived h.inOrder
  rcases h.branches with rfl | ⟨us, rfl, hus⟩
  · rw [List.append_nil]
    exact .last hbranch
  · exact .bar hbranch hus

/-- Where no branch can be empty, the rest of an alternation is an
alternation. -/
theorem alternation_of_boundary (h : Rest before after quantifiers pieces later)
    (hquantifier : ¬ before.Admits .quantifier) (hbar : ¬ before.Admits .bar)
    (hafter : ¬ before.Admits after) :
    Derives .alternation (quantifiers ++ (pieces.flatten ++ later)) := by
  obtain rfl := h.not_quantified hquantifier
  refine h.alternation fun hnil => ?_
  rcases h.stuck rfl hnil with hadmits | ⟨-, hadmits⟩
  · exact hbar hadmits
  · exact hafter hadmits

/-- A unit takes the quantifier after it, and both are a piece. -/
theorem unit (h : Rest before' after quantifiers pieces later) {ts : List Token}
    (hts : Derives .unit ts) (hbefore : before ≠ .anchorEnd) :
    Rest before after [] ((ts ++ quantifiers) :: pieces) later := by
  have hpiece : Derives .piece (ts ++ quantifiers) := by
    rcases h.quantified with rfl | ⟨q, rfl, -⟩
    · rw [List.append_nil]
      exact .once hts
    · exact .repeated hts q
  refine ⟨.inl rfl, ?_, ?_, fun hanchor => absurd hanchor hbefore, h.branches, nofun⟩
  · intro us hus
    rcases List.mem_cons.1 hus with rfl | hus
    · exact hpiece
    · exact h.derived us hus
  · exact List.pairwise_cons.2 ⟨fun us _ hanchor => absurd hanchor (hts.unit_ne _), h.inOrder⟩

/-- An anchor is a piece of its own. -/
theorem anchor {t : Token} (h : Rest t.role after quantifiers pieces later) (ht : Derives .piece [t])
    (hquantifier : ¬ t.role.Admits .quantifier) (hend : t = .anchorEnd ∨ before ≠ .anchorEnd) :
    quantifiers = [] ∧ Rest before after [] ([t] :: pieces) later := by
  refine ⟨h.not_quantified hquantifier, .inl rfl, ?_, ?_, ?_, h.branches, nofun⟩
  · intro us hus
    rcases List.mem_cons.1 hus with rfl | hus
    · exact ht
    · exact h.derived us hus
  · refine List.pairwise_cons.2 ⟨fun us hus hanchor => ?_, h.inOrder⟩
    obtain rfl := (List.cons.inj hanchor).1
    exact h.anchored rfl us hus
  · intro hbefore us hus
    rcases hend with rfl | hne
    · rcases List.mem_cons.1 hus with rfl | hus
      · rfl
      · exact h.anchored rfl us hus
    · exact absurd hbefore hne

/-- One more token on the left. -/
theorem token {t : Token} (hleaf : t.IsLeaf) (hadmits : before.Admits t.role)
    (hafter : ¬ Role.bar.Admits after) (h : Rest t.role after quantifiers pieces later) :
    ∃ quantifiers' pieces' later',
      t :: (quantifiers ++ (pieces.flatten ++ later)) =
          quantifiers' ++ (pieces'.flatten ++ later') ∧
        Rest before after quantifiers' pieces' later' := by
  cases t with
  | atom a =>
    have hbefore : before ≠ .anchorEnd := by
      intro heq
      subst heq
      cases hadmits
    exact ⟨[], ([.atom a] ++ quantifiers) :: pieces, later, by simp, h.unit (.atom a) hbefore⟩
  | quantifier q =>
    have hbefore : before ≠ .anchorEnd := by
      intro heq
      subst heq
      cases hadmits
    obtain rfl := h.not_quantified nofun
    exact ⟨[.quantifier q], pieces, later, rfl, .inr ⟨q, rfl, hadmits⟩, h.derived, h.inOrder,
      fun hanchor => absurd hanchor hbefore, h.branches, nofun⟩
  | anchorStart =>
    have hbefore : before ≠ .anchorEnd := by
      intro heq
      subst heq
      cases hadmits
    obtain ⟨rfl, hrest⟩ := h.anchor .anchorStart nofun (.inr hbefore)
    exact ⟨[], [.anchorStart] :: pieces, later, rfl, hrest⟩
  | anchorEnd =>
    obtain ⟨rfl, hrest⟩ : quantifiers = [] ∧ Rest before after [] ([.anchorEnd] :: pieces) later :=
      h.anchor .anchorEnd nofun (.inl rfl)
    exact ⟨[], [.anchorEnd] :: pieces, later, rfl, hrest⟩
  | bar =>
    have hlater := h.alternation_of_boundary nofun nofun hafter
    exact ⟨[], [], .bar :: (quantifiers ++ (pieces.flatten ++ later)), rfl, .inl rfl, nofun, .nil,
      fun _ => nofun, .inr ⟨_, rfl, hlater⟩, fun _ _ => .inl hadmits⟩
  | groupOpen => exact absurd rfl hleaf.1
  | groupClose => exact absurd rfl hleaf.2

end Rest

/-- **Where no two neighbours refuse each other, the tokens are the rest of an
alternation.** -/
theorem exists_rest {after : Role} (hafter : ¬ Role.bar.Admits after) (p : Phrase) (before : Role)
    (h : List.IsChain Role.Admits (before :: (p.roles ++ [after]))) :
    ∃ quantifiers pieces later, p.values = quantifiers ++ (pieces.flatten ++ later) ∧
      Rest before after quantifiers pieces later := by
  induction p generalizing before after with
  | nil =>
    have hadmits : before.Admits after := (List.isChain_cons_cons.1 h).1
    exact ⟨[], [], [], rfl, .inl rfl, nofun, .nil, fun _ => nofun, .inl rfl,
      fun _ _ => .inr ⟨rfl, hadmits⟩⟩
  | leaf t hleaf rest ih =>
    rw [Phrase.roles_leaf, List.cons_append, List.isChain_cons_cons] at h
    obtain ⟨quantifiers, pieces, later, hvalues, hrest⟩ := ih hafter t.value.role h.2
    rw [Phrase.values_leaf, hvalues]
    exact hrest.token hleaf h.1 hafter
  | group o inner z rest ihInner ihRest =>
    rw [Phrase.roles_group, List.cons_append, List.append_assoc, List.isChain_cons_cons] at h
    obtain ⟨hadmits, hbody⟩ := h
    have hsplit : List.IsChain Role.Admits (.groupOpen :: (inner.roles ++ [.groupClose])) ∧
        List.IsChain Role.Admits (.groupClose :: (rest.roles ++ [after])) :=
      (@List.isChain_split _ _ .groupClose (.groupOpen :: inner.roles) _).1 hbody
    obtain ⟨quantifiers, pieces, later, hvalues, hinner⟩ :=
      ihInner (by decide) .groupOpen hsplit.1
    have hgroup : Derives .unit (.groupOpen :: (inner.values ++ [.groupClose])) := by
      rw [hvalues]
      exact .group (hinner.alternation_of_boundary (by decide) (by decide) (by decide))
    obtain ⟨quantifiers', pieces', later', hvalues', hrest⟩ := ihRest hafter .groupClose hsplit.2
    have hbefore : before ≠ .anchorEnd := by
      intro heq
      subst heq
      cases hadmits
    exact ⟨[], _, later', by simp [hvalues'], hrest.unit hgroup hbefore⟩

/-- The tokens of a phrase are a pattern if they pass the check. -/
theorem derives_of_check {p : Phrase}
    (h : List.IsChain Role.Admits (.start :: (p.roles ++ [.finish]))) : Derives .pattern p.values := by
  obtain ⟨quantifiers, pieces, later, hvalues, hrest⟩ := exists_rest (by decide) p .start h
  obtain rfl := hrest.not_quantified (by decide)
  rw [hvalues]
  by_cases hnil : pieces = []
  · subst hnil
    rcases hrest.stuck rfl rfl with hbar | ⟨rfl, -⟩
    · exact absurd hbar (by decide)
    · exact .empty
  · exact .whole (hrest.alternation hnil)

/-! ## Reading a pattern -/

/-- **A pattern is read exactly if the grammar derives its tokens.** -/
theorem parse_ok_iff_derives (encoding : Encoding) (pattern : List Char) (options : Options) :
    (∃ list, NodeList.parse encoding pattern options = .ok list) ↔
      ∃ ts, Token.Splits encoding 0 pattern ts ∧ Derives .pattern ts := by
  simp only [NodeList.parse_eq_ok_iff, Token.splits_iff_reads]
  constructor
  · intro hsplit
    obtain ⟨list, p, hp, hchain, -⟩ := hsplit
    exact ⟨p.values, ⟨p.tokens, hp, rfl⟩, derives_of_check hchain⟩
  · intro hsplit
    obtain ⟨ts, ⟨pieces, hreads, rfl⟩, h⟩ := hsplit
    obtain ⟨hchain, hdepth⟩ := h.check
    obtain ⟨p, rfl⟩ := Phrase.exists_tokens_eq (Token.width_of_reads hreads) hdepth
    exact ⟨_, p, hreads, hchain, rfl⟩

end RegexAutomaton
