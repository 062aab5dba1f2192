/-
Putting down the nodes of a pattern.

What the walk knows after an item is a function of the item and of what it knew before
(`Assembly.add`), and it refuses the item as the grammar does (`Assembly.accept`). So
the walk goes over the items of the pattern one by one (`assembleFrom_eq`), never stuck
and up to the end of the pattern, and puts down the nodes of `NodeList.read`
(`assemble_eq`).
-/
import Mathlib.Data.List.Forall2
import RegexAutomaton.Indexed.Assembly
import RegexAutomaton.Proofs.IndexedMarkers
import RegexAutomaton.Proofs.IndexedRepetitions
import RegexAutomaton.Proofs.Lexing

namespace RegexAutomaton

namespace Indexed

open Checked

variable {encoding : Encoding} {pattern : List Char} {tables : Option Tables} {m : Markers}

namespace Assembly

variable {s : Assembly} {i offset width : Nat}

/-! ## One item -/

/-- What is known of the open bodies and of the item before. -/
def liveness (s : Assembly) : Liveness := ⟨s.body, s.outer, s.closedDead, s.before == .atom, s.afterRequired⟩

/-- How many alternations are open after an item. -/
def openedAfter (opened : Nat) : Item → Nat
  | .alternationStart => opened + 1
  | .alternationEnd => opened - 1
  | _ => opened

/-- What is known after one more item. -/
def add (s : Assembly) (item : Spanned Item) : Assembly :=
  let alive := s.liveness.step item.value
  { nodes := s.nodes ++ [Node.ofItem s.groups item]
    groups := Node.groupsAfter s.nodes.length s.groups item.value
    opened := openedAfter s.opened item.value
    before := item.value.role
    afterRequired := alive.afterRequired
    groupCount := s.groupCount + if item.value = .token .groupOpen then 1 else 0
    alternations := s.alternations + if item.value = .alternationStart then 1 else 0
    body := alive.body
    outer := alive.outer
    closedDead := alive.closedDead }

/-- Put down an item, if it is allowed. -/
def accept (s : Assembly) (item : Spanned Item) : Except SyntaxError Assembly :=
  if item.value = .token .groupClose ∧ s.groups = [] then .error ⟨.strayGroupClose, item.offset⟩
  else (Grammar.allow s.before item.value.role item.offset).map fun _ => s.add item

/-- What an item of the given role changes before its node is put down. -/
def advanced (s : Assembly) (after : Role) : Assembly :=
  let settled := if s.closedDead then { s with closedDead := false }.kill else s
  { settled with afterRequired := after == .atom, before := after }

theorem advance_eq (s : Assembly) (after : Role) (offset : Nat) :
    s.advance after offset = answer ((Grammar.allow s.before after offset).map fun _ => s.advanced after) := by
  rw [advance, Grammar.allow]
  cases s.before.refusal? after <;> rfl

theorem opened_advanced (s : Assembly) (after : Role) : (s.advanced after).opened = s.opened := by
  unfold advanced
  cases s.closedDead <;> rfl

/-- An item is put down in two steps: it is allowed, and then its node is made. -/
theorem advance_bind {s' : Assembly} (hbefore : s'.before = s.before) {item : Spanned Item}
    (hitem : item.value ≠ .token .groupClose) {next : Assembly → Checked SyntaxError Assembly}
    (hnext : next (s'.advanced item.value.role) = answer (.ok (s.add item))) :
    s'.advance item.value.role item.offset >>= next = answer (s.accept item) := by
  rw [advance_eq, hbefore, accept, if_neg fun h => hitem h.1]
  cases Grammar.allow s.before item.value.role item.offset with
  | error e => rfl
  | ok _ => exact hnext

theorem atom_eq (s : Assembly) (a : Atom) (offset width : Nat) :
    s.atom (.ofItem s.groups (.token (.atom a))) offset width =
      answer (s.accept ⟨.token (.atom a), offset, width⟩) := by
  refine @advance_bind s s rfl ⟨.token (.atom a), offset, width⟩ nofun _ ?_
  obtain ⟨nodes, groups, opened, before, afterRequired, groupCount, alternations, body, outer, closedDead⟩ := s
  cases closedDead <;> rfl

theorem quantifier_eq (s : Assembly) (q : Quantifier) (offset width : Nat) :
    s.quantifier q offset width = answer (s.accept ⟨.token (.quantifier q), offset, width⟩) := by
  obtain ⟨nodes, groups, opened, before, afterRequired, groupCount, alternations, body, outer, closedDead⟩ := s
  by_cases hleast : q.repetition.least = 0
  · have hspares : q.repetition.isOptional = true := beq_iff_eq.2 hleast
    have hrequired : decide (1 ≤ q.repetition.least) = false := by rw [hleast]; rfl
    refine @advance_bind _ _ (by rw [if_pos hleast]) ⟨.token (.quantifier q), offset, width⟩ nofun _ ?_
    simp only [if_pos hleast, hrequired, add, liveness, Liveness.step, Liveness.spares, hspares]
    cases closedDead <;> rfl
  · have hspares : q.repetition.isOptional = false := beq_eq_false_iff_ne.2 hleast
    have hrequired : decide (1 ≤ q.repetition.least) = true := decide_eq_true (by omega)
    refine @advance_bind _ _ (by rw [if_neg hleast]) ⟨.token (.quantifier q), offset, width⟩ nofun _ ?_
    simp only [if_neg hleast, hrequired, add, liveness, Liveness.step, Liveness.spares, hspares]
    cases closedDead <;> rfl

theorem startAlternation_eq (s : Assembly) (offset : Nat) :
    s.startAlternation offset = answer (s.accept ⟨.alternationStart, offset, 0⟩) := by
  refine @advance_bind s s rfl ⟨.alternationStart, offset, 0⟩ nofun _ ?_
  obtain ⟨nodes, groups, opened, before, afterRequired, groupCount, alternations, body, outer, closedDead⟩ := s
  cases closedDead <;> rfl

theorem endAlternation_eq (h : 0 < s.opened) (offset : Nat) :
    s.endAlternation offset = answer (s.accept ⟨.alternationEnd, offset, 0⟩) := by
  refine @advance_bind s s rfl ⟨.alternationEnd, offset, 0⟩ nofun _ ?_
  dsimp only
  rw [opened_advanced, sub_eq h, answer_ok_bind]
  obtain ⟨nodes, groups, opened, before, afterRequired, groupCount, alternations, body, outer, closedDead⟩ := s
  cases outer with
  | nil => cases closedDead <;> rfl
  | cons b outer =>
    obtain ⟨lastDead, othersDead⟩ := body
    cases closedDead <;> cases lastDead <;> cases othersDead <;> rfl

theorem openGroup_eq (s : Assembly) (offset : Nat) :
    s.openGroup offset = answer (s.accept ⟨.token .groupOpen, offset, 1⟩) := by
  refine @advance_bind s s rfl ⟨.token .groupOpen, offset, 1⟩ nofun _ ?_
  obtain ⟨nodes, groups, opened, before, afterRequired, groupCount, alternations, body, outer, closedDead⟩ := s
  cases closedDead <;> rfl

theorem closeGroup_eq (s : Assembly) (offset : Nat) :
    s.closeGroup offset = answer (s.accept ⟨.token .groupClose, offset, 1⟩) := by
  obtain ⟨nodes, groups, opened, before, afterRequired, groupCount, alternations, body, outer, closedDead⟩ := s
  cases groups with
  | nil => rfl
  | cons start groups =>
    rw [closeGroup, accept, if_neg nofun]
    dsimp only
    rw [advance_eq]
    show _ = answer ((Grammar.allow before .groupClose offset).map _)
    cases Grammar.allow before .groupClose offset with
    | error e => rfl
    | ok _ => cases closedDead <;> cases outer <;> rfl

theorem bar_eq (s : Assembly) (offset : Nat) : s.bar offset = answer (s.accept ⟨.token .bar, offset, 1⟩) := by
  refine @advance_bind s s rfl ⟨.token .bar, offset, 1⟩ nofun _ ?_
  obtain ⟨nodes, groups, opened, before, afterRequired, groupCount, alternations, body, outer, closedDead⟩ := s
  cases closedDead <;> rfl

theorem anchorStart_eq (s : Assembly) (offset : Nat) :
    s.anchorStart offset = answer (s.accept ⟨.token .anchorStart, offset, 1⟩) := by
  refine @advance_bind s s rfl ⟨.token .anchorStart, offset, 1⟩ nofun _ ?_
  obtain ⟨nodes, groups, opened, before, afterRequired, groupCount, alternations, body, outer, closedDead⟩ := s
  cases closedDead <;> cases afterRequired <;> rfl

theorem anchorEnd_eq (s : Assembly) (offset : Nat) :
    s.anchorEnd offset = answer (s.accept ⟨.token .anchorEnd, offset, 1⟩) := by
  refine @advance_bind s s rfl ⟨.token .anchorEnd, offset, 1⟩ nofun _ ?_
  obtain ⟨nodes, groups, opened, before, afterRequired, groupCount, alternations, body, outer, closedDead⟩ := s
  cases closedDead <;> rfl

/-! ## Tokens and markers -/

/-- Put down items, as long as they are allowed. -/
def acceptAll (s : Assembly) (items : List (Spanned Item)) : Except SyntaxError Assembly := items.foldlM accept s

theorem acceptAll_append (s : Assembly) (left right : List (Spanned Item)) :
    s.acceptAll (left ++ right) = s.acceptAll left >>= fun s => s.acceptAll right := List.foldlM_append

theorem acceptAll_cons (s : Assembly) (item : Spanned Item) (items : List (Spanned Item)) :
    s.acceptAll (item :: items) = s.accept item >>= fun s => s.acceptAll items := List.foldlM_cons

theorem acceptAll_singleton (s : Assembly) (item : Spanned Item) : s.acceptAll [item] = s.accept item := by
  rw [acceptAll, List.foldlM_cons]
  cases s.accept item <;> rfl

theorem opened_of_accept {s' : Assembly} {item : Spanned Item} (h : s.accept item = .ok s') :
    s'.opened = openedAfter s.opened item.value := by
  unfold accept at h
  split at h
  · cases h
  · obtain ⟨_, -, rfl⟩ := map_eq_ok_iff.1 h
    rfl

theorem flush_eq (hmarks : Marks tables m) (s : Assembly) (offset : Nat) :
    s.flush tables offset = answer (s.acceptAll (m.itemsAt s.opened offset)) := by
  cases tables with
  | none =>
    obtain rfl : m = .empty := hmarks
    rfl
  | some t =>
    obtain ⟨hstarts, hends⟩ := hmarks offset
    have hstart (s : Assembly) : (if t.startsAt offset then s.startAlternation offset else pure s) =
        answer (s.acceptAll (if t.startsAt offset then [⟨.alternationStart, offset, 0⟩] else [])) := by
      split
      · rw [startAlternation_eq, acceptAll_singleton]
      · rfl
    rw [flush, Markers.itemsAt, ← hstarts, ← hends, acceptAll_append]
    cases hend : t.endsAt offset && decide (0 < s.opened) with
    | false => exact hstart s
    | true =>
      dsimp only
      rw [if_pos rfl, if_pos rfl, endAlternation_eq (of_decide_eq_true (Bool.and_eq_true_iff.1 hend).2),
        acceptAll_singleton]
      cases s.accept ⟨.alternationEnd, offset, 0⟩ with
      | error e => rfl
      | ok s' => exact hstart s'

theorem opened_of_itemsAt {s' : Assembly} (h : s.acceptAll (m.itemsAt s.opened offset) = .ok s') :
    s'.opened = m.openedAfter s.opened offset := by
  rw [Markers.itemsAt, acceptAll_append] at h
  obtain ⟨s₁, hend, hstart⟩ := bind_eq_ok_iff.1 h
  have hfirst : s₁.opened = if m.endsAt offset then s.opened - 1 else s.opened := by
    split at hend
    · next hc =>
      rw [acceptAll_singleton] at hend
      rw [opened_of_accept hend, if_pos (Bool.and_eq_true_iff.1 hc).1]
      rfl
    · next hc =>
      cases hend
      split
      · next hends =>
        have : ¬ 0 < s.opened := fun hpos => hc (Bool.and_eq_true_iff.2 ⟨hends, decide_eq_true hpos⟩)
        omega
      · rfl
  rw [Markers.openedAfter, ← hfirst]
  split at hstart
  · next hstarts =>
    rw [acceptAll_singleton] at hstart
    rw [opened_of_accept hstart, if_pos hstarts]
    rfl
  · next hstarts =>
    cases hstart
    rw [if_neg hstarts, Nat.add_zero]

/-- The token at a position is put down, if there is one. -/
theorem special_eq {mark : Metachar} {rest : List Char} (h : pattern.drop i = mark.toChar :: rest) (s : Assembly) :
    s.special encoding pattern i mark =
      answer (Token.readSpecial encoding i rest mark >>= fun (t, width) =>
        (s.accept ⟨.token t, i, width⟩).map (·, width)) := by
  cases mark with
  | openBracket =>
    rw [special, readBracket_eq h, Token.readSpecial]
    cases Bracket.read encoding i rest with
    | error e => rfl
    | ok read => exact (congrArg (· >>= _) (atom_eq s (.bracket read.1) i read.2)).trans (answer_bind_pure _ _)
  | openRepeat =>
    rw [special, readRepetition_eq h, Token.readSpecial]
    cases Repetition.read i rest with
    | error e => rfl
    | ok read => exact (congrArg (· >>= _) (quantifier_eq s (.counted read.1) i read.2)).trans (answer_bind_pure _ _)
  | closeBracket => rfl
  | closeRepeat => rfl
  | openGroup => exact (congrArg (· >>= _) (openGroup_eq s i)).trans (answer_bind_pure _ _)
  | closeGroup => exact (congrArg (· >>= _) (closeGroup_eq s i)).trans (answer_bind_pure _ _)
  | dot => exact (congrArg (· >>= _) (atom_eq s .dot i 1)).trans (answer_bind_pure _ _)
  | star => exact (congrArg (· >>= _) (quantifier_eq s .star i 1)).trans (answer_bind_pure _ _)
  | plus => exact (congrArg (· >>= _) (quantifier_eq s .plus i 1)).trans (answer_bind_pure _ _)
  | question => exact (congrArg (· >>= _) (quantifier_eq s .question i 1)).trans (answer_bind_pure _ _)
  | bar => exact (congrArg (· >>= _) (bar_eq s i)).trans (answer_bind_pure _ _)
  | caret => exact (congrArg (· >>= _) (anchorStart_eq s i)).trans (answer_bind_pure _ _)
  | dollar => exact (congrArg (· >>= _) (anchorEnd_eq s i)).trans (answer_bind_pure _ _)

theorem toChar_of_read {c : Char} {rest : List Char} {mark : Metachar}
    (h : Glyph.read encoding i c rest = .ok (.special mark, width)) : mark.toChar = c := by
  unfold Glyph.read at h
  split at h
  · obtain ⟨_, -, h⟩ := map_eq_ok_iff.1 h
    cases h
  · split at h
    · next hc =>
      obtain ⟨h, -⟩ := Prod.mk.inj (Except.ok.inj h)
      obtain rfl := Glyph.special.inj h
      exact Metachar.ofChar?_eq_some_iff.1 hc
    · cases h

/-- A step puts down the markers before a token, and then the token. -/
theorem step_eq {c : Char} (hmarks : Marks tables m) (h : pattern[i]? = some c) (s : Assembly) :
    step encoding pattern tables i c s =
      answer (s.acceptAll (m.itemsAt s.opened i) >>= fun s =>
        Token.read encoding i c (pattern.drop (i + 1)) >>= fun (t, width) =>
          (s.accept ⟨.token t, i, width⟩).map (.goTo (i + width))) := by
  have hdrop := drop_of_getElem? h
  rw [step, flush_eq hmarks]
  cases s.acceptAll (m.itemsAt s.opened i) with
  | error e => rfl
  | ok s =>
    rw [answer_ok_bind, readGlyph_eq hdrop, Token.read]
    cases hglyph : Glyph.read encoding i c (pattern.drop (i + 1)) with
    | error e => rfl
    | ok read =>
      obtain ⟨glyph, width⟩ := read
      cases glyph with
      | literal d =>
        rw [answer_ok_bind]
        exact (congrArg (· >>= _) (atom_eq s (.literal d) i width)).trans (answer_bind_pure _ _)
      | special mark =>
        have hmark := toChar_of_read hglyph
        rw [answer_ok_bind]
        dsimp only
        rw [special_eq (hmark.symm ▸ hdrop)]
        cases Token.readSpecial encoding i (pattern.drop (i + 1)) mark with
        | error e => rfl
        | ok read =>
          obtain ⟨t, width⟩ := read
          show (answer ((s.accept ⟨.token t, i, width⟩).map _) >>= _) = answer ((s.accept ⟨.token t, i, width⟩).map _)
          cases s.accept ⟨.token t, i, width⟩ <;> rfl

end Assembly

open Assembly

section Walk

variable {i position : Nat} {c : Char} {s s' : Assembly} {e : SyntaxError}

theorem assembleFrom_end (hmarks : Marks tables m) (s : Assembly) :
    assembleFrom encoding pattern tables pattern.length s =
      answer (s.acceptAll (m.itemsAt s.opened pattern.length)) := by
  rw [assembleFrom, walk_end (List.getElem?_eq_none (Nat.le_refl _))]
  show (expect (pattern.length == pattern.length) >>= fun _ => s.flush tables pattern.length) = _
  rw [beq_self_eq_true, ← flush_eq hmarks]
  rfl

/-- The walk goes on from where a step leads, unless the step fails. -/
theorem assembleFrom_step {next : Except SyntaxError Assembly} (hc : pattern[i]? = some c)
    (hstep : step encoding pattern tables i c s = answer (next.map (.goTo position))) (hlt : i < position) :
    assembleFrom encoding pattern tables i s =
      answer next >>= fun s' => assembleFrom encoding pattern tables position s' := by
  cases next with
  | error e =>
    rw [assembleFrom, walk_error hc hstep]
    rfl
  | ok s' =>
    rw [assembleFrom, walk_goTo hc hstep hlt]
    rfl

/-- At a symbol with no token the walk ends, once the markers before it are put down. -/
theorem assembleFrom_unread (hmarks : Marks tables m) (hc : pattern[i]? = some c)
    (hread : Token.read encoding i c (pattern.drop (i + 1)) = .error e) (s : Assembly) :
    assembleFrom encoding pattern tables i s =
      answer (s.acceptAll (m.itemsAt s.opened i) >>= fun _ => .error e) := by
  have hstep : step encoding pattern tables i c s =
      answer ((s.acceptAll (m.itemsAt s.opened i) >>= fun _ => .error e).map (.goTo (i + 1))) := by
    rw [step_eq hmarks hc, hread]
    cases s.acceptAll (m.itemsAt s.opened i) <;> rfl
  rw [assembleFrom_step hc hstep (Nat.lt_succ_self i)]
  cases s.acceptAll (m.itemsAt s.opened i) <;> rfl

/-- At a token the walk puts down the markers before it and the token, and goes on
behind it. -/
theorem assembleFrom_read {t : Token} {width : Nat} (hmarks : Marks tables m) (hc : pattern[i]? = some c)
    (hread : Token.read encoding i c (pattern.drop (i + 1)) = .ok (t, width)) (s : Assembly) :
    assembleFrom encoding pattern tables i s =
      answer (s.acceptAll (m.itemsAt s.opened i ++ [⟨.token t, i, width⟩])) >>= fun s' =>
        assembleFrom encoding pattern tables (i + width) s' := by
  refine assembleFrom_step hc ?_ (Nat.lt_add_of_pos_right (Token.fits_read encoding hread).1)
  rw [step_eq hmarks hc, hread, acceptAll_append]
  cases s.acceptAll (m.itemsAt s.opened i) with
  | error e => rfl
  | ok s' =>
    show _ = answer ((s'.acceptAll [⟨.token t, i, width⟩]).map _)
    rw [acceptAll_singleton]
    rfl

/-- **The walk goes over the items of the pattern one by one**, up to the end of the
pattern or to the first fault. -/
theorem assembleFrom_eq (hmarks : Marks tables m) (hi : i ≤ pattern.length) (s : Assembly) :
    let scan := (Token.read encoding).scanFrom 0 i (pattern.drop i)
    assembleFrom encoding pattern tables i s =
      answer (s.acceptAll (m.weave scan.stop s.opened scan.pieces) >>= fun s =>
        match scan.reason with
        | some e => .error e
        | none => .ok s) := by
  have hfits := Token.fits_read encoding
  dsimp only
  generalize hdrop : pattern.drop i = text
  induction i, text using Reader.induction_scan hfits generalizing s with
  | nil i =>
    obtain rfl : i = pattern.length := Nat.le_antisymm hi (List.drop_eq_nil_iff.1 hdrop)
    rw [assembleFrom_end hmarks, Reader.scanFrom_nil, Markers.weave]
    cases s.acceptAll (m.itemsAt s.opened pattern.length) <;> rfl
  | stop i c rest e hread =>
    obtain rfl := drop_succ_of_drop hdrop
    rw [assembleFrom_unread hmarks (getElem?_of_drop hdrop) hread, Reader.scanFrom_error _ hread, Markers.weave]
  | step i c rest t width hread ih =>
    have hlater : pattern.drop (i + width) = (c :: rest).drop width := by rw [← hdrop, List.drop_drop]
    have hle : i + width ≤ pattern.length := by
      have hlength := length_of_drop hdrop
      have hwidth := (hfits hread).2
      omega
    have hweave (stop : Nat) (ts : List (Spanned Token)) : m.weave stop s.opened (⟨t, i, width⟩ :: ts) =
        m.itemsAt s.opened i ++ [⟨.token t, i, width⟩] ++ m.weave stop (m.openedAfter s.opened i) ts :=
      List.append_cons ..
    obtain rfl := drop_succ_of_drop hdrop
    rw [Reader.scanFrom_step hfits hread, hweave, acceptAll_append,
      assembleFrom_read hmarks (getElem?_of_drop hdrop) hread]
    cases haccept : s.acceptAll (m.itemsAt s.opened i ++ [⟨.token t, i, width⟩]) with
    | error e => rfl
    | ok s' =>
      rw [acceptAll_append] at haccept
      obtain ⟨s₁, hitems, htoken⟩ := bind_eq_ok_iff.1 haccept
      rw [acceptAll_singleton] at htoken
      have hopened : s'.opened = m.openedAfter s.opened i :=
        (opened_of_accept htoken).trans (opened_of_itemsAt hitems)
      rw [answer_ok_bind, ih hle s' hlater, hopened]
      rfl

end Walk

/-! ## The end of the pattern -/

namespace Assembly

variable {s : Assembly} {offsets offsets' : List Nat} {item : Spanned Item}

/-- The nodes that open the groups around a place have these offsets. -/
def OpenAt (s : Assembly) (offsets : List Nat) : Prop :=
  List.Forall₂ (fun start offset => ∃ node, s.nodes[start]? = some node ∧ node.offset = offset) s.groups offsets

theorem OpenAt.add (h : s.OpenAt offsets) (hgroups : Grammar.groupsAfter offsets item = .ok offsets') :
    (s.add item).OpenAt offsets' := by
  have hkept : List.Forall₂ (fun start offset => ∃ node, (s.add item).nodes[start]? = some node ∧ node.offset = offset)
      s.groups offsets := by
    refine h.imp fun start offset ⟨node, hnode, hoffset⟩ => ⟨node, ?_, hoffset⟩
    exact (List.getElem?_append_left (List.getElem?_eq_some_iff.1 hnode).1).trans hnode
  obtain ⟨value, offset, width⟩ := item
  cases value with
  | token t =>
    cases t with
    | groupOpen =>
      obtain rfl := Except.ok.inj hgroups
      exact .cons ⟨_, List.getElem?_concat_length, rfl⟩ hkept
    | groupClose =>
      cases offsets with
      | nil => cases hgroups
      | cons first outer =>
        obtain rfl := Except.ok.inj hgroups
        show List.Forall₂ _ s.groups.tail outer
        cases hs : s.groups with
        | nil =>
          rw [hs] at hkept
          cases hkept
        | cons start groups =>
          rw [hs] at hkept
          exact (List.forall₂_cons.1 hkept).2
    | _ =>
      obtain rfl := Except.ok.inj hgroups
      exact hkept
  | _ =>
    obtain rfl := Except.ok.inj hgroups
    exact hkept

theorem accept_eq (h : s.OpenAt offsets) (item : Spanned Item) :
    s.accept item = Grammar.groupsAfter offsets item >>= fun _ =>
      (Grammar.allow s.before item.value.role item.offset).map fun _ => s.add item := by
  have hempty : s.groups = [] ↔ offsets = [] := by
    rw [← List.length_eq_zero_iff, ← List.length_eq_zero_iff, h.length_eq]
  unfold accept
  split
  · next hstray =>
    obtain rfl := hempty.1 hstray.2
    obtain ⟨value, offset, width⟩ := item
    obtain rfl := hstray.1
    rfl
  · next hkept =>
    obtain ⟨offsets', hgroups⟩ : ∃ offsets', Grammar.groupsAfter offsets item = .ok offsets' := by
      unfold Grammar.groupsAfter
      split
      · exact ⟨_, rfl⟩
      · next hclose =>
        cases offsets with
        | nil => exact absurd ⟨hclose, hempty.2 rfl⟩ hkept
        | cons first outer => exact ⟨outer, rfl⟩
      · exact ⟨_, rfl⟩
    rw [hgroups]
    rfl

/-- Items are put down if the grammar allows them. -/
theorem acceptAll_eq (h : s.OpenAt offsets) (items : List (Spanned Item)) :
    s.acceptAll items = (Grammar.checkItems s.before offsets items).map (fun _ => items.foldl add s) ∧
      ∀ role offsets', Grammar.checkItems s.before offsets items = .ok (role, offsets') →
        (items.foldl add s).before = role ∧ (items.foldl add s).OpenAt offsets' := by
  induction items generalizing s offsets with
  | nil =>
    refine ⟨rfl, fun role offsets' hcheck => ?_⟩
    obtain ⟨rfl, rfl⟩ := Prod.mk.inj (Except.ok.inj hcheck)
    exact ⟨rfl, h⟩
  | cons item items ih =>
    rw [acceptAll_cons, accept_eq h, Grammar.checkItems]
    cases hgroups : Grammar.groupsAfter offsets item with
    | error e => exact ⟨rfl, fun _ _ h => by cases h⟩
    | ok offsets₁ =>
      cases hallow : Grammar.allow s.before item.value.role item.offset with
      | error e => exact ⟨rfl, fun _ _ h => by cases h⟩
      | ok _ => exact ih (h.add hgroups)

theorem afterAtom_step (alive : Liveness) (item : Item) : (alive.step item).afterAtom = (item.role == .atom) := by
  obtain ⟨body, outer, closedDead, afterAtom, afterRequired⟩ := alive
  cases item with
  | token t =>
    cases t with
    | anchorStart => cases afterRequired <;> rfl
    | groupClose => cases closedDead <;> cases outer <;> rfl
    | _ => rfl
  | alternationStart => rfl
  | alternationEnd =>
    cases outer with
    | nil => cases closedDead <;> rfl
    | cons b outer =>
      obtain ⟨lastDead, othersDead⟩ := body
      cases closedDead <;> cases lastDead <;> cases othersDead <;> rfl

theorem liveness_add (s : Assembly) (item : Spanned Item) : (s.add item).liveness = s.liveness.step item.value := by
  rw [add, liveness, ← afterAtom_step s.liveness]

theorem nodes_foldl (s : Assembly) (items : List (Spanned Item)) :
    (items.foldl add s).nodes = s.nodes ++ Node.ofItems s.nodes.length s.groups items := by
  induction items generalizing s with
  | nil => exact (List.append_nil _).symm
  | cons item items ih =>
    rw [List.foldl_cons, ih, Node.ofItems]
    simp [add]

theorem liveness_foldl (s : Assembly) (items : List (Spanned Item)) :
    (items.foldl add s).liveness = items.foldl (fun alive item => alive.step item.value) s.liveness := by
  induction items generalizing s with
  | nil => rfl
  | cons item items ih => rw [List.foldl_cons, ih, liveness_add, List.foldl_cons]

/-- What goes up by one at certain items goes up by their number. -/
theorem count_foldl (count : Assembly → Nat) (counted : Item → Bool)
    (hadd : ∀ s item, count (s.add item) = count s + if counted item.value then 1 else 0)
    (s : Assembly) (items : List (Spanned Item)) :
    count (items.foldl add s) = count s + items.countP fun item => counted item.value := by
  induction items generalizing s with
  | nil => rfl
  | cons item items ih =>
    rw [List.foldl_cons, ih, hadd, List.countP_cons]
    omega

theorem groupCount_foldl (s : Assembly) (items : List (Spanned Item)) :
    (items.foldl add s).groupCount = s.groupCount + items.countP (·.value == .token .groupOpen) :=
  count_foldl groupCount (· == .token .groupOpen) (by simp [add]) s items

theorem alternations_foldl (s : Assembly) (items : List (Spanned Item)) :
    (items.foldl add s).alternations = s.alternations + items.countP (·.value == .alternationStart) :=
  count_foldl alternations (· == .alternationStart) (by simp [add]) s items

theorem finish_of_closed (h : s.groups = []) (stop : Nat) :
    s.finish stop = answer ((Grammar.allow s.before .finish stop).map fun _ =>
      { nodes := s.nodes ++ [.bare .sentinel stop 0 none, .bare .sentinel stop 0 none]
        groupCount := s.groupCount
        neverMatches := (s.liveness.settle false).outermost.isDead
        alternations := s.alternations }) := by
  obtain ⟨nodes, groups, opened, before, afterRequired, groupCount, alternations, body, outer, closedDead⟩ := s
  obtain rfl : groups = [] := h
  rw [finish]
  dsimp only
  rw [advance_eq]
  dsimp only
  cases Grammar.allow before .finish stop with
  | error e => rfl
  | ok _ =>
    have hsentinels (sentinel : Node) : nodes ++ [sentinel, sentinel] = nodes ++ [sentinel] ++ [sentinel] := by
      rw [List.append_assoc]
      rfl
    rw [hsentinels]
    cases closedDead <;> rfl

/-- What is put down once the pattern ends. -/
theorem finish_eq (items : List (Spanned Item)) (h : (items.foldl add fresh).OpenAt offsets) (stop : Nat) :
    (items.foldl add fresh).finish stop =
      answer (match offsets with
        | offset :: _ => .error ⟨.unclosedGroup, offset⟩
        | [] =>
          (Grammar.allow (items.foldl add fresh).before .finish stop).map fun _ => NodeList.ofItems items stop) := by
  cases hgroups : (items.foldl add fresh).groups with
  | nil =>
    obtain rfl : offsets = [] := by
      rw [OpenAt, hgroups] at h
      cases h
      rfl
    rw [finish_of_closed hgroups, nodes_foldl, groupCount_foldl, alternations_foldl, liveness_foldl]
    simp only [fresh, List.nil_append, List.length_nil, Nat.zero_add]
    rfl
  | cons start groups =>
    rw [OpenAt, hgroups] at h
    obtain ⟨offset, outer, ⟨node, hnode, rfl⟩, -, rfl⟩ := List.forall₂_cons_left_iff.1 h
    rw [finish, hgroups]
    dsimp only
    rw [entry_eq hnode]
    rfl

end Assembly

/-- **The nodes put down are those read.** -/
theorem assemble_eq (hmarks : Marks tables m) (encoding : Encoding) :
    assemble encoding pattern tables = answer (NodeList.read encoding m pattern) := by
  have hclosed : fresh.OpenAt [] := .nil
  obtain ⟨hitems, hopen⟩ := acceptAll_eq hclosed (m.itemsOf (tokens encoding pattern))
  have hwalk : assembleFrom encoding pattern tables 0 fresh =
      answer (fresh.acceptAll (m.itemsOf (tokens encoding pattern)) >>= fun s =>
        match (tokens encoding pattern).reason with
        | some e => .error e
        | none => .ok s) := assembleFrom_eq hmarks (Nat.zero_le _) fresh
  rw [assemble, hwalk, hitems, NodeList.read, Grammar.check]
  have hbefore : fresh.before = .start := rfl
  rw [hbefore] at hopen ⊢
  cases hcheck : Grammar.checkItems .start [] (m.itemsOf (tokens encoding pattern)) with
  | error e => rfl
  | ok last =>
    obtain ⟨role, offsets⟩ := last
    obtain ⟨rfl, hoffsets⟩ := hopen _ _ hcheck
    cases hreason : (tokens encoding pattern).reason with
    | some e => rfl
    | none =>
      rw [← Markers.stop_eq_length encoding pattern hreason]
      refine (finish_eq _ hoffsets _).trans ?_
      cases offsets <;> rfl

end Indexed

end RegexAutomaton
