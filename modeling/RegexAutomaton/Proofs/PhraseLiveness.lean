/-
What is known of a phrase.

A group tells no more than whether its body is dead, and the walk over a body
does little with what is known before it (`Phrase.after_recast`). So a walk over
the items of a phrase is a recursion on the phrase (`Liveness.run_items`), and a
pattern is seen never to match if its phrase is dead (`neverMatches_body`). Of two
phrases with a bar between them both have to be dead (`dead_append_branch`);
without bars it is enough that one is, or that they meet where a start anchor
cannot match (`dead_append`).
-/
import RegexAutomaton.Proofs.NeverMatches
import RegexAutomaton.Proofs.PhraseAppend

namespace RegexAutomaton

namespace Liveness

/-- What is known after some items. -/
def run (s : Liveness) (items : List (Spanned Item)) : Liveness :=
  items.foldl (fun s item => s.step item.value) s

/-- The same, with the innermost body changed and other bodies around. -/
def recast (s : Liveness) (f : Body → Body) (outer : List Body) : Liveness :=
  { s with body := f s.body, outer }

variable {s : Liveness} {t : Token} {f : Body → Body} {outer : List Body}

theorem othersDead_settle (s : Liveness) (spared : Bool) :
    (s.settle spared).body.othersDead = s.body.othersDead := by
  rw [body_settle]
  split <;> rfl

theorem settle_recast (hkill : ∀ b, f b.kill = (f b).kill) (s : Liveness) (outer : List Body) (spared : Bool) :
    (s.recast f outer).settle spared = (s.settle spared).recast f outer := by
  unfold settle kill
  cases hspared : s.closedDead && !spared <;> simp [recast, hspared, hkill]

theorem step_recast (h : t.IsLeaf) (hkill : ∀ b, f b.kill = (f b).kill)
    (hbar : t = .bar → ∀ b, f b.bar = (f b).bar) (s : Liveness) (outer : List Body) :
    (s.recast f outer).step (.token t) = (s.step (.token t)).recast f outer := by
  simp only [step, settle_recast hkill]
  cases t with
  | groupOpen => exact absurd rfl h.1
  | groupClose => exact absurd rfl h.2
  | anchorStart =>
    have hrequired : (s.recast f outer).afterRequired = s.afterRequired := rfl
    simp only [hrequired]
    split <;> simp [recast, kill, hkill]
  | bar => simp [recast, hbar]
  | _ => rfl

/-- What a body after some items is, if they are followed by the token `t` and
nothing is known of them at first. -/
def taint (s : Liveness) (t : Token) (b : Body) : Body :=
  ⟨b.lastDead || ((s.settle false).body.lastDead || (t == .anchorStart && s.afterRequired)), s.body.othersDead⟩

/-- What is known before a token that is neither a bar nor a quantifier can only
make its branch dead. -/
theorem step_eq_recast (h : t.IsLeaf) (hbar : t ≠ .bar) (hquantifier : ∀ q, t ≠ .quantifier q) (s : Liveness) :
    s.step (.token t) = (fresh.step (.token t)).recast (s.taint t) s.outer := by
  obtain ⟨⟨lastDead, othersDead⟩, outer, closedDead, afterAtom, afterRequired⟩ := s
  cases t with
  | groupOpen => exact absurd rfl h.1
  | groupClose => exact absurd rfl h.2
  | bar => exact absurd rfl hbar
  | quantifier q => exact absurd rfl (hquantifier q)
  | anchorStart => cases closedDead <;> cases afterRequired <;> cases lastDead <;> rfl
  | _ => cases closedDead <;> cases lastDead <;> rfl

end Liveness

namespace Phrase

/-- What is known after a phrase. -/
def after : Phrase → Liveness → Liveness
  | nil, s => s
  | leaf t _ rest, s => rest.after (s.step (.token t.value))
  | group _ inner _ rest, s =>
    rest.after { s.atNext (.token .groupOpen) with
      closedDead := ((inner.after .fresh).settle false).body.isDead }

/-- Whether all branches of a whole phrase are dead. -/
def dead (p : Phrase) : Bool := ((p.after .fresh).settle false).body.isDead

theorem after_group (opening : Nat) (inner : Phrase) (closing : Nat) (rest : Phrase) (s : Liveness) :
    (group opening inner closing rest).after s =
      rest.after { s.atNext (.token .groupOpen) with closedDead := inner.dead } := rfl

@[simp] theorem after_append (p q : Phrase) (s : Liveness) : (p.append q).after s = q.after (p.after s) := by
  induction p generalizing s with
  | nil => rfl
  | leaf t hleaf rest ih => exact ih _
  | group o inner z rest _ ih => exact ih _

@[simp] theorem after_shift (k : Nat) (p : Phrase) (s : Liveness) : (p.shift k).after s = p.after s := by
  induction p generalizing s with
  | nil => rfl
  | leaf t hleaf rest ih => exact ih _
  | group o inner z rest ihInner ihRest =>
    have hdead : (inner.shift k).dead = inner.dead := by rw [dead, ihInner, dead]
    rw [shift, after_group, after_group, hdead, ihRest]

/-- **A change to the innermost body stays what it is**, if nothing that happens to
the body gets in its way. -/
theorem after_recast {p : Phrase} {f : Body → Body} (hkill : ∀ b, f b.kill = (f b).kill)
    (hbar : p.barred = true → ∀ b, f b.bar = (f b).bar) (s : Liveness) (outer : List Body) :
    p.after (s.recast f outer) = (p.after s).recast f outer := by
  induction p generalizing s with
  | nil => rfl
  | leaf t hleaf rest ih =>
    rw [after, Liveness.step_recast hleaf hkill, ih, after]
    · exact fun hrest => hbar (by rw [barred, hrest, Bool.or_true])
    · exact fun ht => hbar (by simp [barred, ht])
  | group o inner z rest _ ih =>
    rw [after_group, after_group, ← ih hbar]
    simp only [Liveness.atNext, Liveness.settle_recast hkill]
    rfl

theorem outer_after (p : Phrase) (s : Liveness) : (p.after s).outer = s.outer := by
  have houter := congrArg Liveness.outer (p.after_recast (f := id) (fun _ => rfl) (fun _ _ => rfl) s s.outer)
  exact houter

end Phrase

namespace Liveness

/-- The end of an alternation leaves its body, which makes the branch around it
dead if it is dead itself. -/
theorem step_alternationEnd (s : Liveness) (b : Body) (outer : List Body) :
    (s.recast id (b :: outer)).step .alternationEnd =
      ⟨if (s.settle false).body.isDead then b.kill else b, outer, false, false, false⟩ := by
  have hstep : (s.recast id (b :: outer)).step .alternationEnd =
      if (s.settle false).body.isDead then (⟨b, outer, (s.settle false).closedDead, false, false⟩ : Liveness).kill
      else ⟨b, outer, (s.settle false).closedDead, false, false⟩ := by
    simp only [step, spares, settle_recast (f := id) fun _ => rfl]
    rfl
  rw [hstep, closedDead_settle]
  split <;> rfl

/-- The end of a group leaves its body, and tells whether it is dead. -/
theorem step_groupClose (s : Liveness) (b : Body) (outer : List Body) :
    (s.recast id (b :: outer)).step (.token .groupClose) =
      ⟨b, outer, (s.settle false).body.isDead, false, false⟩ := by
  simp only [step, spares, settle_recast (f := id) fun _ => rfl]
  rfl

/-- Markers around a body make no difference to whether it is dead. -/
theorem exists_run_body {p : Phrase} (hitems : ∀ s : Liveness, s.run p.items = p.after s) (first last : Nat)
    (outer : List Body) :
    ∃ s : Liveness, (fresh.recast id outer).run (p.body first last) = s.recast id outer ∧
      (s.settle false).body.isDead = p.dead := by
  have hafter := p.after_recast (f := id) (fun _ => rfl) (fun _ _ => rfl) fresh
  unfold Phrase.body Phrase.mark
  split
  · have hinner : (fresh.recast id outer).run
          (⟨.alternationStart, first, 0⟩ :: (p.items ++ [⟨.alternationEnd, last, 0⟩])) =
        ((p.after fresh).recast id (Body.fresh :: outer)).step .alternationEnd := by
      rw [← hafter, ← hitems]
      simp only [run, List.foldl_cons, List.foldl_append, List.foldl_nil]
      rfl
    rw [hinner, step_alternationEnd]
    refine ⟨⟨if p.dead then Body.fresh.kill else Body.fresh, outer, false, false, false⟩, rfl, ?_⟩
    cases p.dead <;> rfl
  · exact ⟨p.after fresh, by rw [hitems, hafter], rfl⟩

/-- A group tells only whether its body is dead. -/
theorem run_group {s s' : Liveness} {inner : Phrase} {body : List (Spanned Item)}
    (hbody : (fresh.recast id ((s.settle false).body :: s.outer)).run body =
      s'.recast id ((s.settle false).body :: s.outer))
    (hdead : (s'.settle false).body.isDead = inner.dead) (o z : Nat) (later : List (Spanned Item)) :
    s.run (⟨.token .groupOpen, o, 1⟩ :: (body ++ ⟨.token .groupClose, z, 1⟩ :: later)) =
      Liveness.run { s.atNext (.token .groupOpen) with closedDead := inner.dead } later := by
  have hitems : s.run (⟨.token .groupOpen, o, 1⟩ :: (body ++ ⟨.token .groupClose, z, 1⟩ :: later)) =
      (((fresh.recast id ((s.settle false).body :: s.outer)).run body).step (.token .groupClose)).run later := by
    obtain ⟨body, outer, closedDead, afterAtom, afterRequired⟩ := s
    simp only [run, List.foldl_cons, List.foldl_append]
    cases closedDead <;> rfl
  rw [hitems, hbody, step_groupClose, hdead]
  obtain ⟨body, outer, closedDead, afterAtom, afterRequired⟩ := s
  cases closedDead <;> rfl

/-- **What is known after the items of a phrase.** -/
theorem run_items (p : Phrase) (s : Liveness) : s.run p.items = p.after s := by
  induction p generalizing s with
  | nil => rfl
  | leaf t hleaf rest ih => exact ih _
  | group o inner z rest ihInner ihRest =>
    obtain ⟨s', hs', hdead⟩ := exists_run_body ihInner (o + 1) z ((s.settle false).body :: s.outer)
    rw [Phrase.after_group, ← ihRest]
    exact run_group hs' hdead o z rest.items

/-- The markers between its tokens play no part in it. -/
theorem run_tokens (p : Phrase) (s : Liveness) : s.run (p.tokens.map (·.map .token)) = p.after s := by
  induction p generalizing s with
  | nil => rfl
  | leaf t hleaf rest ih => exact ih _
  | group o inner z rest ihInner ihRest =>
    have hinner : (fresh.recast id ((s.settle false).body :: s.outer)).run (inner.tokens.map (·.map .token)) =
        (inner.after fresh).recast id ((s.settle false).body :: s.outer) := by
      rw [ihInner]
      exact inner.after_recast (f := id) (fun _ => rfl) (fun _ _ => rfl) fresh _
    rw [Phrase.after_group, ← ihRest, Phrase.tokens, List.map_cons, List.map_append, List.map_cons]
    exact run_group hinner rfl o z _

/-- **A pattern is seen never to match if its phrase is dead.** -/
theorem neverMatches_body (p : Phrase) (first last : Nat) : neverMatches (p.body first last) = p.dead := by
  obtain ⟨s, hs, hdead⟩ := exists_run_body (run_items p) first last []
  have hrun : neverMatches (p.body first last) =
      (((fresh.recast id []).run (p.body first last)).settle false).outermost.isDead := rfl
  rw [hrun, hs, settle_recast (f := id) fun _ => rfl, ← hdead]
  rfl

theorem neverMatches_tokens (p : Phrase) : neverMatches (p.tokens.map (·.map .token)) = p.dead := by
  have hrun : neverMatches (p.tokens.map (·.map .token)) =
      ((fresh.run (p.tokens.map (·.map .token))).settle false).outermost.isDead := rfl
  have houter : ((p.after fresh).settle false).outer = [] := by
    rw [outer_settle, Phrase.outer_after]
    rfl
  rw [hrun, run_tokens, outermost, houter]
  rfl

end Liveness

/-! ## What is known of the last token -/

namespace Token

/-- Whether some tokens end with an atom that has to match, or with the quantifier of
one. -/
def endsRequired (ts : List Token) : Bool :=
  match ts.reverse with
  | atom _ :: _ => true
  | quantifier q :: atom _ :: _ => 1 ≤ q.repetition.least
  | _ => false

/-- Whether the last token is an atom, and whether it has to match, after one
more token. -/
def lastAtom (known : Bool × Bool) : Token → Bool × Bool
  | atom _ => (true, true)
  | quantifier q => (false, known.1 && !q.repetition.isOptional)
  | _ => (false, false)

theorem snd_foldl_lastAtom (ts : List Token) : (ts.foldl lastAtom (false, false)).2 = endsRequired ts := by
  rcases List.eq_nil_or_concat' ts with rfl | ⟨ts, t, rfl⟩
  · rfl
  rw [List.foldl_append, endsRequired, List.reverse_append]
  show (lastAtom (ts.foldl lastAtom (false, false)) t).2 = _
  cases t with
  | quantifier q =>
    rcases List.eq_nil_or_concat' ts with rfl | ⟨ts, u, rfl⟩
    · rfl
    rw [List.foldl_append, List.reverse_append]
    cases u <;> simp [lastAtom, Repetition.isOptional, Nat.one_le_iff_ne_zero, Bool.beq_eq_decide_eq]
  | _ => rfl

end Token

namespace Phrase

theorem lastAtom_after (p : Phrase) (s : Liveness) :
    ((p.after s).afterAtom, (p.after s).afterRequired) =
      p.values.foldl Token.lastAtom (s.afterAtom, s.afterRequired) := by
  induction p generalizing s with
  | nil => rfl
  | leaf t hleaf rest ih =>
    have hstep : ((s.step (.token t.value)).afterAtom, (s.step (.token t.value)).afterRequired) =
        Token.lastAtom (s.afterAtom, s.afterRequired) t.value := by
      generalize t.value = t at hleaf
      cases t with
      | groupOpen => exact absurd rfl hleaf.1
      | groupClose => exact absurd rfl hleaf.2
      | anchorStart =>
        simp only [Liveness.step]
        split <;> rfl
      | _ => rfl
    rw [after, ih, hstep, values_leaf, List.foldl_cons]
  | group o inner z rest _ ih =>
    rw [after_group, ih, values_group, List.foldl_cons, List.foldl_append, List.foldl_cons]
    rfl

theorem afterRequired_after (p : Phrase) : (p.after .fresh).afterRequired = Token.endsRequired p.values := by
  have hlast := congrArg Prod.snd (p.lastAtom_after .fresh)
  rw [← Token.snd_foldl_lastAtom]
  exact hlast

end Phrase

/-! ## Two phrases -/

namespace Phrase

variable {p q : Phrase}

/-- **Of two phrases with a bar between them both have to be dead.** -/
theorem dead_append_branch (p q : Phrase) (k : Nat) : (p.append (q.branch.shift k)).dead = (p.dead && q.dead) := by
  -- After the bar the branches before count as dead only if `p` is.
  obtain ⟨f, hf⟩ : ∃ f : Body → Body, f = fun b => { b with othersDead := p.dead && b.othersDead } := ⟨_, rfl⟩
  have hkill (b : Body) : f b.kill = (f b).kill := by rw [hf]; rfl
  have hfbar (b : Body) : f b.bar = (f b).bar := by simp [hf, Body.bar, Bool.and_assoc]
  have hbar : (p.after .fresh).step (.token .bar) = Liveness.fresh.recast f [] := by
    have houter := p.outer_after .fresh
    rw [hf, dead]
    generalize p.after .fresh = s at houter ⊢
    obtain ⟨⟨lastDead, othersDead⟩, outer, closedDead, afterAtom, afterRequired⟩ := s
    obtain rfl : outer = [] := houter
    cases closedDead <;> cases lastDead <;> cases othersDead <;> rfl
  rw [dead, after_append, after_shift, branch, after, after_shift, hbar, after_recast hkill fun _ => hfbar,
    Liveness.settle_recast hkill, hf]
  exact Bool.and_assoc ..

/-- A phrase without bars has no branches before the last. -/
theorem othersDead_after (h : p.barred = false) : (p.after .fresh).body.othersDead = true := by
  have hkill (b : Body) : (⟨b.kill.lastDead, true⟩ : Body) = Body.kill ⟨b.lastDead, true⟩ := rfl
  have hfresh : Liveness.fresh.recast (fun b => ⟨b.lastDead, true⟩) [] = .fresh := rfl
  have hafter := p.after_recast (f := fun b => ⟨b.lastDead, true⟩) hkill (fun hbar => by simp [h] at hbar) .fresh []
  rw [hfresh] at hafter
  rw [hafter]
  rfl

theorem dead_of_not_barred (h : p.barred = false) : p.dead = ((p.after .fresh).settle false).body.lastDead := by
  rw [dead, Body.isDead, Liveness.othersDead_settle, othersDead_after h, Bool.true_and]

/-- What is known before a phrase without bars can only make its branch dead. -/
theorem after_eq_recast (hq : q.barred = false) {t : Token} (hfirst : q.values.head? = some t)
    (ht : ∀ r, t ≠ .quantifier r) (s : Liveness) :
    q.after s = (q.after .fresh).recast (s.taint t) s.outer := by
  have hkill (b : Body) : s.taint t b.kill = (s.taint t b).kill := by simp [Liveness.taint, Body.kill]
  cases q with
  | nil => cases hfirst
  | leaf u hleaf rest =>
    obtain ⟨hbar, hrest⟩ := Bool.or_eq_false_iff.1 hq
    obtain rfl : u.value = t := Option.some.inj hfirst
    rw [after, after, ← after_recast hkill fun h => absurd (hrest.symm.trans h) Bool.false_ne_true,
      ← Liveness.step_eq_recast hleaf (by simpa using hbar) ht]
  | group o inner z rest =>
    rw [values_group] at hfirst
    obtain rfl : Token.groupOpen = t := Option.some.inj hfirst
    have hrest : rest.barred = false := hq
    rw [after_group, after_group, ← after_recast hkill fun h => absurd (hrest.symm.trans h) Bool.false_ne_true]
    congr 1
    obtain ⟨⟨lastDead, othersDead⟩, outer, closedDead, afterAtom, afterRequired⟩ := s
    cases closedDead <;> cases lastDead <;> rfl

/-- **Of two phrases without bars one has to be dead**, or a start anchor has to
come after an atom that has to match. -/
theorem dead_append (hp : p.barred = false) (hq : q.barred = false)
    (hfirst : ∀ r, q.values.head? ≠ some (.quantifier r)) (k : Nat) :
    (p.append (q.shift k)).dead =
      (p.dead || q.dead || (q.values.head? == some .anchorStart && Token.endsRequired p.values)) := by
  rw [dead, after_append, after_shift, ← afterRequired_after]
  cases hhead : q.values.head? with
  | none =>
    cases q with
    | nil =>
      have hnil : nil.dead = false := rfl
      rw [after, ← dead, hnil]
      simp
    | leaf t hleaf rest => cases hhead
    | group o inner z rest => simp at hhead
  | some t =>
    have ht : ∀ r, t ≠ .quantifier r := by
      rintro r rfl
      exact hfirst r hhead
    have hkill (b : Body) : (p.after .fresh).taint t b.kill = ((p.after .fresh).taint t b).kill := by
      simp [Liveness.taint, Body.kill]
    rw [after_eq_recast hq hhead ht, Liveness.settle_recast hkill, dead_of_not_barred hp, dead_of_not_barred hq]
    simp [Body.isDead, Liveness.recast, Liveness.taint, othersDead_after hp, Bool.or_left_comm, Bool.or_assoc]

end Phrase

end RegexAutomaton
