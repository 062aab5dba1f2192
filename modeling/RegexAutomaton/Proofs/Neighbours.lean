/-
The check of a pattern, as a condition on neighbours.

A pattern passes exactly if no two neighbours refuse each other, the ends of
the pattern included, and its groups match (`check_eq_ok_iff`). Markers make
no difference to such a condition as long as they pass on what their bodies
touch (`isChain_body`).
-/
import Mathlib.Data.List.Chain
import RegexAutomaton.Proofs.MarkerPlacement

namespace RegexAutomaton

/-- Nothing is wrong with a role directly after another. -/
def Role.Admits (before after : Role) : Prop := before.refusal? after = none

instance (before after : Role) : Decidable (before.Admits after) :=
  inferInstanceAs (Decidable (_ = _))

/-- The role of a token. -/
def Token.role (t : Token) : Role := (Item.token t).role

/-! ## The check -/

namespace Grammar

theorem allow_eq_ok_iff {before after : Role} {offset : Nat} :
    allow before after offset = .ok () ↔ before.Admits after := by
  unfold allow Role.Admits
  cases before.refusal? after <;> simp

/-- The groups open after an item, counted. -/
theorem depthAfter?_groupsAfter (groups : List Nat) (item : Spanned Item) (later : List Token) :
    Token.depthAfter? groups.length (item.value.token?.toList ++ later) =
      match groupsAfter groups item with
      | .ok groups => Token.depthAfter? groups.length later
      | .error _ => none := by
  obtain ⟨value, offset, width⟩ := item
  cases value with
  | token t =>
    cases t with
    | groupClose => cases groups <;> rfl
    | _ => rfl
  | alternationStart => rfl
  | alternationEnd => rfl

theorem exists_checkItems_iff {before : Role} {groups : List Nat} {items : List (Spanned Item)} :
    (∃ last, checkItems before groups items = .ok (last, []) ∧ last.Admits .finish) ↔
      List.IsChain Role.Admits (before :: (items.map (·.value.role) ++ [.finish])) ∧
        Token.depthAfter? groups.length (items.filterMap (·.value.token?)) = some 0 := by
  induction items generalizing before groups with
  | nil =>
    simp only [checkItems, Except.ok.injEq, Prod.mk.injEq, List.map_nil, List.nil_append,
      List.isChain_pair, List.filterMap_nil, Token.depthAfter?, Option.some.injEq,
      List.length_eq_zero_iff]
    constructor
    · intro hsplit
      obtain ⟨last, ⟨rfl, hgroups⟩, hlast⟩ := hsplit
      exact ⟨hlast, hgroups⟩
    · intro hsplit
      obtain ⟨hlast, hgroups⟩ := hsplit
      exact ⟨before, ⟨rfl, hgroups⟩, hlast⟩
  | cons item items ih =>
    have hdepth := depthAfter?_groupsAfter groups item (items.filterMap (·.value.token?))
    have hcons : (item :: items).filterMap (·.value.token?) =
        item.value.token?.toList ++ items.filterMap (·.value.token?) := by
      cases h : item.value.token? <;> simp [h]
    rw [hcons, hdepth, List.map_cons, List.cons_append, List.isChain_cons_cons]
    simp only [checkItems, bind, Except.bind]
    cases groupsAfter groups item with
    | error e => simp
    | ok groups' =>
      simp only
      cases hallow : allow before item.value.role item.offset with
      | error e =>
        have hnot : ¬ before.Admits item.value.role := fun h => by
          rw [allow_eq_ok_iff.2 h] at hallow
          cases hallow
        simp [hnot]
      | ok _ => simp only [ih, allow_eq_ok_iff.1 hallow, true_and]

/-- **A pattern passes the check if no two neighbours refuse each other and
its groups match.** -/
theorem check_eq_ok_iff {items : List (Spanned Item)} {stop : Nat} {reason : Option SyntaxError} :
    check items stop reason = .ok () ↔
      reason = none ∧ List.IsChain Role.Admits (.start :: (items.map (·.value.role) ++ [.finish])) ∧
        Token.depthAfter? 0 (items.filterMap (·.value.token?)) = some 0 := by
  have hitems : (∃ last, checkItems .start [] items = .ok (last, []) ∧ last.Admits .finish) ↔ _ :=
    exists_checkItems_iff
  rw [List.length_nil] at hitems
  rw [← hitems]
  simp only [check, bind, Except.bind]
  cases checkItems .start [] items with
  | error e => simp
  | ok found =>
    obtain ⟨last, groups⟩ := found
    cases reason with
    | some e => simp
    | none =>
      cases groups with
      | nil => simp [allow_eq_ok_iff]
      | cons offset groups => simp

end Grammar

/-! ## Markers between neighbours -/

/-- The markers of a body between `before` and `after` pass on what they
touch. -/
structure Role.PassedBetween (R : Role → Role → Prop) (before after : Role) : Prop where
  enter : R before .alternationStart
  leave : R .alternationEnd after
  first : ∀ r, r ≠ .groupClose → (R .alternationStart r ↔ R before r)
  last : ∀ r, r ≠ .groupOpen → (R r .alternationEnd ↔ R r after)

namespace Phrase

/-- The tokens of a phrase, without their places. -/
def values (p : Phrase) : List Token := p.tokens.map (·.value)

/-- The roles of the tokens of a phrase. -/
def roles (p : Phrase) : List Role := p.values.map Token.role

@[simp] theorem values_nil : values nil = [] := rfl

@[simp] theorem values_leaf (t : Spanned Token) (h : t.value.IsLeaf) (rest : Phrase) :
    values (leaf t h rest) = t.value :: rest.values := rfl

@[simp] theorem values_group (opening : Nat) (inner : Phrase) (closing : Nat) (rest : Phrase) :
    values (group opening inner closing rest) =
      .groupOpen :: (inner.values ++ .groupClose :: rest.values) := by
  simp [values, tokens]

@[simp] theorem roles_nil : roles nil = [] := rfl

@[simp] theorem roles_leaf (t : Spanned Token) (h : t.value.IsLeaf) (rest : Phrase) :
    roles (leaf t h rest) = t.value.role :: rest.roles := rfl

@[simp] theorem roles_group (opening : Nat) (inner : Phrase) (closing : Nat) (rest : Phrase) :
    roles (group opening inner closing rest) =
      .groupOpen :: (inner.roles ++ .groupClose :: rest.roles) := by
  simp [roles, Token.role, Item.role]

theorem role_ne_of_isLeaf {t : Token} (h : t.IsLeaf) : t.role ≠ .groupOpen ∧ t.role ≠ .groupClose := by
  cases t with
  | groupOpen => exact absurd rfl h.1
  | groupClose => exact absurd rfl h.2
  | _ => simp [Token.role, Item.role]

theorem head?_roles {p : Phrase} {r : Role} (h : p.roles.head? = some r) : r ≠ .groupClose := by
  cases p with
  | nil => cases h
  | leaf t hleaf rest =>
    obtain rfl := Option.some.inj h
    exact (role_ne_of_isLeaf hleaf).2
  | group o inner z rest =>
    rw [roles_group] at h
    obtain rfl := Option.some.inj h
    decide

theorem getLast?_roles {p : Phrase} {r : Role} (h : p.roles.getLast? = some r) : r ≠ .groupOpen := by
  induction p with
  | nil => cases h
  | leaf t hleaf rest ih =>
    rw [roles_leaf, List.getLast?_cons] at h
    cases hrest : rest.roles.getLast? with
    | none =>
      rw [hrest] at h
      obtain rfl := Option.some.inj h
      exact (role_ne_of_isLeaf hleaf).1
    | some r' =>
      rw [hrest] at h
      exact ih (hrest.trans h)
  | group o inner z rest ihInner ihRest =>
    rw [roles_group, List.getLast?_cons, List.getLast?_append, List.getLast?_cons] at h
    cases hrest : rest.roles.getLast? with
    | none =>
      rw [hrest] at h
      obtain rfl : Role.groupClose = r := Option.some.inj h
      decide
    | some r' =>
      rw [hrest] at h
      exact ihRest (hrest.trans h)

theorem roles_ne_nil_of_barred {p : Phrase} (h : p.barred = true) : p.roles ≠ [] := by
  cases p <;> simp [barred] at h ⊢

variable {R : Role → Role → Prop}

/-- What holds of the neighbours in a phrase holds of them in the body that it
makes. -/
theorem isChain_mark {p : Phrase} {before after : Role} (hR : Role.PassedBetween R before after)
    (first last : Nat) (later : List Role)
    (hitems : ∀ before later, List.IsChain R (before :: (p.items.map (·.value.role) ++ later)) ↔
      List.IsChain R (before :: (p.roles ++ later))) :
    List.IsChain R (before :: ((p.body first last).map (·.value.role) ++ after :: later)) ↔
      List.IsChain R (before :: (p.roles ++ after :: later)) := by
  unfold body mark
  split
  · next hbarred =>
    have hshape : (⟨.alternationStart, first, 0⟩ ::
          (p.items ++ [⟨.alternationEnd, last, 0⟩]) : List (Spanned Item)).map (·.value.role) ++
          after :: later =
        .alternationStart :: (p.items.map (·.value.role) ++ .alternationEnd :: after :: later) := by
      simp [Item.role]
    rw [hshape, List.isChain_cons_cons, hitems]
    have hne := roles_ne_nil_of_barred hbarred
    obtain ⟨r, hr⟩ := Option.ne_none_iff_exists'.1 (mt List.getLast?_eq_none_iff.1 hne)
    obtain ⟨r', hr'⟩ := Option.ne_none_iff_exists'.1 (mt List.head?_eq_none_iff.1 hne)
    have hfirst := hR.first r' (head?_roles hr')
    have hlast := hR.last r (getLast?_roles hr)
    have hhead (later : List Role) : (p.roles ++ later).head? = some r' := by
      rw [List.head?_append, hr']
      rfl
    simp only [List.isChain_cons, hhead, List.isChain_append, hr, List.head?_cons, Option.mem_def,
      Option.some.injEq, forall_eq', hfirst, hlast, hR.enter, hR.leave, true_and]
  · exact hitems before (after :: later)

theorem isChain_items (hR : Role.PassedBetween R .groupOpen .groupClose) (p : Phrase) (before : Role)
    (later : List Role) :
    List.IsChain R (before :: (p.items.map (·.value.role) ++ later)) ↔
      List.IsChain R (before :: (p.roles ++ later)) := by
  induction p generalizing before later with
  | nil => rfl
  | leaf t hleaf rest ih =>
    simp only [items, List.map_cons, List.cons_append, roles_leaf, List.isChain_cons_cons, ih]
    rfl
  | group o inner z rest ihInner ihRest =>
    have hshape : (group o inner z rest).items.map (·.value.role) ++ later =
        .groupOpen :: ((inner.body (o + 1) z).map (·.value.role) ++
          .groupClose :: (rest.items.map (·.value.role) ++ later)) := by
      simp [items, body, Item.role]
    have hroles : (group o inner z rest).roles ++ later =
        .groupOpen :: (inner.roles ++ .groupClose :: (rest.roles ++ later)) := by
      simp
    rw [hshape, hroles, List.isChain_cons_cons, List.isChain_cons_cons, isChain_mark hR _ _ _ ihInner]
    -- Both sides now agree up to the closing parenthesis, where the rest takes over.
    have hsplit (later : List Role) : List.IsChain R (.groupOpen :: (inner.roles ++ .groupClose :: later)) ↔
        List.IsChain R (.groupOpen :: inner.roles ++ [.groupClose]) ∧ List.IsChain R (.groupClose :: later) :=
      @List.isChain_split _ R .groupClose (.groupOpen :: inner.roles) later
    rw [hsplit, hsplit, ihRest]

/-- **Markers make no difference to the neighbours of a body.** -/
theorem isChain_body (hR : Role.PassedBetween R .groupOpen .groupClose) {before after : Role}
    (hends : Role.PassedBetween R before after) (p : Phrase) (first last : Nat) :
    List.IsChain R (before :: ((p.body first last).map (·.value.role) ++ [after])) ↔
      List.IsChain R (before :: (p.roles ++ [after])) :=
  isChain_mark hends first last [] (isChain_items hR p)

end Phrase

end RegexAutomaton
