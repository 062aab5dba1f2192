/-
Alternations of single symbols, and the sets they stand for.

Collapsing puts a set in the place of an alternation whose branches are atoms, and nodes
that have been rewritten away behind it. These bear no states and take no part in
coalescing, so the set is as good as one that is written (`Outline.Alike`).
-/
import RegexAutomaton.Proofs.OutlineAgrees
import RegexAutomaton.Proofs.OutlinePasses
import RegexAutomaton.Proofs.Writing

namespace RegexAutomaton

/-! ## Atoms that are choices -/

namespace Atom

/-- The symbols that an atom matches. -/
def set : Atom → CharSet
  | literal c => ⟨false, [.single c]⟩
  | bracket s => s
  | dot => .any

/-- Whether an atom may be a branch that is collapsed: it is no negated bracket. -/
def IsChoice : Atom → Prop
  | bracket s => s.negated = false
  | _ => True

theorem choice?_of_isChoice {a : Atom} (h : a.IsChoice) :
    Collapse.choice? (.ofItem [] (.token (.atom a))) = some a.set := by
  cases a with
  | literal c => rfl
  | bracket s => exact if_neg (by simp [show s.negated = false from h])
  | dot => rfl

/-- The ranges that an atom gives one by one. -/
def members : Atom → List CharRange
  | literal c => [.single c]
  | bracket s => s.members
  | dot => []

/-- The symbols that some atoms match, each of which is a choice. -/
def together (atoms : List Atom) : CharSet :=
  if .dot ∈ atoms then .any else .ofMembers (atoms.flatMap members)

theorem members_set (a : Atom) : a.set.members = a.members := by
  cases a <;> rfl

theorem isAny_set_iff {a : Atom} (h : a.IsChoice) : a.set.isAny = true ↔ a = dot := by
  cases a with
  | literal c => simp [set, CharSet.isAny]
  | bracket s => simp [set, CharSet.isAny, show s.negated = false from h]
  | dot => simp [set, CharSet.isAny, CharSet.any]

/-- What collapsing makes of choices. -/
theorem union_set {atoms : List Atom} (h : ∀ a ∈ atoms, a.IsChoice) : .union (atoms.map set) = together atoms := by
  have hdot : (atoms.map set).any CharSet.isAny = true ↔ .dot ∈ atoms := by
    simp only [List.any_map, List.any_eq_true, Function.comp_apply]
    exact ⟨fun ⟨a, ha, hany⟩ => (isAny_set_iff (h a ha)).1 hany ▸ ha, fun hdot => ⟨dot, hdot, rfl⟩⟩
  have hmembers : (atoms.map set).flatMap CharSet.members = atoms.flatMap members := by
    simp only [List.flatMap_map, members_set]
  simp only [CharSet.union, hdot, hmembers, together]

/-- The atom that a set is written as. -/
def ofSet (s : CharSet) : Atom := if s.isAny then dot else bracket s

/-- The ranges of a legible atom make a legible set. -/
theorem legible_members {encoding : Encoding} {a : Atom} (h : (Token.atom a).Legible encoding) (hdot : a ≠ dot) :
    a.members ≠ [] ∧ ∀ r ∈ a.members, r.lo ≤ r.hi ∧ encoding.Has r.lo ∧ encoding.Has r.hi := by
  cases a with
  | literal c =>
    refine ⟨by simp [members], fun r hr => ?_⟩
    obtain rfl := List.mem_singleton.1 hr
    exact ⟨Char.le_refl c, h, h⟩
  | bracket s =>
    obtain ⟨hne, -, hordered, hhas⟩ : s.Legible encoding := h
    exact ⟨hne, fun r hr => ⟨hordered r hr, hhas r hr⟩⟩
  | dot => exact absurd rfl hdot

/-- What legible atoms match together can be written. -/
theorem legible_ofSet_together {encoding : Encoding} {atoms : List Atom} (hne : atoms ≠ [])
    (h : ∀ a ∈ atoms, (Token.atom a).Legible encoding) :
    (Token.atom (.ofSet (together atoms))).Legible encoding := by
  unfold together
  split
  · trivial
  · next hdot =>
    have hmembers : ∀ a ∈ atoms, a.members ≠ [] ∧
        ∀ r ∈ a.members, r.lo ≤ r.hi ∧ encoding.Has r.lo ∧ encoding.Has r.hi := by
      refine fun a ha => legible_members (h a ha) ?_
      rintro rfl
      exact hdot ha
    obtain ⟨a, ha⟩ := List.exists_mem_of_ne_nil atoms hne
    obtain ⟨r, hr⟩ := List.exists_mem_of_ne_nil _ (hmembers a ha).1
    have hne : atoms.flatMap members ≠ [] := List.ne_nil_of_mem (List.mem_flatMap.2 ⟨a, ha, hr⟩)
    refine CharSet.legible_ofMembers hne fun r hr => ?_
    obtain ⟨a, ha, hra⟩ := List.mem_flatMap.1 hr
    exact (hmembers a ha).2 r hra

end Atom

namespace Token

/-- Some atoms with a bar between any two of them. -/
def choices (atoms : List Atom) : List Token := (atoms.map atom).intersperse bar

theorem choices_cons_cons (a b : Atom) (atoms : List Atom) :
    choices (a :: b :: atoms) = atom a :: bar :: choices (b :: atoms) := rfl

theorem mem_choices {a : Atom} {atoms : List Atom} (h : a ∈ atoms) : atom a ∈ choices atoms := by
  induction atoms with
  | nil => cases h
  | cons b more ih =>
    cases more with
    | nil =>
      obtain rfl := List.mem_singleton.1 h
      exact List.mem_singleton_self _
    | cons c more =>
      rw [choices_cons_cons]
      rcases List.mem_cons.1 h with rfl | hmore
      · exact List.mem_cons_self
      · exact List.mem_cons_of_mem _ (List.mem_cons_of_mem _ (ih hmore))

theorem text_ofSet (s : CharSet) : (atom (.ofSet s)).text = s.text := by
  unfold Atom.ofSet
  split
  · next hany =>
    rw [CharSet.isAny_iff.1 hany]
    rfl
  · rfl

end Token

/-! ## Outlines -/

namespace Outline

/-- A set that is written on the right is on the left an alternation that became the
set. -/
inductive Alike : Outline → Outline → Prop
  | nil : Alike nil nil
  | leaf (kind : NodeKind) (isLeaf : kind.isStructural = false) {rest rest' : Outline} (h : Alike rest rest') :
      Alike (leaf kind isLeaf rest) (leaf kind isLeaf rest')
  | bar {rest rest' : Outline} (h : Alike rest rest') : Alike (bar rest) (bar rest')
  | group {inner inner' rest rest' : Outline} (hinner : Alike inner inner') (h : Alike rest rest') :
      Alike (group inner rest) (group inner' rest')
  | set (s : CharSet) (n : Nat) {kind : NodeKind} (hkind : kind = .ofItem [] (.token (.atom (.ofSet s))))
      (isLeaf : kind.isStructural = false) :
      Alike (Outline.leaf (.collapsedStart s) rfl (inert n (Outline.leaf .collapsedEnd rfl Outline.nil)))
        (Outline.leaf kind isLeaf Outline.nil)

variable {o o' : Outline}

theorem Alike.refl (o : Outline) : o.Alike o := by
  induction o with
  | nil => exact .nil
  | leaf kind hleaf rest ih => exact .leaf kind hleaf ih
  | bar rest ih => exact .bar ih
  | group inner rest ihInner ihRest => exact .group ihInner ihRest

theorem guard_ofSet (s : CharSet) :
    Guard.ofKind? (.ofItem [] (.token (.atom (.ofSet s)))) = Guard.ofKind? (.collapsedStart s) := by
  unfold Atom.ofSet
  split
  · next hany =>
    rw [CharSet.isAny_iff.1 hany]
    rfl
  · rfl

theorem agrees_inert (n : Nat) : (inert n (leaf .collapsedEnd rfl nil)).Agrees nil := by
  induction n with
  | zero => exact (Agrees.refl nil).of_idle rfl rfl
  | succ n ih => exact ih.of_idle rfl rfl

/-- **A set gives the same states as the alternation that becomes it.** -/
theorem Alike.agrees (h : o.Alike o') : o.Agrees o' := by
  induction h with
  | nil => exact .refl _
  | leaf kind hleaf _ ih => exact ih.leaf rfl rfl
  | bar _ ih => exact ih.bar
  | group _ _ ihInner ihRest => exact .group ihInner ihRest
  | set s n hkind hleaf =>
    subst hkind
    refine (agrees_inert n).leaf (guard_ofSet s).symm ?_
    unfold Atom.ofSet
    split <;> rfl

theorem coalesce_inert (n : Nat) (inside : Bool) :
    (inert n (leaf .collapsedEnd rfl nil)).coalesce inside = inert n (leaf .collapsedEnd rfl nil) := by
  induction n generalizing inside with
  | zero => rfl
  | succ n ih =>
    show leaf .inert _ ((inert n (leaf .collapsedEnd rfl nil)).coalesce false) = _
    rw [ih]
    rfl

theorem Alike.quantifier?_eq (h : o.Alike o') : o.quantifier? = o'.quantifier? := by
  cases h with
  | set s n hkind hleaf =>
    subst hkind
    unfold Atom.ofSet
    split <;> rfl
  | _ => rfl

theorem Alike.lone?_eq (h : o.Alike o') (kind : NodeKind) : lone? kind o = lone? kind o' := by
  unfold lone?
  rw [h.quantifier?_eq]

theorem lone?_ofSet (s : CharSet) (rest : Outline) : lone? (.ofItem [] (.token (.atom (.ofSet s)))) rest = none := by
  unfold Atom.ofSet
  split <;> rfl

theorem Alike.run_eq (h : o.Alike o') : o.run = o'.run := by
  induction h with
  | leaf kind hleaf h ih => rw [run, run, h.lone?_eq, ih]
  | set s n hkind hleaf =>
    subst hkind
    have hset : (Outline.leaf (.ofItem [] (.token (.atom (.ofSet s)))) hleaf Outline.nil).run = [] := by
      rw [run, lone?_ofSet]
    rw [hset]
    rfl
  | _ => rfl

/-- Coalescing leaves sets alone, and does the same elsewhere. -/
theorem Alike.coalesce (h : o.Alike o') (inside : Bool) : (o.coalesce inside).Alike (o'.coalesce inside) := by
  induction h generalizing inside with
  | nil => exact .nil
  | leaf kind hleaf h ih =>
    rw [Outline.coalesce, Outline.coalesce, h.lone?_eq kind, h.run_eq]
    split
    · exact .leaf kind hleaf (ih false)
    · split
      · exact .leaf .inert _ (ih true)
      · exact .leaf _ rfl (ih true)
  | bar _ ih => exact .bar (ih false)
  | group _ _ ihInner ihRest => exact .group (ihInner false) (ihRest false)
  | set s n hkind hleaf =>
    subst hkind
    have hset : (Outline.leaf (.ofItem [] (.token (.atom (.ofSet s)))) hleaf Outline.nil).coalesce inside =
        Outline.leaf (.ofItem [] (.token (.atom (.ofSet s)))) hleaf Outline.nil := by
      rw [Outline.coalesce, lone?_ofSet]
      rfl
    rw [Outline.coalesce.eq_def, hset]
    simp only [lone?, coalesce_inert]
    exact .set s n rfl hleaf

/-- Whether a group lies directly in the body. -/
def hasGroup : Outline → Bool
  | nil => false
  | leaf _ _ rest => rest.hasGroup
  | bar rest => rest.hasGroup
  | group _ _ => true

/-- A body with a group in it is not collapsed. -/
theorem choices?_of_hasGroup (h : o.hasGroup = true) : o.choices? = none := by
  fun_induction choices? o with
  | case1 kind hleaf => cases h
  | case2 kind hleaf rest ih =>
    rw [ih h]
    cases Collapse.choice? kind <;> rfl
  | case3 o hlast hbar => rfl

theorem collapseBody_of_choices?_eq_none (h : o.choices? = none) : o.collapseBody = o.collapse := by
  have hset : o.set? = none := by simp [set?, h]
  rw [collapseBody, hset, Option.getD_none]

end Outline

end RegexAutomaton
