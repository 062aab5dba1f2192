/-
What a loop over the nodes knows before each round.

`Past` says what the nodes on the left come to: the groups around, the books, the atom
before, and the fallbacks and repetitions found. It is read off the list without numbers
of states (`Past.Of`), and every node it speaks of bears a state and is on the left
(`Past.Sound`), no more than once in the books.
-/
import Mathlib.Data.List.Nodup
import RegexAutomaton.Indexed.Building
import RegexAutomaton.Proofs.GroupStack
import RegexAutomaton.Proofs.Reads
import RegexAutomaton.Proofs.States

namespace RegexAutomaton

/-! ## Books -/

namespace Book

variable {f : Nat → Nat} {index j : Nat} {kind : NodeKind} {books : List Book}

/-- The book with other numbers. -/
def map (f : Nat → Nat) (b : Book) : Book := ⟨b.pending.map f, b.awaiting.map f⟩

theorem noteAll_map (f : Nat → Nat) (indices : List Nat) (books : List Book) :
    noteAll (indices.map f) (books.map (map f)) = (noteAll indices books).map (map f) := by
  cases books with
  | nil => rfl
  | cons b outer => simp [noteAll, note, map]

theorem map_settle (f : Nat → Nat) (books : List Book) :
    (books.map (map f)).map settle = (books.map settle).map (map f) := by
  simp [map, settle, Function.comp_def]

/-- Books do not depend on how nodes are numbered. -/
theorem after_map (f : Nat → Nat) (index : Nat) (kind : NodeKind) (books : List Book) :
    after (f index) kind (books.map (map f)) = (after index kind books).map (map f) := by
  have hnote := noteAll_map f [index] (books.map settle)
  rw [List.map_singleton, ← map_settle] at hnote
  cases kind with
  | alternationStart => rfl
  | bar => cases books <;> simp [after, turn, map]
  | alternationEnd =>
    cases books with
    | nil => rfl
    | cons b outer => exact noteAll_map f b.pending outer
  | groupClose _ | quantifier _ | collapsedEnd | inert | sentinel => rfl
  | groupOpen | literal _ | bracket _ | dot | anchorStart | anchorEnd | collapsedStart _ => exact hnote

/-- The nodes in some books: those that wait, and then those of the open branches. -/
def listed (books : List Book) : List Nat := books.flatMap (·.awaiting) ++ books.flatMap (·.pending)

theorem count_pending_noteAll (indices : List Nat) (books : List Book) (j : Nat) :
    ((noteAll indices books).flatMap (·.pending)).count j ≤ (books.flatMap (·.pending)).count j + indices.count j := by
  cases books with
  | nil => exact Nat.zero_le _
  | cons b outer =>
    simp only [noteAll, note, List.flatMap_cons, List.count_append]
    omega

theorem awaiting_noteAll (indices : List Nat) (books : List Book) :
    (noteAll indices books).flatMap (·.awaiting) = books.flatMap (·.awaiting) := by
  cases books <;> rfl

theorem pending_settle (books : List Book) : (books.map settle).flatMap (·.pending) = books.flatMap (·.pending) := by
  simp [List.flatMap_map, settle]

theorem awaiting_settle (books : List Book) : (books.map settle).flatMap (·.awaiting) = [] := by
  simp [List.flatMap_map, settle]

/-- A node that bears a state is put down once, and what waited is gone. -/
theorem count_listed_after_of_bears (h : kind.bearsState = true) (index : Nat) (books : List Book) (j : Nat) :
    (listed (after index kind books)).count j ≤
      (books.flatMap (·.pending)).count j + if index = j then 1 else 0 := by
  have hafter : after index kind books = noteAll [index] (books.map settle) := by
    cases kind <;> first | rfl | cases h
  have hcount := count_pending_noteAll [index] (books.map settle) j
  rw [pending_settle, List.count_singleton] at hcount
  simpa only [hafter, listed, awaiting_noteAll, awaiting_settle, List.nil_append, beq_iff_eq] using hcount

/-- Other nodes put down nothing. -/
theorem count_listed_after (h : kind.bearsState = false) (index : Nat) (books : List Book) (j : Nat) :
    (listed (after index kind books)).count j ≤ (listed books).count j := by
  cases kind with
  | alternationStart => exact Nat.le_refl _
  | bar =>
    cases books with
    | nil => exact Nat.le_refl _
    | cons b outer =>
      simp only [listed, after, turn, List.flatMap_cons, List.count_append, List.count_nil]
      omega
  | alternationEnd =>
    cases books with
    | nil => exact Nat.le_refl _
    | cons b outer =>
      have hcount := count_pending_noteAll b.pending outer j
      simp only [listed, after, awaiting_noteAll, List.flatMap_cons, List.count_append]
      omega
  | groupClose _ | quantifier _ | collapsedEnd | inert | sentinel => exact Nat.le_refl _
  | groupOpen | literal _ | bracket _ | dot | anchorStart | anchorEnd | collapsedStart _ => cases h

end Book

/-! ## The nodes on the left -/

/-- What some nodes come to for those on their right. -/
structure Past where
  /-- The groups around, the innermost first. -/
  groups : List Nat
  books : List Book
  /-- The node that a quantifier would repeat. -/
  atom : Option Nat
  /-- The fallbacks found. -/
  fallbacks : List (Nat × Nat)
  /-- The quantifiers found, with what they repeat. -/
  repetitions : List (Nat × Repetition)

namespace Past

open Node

/-- No node yet. -/
def empty : Past := ⟨[], [], none, [], []⟩

/-- The node that a quantifier after a node would repeat. -/
def atomAfter (index : Nat) (atom : Option Nat) : NodeKind → Option Nat
  | .quantifier _ => atom
  | .groupClose opened => some opened
  | kind => if kind.bearsState then some index else atom

/-- What a quantifier repeats. -/
def repeated (atom : Option Nat) : NodeKind → List (Nat × Repetition)
  | .quantifier q => (atom.map (·, q.repetition)).toList
  | _ => []

/-- With one more node. -/
def after (p : Past) (index : Nat) (kind : NodeKind) : Past where
  groups := kind.groupsAfter index p.groups
  books := Book.after index kind p.books
  atom := atomAfter index p.atom kind
  fallbacks := p.fallbacks ++ Book.found index kind p.books
  repetitions := p.repetitions ++ repeated p.atom kind

/-- The nodes before an index come to this. -/
structure Of (nodes : List Node) (index : Nat) (p : Past) : Prop where
  wired : Wired p.groups index (nodes.drop index)
  fallbacks : Book.fallbacks [] 0 nodes = p.fallbacks ++ Book.fallbacks p.books index (nodes.drop index)
  repetitions : quantified 0 none nodes = p.repetitions ++ quantified index p.atom (nodes.drop index)

/-- Whether a node comes before an index and bears a state. -/
def IsBearer (nodes : List Node) (index j : Nat) : Prop :=
  j < index ∧ ∃ node, nodes[j]? = some node ∧ node.kind.bearsState = true

/-- Every node that is spoken of bears a state and comes before an index, and those in
the books have no fallback yet. -/
structure Sound (nodes : List Node) (index : Nat) (p : Past) : Prop where
  groups : ∀ g ∈ p.groups, IsBearer nodes index g
  atom : ∀ a, p.atom = some a → IsBearer nodes index a
  listed : ∀ j ∈ Book.listed p.books, IsBearer nodes index j ∧ p.fallbacks.lookup j = none
  nodup : (Book.listed p.books).Nodup
  fallbacks : ∀ found ∈ p.fallbacks, IsBearer nodes index found.1 ∧ IsBearer nodes index found.2
  repetitions : ∀ found ∈ p.repetitions, IsBearer nodes index found.1

variable {nodes : List Node} {index : Nat} {p : Past} {node : Node}

theorem of_empty (h : Wired [] 0 nodes) : empty.Of nodes 0 := ⟨h, rfl, rfl⟩

theorem sound_empty (nodes : List Node) : empty.Sound nodes 0 where
  groups := nofun
  atom := nofun
  listed := nofun
  nodup := .nil
  fallbacks := nofun
  repetitions := nofun

theorem quantified_cons (index : Nat) (atom : Option Nat) (node : Node) (rest : List Node) :
    quantified index atom (node :: rest) =
      repeated atom node.kind ++ quantified (index + 1) (atomAfter index atom node.kind) rest := by
  rw [quantified]
  cases node.kind <;> rfl

/-- One node more is on the left. -/
theorem Of.after (h : p.Of nodes index) (hnode : nodes[index]? = some node) :
    (p.after index node.kind).Of nodes (index + 1) := by
  obtain ⟨hwired, hfallbacks, hrepetitions⟩ := h
  rw [drop_of_getElem? hnode] at hwired hfallbacks hrepetitions
  refine ⟨hwired.2, ?_, ?_⟩
  · rw [hfallbacks, Book.fallbacks, ← List.append_assoc]
    rfl
  · rw [hrepetitions, quantified_cons, ← List.append_assoc]
    rfl

theorem IsBearer.succ {j : Nat} (h : IsBearer nodes index j) : IsBearer nodes (index + 1) j :=
  ⟨Nat.lt_succ_of_lt h.1, h.2⟩

theorem IsBearer.here (hnode : nodes[index]? = some node) (hbears : node.kind.bearsState = true) :
    IsBearer nodes (index + 1) index :=
  ⟨Nat.lt_succ_self index, node, hnode, hbears⟩

namespace Sound

theorem groups_after (h : p.Sound nodes index) (hnode : nodes[index]? = some node) :
    ∀ g ∈ node.kind.groupsAfter index p.groups, IsBearer nodes (index + 1) g := by
  intro g hg
  unfold NodeKind.groupsAfter at hg
  split at hg
  · next hkind =>
    rcases List.mem_cons.1 hg with rfl | hg
    · exact .here hnode (by rw [hkind]; rfl)
    · exact (h.groups g hg).succ
  · exact (h.groups g (List.mem_of_mem_tail hg)).succ
  · exact (h.groups g hg).succ

theorem atom_after (h : p.Sound nodes index) (hof : p.Of nodes index) (hnode : nodes[index]? = some node) {a : Nat}
    (ha : atomAfter index p.atom node.kind = some a) : IsBearer nodes (index + 1) a := by
  unfold atomAfter at ha
  split at ha
  · exact (h.atom a ha).succ
  · next opened hkind =>
    obtain rfl := Option.some.inj ha
    have hwired := hof.wired
    rw [drop_of_getElem? hnode] at hwired
    exact (h.groups _ (List.mem_of_head? (hwired.1.opened _ hkind))).succ
  · split at ha
    · next hbears =>
      obtain rfl := Option.some.inj ha
      exact .here hnode hbears
    · exact (h.atom a ha).succ

/-- No node has a fallback before it is met. -/
theorem lookup_eq_none (h : p.Sound nodes index) {j : Nat} (hj : index ≤ j) : p.fallbacks.lookup j = none := by
  refine List.lookup_eq_none_iff.2 fun found hfound => ?_
  have hlt := (h.fallbacks found hfound).1.1
  have hne : j ≠ found.1 := by omega
  exact bne_iff_ne.2 hne

theorem not_mem_listed (h : p.Sound nodes index) : index ∉ Book.listed p.books := fun hmem =>
  Nat.lt_irrefl index (h.listed index hmem).1.1

/-- A node of an open branch does not wait. -/
theorem not_waiting (h : p.Sound nodes index) {j : Nat} (hj : j ∈ p.books.flatMap (·.pending)) :
    j ∉ p.books.flatMap (·.awaiting) := fun hwaiting =>
  (List.nodup_append.1 h.nodup).2.2 j hwaiting j hj rfl

theorem lookup_found_eq_none {j : Nat} {kind : NodeKind} (hj : j ∉ p.books.flatMap (·.awaiting)) :
    (Book.found index kind p.books).lookup j = none := by
  refine List.lookup_eq_none_iff.2 fun found hfound => ?_
  unfold Book.found at hfound
  split at hfound
  · obtain ⟨waiting, hwaiting, rfl⟩ := List.mem_map.1 hfound
    have hne : j ≠ waiting := fun heq => hj (heq ▸ hwaiting)
    exact bne_iff_ne.2 hne
  · cases hfound

theorem listed_after (h : p.Sound nodes index) (hnode : nodes[index]? = some node) {j : Nat}
    (hj : j ∈ Book.listed (Book.after index node.kind p.books)) :
    IsBearer nodes (index + 1) j ∧ (p.fallbacks ++ Book.found index node.kind p.books).lookup j = none := by
  rw [List.lookup_append]
  cases hbears : node.kind.bearsState with
  | false =>
    have hcount := Book.count_listed_after hbears index p.books j
    have hold : j ∈ Book.listed p.books := List.count_pos_iff.1 (Nat.lt_of_lt_of_le (List.count_pos_iff.2 hj) hcount)
    obtain ⟨hbearer, hnone⟩ := h.listed j hold
    rw [hnone, Book.found, hbears]
    exact ⟨hbearer.succ, rfl⟩
  | true =>
    have hcount := Book.count_listed_after_of_bears hbears index p.books j
    have hpos := List.count_pos_iff.2 hj
    by_cases hindex : index = j
    · subst hindex
      have hwaiting : index ∉ p.books.flatMap (·.awaiting) := fun hmem =>
        h.not_mem_listed (List.mem_append_left _ hmem)
      rw [h.lookup_eq_none (Nat.le_refl _), lookup_found_eq_none hwaiting]
      exact ⟨.here hnode hbears, rfl⟩
    · rw [if_neg hindex] at hcount
      have hpending : j ∈ p.books.flatMap (·.pending) := List.count_pos_iff.1 (by omega)
      obtain ⟨hbearer, hnone⟩ := h.listed j (List.mem_append_right _ hpending)
      rw [hnone, lookup_found_eq_none (h.not_waiting hpending)]
      exact ⟨hbearer.succ, rfl⟩

theorem nodup_after (h : p.Sound nodes index) (kind : NodeKind) :
    (Book.listed (Book.after index kind p.books)).Nodup := by
  rw [List.nodup_iff_count_le_one]
  intro j
  have hone := List.nodup_iff_count_le_one.1 h.nodup j
  cases hbears : kind.bearsState with
  | false => exact Nat.le_trans (Book.count_listed_after hbears index p.books j) hone
  | true =>
    have hcount := Book.count_listed_after_of_bears hbears index p.books j
    rw [Book.listed, List.count_append] at hone
    by_cases hindex : index = j
    · have hnone := List.count_eq_zero.2 (hindex ▸ h.not_mem_listed)
      rw [Book.listed, List.count_append] at hnone
      rw [if_pos hindex] at hcount
      omega
    · rw [if_neg hindex] at hcount
      omega

/-- **What is known stays sound.** -/
theorem after (h : p.Sound nodes index) (hof : p.Of nodes index) (hnode : nodes[index]? = some node) :
    (p.after index node.kind).Sound nodes (index + 1) where
  groups := h.groups_after hnode
  atom _ := h.atom_after hof hnode
  listed _ := h.listed_after hnode
  nodup := h.nodup_after node.kind
  fallbacks found hfound := by
    rcases List.mem_append.1 hfound with hfound | hfound
    · exact ⟨(h.fallbacks found hfound).1.succ, (h.fallbacks found hfound).2.succ⟩
    · unfold Book.found at hfound
      split at hfound
      · next hbears =>
        obtain ⟨waiting, hwaiting, rfl⟩ := List.mem_map.1 hfound
        exact ⟨(h.listed waiting (List.mem_append_left _ hwaiting)).1.succ, .here hnode hbears⟩
      · cases hfound
  repetitions found hfound := by
    rcases List.mem_append.1 hfound with hfound | hfound
    · exact (h.repetitions found hfound).succ
    · unfold repeated at hfound
      split at hfound
      · cases hatom : p.atom with
        | none => simp [hatom] at hfound
        | some a =>
          obtain rfl : found = (a, _) := by simpa [hatom] using hfound
          exact (h.atom a hatom).succ
      · cases hfound

end Sound

end Past

end RegexAutomaton
