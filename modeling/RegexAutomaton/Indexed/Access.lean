/-
Sequences read and written by index.

A pattern can be read, and its automaton built, with positions and indices only.
Such a computation has no answer where it looks outside a sequence, takes a larger
number from a smaller one, makes a number too large for its word, or walks on
without moving forward. `Checked` computations are stuck there. Refusing a pattern
is an answer like any other.

The equations say what each access gives within bounds, and `walk_stop`,
`walk_goTo` and `walk_end` what one step adds to a walk. `exists_foldlM_range` is
induction over the rounds of a loop.
-/
import RegexAutomaton.Numeral

namespace RegexAutomaton

/-- A computation that answers with a value or with an error, unless it is stuck
(`none`). -/
abbrev Checked (ε α : Type) := ExceptT ε Option α

namespace Checked

variable {ε α β : Type}

/-- The computation has its answer. -/
def answer (x : Except ε α) : Checked ε α := ExceptT.mk (some x)

/-- The computation goes on with a value, and is stuck if there is none. -/
def ofOption : Option α → Checked ε α
  | some a => answer (.ok a)
  | none => ExceptT.mk none

theorem pure_eq (a : α) : (pure a : Checked ε α) = answer (.ok a) := rfl

@[simp] theorem ofOption_some (a : α) : (ofOption (some a) : Checked ε α) = answer (.ok a) := rfl

@[simp] theorem answer_ok_bind (a : α) (f : α → Checked ε β) : answer (.ok a) >>= f = f a := rfl

@[simp] theorem answer_error_bind (e : ε) (f : α → Checked ε β) :
    answer (.error e) >>= f = answer (.error e) := rfl

theorem answer_bind_pure (x : Except ε α) (f : α → β) : (answer x >>= fun a => pure (f a)) = answer (x.map f) := by
  cases x <;> rfl

end Checked

namespace Indexed

open Checked

variable {ε α σ β : Type}

/-! ## Accesses -/

/-- The entry at an index. -/
def entry (l : List α) (i : Nat) : Checked ε α := ofOption l[i]?

/-- The entries from index `first` on and before index `last`, if these are bounds
within the list. -/
def slice? (l : List α) (first last : Nat) : Option (List α) :=
  if first ≤ last ∧ last ≤ l.length then some ((l.drop first).take (last - first)) else none

/-- The entries from index `first` on and before index `last`. -/
def slice (l : List α) (first last : Nat) : Checked ε (List α) := ofOption (slice? l first last)

/-- The list with the entry at an index changed. -/
def change (l : List α) (i : Nat) (f : α → α) : Checked ε (List α) :=
  ofOption (if i < l.length then some (l.modify i f) else none)

/-- The list with the entries from index `first` on and before index `last` changed. -/
def changeAll (l : List α) (first last : Nat) (f : α → α) : Checked ε (List α) :=
  ofOption (if first ≤ last ∧ last ≤ l.length then
    some (l.take first ++ ((l.drop first).take (last - first)).map f ++ l.drop last) else none)

/-- The difference of two numbers. -/
def sub (a b : Nat) : Checked ε Nat := ofOption (if b ≤ a then some (a - b) else none)

/-- A number, if it is not too large for a word. -/
def word? (n : Nat) : Option Nat := if n ≤ Numeral.greatest then some n else none

/-- A number that must not be too large for a word. -/
def word (n : Nat) : Checked ε Nat := ofOption (word? n)

theorem entry_eq {l : List α} {i : Nat} {a : α} (h : l[i]? = some a) :
    (entry l i : Checked ε α) = answer (.ok a) := by
  rw [entry, h, ofOption_some]

theorem slice?_eq {l : List α} {first last : Nat} (hle : first ≤ last) (hlast : last ≤ l.length) :
    slice? l first last = some ((l.drop first).take (last - first)) := if_pos ⟨hle, hlast⟩

theorem slice_eq {l : List α} {first last : Nat} (hle : first ≤ last) (hlast : last ≤ l.length) :
    (slice l first last : Checked ε (List α)) = answer (.ok ((l.drop first).take (last - first))) := by
  rw [slice, slice?_eq hle hlast, ofOption_some]

theorem slice_of_drop {l part later : List α} {i last : Nat} (h : l.drop i = part ++ later) (hi : i ≤ l.length)
    (hlast : last = i + part.length) : (slice l i last : Checked ε (List α)) = answer (.ok part) := by
  have hlength := congrArg List.length h
  rw [List.length_drop, List.length_append] at hlength
  subst hlast
  rw [slice_eq (by omega) (by omega), h, Nat.add_sub_cancel_left, List.take_left]

theorem change_eq {l : List α} {i : Nat} (h : i < l.length) (f : α → α) :
    (change l i f : Checked ε (List α)) = answer (.ok (l.modify i f)) := by
  rw [change, if_pos h, ofOption_some]

theorem changeAll_eq (left inner right : List α) (f : α → α) :
    (changeAll (left ++ inner ++ right) left.length (left.length + inner.length) f : Checked ε (List α)) =
      answer (.ok (left ++ inner.map f ++ right)) := by
  have hbounds : left.length ≤ left.length + inner.length ∧
      left.length + inner.length ≤ (left ++ inner ++ right).length := by
    simp only [List.length_append]
    omega
  have hlater : (left ++ inner ++ right).drop (left.length + inner.length) = right := by
    rw [← List.length_append, List.drop_left]
  rw [changeAll, if_pos hbounds, ofOption_some, Nat.add_sub_cancel_left, hlater, List.append_assoc left inner right,
    List.take_left, List.drop_left, List.take_left]

theorem modify_append_cons (left right : List α) (a : α) (f : α → α) :
    (left ++ a :: right).modify left.length f = left ++ f a :: right := by
  simp [List.modify_eq_take_drop]

theorem entry_middle (left : List α) (a : α) (right : List α) {i : Nat} (hi : i = left.length) :
    (entry (left ++ a :: right) i : Checked ε α) = answer (.ok a) := by
  refine entry_eq ?_
  rw [hi, List.getElem?_append_right (Nat.le_refl _), Nat.sub_self]
  rfl

theorem change_middle (left : List α) (a : α) (right : List α) (f : α → α) {i : Nat} (hi : i = left.length) :
    (change (left ++ a :: right) i f : Checked ε (List α)) = answer (.ok (left ++ f a :: right)) := by
  have hlt : left.length < (left ++ a :: right).length := by
    simp only [List.length_append, List.length_cons]
    omega
  rw [hi, change_eq hlt, modify_append_cons]

theorem sub_eq {a b : Nat} (h : b ≤ a) : (sub a b : Checked ε Nat) = answer (.ok (a - b)) := by
  rw [sub, if_pos h, ofOption_some]

theorem word_eq {n : Nat} (h : n ≤ Numeral.greatest) : (word n : Checked ε Nat) = answer (.ok n) := by
  rw [word, word?, if_pos h, ofOption_some]

/-! ## Walks -/

/-- What a step of a walk says: to stop with a value, or to go to another
position. -/
inductive Move (σ β : Type) where
  | stop (value : β)
  | goTo (position : Nat) (state : σ)

/-- Walk through a text from a position on. `step` says what to do at a symbol, and
`finish` what the walk gives once no symbol is left. A step that does not lead
forward is stuck. -/
def walk (text : List Char) (step : Nat → Char → σ → Checked ε (Move σ β))
    (finish : Nat → σ → Checked ε β) (i : Nat) (s : σ) : Checked ε β :=
  match _h : text[i]? with
  | none => finish i s
  | some c => do
    match ← step i c s with
    | .stop value => pure value
    | .goTo position s =>
      if _hlt : i < position then walk text step finish position s else ofOption none
termination_by text.length - i
decreasing_by
  have := (List.getElem?_eq_some_iff.1 _h).1
  omega

variable {text : List Char} {step : Nat → Char → σ → Checked ε (Move σ β)}
  {finish : Nat → σ → Checked ε β} {i position : Nat} {c : Char} {s s' : σ} {value : β} {e : ε}

theorem walk_end (h : text[i]? = none) : walk text step finish i s = finish i s := by
  rw [walk]
  split
  · rfl
  · next hc => rw [h] at hc; cases hc

theorem walk_symbol (h : text[i]? = some c) :
    walk text step finish i s =
      step i c s >>= fun
        | .stop value => pure value
        | .goTo position s =>
          if i < position then walk text step finish position s else ofOption none := by
  rw [walk]
  split
  · next hc => rw [h] at hc; cases hc
  · next d hd =>
    obtain rfl : c = d := by simpa [h] using hd
    rfl

theorem walk_stop (h : text[i]? = some c) (hstep : step i c s = answer (.ok (.stop value))) :
    walk text step finish i s = answer (.ok value) := by
  rw [walk_symbol h, hstep]
  rfl

theorem walk_goTo (h : text[i]? = some c) (hstep : step i c s = answer (.ok (.goTo position s')))
    (hlt : i < position) : walk text step finish i s = walk text step finish position s' := by
  rw [walk_symbol h, hstep]
  exact if_pos hlt

theorem walk_error (h : text[i]? = some c) (hstep : step i c s = answer (.error e)) :
    walk text step finish i s = answer (.error e) := by
  rw [walk_symbol h, hstep]
  rfl

/-! ## Loops -/

variable {Holds : Nat → σ → Prop} {n : Nat} {body : σ → Nat → Checked ε σ}

/-- What each round of a loop over the indices below `n` keeps up holds at its end. -/
theorem exists_foldlM_range (hfirst : Holds 0 s)
    (hround : ∀ i < n, ∀ s, Holds i s → ∃ s', body s i = answer (.ok s') ∧ Holds (i + 1) s') :
    ∃ s', (List.range n).foldlM body s = answer (.ok s') ∧ Holds n s' := by
  induction n with
  | zero => exact ⟨s, rfl, hfirst⟩
  | succ n ih =>
    obtain ⟨s', hearlier, hs'⟩ := ih fun i hi => hround i (Nat.lt_succ_of_lt hi)
    obtain ⟨s'', hlast, hs''⟩ := hround n (Nat.lt_succ_self n) s' hs'
    refine ⟨s'', ?_, hs''⟩
    rw [List.range_succ, List.foldlM_append, hearlier, answer_ok_bind, List.foldlM_cons, hlast]
    rfl

/-- The same for a loop from the last index down. -/
theorem exists_foldlM_range_reverse (hfirst : Holds n s)
    (hround : ∀ i < n, ∀ s, Holds (i + 1) s → ∃ s', body s i = answer (.ok s') ∧ Holds i s') :
    ∃ s', (List.range n).reverse.foldlM body s = answer (.ok s') ∧ Holds 0 s' := by
  induction n generalizing s with
  | zero => exact ⟨s, rfl, hfirst⟩
  | succ n ih =>
    obtain ⟨s', hlast, hs'⟩ := hround n (Nat.lt_succ_self n) s hfirst
    obtain ⟨s'', hlater, hs''⟩ := ih hs' fun i hi => hround i (Nat.lt_succ_of_lt hi)
    refine ⟨s'', ?_, hs''⟩
    rw [List.range_succ, List.reverse_append, List.reverse_singleton, List.singleton_append, List.foldlM_cons, hlast,
      answer_ok_bind, hlater]

/-- A loop that changes some entries, where a change made again makes no difference. -/
theorem exists_foldlM_change {l : List α} {indices : List Nat} {f : α → α} (hf : ∀ a, f (f a) = f a)
    (h : ∀ i ∈ indices, i < l.length) :
    ∃ l', (indices.foldlM (fun l i => change l i f) l : Checked ε (List α)) = answer (.ok l') ∧ l'.length = l.length ∧
      ∀ i, l'[i]? = l[i]?.map fun a => if i ∈ indices then f a else a := by
  induction indices generalizing l with
  | nil => exact ⟨l, rfl, rfl, fun i => by simp⟩
  | cons first indices ih =>
    obtain ⟨hfirst, hindices⟩ := List.forall_mem_cons.1 h
    obtain ⟨l', hlater, hlength, hentries⟩ := @ih (l.modify first f) (by simpa using hindices)
    refine ⟨l', ?_, by rw [hlength, List.length_modify], fun i => ?_⟩
    · rw [List.foldlM_cons, change_eq hfirst, answer_ok_bind, hlater]
    · rw [hentries, List.getElem?_modify, Option.map_eq_map, Option.map_map]
      refine congrArg (fun g => l[i]?.map g) (funext fun a => ?_)
      by_cases hi : first = i
      · subst hi
        by_cases hmem : first ∈ indices <;> simp [hmem, hf]
      · have hne : i ≠ first := fun heq => hi heq.symm
        simp [hi, hne]

/-- A loop that makes a list entry by entry. -/
theorem mapM_eq {l : List α} {l' : List β} {f : α → Checked ε β} (hlength : l.length = l'.length)
    (h : ∀ (i : Nat) (a : α), l[i]? = some a → ∃ b, f a = answer (.ok b) ∧ l'[i]? = some b) :
    l.mapM f = answer (.ok l') := by
  induction l generalizing l' with
  | nil =>
    obtain rfl := List.length_eq_zero_iff.1 hlength.symm
    rfl
  | cons a l ih =>
    obtain ⟨b, hb, hfirst⟩ := h 0 a rfl
    cases l' with
    | nil => cases hlength
    | cons b' l' =>
      obtain rfl : b' = b := Option.some.inj hfirst
      rw [List.mapM_cons, hb, answer_ok_bind, ih (Nat.succ.inj hlength) fun i a ha => h (i + 1) a ha]
      rfl

end Indexed

end RegexAutomaton
