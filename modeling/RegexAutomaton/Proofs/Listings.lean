/-
Automata are known from their listings.

Each part of a listing can be told from what stands after it: a number ends where no digit
follows, a repetition at the next blank, and the flags take five letters. So a state is
known from its line (`State.text_append_inj`), if its guard is legible, as the guards of
patterns are (`Automaton.legible_of_compile`), and an automaton from its lines
(`compile_text_injective`).
-/
import RegexAutomaton.Proofs.ListedGuards
import RegexAutomaton.Proofs.NarrowAlphabet

namespace RegexAutomaton

/-! ## Numbers -/

namespace Numeral

variable {m n : Nat} {rest rest' : List Char}

/-- No digit comes first. -/
def Ended (rest : List Char) : Prop := ∀ c ∈ rest.head?, c.isDigit = false

theorem ended_cons {c : Char} (h : c.isDigit = false) (rest : List Char) : Ended (c :: rest) := by
  intro d hd
  obtain rfl := Option.some.inj hd
  exact h

theorem ended_append {label : List Char} (h : label.head?.any (! ·.isDigit) = true) (rest : List Char) :
    Ended (label ++ rest) := by
  obtain ⟨c, hc, hdigit⟩ := (Option.any_eq_true _ _).1 h
  obtain ⟨later, rfl⟩ := List.head?_eq_some_iff.1 hc
  exact ended_cons (by simpa using hdigit) (later ++ rest)

theorem text_injective (h : text m = text n) : m = n := by
  have hvalue (n : Nat) : Nat.ofDigitChars 10 (text n) 0 = n := Nat.ofDigitChars_toDigits (by decide) (by decide)
  rw [← hvalue m, h, hvalue]

/-- **A number is known from what is written for it**, where no digit follows. -/
theorem text_append_inj (hrest : Ended rest) (hrest' : Ended rest') (heq : text m ++ rest = text n ++ rest') :
    m = n ∧ rest = rest' := by
  have hdigits (n : Nat) : ∀ c ∈ text n, c.isDigit = true := fun c hc => isDigit_of_mem_text hc
  obtain ⟨htext, hrests⟩ := append_inj_of_head? (hdigits m) (hdigits n) hrest hrest' heq
  exact ⟨text_injective htext, hrests⟩

/-- So it is before a label that starts with no digit. -/
theorem text_label_inj {label : List Char} (hlabel : label.head?.any (! ·.isDigit) = true)
    (heq : text m ++ (label ++ rest) = text n ++ (label ++ rest')) : m = n ∧ rest = rest' := by
  obtain ⟨hvalue, hrest⟩ := text_append_inj (ended_append hlabel rest) (ended_append hlabel rest') heq
  exact ⟨hvalue, List.append_cancel_left hrest⟩

theorem exists_text_eq_cons (n : Nat) : ∃ c digits, text n = c :: digits ∧ c.isDigit = true := by
  obtain ⟨c, digits, htext⟩ := List.exists_cons_of_ne_nil (Nat.toDigits_ne_nil : text n ≠ [])
  exact ⟨c, digits, htext, isDigit_of_mem_text (htext ▸ List.mem_cons_self)⟩

/-- The same holds of a number with blanks before it. -/
theorem leftpad_label_inj {width : Nat} {label : List Char} (hlabel : label.head?.any (! ·.isDigit) = true)
    (heq : (text m).leftpad width ' ' ++ (label ++ rest) = (text n).leftpad width ' ' ++ (label ++ rest')) :
    m = n ∧ rest = rest' := by
  have hblanks (n : Nat) (rest : List Char) :
      ((text n).leftpad width ' ' ++ rest).dropWhile (· == ' ') = text n ++ rest := by
    obtain ⟨c, digits, htext, hc⟩ := exists_text_eq_cons n
    have hfirst : ∀ d ∈ (text n ++ rest).head?, (d == ' ') = false := by
      rw [htext]
      intro d hd
      obtain rfl := Option.some.inj hd
      rw [beq_eq_false_iff_ne]
      rintro rfl
      cases hc
    rw [List.leftpad, List.append_assoc, (parts_of_head? (by simp) hfirst).2]
  refine text_label_inj hlabel ?_
  rw [← hblanks m, heq, hblanks]

end Numeral

/-! ## Repetitions -/

namespace Repetition

variable {r q : Repetition} {rest rest' : List Char}

/-- The repetitions with a text of their own. -/
def short : List Repetition := [once, star, plus, question]

/-- What is written after the least count. -/
def bound (r : Repetition) : List Char :=
  match r.most with
  | none => [',', '}']
  | some most => if r.least = most then ['}'] else ',' :: (Numeral.text most ++ ['}'])

theorem text_of_not_short (h : r ∉ short) : r.text = '{' :: (Numeral.text r.least ++ r.bound) := by
  simp only [short, List.mem_cons, List.not_mem_nil, or_false, not_or] at h
  rw [text, if_neg h.1, if_neg h.2.1, if_neg h.2.2.1, if_neg h.2.2.2, bound]
  cases r.most with
  | none => rfl
  | some most =>
    dsimp only
    split
    · next heq =>
      rw [heq]
      rfl
    · simp

theorem ended_bound (r : Repetition) : Numeral.Ended r.bound := by
  unfold bound
  split
  · exact Numeral.ended_cons (by decide) _
  · split <;> exact Numeral.ended_cons (by decide) _

/-- The greatest count is known from what is written after the least. -/
theorem most_eq_of_bound {least : Nat} {most most' : Option Nat} (h : bound ⟨least, most⟩ = bound ⟨least, most'⟩) :
    most = most' := by
  have hnone {most : Nat} (h : bound ⟨least, none⟩ = bound ⟨least, some most⟩) : False := by
    obtain ⟨c, digits, htext, hc⟩ := Numeral.exists_text_eq_cons most
    by_cases heq : least = most
    · simp [bound, heq] at h
    · simp only [bound, if_neg heq, htext, List.cons_append, List.cons.injEq] at h
      obtain ⟨-, rfl, -⟩ := h
      cases hc
  cases most with
  | none =>
    cases most' with
    | none => rfl
    | some most' => exact (hnone h).elim
  | some most =>
    cases most' with
    | none => exact (hnone h.symm).elim
    | some most' =>
      by_cases heq : least = most <;> by_cases heq' : least = most'
      · rw [← heq, heq']
      · subst heq
        simp [bound, heq'] at h
      · subst heq'
        simp [bound, heq] at h
      · simp only [bound, if_neg heq, if_neg heq', List.cons.injEq, true_and] at h
        rw [Numeral.text_injective (List.append_cancel_right h)]

/-- A repetition is known from what is written for it. -/
theorem text_injective (h : r.text = q.text) : r = q := by
  have hbrace {r q : Repetition} (hr : r ∈ short) (hq : q ∉ short) : r.text ≠ q.text := by
    rw [text_of_not_short hq]
    intro heq
    have hhead : ∀ r ∈ short, r.text.head? ≠ some '{' := by decide
    exact hhead r hr (by rw [heq]; rfl)
  by_cases hr : r ∈ short <;> by_cases hq : q ∈ short
  · have hshort : ∀ r ∈ short, ∀ q ∈ short, r.text = q.text → r = q := by decide
    exact hshort r hr q hq h
  · exact absurd h (hbrace hr hq)
  · exact absurd h.symm (hbrace hq hr)
  · rw [text_of_not_short hr, text_of_not_short hq] at h
    obtain ⟨hleast, hbound⟩ := Numeral.text_append_inj (ended_bound r) (ended_bound q) (List.cons.inj h).2
    obtain ⟨least, most⟩ := r
    obtain ⟨least', most'⟩ := q
    obtain rfl : least = least' := hleast
    rw [most_eq_of_bound hbound]

theorem ne_blank_of_mem_text : ∀ c ∈ r.text, (c != ' ') = true := by
  have hnumber (n : Nat) : ' ' ∉ Numeral.text n := fun h => Numeral.ne_of_mem_text h (by decide) rfl
  suffices hblank : ' ' ∉ r.text from fun c hc => bne_iff_ne.2 fun heq => hblank (heq ▸ hc)
  by_cases hr : r ∈ short
  · have hshort : ∀ r ∈ short, ' ' ∉ r.text := by decide
    exact hshort r hr
  · have hbound : ' ' ∉ r.bound := by
      unfold bound
      split
      · decide
      · split <;> simp [hnumber]
    rw [text_of_not_short hr]
    simp [hnumber, hbound]

/-- **A repetition is known from what is written for it**, where a blank follows. -/
theorem text_append_inj (heq : r.text ++ ' ' :: rest = q.text ++ ' ' :: rest') : r = q ∧ rest = rest' := by
  have hstops (rest : List Char) : ∀ c ∈ (' ' :: rest).head?, (c != ' ') = false := by
    intro c hc
    obtain rfl := Option.some.inj hc
    rfl
  obtain ⟨htext, hrest⟩ :=
    append_inj_of_head? ne_blank_of_mem_text ne_blank_of_mem_text (hstops rest) (hstops rest') heq
  exact ⟨text_injective htext, (List.cons.inj hrest).2⟩

end Repetition

/-! ## States -/

theorem Flags.text_append_inj {f g : Flags} {rest rest' : List Char} (heq : f.text ++ rest = g.text ++ rest') :
    f = g ∧ rest = rest' := by
  have letter {a b : Bool} {c : Char} (hc : c ≠ '-') (h : (if a then c else '-') = if b then c else '-') : a = b := by
    cases a <;> cases b
    · rfl
    · exact absurd h.symm hc
    · exact absurd h hc
    · rfl
  obtain ⟨htext, hrest⟩ := List.append_inj heq rfl
  simp only [text, List.cons.injEq, and_true] at htext
  obtain ⟨hopens, hends, hrepeatable, hmember, hoptional⟩ := htext
  obtain ⟨⟩ := f
  obtain ⟨⟩ := g
  obtain rfl := letter (by decide) hopens
  obtain rfl := letter (by decide) hends
  obtain rfl := letter (by decide) hrepeatable
  obtain rfl := letter (by decide) hmember
  obtain rfl := letter (by decide) hoptional
  exact ⟨rfl, hrest⟩

theorem Transition.text_label_inj {t u : Transition} {label rest rest' : List Char}
    (hlabel : label.head?.any (! ·.isDigit) = true) (heq : t.text ++ (label ++ rest) = u.text ++ (label ++ rest')) :
    t = u ∧ rest = rest' := by
  have hhalt {n : Nat} {rest rest' : List Char} : halt.text ++ rest ≠ (goto n).text ++ rest' := by
    intro heq
    obtain ⟨c, digits, htext, hc⟩ := Numeral.exists_text_eq_cons n
    have hfirst : 'h' :: ("alt".toList ++ rest) = c :: (digits ++ rest') := heq.trans (by rw [text, htext]; rfl)
    obtain ⟨rfl, -⟩ := List.cons.inj hfirst
    cases hc
  cases t with
  | halt =>
    cases u with
    | halt => exact ⟨rfl, List.append_cancel_left (List.append_cancel_left heq)⟩
    | goto n => exact absurd heq hhalt
  | goto m =>
    cases u with
    | halt => exact absurd heq.symm hhalt
    | goto n =>
      obtain ⟨rfl, hrests⟩ := Numeral.text_label_inj hlabel heq
      exact ⟨rfl, hrests⟩

/-- **A state is known from its line in a listing**, if its guard is legible. -/
theorem State.text_append_inj {encoding : Encoding} {s s' : State} (hs : s.guard.Legible encoding)
    (hs' : s'.guard.Legible encoding) {rest rest' : List Char}
    (heq : s.text ++ (['\n'] ++ rest) = s'.text ++ (['\n'] ++ rest')) : s = s' ∧ rest = rest' := by
  have hbracket (rest : List Char) : " [".toList ++ rest = ' ' :: '[' :: rest := rfl
  delta text at heq
  simp only [List.append_assoc, hbracket] at heq
  -- Each part is taken off the front, together with the label after it.
  obtain ⟨hid, heq⟩ := Numeral.leftpad_label_inj rfl heq
  obtain ⟨hguard, heq⟩ := Guard.text_append_inj hs hs' heq
  obtain ⟨hrepetition, heq⟩ := Repetition.text_append_inj heq
  obtain ⟨hflags, heq⟩ := Flags.text_append_inj (List.cons.inj heq).2
  obtain ⟨honMatch, heq⟩ := Numeral.text_label_inj rfl (List.append_cancel_left heq)
  obtain ⟨honFail, heq⟩ := Numeral.text_label_inj rfl heq
  obtain ⟨hgroup, heq⟩ := Numeral.text_label_inj rfl heq
  obtain ⟨hclose, heq⟩ := Numeral.text_label_inj rfl heq
  obtain ⟨hprimary, heq⟩ := Transition.text_label_inj rfl heq
  obtain ⟨hfailed, heq⟩ := Transition.text_label_inj rfl heq
  obtain ⟨hlookahead, hrest⟩ := Transition.text_label_inj rfl heq
  obtain ⟨⟩ := s
  obtain ⟨⟩ := s'
  simp only at hid hguard hrepetition hflags honMatch honFail hgroup hclose hprimary hfailed hlookahead
  subst hid hguard hrepetition hflags honMatch honFail hgroup hclose hprimary hfailed hlookahead
  exact ⟨rfl, hrest⟩

/-! ## Automata -/

namespace Automaton

variable {encoding : Encoding} {pattern : List Char} {options : Options} {a b : Automaton}

/-- States are known from their lines, one after the other. -/
theorem eq_of_lines {states states' : List State} (h : ∀ s ∈ states, s.guard.Legible encoding)
    (h' : ∀ s ∈ states', s.guard.Legible encoding)
    (heq : (states.flatMap fun s => s.text ++ ['\n']) = states'.flatMap fun s => s.text ++ ['\n']) :
    states = states' := by
  induction states generalizing states' with
  | nil =>
    cases states' with
    | nil => rfl
    | cons s' states' => simp at heq
  | cons s states ih =>
    cases states' with
    | nil => simp at heq
    | cons s' states' =>
      obtain ⟨hs, hstates⟩ := List.forall_mem_cons.1 h
      obtain ⟨hs', hstates'⟩ := List.forall_mem_cons.1 h'
      rw [List.flatMap_cons, List.flatMap_cons, List.append_assoc, List.append_assoc] at heq
      obtain ⟨rfl, hlines⟩ := State.text_append_inj hs hs' heq
      rw [ih hstates hstates' hlines]

/-- **An automaton is known from its listing**, if its guards are legible. -/
theorem eq_of_text (ha : ∀ s ∈ a.states, s.guard.Legible encoding) (hb : ∀ s ∈ b.states, s.guard.Legible encoding)
    (heq : a.text = b.text) : a = b := by
  obtain ⟨states, groupCount, neverMatches⟩ := a
  obtain ⟨states', groupCount', neverMatches'⟩ := b
  delta text at heq
  simp only [List.append_assoc] at heq
  obtain ⟨-, heq⟩ := Numeral.text_label_inj rfl (List.append_cancel_left heq)
  obtain ⟨rfl, heq⟩ := Numeral.text_label_inj rfl heq
  -- The heading ends at once, or goes on with a comma.
  obtain ⟨rfl, hlines⟩ : neverMatches = neverMatches' ∧
      (states.flatMap fun s => s.text ++ ['\n']) = states'.flatMap fun s => s.text ++ ['\n'] := by
    cases neverMatches <;> cases neverMatches'
    · exact ⟨rfl, (List.cons.inj heq).2⟩
    · cases (List.cons.inj heq).1
    · cases (List.cons.inj heq).1
    · exact ⟨rfl, (List.cons.inj (List.append_cancel_left heq)).2⟩
  obtain rfl := eq_of_lines ha hb hlines
  rfl

/-- The guards of a compiled pattern are legible. Bytes are symbols of the wide alphabet too,
so it does not matter in which the pattern is written. -/
theorem legible_of_compile (h : compile encoding pattern options = .ok a) :
    ∀ s ∈ a.states, s.guard.Legible .unicode := by
  obtain ⟨list, hparse, rfl⟩ := exists_parse_of_compile h
  have hwide : NodeList.parse .unicode pattern options = .ok list := by
    cases encoding with
    | unicode => exact hparse
    | byte =>
      rcases NodeList.parse_narrows pattern options with hsame | ⟨offset, herror⟩
      · rw [← hsame, hparse]
      · rw [herror] at hparse
        cases hparse
  obtain ⟨before, hread, rfl⟩ := map_eq_ok_iff.1 hwide
  have hnodes := NodeList.legible_of_read (fun d _ => Encoding.has_unicode d) hread
  intro s hs
  rcases guard_of_mem_states hs with hfinal | ⟨node, hnode, hguard⟩
  · rw [hfinal]
    trivial
  · exact Guard.legible_of_ofKind? (Pass.legible_runAll _ hnodes node hnode) hguard

end Automaton

/-- **Compiled patterns with the same listing have the same automaton**: the same states with
all that belongs to them, as many groups, and both or neither can be seen never to match. -/
theorem compile_text_injective {encoding : Encoding} {pattern pattern' : List Char} {options options' : Options}
    {a b : Automaton} (ha : compile encoding pattern options = .ok a) (hb : compile encoding pattern' options' = .ok b)
    (htext : a.text = b.text) : a = b :=
  Automaton.eq_of_text (Automaton.legible_of_compile ha) (Automaton.legible_of_compile hb) htext

/-- Quotes, dashes and a set, written in two ways. -/
theorem compile_text_injective_quoted :
    ∃ a b, compile .byte ['[', '+', '-', '-', ']', '*', '(', 'a', '|', 'b', ')', '"', '-', '"'] {} = .ok a ∧
      compile .byte
          ['[', '\\', '+', '-', '\\', '-', ']', '{', ',', '}', '(', '[', 'a', 'b', ']', ')', '"', '-', '"'] {} = .ok b ∧
      a.text = b.text ∧ a = b := by
  refine ⟨_, _, rfl, rfl, ?text, @compile_text_injective .byte
    ['[', '+', '-', '-', ']', '*', '(', 'a', '|', 'b', ')', '"', '-', '"']
    ['[', '\\', '+', '-', '\\', '-', ']', '{', ',', '}', '(', '[', 'a', 'b', ']', ')', '"', '-', '"']
    {} {} _ _ rfl rfl ?text⟩
  decide +kernel

end RegexAutomaton
