/-
Texts that spell what is read from them.

A text spells a value if the value is read from it, wherever the text stands and
whatever follows it (`Reader.Spells`), so texts that spell values can be put in a row.
The symbols that a token is read from spell it (`Token.spells_take`), and the text of
some tokens can be cut between any two of them (`Token.exists_cut`), so what stands
between two parentheses can be replaced (`Token.spellsAll_between`).
-/
import RegexAutomaton.Proofs.Locality

namespace RegexAutomaton

/-! ## Texts that spell values -/

namespace Reader

variable {α ε : Type} {read : Reader α ε}

/-- The value is read from the text, wherever it stands and whatever follows it. -/
def Spells (read : Reader α ε) (text : List Char) (value : α) : Prop :=
  ∃ c rest, text = c :: rest ∧ ∀ offset more, read offset c (rest ++ more) = .ok (value, text.length)

/-- The text is made of texts that spell the values, in order. -/
inductive SpellsAll (read : Reader α ε) : List Char → List α → Prop
  | nil : SpellsAll read [] []
  | cons {text later : List Char} {value : α} {values : List α} (head : read.Spells text value)
      (tail : SpellsAll read later values) : SpellsAll read (text ++ later) (value :: values)

theorem SpellsAll.append {text later : List Char} {values more : List α} (h : read.SpellsAll text values)
    (hlater : read.SpellsAll later more) : read.SpellsAll (text ++ later) (values ++ more) := by
  induction h with
  | nil => exact hlater
  | cons head _ ih =>
    rw [List.append_assoc]
    exact .cons head ih

theorem Spells.one {text : List Char} {value : α} (h : read.Spells text value) : read.SpellsAll text [value] := by
  have hcons := SpellsAll.cons h .nil
  rwa [List.append_nil] at hcons

/-- What is spelled is read first, and then what follows. -/
theorem Spells.scanFrom {text : List Char} {value : α} (h : read.Spells text value) (offset : Nat) (more : List Char) :
    read.scanFrom 0 offset (text ++ more) =
      let later := read.scanFrom 0 (offset + text.length) more
      { later with pieces := ⟨value, offset, text.length⟩ :: later.pieces } := by
  obtain ⟨c, rest, rfl, hread⟩ := h
  have hdrop : (c :: (rest ++ more)).drop (c :: rest).length = more := @List.drop_left _ (c :: rest) more
  rw [List.cons_append, scanFrom_ok read (hread offset more) (Nat.succ_pos _) (by simp), hdrop]

theorem SpellsAll.scanFrom {text : List Char} {values : List α} (h : read.SpellsAll text values) (offset : Nat)
    (more : List Char) :
    ∃ pieces : List (Spanned α), pieces.map (·.value) = values ∧
      read.scanFrom 0 offset (text ++ more) =
        let later := read.scanFrom 0 (offset + text.length) more
        { later with pieces := pieces ++ later.pieces } := by
  induction h generalizing offset with
  | nil => exact ⟨[], rfl, rfl⟩
  | @cons text later value values head _ ih =>
    obtain ⟨pieces, hvalues, hscan⟩ := ih (offset + text.length)
    refine ⟨⟨value, offset, text.length⟩ :: pieces, by rw [List.map_cons, hvalues], ?_⟩
    rw [List.append_assoc, head.scanFrom, hscan, List.length_append, Nat.add_assoc]
    rfl

theorem SpellsAll.reads (fits : read.Fits) {text : List Char} {values : List α} (h : read.SpellsAll text values)
    (offset : Nat) : ∃ pieces, read.Reads offset text pieces ∧ pieces.map (·.value) = values := by
  obtain ⟨pieces, hvalues, hscan⟩ := h.scanFrom offset []
  rw [List.append_nil, scanFrom_nil] at hscan
  have hreads := reads_of_reason fits (congrArg Scan.reason hscan)
  simp only [hscan, List.append_nil] at hreads
  exact ⟨pieces, hreads, hvalues⟩

/-- Where two texts that spell a value start in the same way, they are the same text. -/
theorem Spells.append_inj {text text' more more' : List Char} {value value' : α} (h : read.Spells text value)
    (h' : read.Spells text' value') (heq : text ++ more = text' ++ more') :
    text = text' ∧ value = value' ∧ more = more' := by
  obtain ⟨c, rest, rfl, hread⟩ := h
  obtain ⟨c', rest', rfl, hread'⟩ := h'
  obtain ⟨rfl, hrest⟩ : c = c' ∧ rest ++ more = rest' ++ more' := List.cons.inj heq
  have hboth := hread 0 more
  rw [hrest, hread' 0 more'] at hboth
  obtain ⟨hvalue, hlength⟩ := Prod.mk.inj (Except.ok.inj hboth)
  obtain ⟨htext, hmore⟩ := List.append_inj heq hlength.symm
  exact ⟨htext, hvalue.symm, hmore⟩

/-- Where two texts that spell values start in the same way, one spells all that the other
does and then some more values, which stand after the other. -/
theorem SpellsAll.append_cases {text text' more more' : List Char} {values values' : List α}
    (h : read.SpellsAll text values) (h' : read.SpellsAll text' values') (heq : text ++ more = text' ++ more') :
    (∃ part later, values' = values ++ later ∧ read.SpellsAll part later ∧ more = part ++ more') ∨
      ∃ part later, values = values' ++ later ∧ read.SpellsAll part later ∧ more' = part ++ more := by
  induction h generalizing text' values' with
  | nil => exact .inl ⟨text', values', rfl, h', heq⟩
  | cons head tail ih =>
    cases h' with
    | nil => exact .inr ⟨_, _, rfl, .cons head tail, heq.symm⟩
    | cons head' tail' =>
      rw [List.append_assoc, List.append_assoc] at heq
      obtain ⟨rfl, rfl, heq⟩ := head.append_inj head' heq
      rcases ih tail' heq with ⟨part, later, rfl, hpart, hmore⟩ | ⟨part, later, rfl, hpart, hmore⟩
      · exact .inl ⟨part, later, rfl, hpart, hmore⟩
      · exact .inr ⟨part, later, rfl, hpart, hmore⟩

end Reader

/-! ## Counted repetitions -/

theorem Repetition.exists_own {offset width : Nat} {rest : List Char} {r : Repetition}
    (h : read offset rest = .ok (r, width)) :
    ∃ own more, rest = own ++ more ∧ width = own.length + 1 ∧ read 0 own = .ok (r, width) := by
  obtain ⟨body, more, rfl, hcounts, rfl⟩ := read_eq_ok_iff.1 h
  exact ⟨body ++ ['}'], more, by simp, by simp, read_eq_ok_iff.2 ⟨body, [], rfl, hcounts, rfl⟩⟩

/-! ## Tokens -/

namespace Token

variable {encoding : Encoding} {offset width : Nat} {c : Char} {rest : List Char} {t : Token}

theorem spells_of_read (h : read encoding 0 c rest = .ok (t, rest.length + 1)) :
    (read encoding).Spells (c :: rest) t := by
  refine ⟨c, rest, rfl, fun offset more => ?_⟩
  rw [← Nat.zero_add offset]
  exact read_append h offset more

/-- **The symbols that a token is read from spell it.** -/
theorem spells_take (h : read encoding offset c rest = .ok (t, width)) :
    (read encoding).Spells ((c :: rest).take width) t := by
  have one {t : Token} (h : WrittenAt encoding 0 c [] t 1) : (read encoding).Spells ((c :: rest).take 1) t :=
    spells_of_read (read_eq_ok_iff.2 h)
  have long {own more : List Char} (hrest : rest = own ++ more) (hwidth : width = own.length + 1)
      (hown : WrittenAt encoding 0 c own t width) : (read encoding).Spells ((c :: rest).take width) t := by
    subst hrest hwidth
    rw [List.take_succ_cons, List.take_left' rfl]
    exact spells_of_read (read_eq_ok_iff.2 hown)
  cases read_eq_ok_iff.1 h with
  | plain hb hc => exact one (.plain hb hc)
  | escape hc h =>
    obtain ⟨code, more, hrest, hwidth, hcode⟩ := Escape.exists_own h
    exact long hrest hwidth (.escape hc hcode)
  | bracket hc h =>
    obtain ⟨own, more, hrest, hwidth, hown⟩ := Bracket.exists_own h
    exact long hrest hwidth (.bracket hc (by simpa using hown 0 []))
  | counted hc h =>
    obtain ⟨own, more, hrest, hwidth, hown⟩ := Repetition.exists_own h
    exact long hrest hwidth (.counted hc hown)
  | dot hc => exact one (.dot hc)
  | star hc => exact one (.star hc)
  | plus hc => exact one (.plus hc)
  | question hc => exact one (.question hc)
  | anchorStart hc => exact one (.anchorStart hc)
  | anchorEnd hc => exact one (.anchorEnd hc)
  | groupOpen hc => exact one (.groupOpen hc)
  | groupClose hc => exact one (.groupClose hc)
  | bar hc => exact one (.bar hc)

theorem spellsAll_of_reads {text : List Char} {ts : List (Spanned Token)} (h : (read encoding).Reads offset text ts) :
    (read encoding).SpellsAll text (ts.map (·.value)) := by
  induction h with
  | nil offset => exact .nil
  | @cons offset c rest t width ts head tail ih =>
    have hcons := Reader.SpellsAll.cons (spells_take head) ih
    rwa [List.take_append_drop] at hcons

/-- **A text can be cut between any two of its tokens.** -/
theorem exists_cut {text : List Char} {left right : List (Spanned Token)}
    (h : (read encoding).Reads offset text (left ++ right)) :
    ∃ n, Spanned.Tiles offset left (offset + n) ∧
      (read encoding).SpellsAll (text.take n) (left.map (·.value)) ∧
      (read encoding).Reads (offset + n) (text.drop n) right := by
  induction left generalizing offset text with
  | nil => exact ⟨0, rfl, .nil, h⟩
  | cons u left ih =>
    cases h with
    | @cons offset c rest value width _ head tail =>
      obtain ⟨n, htiles, hleft, hright⟩ := ih tail
      refine ⟨width + n, ⟨rfl, (fits_read encoding head).1, ?_⟩, ?_, ?_⟩
      · rwa [Nat.add_assoc] at htiles
      · rw [List.take_add]
        exact .cons (spells_take head) hleft
      · rwa [← List.drop_drop, ← Nat.add_assoc]

/-- **What is read between two parentheses can be replaced**, and what is around them is
read as before. -/
theorem spellsAll_between {pattern text : List Char} {before inner after : List (Spanned Token)} {opening closing : Nat}
    {values : List Token} (h : (read encoding).Reads 0 pattern
      (before ++ ⟨.groupOpen, opening, 1⟩ :: (inner ++ ⟨.groupClose, closing, 1⟩ :: after)))
    (htext : (read encoding).SpellsAll text values) :
    (read encoding).SpellsAll (pattern.take (opening + 1) ++ text ++ pattern.drop closing)
      (before.map (·.value) ++ .groupOpen :: (values ++ .groupClose :: after.map (·.value))) := by
  have hopen : before ++ ⟨.groupOpen, opening, 1⟩ :: (inner ++ ⟨.groupClose, closing, 1⟩ :: after) =
      (before ++ [⟨.groupOpen, opening, 1⟩]) ++ (inner ++ ⟨.groupClose, closing, 1⟩ :: after) := by simp
  rw [hopen] at h
  obtain ⟨n, htiles, hleft, hrest⟩ := exists_cut h
  obtain ⟨m, -, -, hright⟩ := exists_cut hrest
  rw [List.drop_drop] at hright
  obtain rfl : n = opening + 1 := by
    obtain ⟨middle, -, -, -, hfinish⟩ := Spanned.tiles_append.1 htiles
    exact (Nat.zero_add n).symm.trans hfinish.symm
  have hclosing : closing = 0 + (opening + 1) + m := by
    generalize pattern.drop (opening + 1 + m) = rest at hright
    cases hright
    rfl
  have hlast : (read encoding).SpellsAll (pattern.drop closing) (.groupClose :: after.map (·.value)) := by
    rw [hclosing, Nat.zero_add]
    exact spellsAll_of_reads hright
  have hall := (hleft.append htext).append hlast
  simpa using hall

end Token

end RegexAutomaton
