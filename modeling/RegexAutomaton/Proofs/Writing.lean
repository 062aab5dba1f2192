/-
Reading what is written.

What is written for a symbol, a set or a repetition that a pattern can give spells it
again, and so does what is written for a token (`Token.spellsAll_text`): nothing, for a
quantifier that asks for one time.
-/
import RegexAutomaton.Proofs.Legible
import RegexAutomaton.Proofs.Spelling

namespace RegexAutomaton

/-! ## Symbols -/

namespace Escape

variable {encoding : Encoding} {c : Char}

theorem readCode_hexDigits (places : Nat) (short : Fault) (hc : encoding.Has c) (h : c.toNat < Nat.pow 16 places)
    (hle : c.toNat ≤ Numeral.greatest) :
    readCode encoding places short 0 (hexDigits places c.toNat) = .ok (c, places + 2) := by
  have hlen := length_hexDigits places c.toNat
  have htake : (hexDigits places c.toNat).take places = hexDigits places c.toNat :=
    List.take_of_length_le (Nat.le_of_eq hlen)
  rw [readCode, if_neg (by omega), htake, valueOf_hexDigits _ h hle]
  simp only [show encoding.symbol? c.toNat = some c from hc]

/-- The symbols that are written with a backslash before them stand for themselves
there. -/
theorem read_special (h : c = backslash ∨ (Metachar.ofChar? c).isSome) : read encoding 0 [c] = .ok (c, 2) := by
  rcases h with rfl | h
  · rfl
  · obtain ⟨m, hm⟩ := Option.isSome_iff_exists.1 h
    obtain rfl := Metachar.ofChar?_eq_some_iff.1 hm
    cases m <;> rfl

/-- A symbol is written as it is, if it has no meaning of its own, or as an escape. -/
theorem write_cases (hc : encoding.Has c) :
    (write c = [c] ∧ c ≠ backslash ∧ Metachar.ofChar? c = none) ∨
      ∃ code, write c = backslash :: code ∧ read encoding 0 code = .ok (c, code.length + 1) := by
  unfold write
  split
  · next h => exact .inr ⟨['n'], rfl, h ▸ rfl⟩
  split
  · next h => exact .inr ⟨['r'], rfl, h ▸ rfl⟩
  split
  · next h => exact .inr ⟨['t'], rfl, h ▸ rfl⟩
  split
  · next h => exact .inr ⟨[c], rfl, read_special h⟩
  next hspecial =>
  obtain ⟨hb, hm⟩ := not_or.1 hspecial
  split
  · exact .inl ⟨rfl, hb, by simpa using hm⟩
  split
  · next hle =>
    refine .inr ⟨'x' :: hexDigits 2 c.toNat, rfl, ?_⟩
    rw [List.length_cons, length_hexDigits]
    exact readCode_hexDigits 2 .shortByteEscape hc (Nat.lt_succ_of_le hle) (Nat.le_trans hle (by decide))
  split
  · next hle =>
    refine .inr ⟨'u' :: hexDigits 4 c.toNat, rfl, ?_⟩
    rw [List.length_cons, length_hexDigits]
    exact readCode_hexDigits 4 .shortWideEscape hc (Nat.lt_succ_of_le hle) (Nat.le_trans hle (by decide))
  · exact .inl ⟨rfl, hb, by simpa using hm⟩

end Escape

/-- **A symbol is read from what is written for it**, whatever follows. -/
theorem Glyph.spells_write {encoding : Encoding} {c : Char} (hc : encoding.Has c) :
    (read encoding).Spells (Escape.write c) (literal c) := by
  rcases Escape.write_cases hc with ⟨hwrite, hb, hm⟩ | ⟨code, hwrite, hcode⟩
  · refine ⟨c, [], hwrite, fun offset more => ?_⟩
    rw [hwrite, read, if_neg hb, hm]
    rfl
  · refine ⟨Escape.backslash, code, hwrite, fun offset more => ?_⟩
    rw [hwrite, read, if_pos rfl, Escape.read_append hcode offset more]
    rfl

/-! ## Sets -/

namespace Bracket

variable {encoding : Encoding} {c : Char}

/-- What is written for a symbol is one of the texts that it has in a bracket. -/
theorem symbolText_write (hc : encoding.Has c) :
    SymbolText encoding (Escape.write c) c ∧ ∀ d ∈ (Escape.write c).head?, d ≠ '^' ∧ d ≠ ']' := by
  rcases Escape.write_cases hc with ⟨hwrite, hb, hm⟩ | ⟨code, hwrite, hread⟩
  · have hne (m : Metachar) : c ≠ m.toChar := fun h => Metachar.ofChar?_eq_none_iff.1 hm m h.symm
    rw [hwrite]
    refine ⟨.plain hb, fun d hd => ?_⟩
    obtain rfl := Option.some.inj hd
    exact ⟨hne .caret, hne .closeBracket⟩
  · rw [hwrite]
    refine ⟨.escape hread, fun d hd => ?_⟩
    obtain rfl := Option.some.inj hd
    decide

/-- An end of a range is written so that it means nothing to the bracket, not even as a
dash. -/
theorem symbolText_writeEnd (hc : encoding.Has c) :
    SymbolText encoding (CharRange.writeEnd c) c ∧
      ∀ d ∈ (CharRange.writeEnd c).head?, d ≠ '^' ∧ d ≠ ']' ∧ d ≠ '-' := by
  by_cases hdash : c = '-'
  · subst hdash
    refine ⟨.escape rfl, fun d hd => ?_⟩
    obtain rfl := Option.some.inj hd
    decide
  · have hend : CharRange.writeEnd c = Escape.write c := if_neg hdash
    obtain ⟨hsymbol, hhead⟩ := symbolText_write hc
    rw [hend]
    refine ⟨hsymbol, fun d hd => ⟨(hhead d hd).1, (hhead d hd).2, ?_⟩⟩
    rintro rfl
    -- Only a dash is written with a dash in front.
    rcases Escape.write_cases hc with ⟨hwrite, -⟩ | ⟨code, hwrite, -⟩
    · rw [hwrite] at hd
      exact hdash (Option.some.inj hd)
    · rw [hwrite] at hd
      cases hd

theorem head?_text {r : CharRange} (h : encoding.Has r.lo) (more : List Char) :
    ∀ d ∈ (r.text ++ more).head?, d ≠ '^' ∧ d ≠ ']' ∧ d ≠ '-' := by
  obtain ⟨hsymbol, hhead⟩ := symbolText_writeEnd h
  unfold CharRange.text
  split
  · rwa [List.head?_append_of_ne_nil _ hsymbol.ne_nil]
  · rwa [List.append_assoc, List.head?_append_of_ne_nil _ hsymbol.ne_nil]

/-- What is written for a range is an item, unless it is followed by a dash. -/
theorem itemText_text {r : CharRange} (h : encoding.Has r.lo ∧ encoding.Has r.hi) (hordered : r.lo ≤ r.hi)
    {after : List Char} (halone : ¬ JoinsNext after) : ItemText encoding after r.text r := by
  obtain ⟨lo, hi⟩ := r
  obtain ⟨hlo, -⟩ := symbolText_writeEnd h.1
  obtain ⟨hhi, hhead⟩ := symbolText_writeEnd h.2
  unfold CharRange.text
  split
  · next hsingle =>
    obtain rfl : lo = hi := eq_of_beq hsingle
    exact .single hlo halone
  · exact .range hlo hhi (fun hd => (hhead ']' hd).2.1 rfl) hordered

/-- Members in a row are items, none of which starts with a dash. -/
theorem itemsText_members {members : List CharRange} (h : ∀ r ∈ members, encoding.Has r.lo ∧ encoding.Has r.hi)
    (hordered : ∀ r ∈ members, r.lo ≤ r.hi) (leading : Bool) (hne : leading = true → members ≠ []) :
    ItemsText encoding leading (members.flatMap CharRange.text ++ [']']) members ∧
      ∀ d ∈ (members.flatMap CharRange.text ++ [']']).head?, d ≠ '^' ∧ d ≠ '-' := by
  induction members generalizing leading with
  | nil =>
    obtain rfl : leading = false := Bool.eq_false_iff.2 fun hleading => hne hleading rfl
    exact ⟨.close, by simp⟩
  | cons r members ih =>
    obtain ⟨hr, hmembers⟩ := List.forall_mem_cons.1 h
    obtain ⟨hle, hordered⟩ := List.forall_mem_cons.1 hordered
    obtain ⟨hitems, hlater⟩ := ih hmembers hordered false nofun
    have hhead := head?_text hr.1
    have halone : ¬ JoinsNext (members.flatMap CharRange.text ++ [']']) := fun ⟨d, rest, htext, _⟩ =>
      (hlater '-' (by rw [htext]; rfl)).2 rfl
    rw [List.flatMap_cons, List.append_assoc]
    refine ⟨.cons (.inr fun hd => ?_) (itemText_text hr hle halone) hitems, fun d hd => ?_⟩
    · exact (hhead [] ']' (by rwa [List.append_nil])).2.1 rfl
    · exact ⟨(hhead _ d hd).1, (hhead _ d hd).2.2⟩

/-- **What is written for a set is a bracket with its members.** -/
theorem setText_text {s : CharSet} (h : s.Legible encoding) : SetText encoding s.text s.negated s.members := by
  have hany : s.isAny = false := by
    simp [CharSet.isAny, h.ne_nil]
  obtain ⟨hitems, hhead⟩ := itemsText_members h.has h.ordered true fun _ => h.ne_nil
  refine ⟨s.members.flatMap CharRange.text ++ [']'], ?_, fun _ hd => (hhead '^' hd).1 rfl, hitems⟩
  simp [CharSet.text, hany]

end Bracket

/-! ## Repetitions -/

namespace Numeral

variable {n : Nat}

theorem digit?_digitChar : ∀ {d : Nat}, d < 10 → Base.digit? .decimal d.digitChar = some d
  | 0, _ | 1, _ | 2, _ | 3, _ | 4, _ | 5, _ | 6, _ | 7, _ | 8, _ | 9, _ => by decide
  | _ + 10, h => absurd h (by omega)

theorem valueOf_text (offset : Nat) (h : n ≤ greatest) : valueOf .decimal 0 offset (text n) = .ok n := by
  induction n using Nat.strongRecOn with
  | ind n ih =>
    rw [text, Nat.toDigits_eq_if (by decide)]
    split
    · next hlt =>
      simp only [valueOf, digit?_digitChar hlt, Base.size, Nat.zero_mul, Nat.zero_add, if_pos h]
    · next hge =>
      have hrest := ih (n / 10) (by omega) (by omega)
      have hvalue : n / 10 * 10 + n % 10 = n := by omega
      rw [text] at hrest
      rw [valueOf_append hrest]
      simp only [valueOf, digit?_digitChar (Nat.mod_lt n (by decide)), Base.size, hvalue, if_pos h]

theorem isDigit_of_mem_text {c : Char} (h : c ∈ text n) : c.isDigit = true :=
  Nat.isDigit_of_mem_toDigits (by decide) (by decide) h

theorem ne_of_mem_text {c d : Char} (h : c ∈ text n) (hd : d.isDigit = false) : c ≠ d := by
  rintro rfl
  rw [isDigit_of_mem_text h] at hd
  cases hd

theorem isBlank_of_mem_text {c : Char} (h : c ∈ text n) : isBlank c = false := by
  have hspace : c ≠ ' ' := ne_of_mem_text h (by decide)
  have htab : c ≠ '\t' := ne_of_mem_text h (by decide)
  simp [isBlank, hspace, htab]

/-- **A number is read from what is written for it.** -/
theorem read_text (offset : Nat) (h : n ≤ greatest) : read offset (text n) = .ok n := by
  have hblank {c : Char} (hc : c ∈ text n) : isBlank c = false := isBlank_of_mem_text hc
  have hstrips : Strips (text n) 0 (text n) :=
    strips_self (fun c hc => hblank (List.mem_of_head? hc)) fun c hc => hblank (List.mem_of_getLast? hc)
  have hlayout : Layout (text n) .decimal 0 (text n) := by
    refine .decimal hstrips fun mark rest htext => ?_
    have hmark : mark ∈ text n := by simp [htext]
    exact ⟨ne_of_mem_text hmark (by decide), ne_of_mem_text hmark (by decide)⟩
  have hne : text n ≠ [] := Nat.toDigits_ne_nil
  rw [hlayout.read_eq, if_neg hne]
  exact valueOf_text _ h

end Numeral

namespace Repetition

variable {r : Repetition} {offset n : Nat}

theorem countText_text (h : n ≤ Numeral.greatest) : CountText (Numeral.text n) (some n) :=
  .number (Numeral.read_text 0 h)

theorem comma_not_mem_text (n : Nat) : ',' ∉ Numeral.text n := fun h => Numeral.ne_of_mem_text h (by decide) rfl

/-- The quantifier that is written for a repetition. -/
def plainest (r : Repetition) : Quantifier :=
  if r = star then .star
  else if r = plus then .plus
  else if r = question then .question
  else .counted r

@[simp] theorem repetition_plainest (r : Repetition) : r.plainest.repetition = r := by
  unfold plainest
  split
  · next h => exact h.symm
  split
  · next h => exact h.symm
  split
  · next h => exact h.symm
  · rfl

end Repetition

/-! ## Tokens -/

namespace Token

variable {encoding : Encoding}

theorem spells_literal {text : List Char} {c : Char} (h : (Glyph.read encoding).Spells text (.literal c)) :
    (read encoding).Spells text (atom (.literal c)) := by
  obtain ⟨d, rest, htext, hread⟩ := h
  refine ⟨d, rest, htext, fun offset more => ?_⟩
  rw [read, hread]

/-- A bracket whose members differ spells its set. -/
theorem spells_bracket {text : List Char} {s : CharSet} (h : Bracket.SetText encoding text s.negated s.members)
    (hnodup : s.members.Nodup) : (read encoding).Spells text (atom (.bracket s)) := by
  obtain ⟨own, rfl, -⟩ := id h
  have hread := h.read 0 []
  rw [eraseDups_of_nodup hnodup, List.append_nil] at hread
  exact spells_of_read (read_eq_ok_iff.2 (.bracket rfl hread))

theorem spells_counted {r : Repetition} {body : List Char} (h : Repetition.CountsText body r) :
    (read encoding).Spells ('{' :: body ++ ['}']) (quantifier (.counted r)) := by
  have hread : Repetition.read 0 (body ++ ['}']) = .ok (r, (body ++ ['}']).length + 1) :=
    Repetition.read_eq_ok_iff.2 ⟨body, [], rfl, h, by simp⟩
  exact spells_of_read (read_eq_ok_iff.2 (.counted rfl hread))

/-- **A repetition is read from what is written for it**, unless that is nothing. -/
theorem spells_quantifier {r : Repetition} (h : r.Legible) (hr : r ≠ .once) :
    (read encoding).Spells r.text (quantifier r.plainest) := by
  rw [Repetition.text, if_neg hr, Repetition.plainest]
  split
  · exact spells_of_read (read_eq_ok_iff.2 (.star rfl))
  split
  · exact spells_of_read (read_eq_ok_iff.2 (.plus rfl))
  split
  · exact spells_of_read (read_eq_ok_iff.2 (.question rfl))
  obtain ⟨least, most⟩ := r
  have hplain := Repetition.comma_not_mem_text least
  have hleast := Repetition.countText_text h.least_le
  cases most with
  | none =>
    have hcounts : Repetition.CountsText (Numeral.text least ++ [',']) ⟨least, none⟩ :=
      .between hplain hleast (.blank nofun) nofun
    simpa using spells_counted hcounts
  | some most =>
    have hmost : most ≤ Numeral.greatest := h.most_le most rfl
    by_cases hexact : least = most
    · subst hexact
      simp only [if_true]
      exact spells_counted (.exact hplain (Numeral.read_text 0 hmost))
    · have hordered : ∀ m n, some least = some m → some most = some n → m ≤ n := by
        rintro m n ⟨⟩ ⟨⟩
        exact h.inOrder most rfl
      have hcounts := Repetition.CountsText.between hplain hleast (Repetition.countText_text hmost) hordered
      simpa [hexact] using spells_counted hcounts

/-- The token as it is written in a pattern. -/
def text : Token → List Char
  | atom (.literal c) => Escape.write c
  | atom (.bracket set) => set.text
  | atom .dot => ['.']
  | quantifier q => q.repetition.text
  | anchorStart => ['^']
  | anchorEnd => ['$']
  | groupOpen => ['(']
  | groupClose => [')']
  | bar => ['|']

/-- The token that is read from what is written for a token. Nothing is written for a
repetition that asks for one time. -/
def reread? : Token → Option Token
  | quantifier q => if q.repetition = .once then none else some (quantifier q.repetition.plainest)
  | t => some t

/-- **A token is read from what is written for it.** -/
theorem spellsAll_text {t : Token} (h : t.Legible encoding) : (read encoding).SpellsAll t.text t.reread?.toList := by
  have one {c : Char} {rest : List Char} {t : Token} (h : WrittenAt encoding 0 c rest t (rest.length + 1)) :
      (read encoding).SpellsAll (c :: rest) [t] := (spells_of_read (read_eq_ok_iff.2 h)).one
  cases t with
  | atom a =>
    cases a with
    | literal c => exact (spells_literal (Glyph.spells_write h)).one
    | bracket set => exact (spells_bracket (Bracket.setText_text h) h.nodup).one
    | dot => exact one (.dot rfl)
  | quantifier q =>
    rw [text, reread?]
    split
    · next honce =>
      rw [honce]
      exact .nil
    · next hr => exact (spells_quantifier h hr).one
  | anchorStart => exact one (.anchorStart rfl)
  | anchorEnd => exact one (.anchorEnd rfl)
  | groupOpen => exact one (.groupOpen rfl)
  | groupClose => exact one (.groupClose rfl)
  | bar => exact one (.bar rfl)

theorem spellsAll_flatMap_text {ts : List Token} (h : ∀ t ∈ ts, t.Legible encoding) :
    (read encoding).SpellsAll (ts.flatMap text) (ts.filterMap reread?) := by
  induction ts with
  | nil => exact .nil
  | cons t ts ih =>
    obtain ⟨ht, hts⟩ := List.forall_mem_cons.1 h
    have hvalues : (t :: ts).filterMap reread? = t.reread?.toList ++ ts.filterMap reread? := by
      cases hreread : t.reread? <;> simp [hreread]
    rw [hvalues]
    exact (spellsAll_text ht).append (ih hts)

end Token

end RegexAutomaton
