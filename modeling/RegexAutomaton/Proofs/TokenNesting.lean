/-
The nesting of a pattern is that of its tokens.

`Nesting.ofPattern` looks at single symbols, skips two for an escape and knows
only the extent of a bracket; it takes no notice of counted repetitions. If
the pattern splits into tokens it still finds their parentheses and bars, each
at the offset of its token (`ofPattern_eq`).
-/
import RegexAutomaton.Proofs.Lexing
import RegexAutomaton.Markers

namespace RegexAutomaton

/-- What a token means for nesting. -/
def Token.nesting? : Token → Option Nesting
  | groupOpen => some .opening
  | groupClose => some .closing
  | bar => some .bar
  | _ => none

namespace Nesting

/-- The nesting of a text whose first symbol has the given offset. -/
def ofText (offset : Nat) (text : List Char) : List (Nat × Nesting) :=
  (read.scanFrom 0 offset text).pieces.filterMap fun piece => piece.value.map (piece.offset, ·)

/-- The nesting of some tokens. -/
def ofTokens (ts : List (Spanned Token)) : List (Nat × Nesting) :=
  ts.filterMap fun t => t.value.nesting?.map (t.offset, ·)

/-- A symbol that nesting takes no notice of. -/
def Quiet (c : Char) : Prop :=
  c ≠ Escape.backslash ∧ c ≠ '[' ∧ c ≠ '(' ∧ c ≠ ')' ∧ c ≠ '|'

instance : DecidablePred Quiet := fun _ => inferInstanceAs (Decidable (_ ∧ _))

theorem quiet_of_mayHold {c : Char} (h : Numeral.MayHold c) : Quiet c :=
  ⟨h.ne (by decide), h.ne (by decide), h.ne (by decide), h.ne (by decide), h.ne (by decide)⟩

theorem read_quiet {c : Char} (h : Quiet c) (offset : Nat) (rest : List Char) :
    read offset c rest = .ok (none, 1) := by
  obtain ⟨hb, hbracket, hopen, hclose, hbar⟩ := h
  unfold read
  rw [if_neg hb]
  cases hm : Metachar.ofChar? c with
  | none => rfl
  | some m =>
    have hc := Metachar.ofChar?_eq_some_iff.1 hm
    cases m with
    | openBracket => exact absurd hc.symm hbracket
    | openGroup => exact absurd hc.symm hopen
    | closeGroup => exact absurd hc.symm hclose
    | bar => exact absurd hc.symm hbar
    | _ => rfl

theorem ofText_step {offset width : Nat} {c : Char} {rest : List Char} {part : Option Nesting}
    (h : read offset c rest = .ok (part, width)) (hpos : 0 < width) (hfit : width ≤ rest.length + 1) :
    ofText offset (c :: rest) =
      (part.map (offset, ·)).toList ++ ofText (offset + width) ((c :: rest).drop width) := by
  unfold ofText
  rw [Reader.scanFrom_ok read h hpos hfit]
  cases part <;> simp

theorem ofText_quiet {c : Char} (h : Quiet c) (offset : Nat) (rest : List Char) :
    ofText offset (c :: rest) = ofText (offset + 1) rest :=
  ofText_step (read_quiet h offset rest) (by decide) (by omega)

theorem ofText_append {run : List Char} (h : ∀ c ∈ run, Quiet c) (offset : Nat) (rest : List Char) :
    ofText offset (run ++ rest) = ofText (offset + run.length) rest := by
  induction run generalizing offset with
  | nil => rfl
  | cons c run ih =>
    rw [List.cons_append, ofText_quiet (h c (by simp)), ih (fun d hd => h d (by simp [hd])),
      List.length_cons]
    congr 1
    omega

/-- One token, seen symbol by symbol. -/
theorem ofText_token {encoding : Encoding} {offset width : Nat} {c : Char} {rest : List Char}
    {t : Token} (h : t.WrittenAt encoding offset c rest width) :
    ofText offset (c :: rest) =
      (t.nesting?.map (offset, ·)).toList ++ ofText (offset + width) ((c :: rest).drop width) := by
  cases h with
  | plain hb hc =>
    exact ofText_quiet ⟨hb, (hc .openBracket).symm, (hc .openGroup).symm, (hc .closeGroup).symm,
      (hc .bar).symm⟩ offset rest
  | escape hc h =>
    subst hc
    obtain ⟨x, digits, more, rfl, rfl, hdigits⟩ := Escape.digits_of_read h
    have hread : read offset Escape.backslash (x :: digits ++ more) = .ok (none, 2) := if_pos rfl
    rw [ofText_step hread (by decide) (by simp)]
    simp only [Token.nesting?, Option.map_none, Option.toList_none, List.nil_append, List.cons_append,
      List.drop_succ_cons, List.drop_zero, List.drop_left]
    rw [ofText_append fun d hd => quiet_of_mayHold (hdigits d hd)]
    congr 1
    omega
  | bracket hc h =>
    subst hc
    have hextent := Bracket.extent?_of_read h
    have hread : read offset '[' rest = .ok (none, width) := by
      have hm : Metachar.ofChar? '[' = some .openBracket := Metachar.ofChar?_toChar .openBracket
      unfold read
      rw [if_neg (by decide)]
      simp only [hm, hextent]
    obtain ⟨hpos, hfit⟩ := Bracket.width_le_of_extent? hextent
    exact ofText_step hread hpos hfit
  | counted hc h =>
    subst hc
    obtain ⟨body, more, rfl, hcounts, rfl⟩ := Repetition.read_eq_ok_iff.1 h
    have hquiet : ∀ c ∈ '{' :: body ++ ['}'], Quiet c := by
      intro c hc
      simp only [List.cons_append, List.mem_cons, List.mem_append, List.not_mem_nil, or_false] at hc
      rcases hc with rfl | hc | rfl
      · decide
      · rcases hcounts.mayHold c hc with rfl | hc
        · decide
        · exact quiet_of_mayHold hc
      · decide
    have htext : '{' :: (body ++ '}' :: more) = ('{' :: body ++ ['}']) ++ more := by simp
    rw [htext, ofText_append hquiet]
    simp [Token.nesting?]
  | dot hc | star hc | plus hc | question hc | anchorStart hc | anchorEnd hc =>
    subst hc
    exact ofText_quiet (by decide) offset rest
  | groupOpen hc | groupClose hc | bar hc =>
    subst hc
    exact ofText_step rfl (by decide) (by omega)

theorem ofText_of_reads {encoding : Encoding} {offset : Nat} {text : List Char}
    {ts : List (Spanned Token)} (h : (Token.read encoding).Reads offset text ts) :
    ofText offset text = ofTokens ts := by
  induction h with
  | nil offset => rfl
  | cons head tail ih =>
    rename_i offset c rest value width pieces
    rw [ofText_token (Token.read_eq_ok_iff.1 head), ih]
    unfold ofTokens
    cases hv : value.nesting? <;> simp [hv]

/-- **The parentheses and bars that are found symbol by symbol are those of
the tokens.** -/
theorem ofPattern_eq {encoding : Encoding} {pattern : List Char} {ts : List (Spanned Token)}
    (h : (Token.read encoding).Reads 0 pattern ts) : ofPattern pattern = ofTokens ts :=
  ofText_of_reads h

end Nesting

end RegexAutomaton
