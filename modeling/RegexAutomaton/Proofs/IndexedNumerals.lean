/-
Numbers and escapes read by position.

Reading a number, an escape or a single symbol by position is never stuck, and
gives what is read from the symbols that are left (`readNumber_eq`,
`readEscape_eq`, `readGlyph_eq`).
-/
import RegexAutomaton.Indexed.Lexing
import RegexAutomaton.Proofs.NumberGrammar

namespace RegexAutomaton

/-! ## Blanks -/

namespace Numeral

theorem leadingBlanks_eq (run : List Char) : leadingBlanks run = run.findIdx (!isBlank ·) := by
  rw [leadingBlanks, List.takeWhile_eq_take_findIdx_not, List.length_take]
  exact Nat.min_eq_left List.findIdx_le_length

theorem trim_trim (run : List Char) : trim (trim run) = trim run ∧ leadingBlanks (trim run) = 0 :=
  (strips_self (strips_trim run).first (strips_trim run).last).trim_eq

end Numeral

namespace Indexed

open Checked

theorem trim_eq (offset : Nat) (run : List Char) :
    trim offset run = answer (.ok (Numeral.trim run, offset + Numeral.leadingBlanks run)) := by
  have hfirst : (run.findIdx? (!Numeral.isBlank ·)).getD run.length = Numeral.leadingBlanks run := by
    rw [Numeral.leadingBlanks_eq, List.findIdx_eq_getD_findIdx?]
  have hdrop : run.drop (Numeral.leadingBlanks run) = run.dropWhile Numeral.isBlank := by
    rw [List.dropWhile_eq_drop_findIdx_not, Numeral.leadingBlanks_eq]
  have hlength : Numeral.leadingBlanks run + (run.dropWhile Numeral.isBlank).length = run.length := by
    rw [← hdrop, List.length_drop]
    have hle : run.findIdx (!Numeral.isBlank ·) ≤ run.length := List.findIdx_le_length
    rw [← Numeral.leadingBlanks_eq] at hle
    omega
  have hrun : run.reverse =
      (run.dropWhile Numeral.isBlank).reverse ++ (run.takeWhile Numeral.isBlank).reverse := by
    rw [← List.reverse_append, List.takeWhile_append_dropWhile]
  rw [trim, hfirst, lastIdx?, hrun, List.findIdx?_append]
  -- Without a symbol that is no blank the run is empty, and both of its ends are where it starts.
  cases hlast : (run.dropWhile Numeral.isBlank).reverse.findIdx? (!Numeral.isBlank ·) with
  | none =>
    have hnil : run.dropWhile Numeral.isBlank = [] := by
      rw [← List.dropWhile_idempotent]
      exact List.dropWhile_eq_nil_iff.2 (by simpa using hlast)
    have htrim : Numeral.trim run = [] := by
      rw [Numeral.trim, hnil]
      rfl
    have hblanks : (run.takeWhile Numeral.isBlank).reverse.findIdx? (!Numeral.isBlank ·) = none := by
      refine List.findIdx?_eq_none_iff.2 fun c hc => ?_
      simp [List.mem_takeWhile_imp (List.mem_reverse.1 hc)]
    rw [hblanks]
    simp only [Option.or_none, Option.map_none, Option.getD_none]
    rw [slice_eq (Nat.le_refl _) (by omega), Nat.sub_self, List.take_zero, htrim]
    rfl
  | some k =>
    obtain ⟨hk, hfind⟩ := List.findIdx?_eq_some_iff_findIdx_eq.1 hlast
    rw [List.length_reverse] at hk
    have htrim : Numeral.trim run =
        (run.dropWhile Numeral.isBlank).take ((run.dropWhile Numeral.isBlank).length - k) := by
      rw [Numeral.trim, List.dropWhile_eq_drop_findIdx_not, hfind, List.reverse_drop, List.reverse_reverse,
        List.length_reverse]
    have hend : run.length - 1 - k + 1 = run.length - k := by omega
    simp only [Option.some_or, Option.map_some, Option.getD_some, hend]
    rw [slice_eq (by omega) (by omega), hdrop, htrim]
    have hwidth : run.length - k - Numeral.leadingBlanks run = (run.dropWhile Numeral.isBlank).length - k := by
      omega
    rw [hwidth]
    rfl

theorem valueOf_eq (base : Numeral.Base) (value offset : Nat) (digits : List Char) :
    valueOf base value offset digits = answer (Numeral.valueOf base value offset digits) := by
  induction digits generalizing value offset with
  | nil => rfl
  | cons c rest ih =>
    rw [valueOf, Numeral.valueOf]
    cases base.digit? c with
    | none => rfl
    | some d =>
      by_cases hfits : value * base.size + d ≤ Numeral.greatest
      · have hproduct : value * base.size ≤ Numeral.greatest := by omega
        simp only [word?, if_pos hproduct, Option.bind_some, if_pos hfits, ih]
      · have hword : (word? (value * base.size)).bind (fun product => word? (product + d)) = none := by
          unfold word?
          split <;> simp [hfits]
        simp only [hword, if_neg hfits]
        rfl

theorem readIn_eq (base : Numeral.Base) (offset : Nat) (run : List Char) :
    readIn base offset run = answer (Numeral.readIn base offset run) := by
  rw [readIn, trim_eq, answer_ok_bind, Numeral.readIn]
  cases Numeral.trim run with
  | nil => rfl
  | cons c rest => exact valueOf_eq ..

theorem readNumber_eq (offset : Nat) (run : List Char) :
    readNumber offset run = answer (Numeral.read offset run) := by
  simp only [readNumber, trim_eq, answer_ok_bind, Numeral.read, readIn_eq]
  cases Numeral.afterHexMark? (Numeral.trim run) with
  | none =>
    obtain ⟨htrim, hblanks⟩ := Numeral.trim_trim run
    simp only [Numeral.readIn, htrim, hblanks, Nat.add_zero]
  | some rest => cases rest <;> rfl

/-! ## Escapes -/

/-- Digits too few to fill a word give a value that fits one. -/
theorem codeOf_eq {value : Nat} {digits : List Char} (offset : Nat)
    (h : (value + 1) * 16 ^ digits.length ≤ Numeral.greatest + 1) :
    codeOf value offset digits = answer (Numeral.valueOf .hexadecimal value offset digits) := by
  induction digits generalizing value offset with
  | nil => rfl
  | cons c rest ih =>
    rw [codeOf, Numeral.valueOf]
    cases hdigit : Numeral.Base.digit? .hexadecimal c with
    | none => rfl
    | some d =>
      have hd : d < 16 := of_decide_eq_true (Option.filter_eq_some_iff.1 hdigit).2
      have hpos : 0 < 16 ^ rest.length := Nat.pow_pos (by decide)
      have hnext : (value * 16 + d + 1) * 16 ^ rest.length ≤ Numeral.greatest + 1 := by
        refine Nat.le_trans ?_ h
        rw [List.length_cons, Nat.pow_succ, Nat.mul_comm (16 ^ rest.length), ← Nat.mul_assoc]
        exact Nat.mul_le_mul_right _ (by omega)
      have hfits : value * Numeral.Base.size .hexadecimal + d ≤ Numeral.greatest := by
        have := Nat.le_mul_of_pos_right (value * 16 + d + 1) hpos
        rw [Numeral.Base.size]
        omega
      have hshift : value <<< 4 = value * 16 := Nat.shiftLeft_eq value 4
      have hor : value <<< 4 ||| d = value * 16 + d := by
        rw [← Nat.shiftLeft_add_eq_or_of_lt (by omega : d < 2 ^ 4), hshift]
      dsimp only
      rw [if_pos hfits, Numeral.Base.size, word_eq (by rw [Numeral.Base.size] at hfits; omega), answer_ok_bind,
        hor, ih _ hnext]

variable {encoding : Encoding} {pattern rest : List Char} {i : Nat} {c : Char}

/-- What follows a position, as far as it goes. -/
theorem slice?_of_drop (h : pattern.drop i = c :: rest) (n : Nat) :
    slice? pattern (i + 1) (i + 1 + n) = if n ≤ rest.length then some (rest.take n) else none := by
  have hlength := length_of_drop h
  unfold slice?
  rw [drop_succ_of_drop h, Nat.add_sub_cancel_left]
  exact if_congr ⟨fun ⟨_, h⟩ => by omega, fun h => ⟨by omega, by omega⟩⟩ rfl rfl

theorem readCode_eq {places : Nat} (short : Fault) (h : pattern.drop (i + 1) = c :: rest)
    (hplaces : 16 ^ places ≤ Numeral.greatest + 1) :
    readCode encoding pattern places short i = answer (Escape.readCode encoding places short i rest) := by
  rw [readCode, slice?_of_drop h, Escape.readCode]
  by_cases hshort : rest.length < places
  · rw [if_neg (by omega), if_pos hshort]
    rfl
  · have hlength : (rest.take places).length = places := by
      rw [List.length_take]
      omega
    rw [if_pos (by omega), if_neg hshort]
    dsimp only
    rw [codeOf_eq _ (by rwa [hlength, Nat.zero_add, Nat.one_mul])]
    cases Numeral.valueOf .hexadecimal 0 (i + 2) (rest.take places) with
    | error e => rfl
    | ok n =>
      simp only [answer_ok_bind, represent]
      cases encoding.symbol? n <;> rfl

theorem represent_control {code : Nat} (h : code < 128) (i : Nat) :
    represent encoding code i = answer (.ok (Char.ofNat code)) := by
  have hsymbol : encoding.symbol? code = some (Char.ofNat code) := by
    cases encoding with
    | byte => exact if_pos (by omega)
    | unicode => exact if_pos (.inl (by omega))
  rw [represent, hsymbol]
  rfl

theorem readEscape_eq (h : pattern.drop i = Escape.backslash :: rest) :
    readEscape encoding pattern i = answer (Escape.read encoding i rest) := by
  have hexpect : (pattern[i]? == some Escape.backslash) = true := by rw [getElem?_of_drop h]; rfl
  have hgoOn : (expect true : Checked SyntaxError Unit) = answer (.ok ()) := rfl
  rw [readEscape, hexpect, hgoOn, answer_ok_bind]
  have hrest := drop_succ_of_drop h
  cases rest with
  | nil =>
    rw [List.getElem?_eq_none (by have := length_of_drop h; simp at this; omega)]
    rfl
  | cons c rest =>
    rw [getElem?_of_drop hrest, Escape.read]
    dsimp only
    rw [readCode_eq _ hrest (by decide), readCode_eq _ hrest (by decide), represent_control (by decide),
      represent_control (by decide), represent_control (by decide)]
    repeat' split
    all_goals rfl

theorem readGlyph_eq (h : pattern.drop i = c :: rest) :
    readGlyph encoding pattern i = answer (Glyph.read encoding i c rest) := by
  rw [readGlyph, entry_eq (getElem?_of_drop h), answer_ok_bind, Glyph.read]
  by_cases hc : c = Escape.backslash
  · rw [if_pos hc, if_pos hc, readEscape_eq (hc ▸ h)]
    cases Escape.read encoding i rest <;> rfl
  · rw [if_neg hc, if_neg hc]
    cases Metachar.ofChar? c <;> rfl

end Indexed

end RegexAutomaton
