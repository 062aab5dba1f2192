/-
Counted repetitions read by position.

The end of a repetition and the comma in it are looked for in one walk, which passes
over escapes (`bounds_eq`). A repetition with an escape in it is refused, for what
stands before the escape, whichever comma is taken to separate its counts
(`Numeral.exists_read_eq_error`). So reading by position gives what is read from the
symbols that are left (`readRepetition_eq`).
-/
import RegexAutomaton.Proofs.IndexedBrackets
import RegexAutomaton.Proofs.RepetitionGrammar

namespace RegexAutomaton

/-! ## Numbers with an escape -/

namespace Numeral

theorem dropWhile_backslash (run rest : List Char) :
    (run ++ Escape.backslash :: rest).dropWhile isBlank = run.dropWhile isBlank ++ Escape.backslash :: rest := by
  rw [List.dropWhile_append]
  split
  · next hnil =>
    rw [List.isEmpty_iff.1 hnil]
    exact List.dropWhile_cons_of_neg (by decide)
  · rfl

/-- Blanks are cut off at the left of a backslash on its left only, and on its right at
the right only. -/
theorem trim_backslash (run rest : List Char) :
    trim (run ++ Escape.backslash :: rest) =
      run.dropWhile isBlank ++ Escape.backslash :: rest.rdropWhile isBlank := by
  have hright := dropWhile_backslash rest.reverse (run.dropWhile isBlank).reverse
  rw [trim, dropWhile_backslash, List.reverse_append, List.reverse_cons, List.append_assoc, List.singleton_append,
    hright]
  simp [List.rdropWhile]

theorem leadingBlanks_backslash (run rest : List Char) :
    leadingBlanks (run ++ Escape.backslash :: rest) = leadingBlanks run := by
  induction run with
  | nil => rfl
  | cons c run ih =>
    unfold leadingBlanks at ih ⊢
    by_cases hc : isBlank c = true
    · simp only [List.cons_append, List.takeWhile_cons_of_pos hc, List.length_cons, ih]
    · simp only [List.cons_append, List.takeWhile_cons_of_neg hc]

/-- Digits are read up to the first symbol that is none. -/
theorem exists_valueOf_eq_error (base : Base) (value offset : Nat) (run : List Char) :
    ∃ e, ∀ rest, valueOf base value offset (run ++ Escape.backslash :: rest) = .error e := by
  induction run generalizing value offset with
  | nil => exact ⟨⟨base.fault, offset⟩, fun rest => by cases base <;> rfl⟩
  | cons c run ih =>
    simp only [List.cons_append, valueOf]
    cases base.digit? c with
    | none => exact ⟨_, fun _ => rfl⟩
    | some d =>
      by_cases hfits : value * base.size + d ≤ greatest
      · simpa only [if_pos hfits] using ih (value * base.size + d) (offset + 1)
      · exact ⟨_, fun _ => if_neg hfits⟩

theorem exists_readIn_eq_error (base : Base) (offset : Nat) (run : List Char) :
    ∃ e, ∀ rest, readIn base offset (run ++ Escape.backslash :: rest) = .error e := by
  obtain ⟨e, he⟩ := exists_valueOf_eq_error base 0 (offset + leadingBlanks run) (run.dropWhile isBlank)
  refine ⟨e, fun rest => ?_⟩
  rw [readIn, trim_backslash, leadingBlanks_backslash, ← he (rest.rdropWhile isBlank)]
  cases run.dropWhile isBlank <;> rfl

/-- The mark of a hexadecimal number lies before an escape, or there is none. -/
theorem afterHexMark?_backslash (run rest : List Char) :
    afterHexMark? (run ++ Escape.backslash :: rest) =
      (afterHexMark? run).map (· ++ Escape.backslash :: rest) := by
  rcases run with _ | ⟨zero, _ | ⟨mark, run⟩⟩
  · cases rest <;> rfl
  · exact if_neg fun h => by simp [Escape.backslash] at h
  · simp only [List.cons_append, afterHexMark?]
    split <;> rfl

/-- A run with an escape in it is no number, whatever comes after the backslash. -/
theorem exists_read_eq_error (offset : Nat) (run : List Char) :
    ∃ e, ∀ rest, read offset (run ++ Escape.backslash :: rest) = .error e := by
  have hmark (rest : List Char) : afterHexMark? (trim (run ++ Escape.backslash :: rest)) =
      (afterHexMark? (run.dropWhile isBlank)).map (· ++ Escape.backslash :: rest.rdropWhile isBlank) := by
    rw [trim_backslash, afterHexMark?_backslash]
  cases hdigits : afterHexMark? (run.dropWhile isBlank) with
  | none =>
    obtain ⟨e, he⟩ := exists_readIn_eq_error .decimal offset run
    refine ⟨e, fun rest => ?_⟩
    rw [read, hmark, hdigits]
    exact he rest
  | some digits =>
    obtain ⟨e, he⟩ := exists_readIn_eq_error .hexadecimal (offset + leadingBlanks run + 2) digits
    refine ⟨e, fun rest => ?_⟩
    rw [read, hmark, hdigits, leadingBlanks_backslash]
    exact he (rest.rdropWhile isBlank)

end Numeral

namespace Repetition

theorem readCount?_backslash (offset : Nat) (run rest : List Char) :
    readCount? offset (run ++ Escape.backslash :: rest) =
      (Numeral.read offset (run ++ Escape.backslash :: rest)).map some := by
  have hblank : (run ++ Escape.backslash :: rest).all Numeral.isBlank = false := by
    simp [Escape.backslash, Numeral.isBlank]
  rw [readCount?, hblank]
  rfl

end Repetition

namespace Indexed

open Checked

variable {pattern rest text : List Char} {i j : Nat} {comma : Option Nat}

/-! ## The end and the comma -/

theorem boundsStep_escape (comma : Option Nat) :
    boundsStep j Escape.backslash comma = answer (.ok (.goTo (j + 2) comma)) := by
  cases comma <;> rfl

/-- The walk finds the first brace and, before it, the first comma outside escapes. -/
theorem walk_boundsStep (h : pattern.drop j = text) :
    walk pattern boundsStep (fun _ _ => throw ⟨.unclosedRepeat, i⟩) j comma =
      answer (match Escape.indexOf? '}' text with
        | none => .error ⟨.unclosedRepeat, i⟩
        | some close => .ok (j + close, comma.or ((Escape.indexOf? ',' (text.take close)).map (j + ·)))) := by
  induction text using Escape.indexOf?.induct '}' generalizing j comma with
  | case1 => exact walk_end (List.getElem?_eq_none (List.drop_eq_nil_iff.1 h))
  | case2 rest =>
    rw [walk_stop (getElem?_of_drop h) (if_pos rfl), Escape.indexOf?_self]
    simp [Escape.indexOf?]
  | case3 hne =>
    rw [walk_goTo (getElem?_of_drop h) (boundsStep_escape comma) (by omega)]
    refine (walk_end (List.getElem?_eq_none ?_)).trans rfl
    have hlength := length_of_drop h
    simp only [List.length_nil] at hlength
    omega
  | case4 d rest hne ih =>
    rw [walk_goTo (getElem?_of_drop h) (boundsStep_escape comma) (by omega),
      ih (drop_succ_of_drop (drop_succ_of_drop h)), Escape.indexOf?_escaped hne]
    cases Escape.indexOf? '}' rest with
    | none => rfl
    | some close =>
      simp only [Option.map_some, List.take_succ_cons, Escape.indexOf?_escaped (by decide : Escape.backslash ≠ ','),
        Option.map_map]
      refine congrArg answer (congrArg Except.ok (Prod.ext (by omega) (congrArg comma.or ?_)))
      exact congrArg (fun f => (Escape.indexOf? ',' (rest.take close)).map f) (funext fun k => by simp; omega)
  | case5 c rest hclose hbackslash ih =>
    have hstep : boundsStep j c comma =
        answer (.ok (.goTo (j + 1) (if comma.isNone && c == ',' then some j else comma))) := by
      rw [boundsStep, if_neg hclose]
      simp only [if_neg hbackslash]
      rfl
    rw [walk_goTo (getElem?_of_drop h) hstep (by omega), ih (drop_succ_of_drop h),
      Escape.indexOf?_cons rest hclose hbackslash]
    cases Escape.indexOf? '}' rest with
    | none => rfl
    | some close =>
      simp only [Option.map_some, List.take_succ_cons]
      refine congrArg answer (congrArg Except.ok (Prod.ext (by omega) ?_))
      by_cases hcomma : c = ','
      · subst hcomma
        rw [Escape.indexOf?_self]
        cases comma <;> rfl
      · have hnot : (comma.isNone && c == ',') = false := by simp [hcomma]
        rw [hnot, Escape.indexOf?_cons _ hcomma hbackslash, Option.map_map]
        refine congrArg comma.or (congrArg (fun f => (Escape.indexOf? ',' (rest.take close)).map f) ?_)
        exact funext fun k => by simp; omega

theorem bounds_eq {c : Char} (h : pattern.drop i = c :: rest) :
    bounds pattern i =
      answer (match Escape.indexOf? '}' rest with
        | none => .error ⟨.unclosedRepeat, i⟩
        | some close =>
          .ok (i + 1 + close, (Escape.indexOf? ',' (rest.take close)).map (i + 1 + ·))) := by
  rw [bounds, walk_boundsStep (drop_succ_of_drop h)]
  simp only [Option.none_or]

/-! ## The counts -/

theorem readCount?_eq (offset : Nat) (run : List Char) :
    readCount? offset run = answer (Repetition.readCount? offset run) := by
  rw [readCount?, Repetition.readCount?, readNumber_eq]
  split
  · rfl
  · cases Numeral.read offset run <;> rfl

/-- The counts between two braces, given where the comma is. -/
def countsAt (offset : Nat) (body : List Char) : Option Nat → Except SyntaxError Repetition
  | none => (Numeral.read (offset + 1) body).map fun n => ⟨n, some n⟩
  | some comma => do
    let least ← Repetition.readCount? (offset + 1) (body.take comma)
    let most ← Repetition.readCount? (offset + 1 + comma + 1) (body.drop (comma + 1))
    Repetition.between (least.getD 0) most offset

/-- Symbols up to the first comma or backslash. -/
theorem exists_plain (body : List Char) :
    ∃ plain : List Char, (∀ c ∈ plain, c ≠ ',' ∧ c ≠ Escape.backslash) ∧
      (body = plain ∨ (∃ rest, body = plain ++ ',' :: rest) ∨ ∃ rest, body = plain ++ Escape.backslash :: rest) := by
  induction body with
  | nil => exact ⟨[], by simp, .inl rfl⟩
  | cons c body ih =>
    by_cases hcomma : c = ','
    · exact ⟨[], by simp, .inr (.inl ⟨body, by rw [hcomma]; rfl⟩)⟩
    by_cases hbackslash : c = Escape.backslash
    · exact ⟨[], by simp, .inr (.inr ⟨body, by rw [hbackslash]; rfl⟩)⟩
    obtain ⟨plain, hplain, hbody⟩ := ih
    refine ⟨c :: plain, List.forall_mem_cons.2 ⟨⟨hcomma, hbackslash⟩, hplain⟩, ?_⟩
    rcases hbody with rfl | ⟨rest, rfl⟩ | ⟨rest, rfl⟩
    · exact .inl rfl
    · exact .inr (.inl ⟨rest, rfl⟩)
    · exact .inr (.inr ⟨rest, rfl⟩)

section Plain

variable {plain : List Char}

theorem readCounts_of_plain (hplain : ∀ c ∈ plain, c ≠ ',' ∧ c ≠ Escape.backslash) (offset : Nat) :
    Repetition.readCounts offset plain = countsAt offset plain (Escape.indexOf? ',' plain) := by
  have hcomma : ',' ∉ plain := fun hmem => (hplain _ hmem).1 rfl
  have hnone := Escape.indexOf?_append [] hplain
  rw [List.append_nil] at hnone
  rw [hnone, Repetition.readCounts_plain hcomma]
  rfl

theorem readCounts_comma (hplain : ∀ c ∈ plain, c ≠ ',' ∧ c ≠ Escape.backslash) (offset : Nat) (rest : List Char) :
    Repetition.readCounts offset (plain ++ ',' :: rest) =
      countsAt offset (plain ++ ',' :: rest) (Escape.indexOf? ',' (plain ++ ',' :: rest)) := by
  have hcomma : ',' ∉ plain := fun hmem => (hplain _ hmem).1 rfl
  have hright : (plain ++ ',' :: rest).drop (plain.length + 1) = rest := by
    rw [← List.drop_drop, List.drop_left]
    rfl
  rw [Escape.indexOf?_append _ hplain, Escape.indexOf?_self, Option.map_some, Nat.zero_add, countsAt,
    List.take_left, hright, Repetition.readCounts_comma hcomma]

/-- A count with a backslash in it is refused, so it does not matter which comma, if any,
separates it from another. -/
theorem readCounts_backslash (hplain : ∀ c ∈ plain, c ≠ ',' ∧ c ≠ Escape.backslash) (offset : Nat)
    (rest : List Char) :
    Repetition.readCounts offset (plain ++ Escape.backslash :: rest) =
      countsAt offset (plain ++ Escape.backslash :: rest)
        (Escape.indexOf? ',' (plain ++ Escape.backslash :: rest)) := by
  obtain ⟨e, he⟩ := Numeral.exists_read_eq_error (offset + 1) plain
  have hcount (rest : List Char) :
      Repetition.readCount? (offset + 1) (plain ++ Escape.backslash :: rest) = .error e := by
    rw [Repetition.readCount?_backslash, he]
    rfl
  have hleft : (plain ++ Escape.backslash :: rest).takeWhile (· ≠ ',') =
      plain ++ Escape.backslash :: rest.takeWhile (· ≠ ',') := by
    have hpass : ∀ c ∈ plain, decide (c ≠ ',') = true := fun c hc => decide_eq_true (hplain c hc).1
    rw [List.takeWhile_append_of_pos hpass, List.takeWhile_cons_of_pos (by decide)]
  have hrefused : Repetition.readCounts offset (plain ++ Escape.backslash :: rest) = .error e := by
    rw [Repetition.readCounts, hleft]
    split
    · rw [he]
      rfl
    · simp only [hcount, bind, Except.bind]
  rw [hrefused, Escape.indexOf?_append _ hplain]
  cases hcomma : Escape.indexOf? ',' (Escape.backslash :: rest) with
  | none => rw [Option.map_none, countsAt, he]; rfl
  | some comma =>
    obtain ⟨left, right, hsplit, rfl⟩ := Escape.indexOf?_eq_some hcomma
    cases left with
    | nil => exact absurd (List.cons.inj hsplit).1 (by decide)
    | cons d left =>
      obtain ⟨rfl, hrest⟩ := List.cons.inj hsplit
      have htake : (plain ++ Escape.backslash :: rest).take
          ((Escape.backslash :: left).length + plain.length) = plain ++ Escape.backslash :: left := by
        rw [Nat.add_comm, List.take_length_add_append, hsplit, List.take_left]
      rw [Option.map_some, countsAt, htake, hcount]
      rfl

end Plain

/-- The first comma outside an escape separates the counts. -/
theorem readCounts_eq (offset : Nat) (body : List Char) :
    Repetition.readCounts offset body = countsAt offset body (Escape.indexOf? ',' body) := by
  obtain ⟨plain, hplain, hbody⟩ := exists_plain body
  rcases hbody with rfl | ⟨rest, rfl⟩ | ⟨rest, rfl⟩
  · exact readCounts_of_plain hplain offset
  · exact readCounts_comma hplain offset rest
  · exact readCounts_backslash hplain offset rest

/-- **Reading a counted repetition by position is never stuck**, and gives what is read
from the symbols that are left. -/
theorem readRepetition_eq (h : pattern.drop i = '{' :: rest) :
    readRepetition pattern i = answer (Repetition.read i rest) := by
  have hexpect : (pattern[i]? == some '{') = true := by rw [getElem?_of_drop h]; rfl
  have hlength := length_of_drop h
  have hrest := drop_succ_of_drop h
  rw [readRepetition, hexpect, bounds_eq h, Repetition.read]
  cases hclose : Escape.indexOf? '}' rest with
  | none => rfl
  | some close =>
    obtain ⟨body, after, rfl, rfl⟩ := Escape.indexOf?_eq_some hclose
    have hwidth : i + 1 + body.length + 1 - i = body.length + 2 := by omega
    show (sub (i + 1 + body.length + 1) i >>= _) = _
    rw [sub_eq (by omega), answer_ok_bind, hwidth]
    dsimp only
    rw [List.take_left, readCounts_eq]
    cases hcomma : Escape.indexOf? ',' body with
    | none =>
      dsimp only [Option.map_none]
      rw [slice_of_drop hrest (by omega) rfl, answer_ok_bind, readNumber_eq, countsAt]
      cases Numeral.read (i + 1) body <;> rfl
    | some comma =>
      obtain ⟨left, right, rfl, rfl⟩ := Escape.indexOf?_eq_some hcomma
      rw [List.append_assoc] at hrest hlength
      have hright := drop_succ_of_drop (drop_add_of_drop hrest)
      simp only [List.length_append, List.length_cons] at hlength
      have hdrop : (left ++ ',' :: right).drop (left.length + 1) = right := by
        rw [← List.drop_drop, List.drop_left]
        rfl
      dsimp only [Option.map_some]
      rw [slice_of_drop hrest (by omega) rfl, answer_ok_bind,
        slice_of_drop hright (by omega) (by simp only [List.length_append, List.length_cons]; omega), answer_ok_bind,
        readCount?_eq, readCount?_eq, countsAt, List.take_left, hdrop]
      cases Repetition.readCount? (i + 1) left with
      | error e => rfl
      | ok least =>
        cases Repetition.readCount? (i + 1 + left.length + 1) right with
        | error e => rfl
        | ok most =>
          show (answer (Repetition.between (least.getD 0) most i) >>= fun r => pure (r, _)) =
            answer (Except.map _ (Repetition.between (least.getD 0) most i))
          cases Repetition.between (least.getD 0) most i <;> rfl

end Indexed

end RegexAutomaton
