/-
The grammar of numbers.

Between blanks a number has decimal digits, or a mark and hexadecimal digits, before
which blanks may come again (`Layout`). `Numeral.read` answers with the value of the
digits, computed without a limit, if there are any and their value is not too great;
otherwise it blames the first symbol that is no digit or makes the value too great, or
the place where a digit was due (`read_eq_value_or_blame`).
-/
import Mathlib.Data.List.DropRight
import Mathlib.Data.List.Forall2
import Mathlib.Data.Nat.Digits.Defs
import RegexAutomaton.Proofs.Extent

namespace RegexAutomaton

namespace Numeral

/-! ## Values -/

namespace Base

variable {base : Base} {digits : List Char} {c : Char} {d m n k : Nat}

/-- The symbol is a digit of the base and is worth `d`. Letters count in both cases. -/
def Digit (base : Base) (c : Char) (d : Nat) : Prop :=
  d < base.size ∧ (c = d.digitChar ∨ c = d.digitChar.toUpper)

/-- All symbols are digits of the base and `n` is their value. The last digit counts
least. -/
def Denotes (base : Base) (digits : List Char) (n : Nat) : Prop :=
  ∃ ds, List.Forall₂ base.Digit digits.reverse ds ∧ Nat.ofDigits base.size ds = n

/-- The symbol at an index is no digit of the base, or with it the value of the digits is
too great. -/
def Spoils (base : Base) (digits : List Char) (k : Nat) : Prop :=
  ∃ c, digits[k]? = some c ∧
    ((∀ d, ¬ base.Digit c d) ∨ ∃ n, base.Denotes (digits.take (k + 1)) n ∧ 2 ^ 32 - 1 < n)

/-- The first index at which a symbol spoils the number. -/
def SpoiltAt (base : Base) (digits : List Char) (k : Nat) : Prop :=
  base.Spoils digits k ∧ ∀ j < k, ¬ base.Spoils digits j

theorem size_pos (base : Base) : 0 < base.size := by cases base <;> decide

theorem size_le (base : Base) : base.size ≤ 16 := by cases base <;> decide

/-- The digits are the ten figures and the letters from `a` and from `A`. -/
theorem digitValue?_eq_some_iff :
    digitValue? c = some d ↔ d < 16 ∧ (c = d.digitChar ∨ c = d.digitChar.toUpper) := by
  have hvalue : ∀ d < 16, digitValue? d.digitChar = some d ∧ digitValue? d.digitChar.toUpper = some d := by decide
  have hletter : ∀ n < 128, ∀ d ∈ digitValue? (Char.ofNat n),
      d < 16 ∧ (Char.ofNat n = d.digitChar ∨ Char.ofNat n = d.digitChar.toUpper) := by decide
  constructor
  · intro h
    have hascii : c.toNat < 128 := by
      have hlast (last : Char) (hc : c ≤ last) (hlt : last.toNat < 128) : c.toNat < 128 := Nat.lt_of_le_of_lt hc hlt
      unfold digitValue? at h
      split at h
      · next hc => exact hlast '9' hc.2 (by decide)
      split at h
      · next hc => exact hlast 'f' hc.2 (by decide)
      split at h
      · next hc => exact hlast 'F' hc.2 (by decide)
      · cases h
    have hdigit := hletter c.toNat hascii d
    rw [Char.ofNat_toNat] at hdigit
    exact hdigit h
  · rintro ⟨hd, rfl | rfl⟩
    · exact (hvalue d hd).1
    · exact (hvalue d hd).2

theorem digit?_eq_some_iff : base.digit? c = some d ↔ base.Digit c d := by
  rw [digit?, Option.filter_eq_some_iff, decide_eq_true_iff, digitValue?_eq_some_iff, Digit]
  have hsize : d < base.size → d < 16 := fun h => Nat.lt_of_lt_of_le h base.size_le
  tauto

theorem denotes_nil : base.Denotes [] n ↔ n = 0 := by
  constructor
  · rintro ⟨ds, hds, rfl⟩
    obtain rfl := List.forall₂_nil_left_iff.1 hds
    rfl
  · rintro rfl
    exact ⟨[], .nil, rfl⟩

theorem denotes_concat : base.Denotes (digits ++ [c]) n ↔
    ∃ m d, base.Denotes digits m ∧ base.Digit c d ∧ n = m * base.size + d := by
  have hvalue (d : Nat) (ds : List Nat) :
      Nat.ofDigits base.size (d :: ds) = Nat.ofDigits base.size ds * base.size + d := by
    rw [Nat.ofDigits_cons, Nat.add_comm, Nat.mul_comm]
  constructor
  · rintro ⟨ds, hds, rfl⟩
    rw [List.reverse_concat] at hds
    obtain ⟨d, ds, hd, hdigits, rfl⟩ := List.forall₂_cons_left_iff.1 hds
    exact ⟨Nat.ofDigits base.size ds, d, ⟨ds, hdigits, rfl⟩, hd, hvalue d ds⟩
  · rintro ⟨m, d, ⟨ds, hds, rfl⟩, hd, rfl⟩
    refine ⟨d :: ds, ?_, hvalue d ds⟩
    rw [List.reverse_concat]
    exact .cons hd hds

/-- Digits have one value. -/
theorem Denotes.unique (h : base.Denotes digits m) (h' : base.Denotes digits n) : m = n := by
  obtain ⟨ds, hds, rfl⟩ := h
  obtain ⟨ds', hds', rfl⟩ := h'
  have hdigit : Relator.RightUnique base.Digit := fun c d d' hd hd' =>
    Option.some.inj ((digit?_eq_some_iff.2 hd).symm.trans (digit?_eq_some_iff.2 hd'))
  rw [List.right_unique_forall₂' hdigit hds hds']

end Base

variable {base : Base} {value offset n k start : Nat} {digits run : List Char} {c : Char} {e : SyntaxError}

theorem valueOf_concat : valueOf base value offset (digits ++ [c]) = .ok n ↔
    ∃ m d, valueOf base value offset digits = .ok m ∧ base.Digit c d ∧ n = m * base.size + d ∧ n ≤ greatest := by
  induction digits generalizing value offset with
  | nil =>
    simp only [List.nil_append, valueOf, ← Base.digit?_eq_some_iff]
    cases base.digit? c with
    | none => simp
    | some d =>
      simp only [Except.ok.injEq, Option.some.injEq, exists_eq_left', exists_and_left]
      split
      · next hle =>
        rw [Except.ok.injEq]
        exact ⟨fun h => ⟨h.symm, h ▸ hle⟩, fun h => h.1.symm⟩
      · next hlt =>
        constructor
        · intro h
          cases h
        · intro h
          exact absurd (h.1 ▸ h.2) hlt
  | cons x digits ih =>
    simp only [List.cons_append, valueOf]
    cases base.digit? x with
    | none => simp
    | some d =>
      dsimp only
      split
      · exact ih
      · simp

/-- **Digits are read exactly if their value is not too great**, and this is their
value. -/
theorem valueOf_eq_ok_iff : valueOf base 0 offset digits = .ok n ↔ base.Denotes digits n ∧ n ≤ greatest := by
  induction digits using List.reverseRecOn generalizing n with
  | nil =>
    rw [valueOf, Except.ok.injEq, Base.denotes_nil]
    exact ⟨fun h => ⟨h.symm, h ▸ Nat.zero_le _⟩, fun h => h.1.symm⟩
  | append_singleton digits c ih =>
    rw [valueOf_concat, Base.denotes_concat]
    constructor
    · rintro ⟨m, d, hm, hd, rfl, hle⟩
      exact ⟨⟨m, d, (ih.1 hm).1, hd, rfl⟩, hle⟩
    · rintro ⟨⟨m, d, hm, hd, rfl⟩, hle⟩
      have hprefix : m ≤ m * base.size + d :=
        Nat.le_trans (Nat.le_mul_of_pos_right m base.size_pos) (Nat.le_add_right _ d)
      exact ⟨m, d, ih.2 ⟨hm, Nat.le_trans hprefix hle⟩, hd, rfl, hle⟩

/-- The symbol that is blamed comes after digits that can be read. -/
theorem exists_blamed (h : valueOf base value offset digits = .error e) :
    ∃ left c right m, digits = left ++ c :: right ∧ valueOf base value offset left = .ok m ∧
      (∀ d, base.Digit c d → greatest < m * base.size + d) ∧ e = ⟨base.fault, offset + left.length⟩ := by
  induction digits generalizing value offset with
  | nil => cases h
  | cons c digits ih =>
    rw [valueOf] at h
    cases hd : base.digit? c with
    | none =>
      rw [hd] at h
      refine ⟨[], c, digits, value, rfl, rfl, fun d hdigit => ?_, (Except.error.inj h).symm⟩
      rw [← Base.digit?_eq_some_iff, hd] at hdigit
      cases hdigit
    | some d =>
      rw [hd] at h
      dsimp only at h
      split at h
      · next hle =>
        obtain ⟨left, c', right, m, rfl, hm, hc', rfl⟩ := ih h
        refine ⟨c :: left, c', right, m, rfl, ?_, hc', ?_⟩
        · rw [valueOf, hd]
          exact (if_pos hle).trans hm
        · rw [List.length_cons, Nat.add_right_comm, Nat.add_assoc]
      · next hlt =>
        refine ⟨[], c, digits, value, rfl, rfl, fun d' hdigit => ?_, (Except.error.inj h).symm⟩
        rw [← Base.digit?_eq_some_iff, hd] at hdigit
        obtain rfl := Option.some.inj hdigit
        exact Nat.lt_of_not_le hlt

/-- What digits that can be read start with can be read. -/
theorem exists_valueOf_of_append {right : List Char} (h : valueOf base value offset (digits ++ right) = .ok n) :
    ∃ m, valueOf base value offset digits = .ok m := by
  induction right using List.reverseRecOn generalizing n with
  | nil => exact ⟨n, by rwa [List.append_nil] at h⟩
  | append_singleton right c ih =>
    rw [← List.append_assoc] at h
    obtain ⟨m, -, hm, -⟩ := valueOf_concat.1 h
    exact ih hm

/-- Digits that can be read are not spoilt, whatever comes after them. -/
theorem not_spoils_of_valueOf (h : valueOf base 0 offset digits = .ok n) (hk : k < digits.length)
    (more : List Char) : ¬ base.Spoils (digits ++ more) k := by
  rintro ⟨c, hc, hspoilt⟩
  rw [List.getElem?_append_left hk] at hc
  have htake : digits.take (k + 1) = digits.take k ++ [c] := by
    rw [List.take_add_one, hc]
    rfl
  rw [List.take_append_of_le_length hk] at hspoilt
  rw [← List.take_append_drop (k + 1) digits] at h
  obtain ⟨m, hm⟩ := exists_valueOf_of_append h
  rcases hspoilt with hnone | ⟨m', hm', hlarge⟩
  · rw [htake, valueOf_concat] at hm
    obtain ⟨-, d, -, hd, -⟩ := hm
    exact hnone d hd
  · obtain ⟨hdenotes, hle⟩ := valueOf_eq_ok_iff.1 hm
    rw [hdenotes.unique hm'] at hle
    exact Nat.not_le_of_lt hlarge hle

/-- **Digits that cannot be read are blamed on the first symbol that spoils them.** -/
theorem valueOf_eq_error_iff : valueOf base 0 offset digits = .error e ↔
    ∃ k, base.SpoiltAt digits k ∧ e = ⟨base.fault, offset + k⟩ := by
  have hblamed {e : SyntaxError} (h : valueOf base 0 offset digits = .error e) :
      ∃ k, base.SpoiltAt digits k ∧ e = ⟨base.fault, offset + k⟩ := by
    obtain ⟨left, c, right, m, rfl, hm, hc, rfl⟩ := exists_blamed h
    refine ⟨left.length, ⟨⟨c, by simp, ?_⟩, fun j hj => not_spoils_of_valueOf hm hj _⟩, rfl⟩
    by_cases hdigit : ∃ d, base.Digit c d
    · obtain ⟨d, hd⟩ := hdigit
      have htake : (left ++ c :: right).take (left.length + 1) = left ++ [c] := by
        rw [List.take_length_add_append]
        rfl
      rw [htake]
      exact .inr ⟨_, Base.denotes_concat.2 ⟨m, d, (valueOf_eq_ok_iff.1 hm).1, hd, rfl⟩, hc d hd⟩
    · exact .inl (not_exists.1 hdigit)
  refine ⟨hblamed, ?_⟩
  rintro ⟨k, ⟨hspoils, hfirst⟩, rfl⟩
  cases h : valueOf base 0 offset digits with
  | ok n =>
    obtain ⟨c, hc, -⟩ := id hspoils
    have hsound := not_spoils_of_valueOf h (List.getElem?_eq_some_iff.1 hc).1 []
    rw [List.append_nil] at hsound
    exact absurd hspoils hsound
  | error e =>
    obtain ⟨k', ⟨hspoils', hfirst'⟩, rfl⟩ := hblamed h
    have hlt : ¬ k < k' := fun h => hfirst' k h hspoils
    have hlt' : ¬ k' < k := fun h => hfirst k' h hspoils'
    obtain rfl : k = k' := by omega
    rfl

/-! ## Blanks and marks -/

/-- What is left of a run, from `start` on, without the blanks at its two ends. In a run
of blanks this is nothing, at its end. -/
structure Strips (run : List Char) (start : Nat) (core : List Char) : Prop where
  lies : ∃ left right, run = left ++ core ++ right ∧ left.length = start ∧ (core = [] → right = []) ∧
    (∀ c ∈ left, isBlank c = true) ∧ ∀ c ∈ right, isBlank c = true
  first : ∀ c ∈ core.head?, isBlank c = false
  last : ∀ c ∈ core.getLast?, isBlank c = false

/-- The digits of a number start at `start`: they are what is left without the blanks,
unless there is a mark, after which more blanks may come. -/
inductive Layout (run : List Char) : Base → Nat → List Char → Prop
  | decimal {start : Nat} {digits : List Char} (strips : Strips run start digits)
      (plain : ∀ mark rest, digits = '0' :: mark :: rest → mark ≠ 'x' ∧ mark ≠ 'X') :
      Layout run .decimal start digits
  | hexadecimal {start : Nat} {mark : Char} {gap digits : List Char}
      (strips : Strips run start ('0' :: mark :: (gap ++ digits))) (hmark : mark = 'x' ∨ mark = 'X')
      (blank : ∀ c ∈ gap, isBlank c = true) (first : ∀ c ∈ digits.head?, isBlank c = false) :
      Layout run .hexadecimal (start + 2 + gap.length) digits

theorem Strips.trim_eq {core : List Char} (h : Strips run start core) :
    trim run = core ∧ leadingBlanks run = start := by
  obtain ⟨⟨left, right, rfl, rfl, hnil, hleft, hright⟩, hfirst, hlast⟩ := h
  rw [trim, leadingBlanks, List.append_assoc]
  have hhead : ∀ c ∈ (core ++ right).head?, isBlank c = false := by
    cases core with
    | nil =>
      rw [hnil rfl]
      intro c hc
      cases hc
    | cons c core => exact hfirst
  obtain ⟨htake, hdrop⟩ := parts_of_head? hleft hhead
  have hend : (right.reverse ++ core.reverse).dropWhile isBlank = core.reverse :=
    (parts_of_head? (by simpa using hright) (by rwa [List.head?_reverse])).2
  rw [hdrop, htake, List.reverse_append, hend, List.reverse_reverse]
  exact ⟨rfl, rfl⟩

/-- A run with no blank at either end is left as it is. -/
theorem strips_self (first : ∀ c ∈ run.head?, isBlank c = false) (last : ∀ c ∈ run.getLast?, isBlank c = false) :
    Strips run 0 run :=
  ⟨⟨[], [], by simp, rfl, fun _ => rfl, nofun, nofun⟩, first, last⟩

/-- Any run can be stripped of its blanks. -/
theorem strips_trim (run : List Char) : Strips run (leadingBlanks run) (trim run) := by
  have hhead : ∀ c ∈ (run.dropWhile isBlank).head?, isBlank c = false := fun c hc => by
    have hnot := List.head?_dropWhile_not isBlank run
    rw [Option.mem_def.1 hc] at hnot
    simpa using hnot
  have hbody : trim run ++ (run.dropWhile isBlank).rtakeWhile isBlank = run.dropWhile isBlank :=
    List.rdropWhile_append_rtakeWhile ..
  refine ⟨⟨run.takeWhile isBlank, (run.dropWhile isBlank).rtakeWhile isBlank, ?_, rfl, fun hnil => ?_,
    fun c hc => List.mem_takeWhile_imp hc, fun c hc => List.mem_rtakeWhile_imp hc⟩, fun c hc => ?_, fun c hc => ?_⟩
  · rw [List.append_assoc, hbody, List.takeWhile_append_dropWhile]
  · -- What is left after the blanks at the left starts with no blank, so it is empty.
    have hall : ∀ c ∈ run.dropWhile isBlank, isBlank c = true := List.rdropWhile_eq_nil_iff.1 hnil
    cases hdrop : run.dropWhile isBlank with
    | nil => rfl
    | cons c rest =>
      rw [hdrop] at hhead hall
      exact absurd ((hall c List.mem_cons_self).symm.trans (hhead c rfl)) (by decide)
  · refine hhead c ?_
    rw [← hbody, List.head?_append, Option.mem_def.1 hc]
    rfl
  · obtain ⟨hne, rfl⟩ := List.mem_getLast?_eq_getLast hc
    exact Bool.eq_false_iff.2 (List.rdropWhile_last_not isBlank (run.dropWhile isBlank) hne)

theorem afterHexMark?_eq_some_iff {text : List Char} : afterHexMark? text = some digits ↔
    ∃ mark, (mark = 'x' ∨ mark = 'X') ∧ text = '0' :: mark :: digits := by
  refine ⟨afterHexMark?_eq_some, ?_⟩
  rintro ⟨mark, hmark, rfl⟩
  exact if_pos ⟨rfl, hmark⟩

/-- Any run can be taken for a number, whatever its digits are. -/
theorem exists_layout (run : List Char) : ∃ base start digits, Layout run base start digits := by
  have hstrips := strips_trim run
  cases hmark : afterHexMark? (trim run) with
  | none =>
    refine ⟨_, _, _, .decimal hstrips fun mark rest htrim => not_or.1 fun hx => ?_⟩
    cases hmark.symm.trans (afterHexMark?_eq_some_iff.2 ⟨mark, hx, htrim⟩)
  | some rest =>
    obtain ⟨mark, hx, htrim⟩ := afterHexMark?_eq_some_iff.1 hmark
    rw [htrim, ← List.takeWhile_append_dropWhile (p := isBlank) (l := rest)] at hstrips
    refine ⟨_, _, _, .hexadecimal hstrips hx (fun c hc => List.mem_takeWhile_imp hc) fun c hc => ?_⟩
    have hnot := List.head?_dropWhile_not isBlank rest
    rw [Option.mem_def.1 hc] at hnot
    simpa using hnot

theorem readIn_of_strips (h : Strips run start digits) (base : Base) (offset : Nat) :
    readIn base offset run = if digits = [] then .error ⟨base.fault, offset + start⟩
      else valueOf base 0 (offset + start) digits := by
  obtain ⟨htrim, hblanks⟩ := h.trim_eq
  rw [readIn, htrim, hblanks]
  cases digits <;> rfl

/-- **Reading a number is reading its digits**, if there are any. -/
theorem Layout.read_eq (h : Layout run base start digits) (offset : Nat) :
    read offset run = if digits = [] then .error ⟨base.fault, offset + start⟩
      else valueOf base 0 (offset + start) digits := by
  cases h with
  | decimal hstrips hplain =>
    have hmark : afterHexMark? digits = none := by
      cases hmark : afterHexMark? digits with
      | none => rfl
      | some rest =>
        obtain ⟨mark, hx, rfl⟩ := afterHexMark?_eq_some_iff.1 hmark
        obtain ⟨hne, hne'⟩ := hplain mark rest rfl
        exact absurd hx (not_or.2 ⟨hne, hne'⟩)
    rw [read, hstrips.trim_eq.1, hmark]
    exact readIn_of_strips hstrips .decimal offset
  | @hexadecimal start mark gap _ hstrips hmark hblank hfirst =>
    obtain ⟨htrim, hblanks⟩ := hstrips.trim_eq
    -- Blanks at the right have been taken off with those around the whole number.
    have hdigits : Strips (gap ++ digits) gap.length digits := by
      refine ⟨⟨gap, [], (List.append_nil _).symm, rfl, fun _ => rfl, hblank, nofun⟩, hfirst, fun c hc => ?_⟩
      refine hstrips.last c ?_
      have hne : digits ≠ [] := by
        rintro rfl
        cases hc
      rw [List.getLast?_cons_cons, List.getLast?_cons, List.getLast?_append_of_ne_nil _ hne,
        Option.mem_def.1 hc]
      rfl
    rw [read, htrim, afterHexMark?_eq_some_iff.2 ⟨mark, hmark, rfl⟩, hblanks]
    show readIn .hexadecimal (offset + start + 2) (gap ++ digits) = _
    rw [readIn_of_strips hdigits]
    have hplace : offset + start + 2 + gap.length = offset + (start + 2 + gap.length) := by omega
    rw [hplace]

theorem Layout.read_eq_ok_iff (h : Layout run base start digits) (offset : Nat) :
    read offset run = .ok n ↔ digits ≠ [] ∧ base.Denotes digits n ∧ n ≤ 2 ^ 32 - 1 := by
  rw [h.read_eq]
  split
  · next hnil => exact ⟨nofun, fun h => absurd hnil h.1⟩
  · next hne =>
    rw [valueOf_eq_ok_iff]
    exact ⟨fun h => ⟨hne, h⟩, fun h => h.2⟩

/-- Whether a run is a number does not depend on where it stands. -/
theorem read_shift (h : read offset run = .ok n) (offset' : Nat) : read offset' run = .ok n := by
  obtain ⟨base, start, digits, hlayout⟩ := exists_layout run
  rw [hlayout.read_eq_ok_iff] at h ⊢
  exact h

theorem Layout.read_eq_error_iff (h : Layout run base start digits) (offset : Nat) :
    read offset run = .error e ↔ e.fault = base.fault ∧
      (digits = [] ∧ e.offset = offset + start ∨ ∃ k, base.SpoiltAt digits k ∧ e.offset = offset + (start + k)) := by
  obtain ⟨fault, place⟩ := e
  rw [h.read_eq]
  split
  · next hnil =>
    subst hnil
    have hnot (k : Nat) : ¬ base.SpoiltAt [] k := fun ⟨⟨c, hc, _⟩, _⟩ => by cases hc
    simp only [hnot, Except.error.injEq, SyntaxError.mk.injEq, true_and, false_and, exists_false, or_false]
    exact ⟨fun h => ⟨h.1.symm, h.2.symm⟩, fun h => ⟨h.1.symm, h.2.symm⟩⟩
  · next hne =>
    rw [valueOf_eq_error_iff]
    simp only [hne, SyntaxError.mk.injEq, false_and, false_or, Nat.add_assoc]
    exact ⟨fun ⟨k, hk, hf, hp⟩ => ⟨hf, k, hk, hp⟩, fun ⟨hf, k, hk, hp⟩ => ⟨k, hk, hf, hp⟩⟩

/-- **A number is read with its exact value, or the symbol at fault is blamed.** -/
theorem read_eq_value_or_blame (offset : Nat) (run : List Char) :
    (∀ n, read offset run = .ok n ↔
      ∃ base start digits, Layout run base start digits ∧
        digits ≠ [] ∧ base.Denotes digits n ∧ n ≤ 2 ^ 32 - 1) ∧
    ∀ e, read offset run = .error e ↔
      ∃ base start digits, Layout run base start digits ∧ e.fault = base.fault ∧
        (digits = [] ∧ e.offset = offset + start ∨
          ∃ k, base.SpoiltAt digits k ∧ e.offset = offset + (start + k)) := by
  obtain ⟨base, start, digits, hlayout⟩ := exists_layout run
  refine ⟨fun n => ⟨fun h => ⟨base, start, digits, hlayout, (hlayout.read_eq_ok_iff offset).1 h⟩, ?_⟩,
    fun e => ⟨fun h => ⟨base, start, digits, hlayout, (hlayout.read_eq_error_iff offset).1 h⟩, ?_⟩⟩
  · rintro ⟨base, start, digits, hlayout, hvalue⟩
    exact (hlayout.read_eq_ok_iff offset).2 hvalue
  · rintro ⟨base, start, digits, hlayout, hblamed⟩
    exact (hlayout.read_eq_error_iff offset).2 hblamed

/-- The last digit makes the value too great. -/
example : read 7 [' ', '4', '2', '9', '4', '9', '6', '7', '2', '9', '6', ' '] = .error ⟨.badDecimalDigit, 17⟩ := by
  decide

end Numeral

end RegexAutomaton
