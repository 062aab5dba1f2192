/-
The grammar of counted repetitions.

Between the braces stands a number, or two counts with a comma between them, each of
which may be left blank and which are in order (`CountsText`). `Repetition.read` accepts
this grammar and nothing else (`read_iff_countsText`). The closing brace is looked
for outside escapes, but what has an escape in it is refused, so for what is accepted
it is the first brace there is.
-/
import RegexAutomaton.Proofs.NumberGrammar

namespace RegexAutomaton

/-! ## Symbols outside escapes -/

namespace Escape

/-- The text can be cut into symbols and escapes, each escape taken to be two symbols. -/
inductive Whole : List Char → Prop
  | nil : Whole []
  | symbol {c : Char} {rest : List Char} (hc : c ≠ backslash) (h : Whole rest) : Whole (c :: rest)
  | escape {c : Char} {rest : List Char} (h : Whole rest) : Whole (backslash :: c :: rest)

variable {target : Char} {text : List Char}

theorem exists_whole_of_indexOf? (h : (indexOf? target text).isSome = true) :
    ∃ before after, text = before ++ target :: after ∧ Whole before := by
  induction text using indexOf?.induct target with
  | case1 => cases h
  | case2 rest => exact ⟨[], rest, rfl, .nil⟩
  | case3 hne =>
    rw [indexOf?.eq_def] at h
    simp [if_neg hne] at h
  | case4 c rest hne ih =>
    rw [indexOf?_escaped hne, Option.isSome_map] at h
    obtain ⟨before, after, rfl, hbefore⟩ := ih h
    exact ⟨backslash :: c :: before, after, rfl, .escape hbefore⟩
  | case5 c rest hne hb ih =>
    rw [indexOf?_cons rest hne hb, Option.isSome_map] at h
    obtain ⟨before, after, rfl, hbefore⟩ := ih h
    exact ⟨c :: before, after, rfl, .symbol hb hbefore⟩

theorem Whole.indexOf? {before : List Char} (h : Whole before) (ht : backslash ≠ target) (after : List Char) :
    (indexOf? target (before ++ target :: after)).isSome = true := by
  induction h with
  | nil => rw [List.nil_append, indexOf?_self]; rfl
  | @symbol c rest hb _ ih =>
    by_cases hc : c = target
    · rw [hc, List.cons_append, indexOf?_self]
      rfl
    · rwa [List.cons_append, indexOf?_cons _ hc hb, Option.isSome_map]
  | escape _ ih => rwa [List.cons_append, List.cons_append, indexOf?_escaped ht, Option.isSome_map]

/-- A symbol is not found if and only if it stands nowhere outside escapes. -/
theorem indexOf?_eq_none_iff (ht : backslash ≠ target) :
    indexOf? target text = none ↔ ∀ before after, text = before ++ target :: after → ¬ Whole before := by
  rw [← Option.not_isSome_iff_eq_none]
  constructor
  · rintro h before after rfl hbefore
    exact h (hbefore.indexOf? ht after)
  · intro h hsome
    obtain ⟨before, after, htext, hbefore⟩ := exists_whole_of_indexOf? hsome
    exact h before after htext hbefore

end Escape

namespace Repetition

variable {offset width n : Nat} {run left right body rest : List Char} {count : Option Nat} {r : Repetition}

/-! ## The grammar -/

/-- A count that may be left out: nothing but blanks, or a number. -/
inductive CountText : List Char → Option Nat → Prop
  | blank {run : List Char} (h : ∀ c ∈ run, Numeral.isBlank c = true) : CountText run none
  | number {run : List Char} {offset n : Nat} (h : Numeral.read offset run = .ok n) : CountText run (some n)

/-- What stands between the braces: an exact count, or two counts at the sides of the
first comma, which are in order if neither is left out. -/
inductive CountsText : List Char → Repetition → Prop
  | exact {body : List Char} {offset n : Nat} (plain : ',' ∉ body) (h : Numeral.read offset body = .ok n) :
      CountsText body ⟨n, some n⟩
  | between {left right : List Char} {least most : Option Nat} (plain : ',' ∉ left) (low : CountText left least)
      (high : CountText right most) (ordered : ∀ m n, least = some m → most = some n → m ≤ n) :
      CountsText (left ++ ',' :: right) ⟨least.getD 0, most⟩

theorem read_blank (h : ∀ c ∈ run, Numeral.isBlank c = true) (offset n : Nat) : Numeral.read offset run ≠ .ok n := by
  intro hread
  have hstrips : Numeral.Strips run run.length [] := ⟨⟨run, [], by simp, rfl, fun _ => rfl, h, nofun⟩, nofun, nofun⟩
  exact ((Numeral.Layout.decimal hstrips nofun).read_eq_ok_iff offset |>.1 hread).1 rfl

/-- Nothing but digits, blanks and a mark stands in a count. -/
theorem CountText.mayHold (h : CountText run count) : ∀ c ∈ run, Numeral.MayHold c := by
  cases h with
  | blank hblank => exact fun c hc => .inl (hblank c hc)
  | number hnumber => exact Numeral.mayHold_of_read hnumber

/-- Nothing but counts and commas stands between the braces. -/
theorem CountsText.mayHold (h : CountsText body r) : ∀ c ∈ body, c = ',' ∨ Numeral.MayHold c := by
  cases h with
  | exact _ hnumber => exact fun c hc => .inr (Numeral.mayHold_of_read hnumber c hc)
  | between _ hlow hhigh _ =>
    refine List.forall_mem_append.2 ⟨fun c hc => .inr (hlow.mayHold c hc), ?_⟩
    exact List.forall_mem_cons.2 ⟨.inl rfl, fun c hc => .inr (hhigh.mayHold c hc)⟩

/-- Nor is anything there a brace or the start of an escape. -/
theorem CountsText.plain (h : CountsText body r) : ∀ c ∈ body, c ≠ '}' ∧ c ≠ Escape.backslash := by
  intro c hc
  rcases h.mayHold c hc with rfl | hc
  · decide
  · exact ⟨hc.ne (by decide), hc.ne (by decide)⟩

/-! ## Reading counts -/

theorem readCount?_eq_ok_iff : readCount? offset run = .ok count ↔ CountText run count := by
  unfold readCount?
  split
  · next hblank =>
    have hrun := List.all_eq_true.1 hblank
    constructor
    · rintro ⟨⟩
      exact .blank hrun
    · rintro (_ | h)
      · rfl
      · exact absurd h (read_blank hrun _ _)
  · next hblank =>
    rw [map_eq_ok_iff]
    constructor
    · rintro ⟨n, h, rfl⟩
      exact .number h
    · rintro (hrun | h)
      · exact absurd (List.all_eq_true.2 hrun) hblank
      · exact ⟨_, Numeral.read_shift h offset, rfl⟩

theorem readCounts_plain (hplain : ',' ∉ body) (offset : Nat) :
    readCounts offset body = (Numeral.read (offset + 1) body).map fun n => ⟨n, some n⟩ := by
  have hdrop : body.dropWhile (· ≠ ',') = [] := by
    refine List.dropWhile_eq_nil_iff.2 fun c hc => decide_eq_true ?_
    rintro rfl
    exact hplain hc
  unfold readCounts
  simp only [hdrop]

theorem readCounts_comma (hplain : ',' ∉ left) (right : List Char) (offset : Nat) :
    readCounts offset (left ++ ',' :: right) =
      (readCount? (offset + 1) left >>= fun least =>
        readCount? (offset + 1 + left.length + 1) right >>= fun most =>
          between (least.getD 0) most offset) := by
  have hleft : ∀ c ∈ left, decide (c ≠ ',') = true := by
    refine fun c hc => decide_eq_true ?_
    rintro rfl
    exact hplain hc
  have hright : ∀ c ∈ (',' :: right).head?, decide (c ≠ ',') = false := by simp
  obtain ⟨htake, hdrop⟩ := parts_of_head? hleft hright
  unfold readCounts
  simp only [htake, hdrop]

/-- Any text has no comma, or is cut at its first comma. -/
theorem plain_or_comma (body : List Char) :
    ',' ∉ body ∨ ∃ left right, ',' ∉ left ∧ body = left ++ ',' :: right := by
  by_cases h : ',' ∈ body
  · obtain ⟨left, right, rfl, hleft⟩ := List.eq_append_cons_of_mem h
    exact .inr ⟨left, right, hleft, rfl⟩
  · exact .inl h

theorem between_eq_ok_iff {least : Nat} {most : Option Nat} :
    between least most offset = .ok r ↔ (∀ n, most = some n → least ≤ n) ∧ r = ⟨least, most⟩ := by
  unfold between
  cases most with
  | none => simp [eq_comm]
  | some n =>
    by_cases h : n < least
    · simp [h]
    · simp [h, Nat.le_of_not_lt h, eq_comm]

/-- **What stands between the braces is read exactly if the grammar allows it.** -/
theorem readCounts_eq_ok_iff : readCounts offset body = .ok r ↔ CountsText body r := by
  constructor
  · intro h
    rcases plain_or_comma body with hplain | ⟨left, right, hplain, rfl⟩
    · rw [readCounts_plain hplain] at h
      obtain ⟨n, hn, rfl⟩ := map_eq_ok_iff.1 h
      exact .exact hplain hn
    · rw [readCounts_comma hplain] at h
      obtain ⟨least, hleast, h⟩ := bind_eq_ok_iff.1 h
      obtain ⟨most, hmost, h⟩ := bind_eq_ok_iff.1 h
      obtain ⟨hordered, rfl⟩ := between_eq_ok_iff.1 h
      refine .between hplain (readCount?_eq_ok_iff.1 hleast) (readCount?_eq_ok_iff.1 hmost) ?_
      rintro m n rfl hn
      exact hordered n hn
  · rintro (⟨hplain, hn⟩ | @⟨left, right, least, most, hplain, hlow, hhigh, hordered⟩)
    · rw [readCounts_plain hplain, Numeral.read_shift hn]
      rfl
    · rw [readCounts_comma hplain, readCount?_eq_ok_iff.2 hlow]
      refine bind_eq_ok_iff.2 ⟨_, rfl, bind_eq_ok_iff.2 ⟨_, readCount?_eq_ok_iff.2 hhigh, ?_⟩⟩
      refine between_eq_ok_iff.2 ⟨fun n hn => ?_, rfl⟩
      cases least with
      | none => exact Nat.zero_le n
      | some m => exact hordered m n rfl hn

theorem eq_of_between_error {least : Nat} {most : Option Nat} {e : SyntaxError}
    (h : between least most offset = .error e) : e = ⟨.invertedRepeat, offset⟩ := by
  unfold between at h
  split at h
  · cases h
  · split at h
    · exact (Except.error.inj h).symm
    · cases h

/-- What is wrong between the braces is wrong with one of the numbers there, unless the
counts are the wrong way round. -/
theorem exists_of_readCounts_error {e : SyntaxError} (h : readCounts offset body = .error e) :
    e = ⟨.invertedRepeat, offset⟩ ∨ ∃ before run after, body = before ++ run ++ after ∧
      Numeral.read (offset + 1 + before.length) run = .error e := by
  have hcount {offset : Nat} {run : List Char} (h : readCount? offset run = .error e) :
      Numeral.read offset run = .error e := by
    unfold readCount? at h
    split at h
    · cases h
    · exact map_eq_error_iff.1 h
  rcases plain_or_comma body with hplain | ⟨left, right, hplain, rfl⟩
  · rw [readCounts_plain hplain] at h
    exact .inr ⟨[], body, [], by simp, map_eq_error_iff.1 h⟩
  · rw [readCounts_comma hplain] at h
    rcases bind_eq_error_iff.1 h with hleft | ⟨least, -, h⟩
    · exact .inr ⟨[], left, ',' :: right, by simp, hcount hleft⟩
    rcases bind_eq_error_iff.1 h with hright | ⟨most, -, h⟩
    · refine .inr ⟨left ++ [','], right, [], by simp, ?_⟩
      rw [List.length_append, List.length_singleton, ← Nat.add_assoc]
      exact hcount hright
    · exact .inl (eq_of_between_error h)

/-- What is wrong between the braces is not that they are left open. -/
theorem fault_of_readCounts {e : SyntaxError} (h : readCounts offset body = .error e) : e.fault ≠ .unclosedRepeat := by
  rcases exists_of_readCounts_error h with rfl | ⟨before, run, after, -, hread⟩
  · exact nofun
  · obtain ⟨base, start, digits, hlayout⟩ := Numeral.exists_layout run
    obtain ⟨hfault, -⟩ := (hlayout.read_eq_error_iff _).1 hread
    rw [hfault]
    cases base <;> decide

theorem read_eq_ok_iff : read offset rest = .ok (r, width) ↔
    ∃ body more, rest = body ++ '}' :: more ∧ CountsText body r ∧ width = body.length + 2 := by
  constructor
  · intro h
    unfold read at h
    split at h
    · cases h
    next close hclose =>
    obtain ⟨body, more, rfl, rfl⟩ := Escape.indexOf?_eq_some hclose
    obtain ⟨r', hcounts, heq⟩ := map_eq_ok_iff.1 h
    obtain ⟨rfl, rfl⟩ := Prod.mk.inj heq
    rw [List.take_left' rfl, readCounts_eq_ok_iff] at hcounts
    exact ⟨body, more, rfl, hcounts, rfl⟩
  · rintro ⟨body, more, rfl, hcounts, rfl⟩
    have hindex : Escape.indexOf? '}' (body ++ '}' :: more) = some body.length := by
      rw [Escape.indexOf?_append _ hcounts.plain, Escape.indexOf?_self, Option.map_some, Nat.zero_add]
    rw [read, hindex]
    exact map_eq_ok_iff.2 ⟨r, by rw [List.take_left' rfl, readCounts_eq_ok_iff.2 hcounts], rfl⟩

/-- A repetition is open at its end only if no brace outside escapes closes it. -/
theorem read_eq_unclosed_iff : read offset rest = .error ⟨.unclosedRepeat, offset⟩ ↔
    ∀ before after, rest = before ++ '}' :: after → ¬ Escape.Whole before := by
  rw [← Escape.indexOf?_eq_none_iff (by decide)]
  unfold read
  split
  · next hnone => simp [hnone]
  · next close hclose =>
    simp only [hclose, map_eq_error_iff, reduceCtorEq, iff_false]
    exact fun h => fault_of_readCounts h rfl

/-- **A counted repetition is read exactly if the grammar allows what stands before the
first closing brace**, and ends there. It is left open exactly if every closing brace
stands in an escape. -/
theorem read_iff_countsText (offset : Nat) (rest : List Char) :
    (∀ r width, read offset rest = .ok (r, width) ↔
      ∃ body more, rest = body ++ '}' :: more ∧ '}' ∉ body ∧ CountsText body r ∧ width = body.length + 2) ∧
    (read offset rest = .error ⟨.unclosedRepeat, offset⟩ ↔
      ∀ before after, rest = before ++ '}' :: after → ¬ Escape.Whole before) := by
  refine ⟨fun r width => ?_, read_eq_unclosed_iff⟩
  rw [read_eq_ok_iff]
  constructor
  · rintro ⟨body, more, hrest, hcounts, hwidth⟩
    exact ⟨body, more, hrest, fun hmem => (hcounts.plain _ hmem).1 rfl, hcounts, hwidth⟩
  · rintro ⟨body, more, hrest, -, hcounts, hwidth⟩
    exact ⟨body, more, hrest, hcounts, hwidth⟩

/-- The first comma separates the counts, either of which may be left blank. -/
example : read 0 ['0', 'x', '1', 'F', ',', ' ', '}', '}'] = .ok (⟨31, none⟩, 8) := by decide

end Repetition

end RegexAutomaton
