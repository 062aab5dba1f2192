/-
Where reading fails, and when it fails for good.

An escape, a bracket or a counted repetition that cannot be read is blamed on one of
its own symbols, and so is a token (`Token.read_error`). Unless the fault is only
that its end is missing, it stays the same whatever follows.
-/
import RegexAutomaton.Proofs.Locality

namespace RegexAutomaton

/-- Whether the fault is that the end of something is missing, which more text may
bring. -/
def Fault.isUnfinished : Fault → Bool
  | danglingEscape | shortByteEscape | shortWideEscape | unclosedBracket | unclosedRepeat | unclosedGroup => true
  | _ => false

namespace SyntaxError

/-- The error lies at the offset `first` or after it, and before `last`. -/
def Within (e : SyntaxError) (first last : Nat) : Prop := first ≤ e.offset ∧ e.offset < last

theorem within_first (fault : Fault) {first last : Nat} (h : first < last) : Within ⟨fault, first⟩ first last :=
  ⟨Nat.le_refl first, h⟩

theorem Within.mono {e : SyntaxError} {first last first' last' : Nat} (h : e.Within first last)
    (hfirst : first' ≤ first) (hlast : last ≤ last') : e.Within first' last' :=
  ⟨Nat.le_trans hfirst h.1, Nat.lt_of_lt_of_le h.2 hlast⟩

end SyntaxError

/-! ## Scans of longer texts -/

namespace Reader

variable {α ε : Type} {read : Reader α ε} {offset : Nat} {text : List Char}

/-- What can be read is read in the same way whatever follows. -/
def Settles (read : Reader α ε) : Prop :=
  ∀ ⦃offset : Nat⦄ ⦃c : Char⦄ ⦃rest : List Char⦄ ⦃value : α⦄ ⦃width : Nat⦄,
    read offset c rest = .ok (value, width) → ∀ more, read offset c (rest ++ more) = .ok (value, width)

/-- The pieces of a text are the first ones of a longer text. -/
theorem exists_pieces_append (fits : read.Fits) (settles : read.Settles) (offset : Nat) (text more : List Char) :
    ∃ later, (read.scanFrom 0 offset (text ++ more)).pieces = (read.scanFrom 0 offset text).pieces ++ later := by
  induction offset, text using induction_scan fits with
  | nil offset => exact ⟨_, rfl⟩
  | stop offset c rest reason hread =>
    rw [scanFrom_error _ hread]
    exact ⟨_, rfl⟩
  | step offset c rest value width hread ih =>
    obtain ⟨later, hlater⟩ := ih
    rw [List.cons_append, scanFrom_step fits hread, scanFrom_step fits (settles hread more),
      drop_cons_append (fits hread).2]
    exact ⟨later, by simp only [hlater, List.cons_append]⟩

/-- Where reading ends for a reason that more text does not remove, a longer text is
read no further. -/
theorem scanFrom_append_of_reason (fits : read.Fits) (settles : read.Settles) {reason : ε} {more : List Char}
    (hreason : (read.scanFrom 0 offset text).reason = some reason)
    (hstays : ∀ offset c rest, read offset c rest = .error reason → read offset c (rest ++ more) = .error reason) :
    read.scanFrom 0 offset (text ++ more) = read.scanFrom 0 offset text := by
  induction offset, text using induction_scan fits with
  | nil offset => cases hreason
  | stop offset c rest reason' hread =>
    rw [scanFrom_error _ hread] at hreason ⊢
    obtain rfl := Option.some.inj hreason
    exact scanFrom_error _ (hstays offset c rest hread)
  | step offset c rest value width hread ih =>
    rw [scanFrom_step fits hread] at hreason
    rw [List.cons_append, scanFrom_step fits hread, scanFrom_step fits (settles hread more),
      drop_cons_append (fits hread).2, ih hreason]

/-- The reason for which a scan ends is found where it ends. -/
theorem exists_of_reason (fits : read.Fits) {reason : ε}
    (hreason : (read.scanFrom 0 offset text).reason = some reason) :
    ∃ left c rest, text = left ++ c :: rest ∧ read (offset + left.length) c rest = .error reason := by
  induction offset, text using induction_scan fits with
  | nil offset => cases hreason
  | stop offset c rest reason' hread =>
    rw [scanFrom_error _ hread] at hreason
    obtain rfl := Option.some.inj hreason
    exact ⟨[], c, rest, rfl, hread⟩
  | step offset c rest value width hread ih =>
    rw [scanFrom_step fits hread] at hreason
    obtain ⟨left, c', rest', htext, hread'⟩ := ih hreason
    have hlen : ((c :: rest).take width).length = width :=
      List.length_take_of_le (by simpa using (fits hread).2)
    refine ⟨(c :: rest).take width ++ left, c', rest', ?_, ?_⟩
    · rw [List.append_assoc, ← htext, List.take_append_drop]
    · rwa [List.length_append, hlen, ← Nat.add_assoc]

end Reader

/-! ## Numbers -/

namespace Numeral

variable {base : Base} {value offset : Nat} {run : List Char} {e : SyntaxError}

theorem within_of_valueOf (h : valueOf base value offset run = .error e) : e.Within offset (offset + run.length) := by
  obtain ⟨left, c, right, m, rfl, -, -, rfl⟩ := exists_blamed h
  exact ⟨Nat.le_add_right .., by simp⟩

/-- The digits of a number lie in its run. -/
theorem Layout.le {start : Nat} {digits : List Char} (h : Layout run base start digits) :
    start + digits.length ≤ run.length := by
  have strips {start : Nat} {core : List Char} (h : Strips run start core) : start + core.length ≤ run.length := by
    obtain ⟨left, right, rfl, rfl, -⟩ := h.lies
    simp only [List.length_append]
    omega
  cases h with
  | decimal hstrips => exact strips hstrips
  | hexadecimal hstrips =>
    have hle := strips hstrips
    simp only [List.length_cons, List.length_append] at hle
    omega

theorem within_of_read (h : read offset run = .error e) : e.Within offset (offset + run.length + 1) := by
  obtain ⟨base, start, digits, hlayout⟩ := exists_layout run
  have hle := hlayout.le
  obtain ⟨-, ⟨-, hplace⟩ | ⟨k, ⟨⟨c, hc, -⟩, -⟩, hplace⟩⟩ := (hlayout.read_eq_error_iff offset).1 h
  · exact ⟨by omega, by omega⟩
  · obtain ⟨hk, -⟩ := List.getElem?_eq_some_iff.1 hc
    exact ⟨by omega, by omega⟩

end Numeral

/-! ## Escapes -/

namespace Escape

variable {encoding : Encoding} {offset : Nat} {rest : List Char} {e : SyntaxError}

theorem indexOf?_extend {target : Char} {text : List Char} {k : Nat}
    (h : indexOf? target text = some k) (more : List Char) : indexOf? target (text ++ more) = some k := by
  induction text using indexOf?.induct target generalizing k with
  | case1 => cases h
  | case2 rest =>
    rw [indexOf?_self] at h
    rw [List.cons_append, indexOf?_self, h]
  | case3 ht =>
    rw [indexOf?.eq_def] at h
    simp [if_neg ht] at h
  | case4 c rest ht ih =>
    rw [indexOf?_escaped ht, Option.map_eq_some_iff] at h
    obtain ⟨k, hk, rfl⟩ := h
    rw [List.cons_append, List.cons_append, indexOf?_escaped ht, ih hk, Option.map_some]
  | case5 c rest ht hb ih =>
    rw [indexOf?_cons rest ht hb, Option.map_eq_some_iff] at h
    obtain ⟨k, hk, rfl⟩ := h
    rw [List.cons_append, indexOf?_cons _ ht hb, ih hk, Option.map_some]

theorem readCode_error {places : Nat} {short : Fault} (h : readCode encoding places short offset rest = .error e) :
    e.Within offset (offset + 2 + rest.length) ∧
      (e.fault = short ∨ ∀ more, readCode encoding places short offset (rest ++ more) = .error e) := by
  by_cases hlen : rest.length < places
  · rw [readCode, if_pos hlen] at h
    cases h
    exact ⟨SyntaxError.within_first _ (by omega), .inl rfl⟩
  · have hmore (more : List Char) : readCode encoding places short offset (rest ++ more) = .error e := by
      have hlen' : ¬ (rest ++ more).length < places := by
        rw [List.length_append]
        omega
      rw [← h, readCode, readCode, if_neg hlen, if_neg hlen', List.take_append_of_le_length (by omega)]
    refine ⟨?_, .inr hmore⟩
    rw [readCode, if_neg hlen] at h
    split at h
    · next hvalue =>
      cases h
      exact (Numeral.within_of_valueOf hvalue).mono (by omega) (by rw [List.length_take]; omega)
    · split at h
      · cases h
      · cases h
        exact SyntaxError.within_first _ (by omega)

/-- An escape that cannot be read. -/
theorem read_error (h : read encoding offset rest = .error e) :
    e.Within offset (offset + 1 + rest.length) ∧
      (e.fault.isUnfinished = false → ∀ more, read encoding offset (rest ++ more) = .error e) := by
  cases rest with
  | nil =>
    cases h
    exact ⟨SyntaxError.within_first _ (Nat.lt_succ_self _), nofun⟩
  | cons c rest =>
    have hcode {places : Nat} {short : Fault} (hshort : short.isUnfinished = true)
        (hcode : readCode encoding places short offset rest = .error e) :
        e.Within offset (offset + 1 + (c :: rest).length) ∧
          (e.fault.isUnfinished = false → ∀ more, readCode encoding places short offset (rest ++ more) = .error e) := by
      obtain ⟨hwithin, hstays⟩ := readCode_error hcode
      refine ⟨hwithin.mono (Nat.le_refl _) (by rw [List.length_cons]; omega), fun hfault => ?_⟩
      refine hstays.resolve_left fun heq => ?_
      rw [heq, hshort] at hfault
      cases hfault
    simp only [read, List.cons_append] at h ⊢
    split at h
    · next hx => simpa only [if_pos hx] using hcode rfl h
    · next hx =>
      split at h
      · next hu => simpa only [if_neg hx, if_pos hu] using hcode rfl h
      · repeat' split at h
        all_goals cases h

end Escape

/-! ## Brackets -/

namespace Bracket

variable {encoding : Encoding} {first offset : Nat} {rest : List Char} {e : SyntaxError}

/-- A range that is the wrong way round is blamed on its first symbol, whatever
follows. -/
theorem ranges_error {pieces : List (Spanned Element)} (h : ranges pieces = .error e) :
    e.fault = .invertedRange ∧ (∃ piece ∈ pieces, e.offset = piece.offset) ∧
      ∀ later, ranges (pieces ++ later) = .error e := by
  induction pieces using ranges.induct with
  | case1 lo middle hi rest hdash hlt =>
    simp only [ranges, hdash, hlt, if_true] at h
    cases h
    exact ⟨rfl, ⟨lo, by simp, rfl⟩, fun later => by simp only [List.cons_append, ranges, hdash, hlt, if_true]⟩
  | case2 lo middle hi rest hdash hlt ih =>
    simp only [ranges, hdash, hlt, if_true, if_false, map_eq_error_iff] at h
    obtain ⟨hfault, ⟨piece, hpiece, hoffset⟩, hlater⟩ := ih h
    refine ⟨hfault, ⟨piece, by simp [hpiece], hoffset⟩, fun later => ?_⟩
    simp only [List.cons_append, ranges, hdash, hlt, if_true, if_false, map_eq_error_iff, hlater]
  | case3 lo middle hi rest hdash ih =>
    simp only [ranges, hdash, if_false, map_eq_error_iff] at h
    obtain ⟨hfault, ⟨piece, hpiece, hoffset⟩, hlater⟩ := ih h
    refine ⟨hfault, ⟨piece, List.mem_cons_of_mem _ hpiece, hoffset⟩, fun later => ?_⟩
    simp only [List.cons_append] at hlater
    simp only [List.cons_append, ranges, hdash, if_false, map_eq_error_iff, hlater]
  | case4 lo rest hshort ih =>
    -- Less than three elements make no range.
    cases rest with
    | nil => cases h
    | cons middle rest =>
      cases rest with
      | nil => cases h
      | cons hi rest => exact absurd rfl (hshort middle hi rest)
  | case5 => cases h

/-- The opening of a bracket does not depend on what follows it. -/
theorem body_append (hne : rest ≠ []) (more : List Char) :
    isNegated (rest ++ more) = isNegated rest ∧ openingWidth (rest ++ more) = openingWidth rest ∧
      body (rest ++ more) = body rest ++ more := by
  have hnegated : isNegated (rest ++ more) = isNegated rest := by
    cases rest with
    | nil => exact absurd rfl hne
    | cons c rest => rfl
  refine ⟨hnegated, by rw [openingWidth, openingWidth, hnegated], ?_⟩
  unfold body
  rw [hnegated]
  split
  · rw [List.tail_append_of_ne_nil hne]
  · rfl

theorem settles_element (encoding : Encoding) (first : Nat) : (element encoding first).Settles := by
  intro offset c rest e width h more
  unfold element at h ⊢
  split at h
  · cases h
  · next hclose =>
    rw [if_neg hclose]
    split at h
    · next hb =>
      rw [if_pos hb]
      split at h
      · next hread =>
        rw [Escape.read_append hread offset more]
        exact h
      · cases h
    · next hb => rwa [if_neg hb]

theorem element_failed {c : Char} (h : element encoding first offset c rest = .error (.failed e)) :
    e.Within offset (offset + 1 + rest.length) ∧
      (e.fault.isUnfinished = false → ∀ more, element encoding first offset c (rest ++ more) = .error (.failed e)) := by
  unfold element at h ⊢
  split at h
  · cases h
  · next hclose =>
    split at h
    · next hb =>
      split at h
      · cases h
      · next hread =>
        cases h
        obtain ⟨hwithin, hstays⟩ := Escape.read_error hread
        refine ⟨hwithin, fun hfault more => ?_⟩
        rw [if_neg hclose, if_pos hb, hstays hfault more]
    · cases h

/-- A bracket that cannot be read. -/
theorem read_error (h : read encoding offset rest = .error e) :
    e.Within offset (offset + 1 + rest.length) ∧
      (e.fault.isUnfinished = false → ∀ more, read encoding offset (rest ++ more) = .error e) := by
  have hlength := length_body rest
  have hfits := fits_element encoding (offset + openingWidth rest)
  have hsettles := settles_element encoding (offset + openingWidth rest)
  unfold read at h ⊢
  simp only at h ⊢
  split at h
  · next hranges =>
    cases h
    obtain ⟨-, ⟨piece, hpiece, hoffset⟩, hlater⟩ := ranges_error hranges
    have hbounds := Reader.offset_of_mem_pieces hpiece
    have hne : rest ≠ [] := by
      rintro rfl
      cases hpiece
    refine ⟨⟨by omega, by omega⟩, fun _ more => ?_⟩
    obtain ⟨-, hopening, hbody⟩ := body_append hne more
    obtain ⟨later, hpieces⟩ := Reader.exists_pieces_append hfits hsettles (offset + openingWidth rest) (body rest) more
    rw [hopening, hbody, hpieces, hlater]
  next members hranges =>
  split at h
  · cases h
    exact ⟨SyntaxError.within_first _ (by omega), nofun⟩
  · next hreason =>
    cases h
    obtain ⟨left, c, right, htext, hread⟩ := Reader.exists_of_reason hfits hreason
    obtain ⟨hwithin, -⟩ := element_failed hread
    have hne : rest ≠ [] := by
      rintro rfl
      cases hreason
    rw [htext, List.length_append, List.length_cons] at hlength
    refine ⟨hwithin.mono (by omega) (by omega), fun hfault more => ?_⟩
    obtain ⟨-, hopening, hbody⟩ := body_append hne more
    have hscan := Reader.scanFrom_append_of_reason hfits hsettles hreason
      fun _ _ _ hread => (element_failed hread).2 hfault more
    rw [hopening, hbody, hscan, hranges, hreason]
  · cases h

end Bracket

/-! ## Counted repetitions -/

namespace Repetition

variable {offset : Nat} {rest body : List Char} {e : SyntaxError}

theorem within_of_readCounts (h : readCounts offset body = .error e) :
    e.Within offset (offset + 1 + body.length + 1) := by
  rcases exists_of_readCounts_error h with rfl | ⟨before, run, after, rfl, hread⟩
  · exact SyntaxError.within_first _ (by omega)
  · refine (Numeral.within_of_read hread).mono (by omega) ?_
    simp only [List.length_append]
    omega

/-- A counted repetition that cannot be read. -/
theorem read_error (h : read offset rest = .error e) :
    e.Within offset (offset + 1 + rest.length) ∧
      (e.fault.isUnfinished = false → ∀ more, read offset (rest ++ more) = .error e) := by
  unfold read at h ⊢
  split at h
  · cases h
    exact ⟨SyntaxError.within_first _ (by omega), nofun⟩
  next close hclose =>
  obtain ⟨body, right, rfl, rfl⟩ := Escape.indexOf?_eq_some hclose
  have hbody (more : List Char) : (body ++ '}' :: right ++ more).take body.length = body := by
    rw [List.append_assoc, List.take_left' rfl]
  rw [List.take_left' rfl] at h
  refine ⟨?_, fun _ more => ?_⟩
  · refine (within_of_readCounts (map_eq_error_iff.1 h)).mono (Nat.le_refl _) ?_
    rw [List.length_append, List.length_cons]
    omega
  · rw [Escape.indexOf?_extend hclose]
    simp only [hbody, h]

end Repetition

/-! ## Tokens -/

namespace Token

variable {encoding : Encoding} {offset : Nat} {c : Char} {rest : List Char} {e : SyntaxError}

theorem readSpecial_error {m : Metachar} (h : readSpecial encoding offset rest m = .error e) :
    e.Within offset (offset + 1 + rest.length) ∧
      (e.fault.isUnfinished = false → ∀ more, readSpecial encoding offset (rest ++ more) m = .error e) := by
  cases m with
  | openBracket => simpa only [readSpecial, map_eq_error_iff] using Bracket.read_error (map_eq_error_iff.1 h)
  | openRepeat => simpa only [readSpecial, map_eq_error_iff] using Repetition.read_error (map_eq_error_iff.1 h)
  | closeBracket | closeRepeat =>
    cases h
    exact ⟨SyntaxError.within_first _ (by omega), fun _ _ => rfl⟩
  | _ => cases h

/-- **A token that cannot be read** is blamed on a symbol from its own first one on, and
stays so whatever follows, unless only its end is missing. -/
theorem read_error (h : read encoding offset c rest = .error e) :
    e.Within offset (offset + 1 + rest.length) ∧
      (e.fault.isUnfinished = false → ∀ more, read encoding offset c (rest ++ more) = .error e) := by
  by_cases hb : c = Escape.backslash
  · simp only [read, Glyph.read, if_pos hb] at h ⊢
    cases hread : Escape.read encoding offset rest with
    | error e' =>
      rw [hread] at h
      cases h
      obtain ⟨hwithin, hstays⟩ := Escape.read_error hread
      exact ⟨hwithin, fun hfault more => by rw [hstays hfault more]; rfl⟩
    | ok found =>
      rw [hread] at h
      cases h
  · cases hm : Metachar.ofChar? c with
    | none => simp [read, Glyph.read, hb, hm] at h
    | some m =>
      have hc := (Metachar.ofChar?_eq_some_iff.1 hm).symm
      simp only [read_of_special hc] at h ⊢
      exact readSpecial_error h

end Token

end RegexAutomaton
