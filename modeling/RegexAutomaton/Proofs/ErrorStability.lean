/-
Errors of patterns that are read on.

What is wrong with a pattern lies in it, or at its end if the end itself is wrong;
and unless only the end of something is missing, it stays wrong in the same way
whatever is written after the pattern (`parse_append_of_error`).
-/
import RegexAutomaton.Proofs.ReadErrors
import RegexAutomaton.Proofs.UnclosedGroups

namespace RegexAutomaton

/-! ## Tokens of longer patterns -/

section

variable {encoding : Encoding} {pattern : List Char} {e : SyntaxError}

theorem Token.settles_read (encoding : Encoding) : (read encoding).Settles :=
  fun _ _ _ _ _ h more => read_append h 0 more

theorem exists_pieces_tokens (encoding : Encoding) (pattern suffix : List Char) :
    ∃ later, (tokens encoding (pattern ++ suffix)).pieces = (tokens encoding pattern).pieces ++ later :=
  Reader.exists_pieces_append (Token.fits_read encoding) (Token.settles_read encoding) 0 pattern suffix

/-- Tokens that end for good end there in a longer pattern too. -/
theorem tokens_append_of_reason (h : (tokens encoding pattern).reason = some e) (hfault : e.fault.isUnfinished = false)
    (suffix : List Char) : tokens encoding (pattern ++ suffix) = tokens encoding pattern :=
  Reader.scanFrom_append_of_reason (Token.fits_read encoding) (Token.settles_read encoding) h
    fun _ _ _ hread => (Token.read_error hread).2 hfault suffix

theorem offset_lt_of_reason (h : (tokens encoding pattern).reason = some e) : e.offset < pattern.length := by
  obtain ⟨left, c, rest, rfl, hread⟩ := Reader.exists_of_reason (Token.fits_read encoding) h
  have hlt := (Token.read_error hread).1.2
  rw [List.length_append, List.length_cons]
  omega

theorem offset_lt_of_mem_tokens {t : Spanned Token} (h : t ∈ (tokens encoding pattern).pieces) :
    t.offset < pattern.length :=
  Nat.lt_of_lt_of_eq (Reader.offset_of_mem_pieces h).2 (Nat.zero_add _)

end

/-! ## The check -/

namespace Grammar

variable {encoding : Encoding} {pattern : List Char} {before : Role} {groups : List Nat}
  {items : List (Spanned Item)} {e : SyntaxError}

theorem allow_eq_error_iff {after : Role} {offset : Nat} :
    allow before after offset = .error e ↔ before.refusal? after = some e.fault ∧ e.offset = offset := by
  obtain ⟨fault, place⟩ := e
  unfold allow
  cases before.refusal? after <;> simp [eq_comm]

theorem offset_of_groupsAfter {item : Spanned Item} (h : groupsAfter groups item = .error e) :
    e.offset = item.offset := by
  unfold groupsAfter at h
  split at h
  · cases h
  · split at h <;> cases h
    rfl
  · cases h

/-- An item that does not pass is itself to blame. -/
theorem exists_of_checkItems_error (h : checkItems before groups items = .error e) :
    ∃ item ∈ items, e.offset = item.offset := by
  induction items generalizing before groups with
  | nil => cases h
  | cons item items ih =>
    simp only [checkItems, bind, Except.bind] at h
    cases hgroups : groupsAfter groups item with
    | error e' =>
      rw [hgroups] at h
      obtain rfl := Except.error.inj h
      exact ⟨item, List.mem_cons_self, offset_of_groupsAfter hgroups⟩
    | ok inner =>
      rw [hgroups] at h
      cases hallow : allow before item.value.role item.offset with
      | error e' =>
        rw [hallow] at h
        obtain rfl := Except.error.inj h
        exact ⟨item, List.mem_cons_self, (allow_eq_error_iff.1 hallow).2⟩
      | ok u =>
        rw [hallow] at h
        obtain ⟨item', hmem, hoffset⟩ := ih h
        exact ⟨item', List.mem_cons_of_mem _ hmem, hoffset⟩

/-- The end of a pattern is refused only by a bar. -/
theorem fault_of_refusal_finish {fault : Fault} (h : before.refusal? .finish = some fault) :
    fault = .noBranchAfterBar := by
  cases before <;> cases h
  rfl

/-- Where tokens do not pass, so it is for a pattern that starts with them. -/
theorem checkPattern_of_checkItems_error {ts later : List (Spanned Token)}
    (hpieces : (tokens encoding pattern).pieces = ts ++ later)
    (h : checkItems .start [] (ts.map (·.map .token)) = .error e) :
    checkPattern encoding ((Markers.ofPattern? pattern).getD .empty) pattern = .error e := by
  rw [checkPattern_eq, hpieces, List.map_append, checkItems_append, h]
  rfl

/-- Where tokens end for a reason, this is what is found if they pass. -/
theorem checkPattern_of_reason {found : Role × List Nat} (hreason : (tokens encoding pattern).reason = some e)
    (h : checkItems .start [] ((tokens encoding pattern).pieces.map (·.map .token)) = .ok found) :
    checkPattern encoding ((Markers.ofPattern? pattern).getD .empty) pattern = .error e := by
  have hshort : ¬ Markers.CutShort encoding pattern := fun hshort => by
    rw [hshort.reason_eq] at hreason
    cases hreason
  rw [checkPattern_marked hshort, checkPattern_empty, h, hreason]
  rfl

end Grammar

namespace NodeList

variable {encoding : Encoding} {pattern : List Char} {options : Options} {e : SyntaxError}

/-- Either a bar at the end of a pattern is to blame, or a symbol of the pattern. -/
theorem error_at_end_or_inside (h : parse encoding pattern options = .error e) :
    e = ⟨.noBranchAfterBar, pattern.length⟩ ∨
      e.offset < pattern.length ∧
        (e.fault.isUnfinished = false → ∀ suffix, parse encoding (pattern ++ suffix) options = .error e) := by
  rw [parse_eq_error_iff] at h
  by_cases hshort : Markers.CutShort encoding pattern
  · rw [Grammar.checkPattern_of_cutShort hshort] at h
    exact .inl (Except.error.inj h).symm
  rw [Grammar.checkPattern_marked hshort, Grammar.checkPattern_empty] at h
  cases hcheck : Grammar.checkItems .start [] ((tokens encoding pattern).pieces.map (·.map .token)) with
  | error e' =>
    rw [hcheck] at h
    obtain rfl := Except.error.inj h
    obtain ⟨item, hitem, hoffset⟩ := Grammar.exists_of_checkItems_error hcheck
    obtain ⟨t, ht, rfl⟩ := List.mem_map.1 hitem
    refine .inr ⟨hoffset.trans_lt (offset_lt_of_mem_tokens ht), fun _ suffix => parse_eq_error_iff.2 ?_⟩
    obtain ⟨later, hlater⟩ := exists_pieces_tokens encoding pattern suffix
    exact Grammar.checkPattern_of_checkItems_error hlater hcheck
  | ok found =>
    obtain ⟨last, groups⟩ := found
    rw [hcheck] at h
    cases hreason : (tokens encoding pattern).reason with
    | some e' =>
      rw [hreason] at h
      obtain rfl := Except.error.inj h
      refine .inr ⟨offset_lt_of_reason hreason, fun hfault suffix => parse_eq_error_iff.2 ?_⟩
      have hsame := tokens_append_of_reason hreason hfault suffix
      exact Grammar.checkPattern_of_reason (hsame ▸ hreason) (hsame ▸ hcheck)
    | none =>
      rw [hreason] at h
      cases groups with
      | cons offset groups =>
        obtain rfl := Except.error.inj h
        have hfirst : (offset :: groups)[0]? = some offset := rfl
        obtain ⟨before, t, after, hpieces, -, hoffset, -⟩ := Grammar.neverClosed_of_checkItems hcheck hfirst
        have hmem : t ∈ (tokens encoding pattern).pieces := by simp [hpieces]
        exact .inr ⟨hoffset.symm.trans_lt (offset_lt_of_mem_tokens hmem), fun hfault => by cases hfault⟩
      | nil =>
        obtain ⟨fault, place⟩ := e
        obtain ⟨hrefusal, rfl⟩ := Grammar.allow_eq_error_iff.1 h
        obtain rfl : fault = .noBranchAfterBar := Grammar.fault_of_refusal_finish hrefusal
        exact .inl (by rw [Markers.stop_eq_length _ _ hreason])

/-- **What is wrong with a pattern lies in it**, or at its end if a bar ends it. And it
stays wrong in the same way, whatever is written after the pattern, unless it is that
the end of something is missing. -/
theorem parse_append_of_error (h : parse encoding pattern options = .error e) :
    e.offset ≤ pattern.length ∧ (e.offset = pattern.length → e.fault = .noBranchAfterBar) ∧
      (e.offset < pattern.length → e.fault.isUnfinished = false →
        ∀ suffix, parse encoding (pattern ++ suffix) options = .error e) := by
  rcases error_at_end_or_inside h with rfl | ⟨hlt, hstays⟩
  · exact ⟨Nat.le_refl _, fun _ => rfl, fun hlt => absurd hlt (Nat.lt_irrefl _)⟩
  · exact ⟨Nat.le_of_lt hlt, fun heq => absurd heq (Nat.ne_of_lt hlt), fun _ => hstays⟩

theorem parse_append_of_error_in_bracket :
    parse .unicode ['a', '|', '(', '[', 'z', '-', 'a'] {} = .error ⟨.invertedRange, 4⟩ ∧
      4 ≤ 7 ∧ (4 = 7 → Fault.invertedRange = .noBranchAfterBar) ∧
      (4 < 7 → Fault.invertedRange.isUnfinished = false →
        ∀ suffix, parse .unicode (['a', '|', '(', '[', 'z', '-', 'a'] ++ suffix) {} = .error ⟨.invertedRange, 4⟩) :=
  ⟨rfl, @parse_append_of_error .unicode ['a', '|', '(', '[', 'z', '-', 'a'] {} ⟨.invertedRange, 4⟩ rfl⟩

end NodeList

end RegexAutomaton
