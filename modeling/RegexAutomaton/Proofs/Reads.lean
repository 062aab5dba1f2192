/-
What a scan finds.

`Reads` says piece by piece what a scan finds that reaches the end of its text;
`Reads.scanFrom` and `reads_of_reason` tie it to the scan itself, for a reader
that `Fits`. The pieces then lie side by side from one end of the text to the
other (`Reads.tiles`), as those of any scan do up to the place where it ends
(`tiles_scanFrom`).
-/
import RegexAutomaton.Scan

namespace RegexAutomaton

/-! ## Results -/

theorem map_eq_ok_iff {ε α β : Type} {f : α → β} {x : Except ε α} {b : β} :
    x.map f = .ok b ↔ ∃ a, x = .ok a ∧ f a = b := by
  cases x <;> simp [Except.map]

theorem map_eq_error_iff {ε α β : Type} {f : α → β} {x : Except ε α} {e : ε} :
    x.map f = .error e ↔ x = .error e := by
  cases x <;> simp [Except.map]

theorem bind_eq_ok_iff {ε α β : Type} {f : α → Except ε β} {x : Except ε α} {b : β} :
    (x >>= f) = .ok b ↔ ∃ a, x = .ok a ∧ f a = .ok b := by
  cases x <;> simp [bind, Except.bind]

theorem bind_eq_error_iff {ε α β : Type} {f : α → Except ε β} {x : Except ε α} {e : ε} :
    (x >>= f) = .error e ↔ x = .error e ∨ ∃ a, x = .ok a ∧ f a = .error e := by
  cases x <;> simp [bind, Except.bind]

/-! ## Parts of a list -/

section

variable {α : Type} {list part later : List α} {a : α} {i : Nat}

theorem drop_add_of_drop (h : list.drop i = part ++ later) : list.drop (i + part.length) = later := by
  rw [← List.drop_drop, h, List.drop_left]

theorem drop_succ_of_drop (h : list.drop i = a :: later) : list.drop (i + 1) = later :=
  drop_add_of_drop (show list.drop i = [a] ++ later from h)

theorem getElem?_of_drop (h : list.drop i = a :: later) : list[i]? = some a := by
  have hhead := congrArg List.head? h
  rwa [List.head?_drop] at hhead

theorem drop_of_getElem? (h : list[i]? = some a) : list.drop i = a :: list.drop (i + 1) := by
  obtain ⟨hlt, rfl⟩ := List.getElem?_eq_some_iff.1 h
  exact List.drop_eq_getElem_cons hlt

theorem length_of_drop (h : list.drop i = a :: later) : list.length = i + (later.length + 1) := by
  have hlength := congrArg List.length h
  rw [List.length_drop, List.length_cons] at hlength
  omega

/-- A list is parted where what meets a condition ends. -/
theorem parts_of_head? {p : α → Bool} (hpart : ∀ a ∈ part, p a = true) (hlater : ∀ a ∈ later.head?, p a = false) :
    (part ++ later).takeWhile p = part ∧ (part ++ later).dropWhile p = later := by
  rw [List.takeWhile_append_of_pos hpart, List.dropWhile_append_of_pos hpart]
  cases later with
  | nil => simp
  | cons a later =>
    have ha : ¬ p a = true := by simp [hlater a rfl]
    rw [List.takeWhile_cons_of_neg ha, List.dropWhile_cons_of_neg ha, List.append_nil]
    exact ⟨rfl, rfl⟩

/-- So the parts are known from the list. -/
theorem append_inj_of_head? {p : α → Bool} {part' later' : List α} (hpart : ∀ a ∈ part, p a = true)
    (hpart' : ∀ a ∈ part', p a = true) (hlater : ∀ a ∈ later.head?, p a = false)
    (hlater' : ∀ a ∈ later'.head?, p a = false) (heq : part ++ later = part' ++ later') :
    part = part' ∧ later = later' := by
  obtain ⟨htake, hdrop⟩ := parts_of_head? hpart hlater
  obtain ⟨htake', hdrop'⟩ := parts_of_head? hpart' hlater'
  exact ⟨by rw [← htake, heq, htake'], by rw [← hdrop, heq, hdrop']⟩

end

/-! ## Pieces -/

/-- The values lie side by side: the first is at `first`, the last ends at
`last`, and none is empty. -/
def Spanned.Tiles {α : Type} : (first : Nat) → List (Spanned α) → (last : Nat) → Prop
  | first, [], last => first = last
  | first, s :: rest, last => s.offset = first ∧ 0 < s.width ∧ Tiles s.finish rest last

theorem Spanned.Tiles.le {α : Type} {first last : Nat} {pieces : List (Spanned α)}
    (h : Tiles first pieces last) : first ≤ last := by
  induction pieces generalizing first with
  | nil => exact Nat.le_of_eq h
  | cons s pieces ih =>
    obtain ⟨hs, hw, hrest⟩ := h
    have hle := ih hrest
    simp only [Spanned.finish] at hle
    omega

/-- Pieces laid side by side can be cut anywhere. -/
theorem Spanned.tiles_append {α : Type} {first last : Nat} {left right : List (Spanned α)} :
    Tiles first (left ++ right) last ↔ ∃ middle, Tiles first left middle ∧ Tiles middle right last := by
  induction left generalizing first with
  | nil => simp [Tiles]
  | cons s left ih => simp only [List.cons_append, Tiles, ih, exists_and_left, and_assoc]

namespace Reader

variable {α ε : Type}

/-- What is read is never empty and never runs over the end of the text. -/
def Fits (read : Reader α ε) : Prop :=
  ∀ ⦃offset : Nat⦄ ⦃c : Char⦄ ⦃rest : List Char⦄ ⦃value : α⦄ ⦃width : Nat⦄,
    read offset c rest = .ok (value, width) → 0 < width ∧ width ≤ rest.length + 1

/-- The text, whose first symbol has the given offset, can be read to its end,
with these pieces. -/
inductive Reads (read : Reader α ε) : (offset : Nat) → List Char → List (Spanned α) → Prop
  | nil (offset : Nat) : Reads read offset [] []
  | cons {offset : Nat} {c : Char} {rest : List Char} {value : α} {width : Nat}
      {pieces : List (Spanned α)} (head : read offset c rest = .ok (value, width))
      (tail : Reads read (offset + width) ((c :: rest).drop width) pieces) :
      Reads read offset (c :: rest) (⟨value, offset, width⟩ :: pieces)

variable {read : Reader α ε} {offset : Nat} {text : List Char} {pieces : List (Spanned α)}

/-- Induction along a scan: at the end of the text, where reading ends early,
and where it goes on after a piece. -/
theorem induction_scan (fits : read.Fits) {motive : Nat → List Char → Prop}
    (nil : ∀ offset, motive offset [])
    (stop : ∀ offset c rest reason, read offset c rest = .error reason → motive offset (c :: rest))
    (step : ∀ offset c rest value width, read offset c rest = .ok (value, width) →
      motive (offset + width) ((c :: rest).drop width) → motive offset (c :: rest))
    (offset : Nat) (text : List Char) : motive offset text := by
  -- A piece spans any number of symbols, so the induction is on how many are left.
  induction hn : text.length using Nat.strongRecOn generalizing offset text with
  | ind n ih =>
    cases text with
    | nil => exact nil offset
    | cons c rest =>
      cases hread : read offset c rest with
      | error reason => exact stop offset c rest reason hread
      | ok found =>
        obtain ⟨value, width⟩ := found
        obtain ⟨hpos, hle⟩ := fits hread
        refine step offset c rest value width hread (ih _ ?_ _ _ rfl)
        rw [← hn, List.length_drop, List.length_cons]
        omega

theorem scanFrom_step (fits : read.Fits) {c : Char} {rest : List Char} {value : α} {width : Nat}
    (h : read offset c rest = .ok (value, width)) :
    read.scanFrom 0 offset (c :: rest) =
      let later := read.scanFrom 0 (offset + width) ((c :: rest).drop width)
      { later with pieces := ⟨value, offset, width⟩ :: later.pieces } :=
  scanFrom_ok read h (fits h).1 (fits h).2

theorem Reads.scanFrom (fits : read.Fits) (h : Reads read offset text pieces) :
    read.scanFrom 0 offset text = ⟨pieces, offset + text.length, none⟩ := by
  induction h with
  | nil offset => rfl
  | cons head tail ih =>
    obtain ⟨hpos, hle⟩ := fits head
    rw [scanFrom_step fits head, ih]
    simp only [List.length_drop, List.length_cons, Scan.mk.injEq, and_true, true_and]
    omega

theorem reads_of_reason (fits : read.Fits) (h : (read.scanFrom 0 offset text).reason = none) :
    Reads read offset text (read.scanFrom 0 offset text).pieces := by
  induction offset, text using induction_scan fits with
  | nil offset => exact .nil offset
  | stop offset c rest reason hread => rw [scanFrom_error read hread] at h; cases h
  | step offset c rest value width hread ih =>
    rw [scanFrom_step fits hread] at h ⊢
    exact .cons hread (ih h)

theorem Reads.tiles (fits : read.Fits) (h : Reads read offset text pieces) :
    Spanned.Tiles offset pieces (offset + text.length) := by
  induction h with
  | nil offset => rfl
  | cons head tail ih =>
    obtain ⟨hpos, hle⟩ := fits head
    refine ⟨rfl, hpos, ?_⟩
    simp only [List.length_drop, List.length_cons] at ih ⊢
    rwa [Nat.add_assoc, Nat.add_sub_cancel' hle] at ih

/-! ### Scans that may end early -/

/-- Each piece is what was read at a place in the text. -/
theorem exists_read_of_mem_pieces {skip offset : Nat} {text : List Char} {piece : Spanned α}
    (h : piece ∈ (read.scanFrom skip offset text).pieces) :
    (∃ c rest, read piece.offset c rest = .ok (piece.value, piece.width)) ∧
      offset ≤ piece.offset ∧ piece.offset < offset + text.length := by
  induction text generalizing skip offset with
  | nil =>
    rw [scanFrom_nil] at h
    cases h
  | cons c rest ih =>
    have hlater {skip : Nat} (h : piece ∈ (read.scanFrom skip (offset + 1) rest).pieces) :
        (∃ c rest, read piece.offset c rest = .ok (piece.value, piece.width)) ∧
          offset ≤ piece.offset ∧ piece.offset < offset + (c :: rest).length := by
      obtain ⟨hread, hfirst, hlast⟩ := ih h
      refine ⟨hread, Nat.le_of_succ_le hfirst, ?_⟩
      rw [List.length_cons]
      omega
    cases skip with
    | succ skip => exact hlater h
    | zero =>
      simp only [scanFrom] at h
      split at h
      · next hread =>
        rcases List.mem_cons.1 h with rfl | h
        · exact ⟨⟨c, rest, hread⟩, Nat.le_refl _, Nat.lt_add_of_pos_right (Nat.succ_pos _)⟩
        · exact hlater h
      · cases h

/-- What is read of a text lies in it. -/
theorem offset_of_mem_pieces {skip offset : Nat} {text : List Char} {piece : Spanned α}
    (h : piece ∈ (read.scanFrom skip offset text).pieces) :
    offset ≤ piece.offset ∧ piece.offset < offset + text.length :=
  (exists_read_of_mem_pieces h).2

theorem add_length_drop_cons {width : Nat} {rest : List Char} (h : width ≤ rest.length + 1) (offset : Nat) (c : Char) :
    offset + width + ((c :: rest).drop width).length = offset + (c :: rest).length := by
  rw [List.length_drop, List.length_cons]
  omega

/-- The pieces of a scan lie side by side up to the place where it ends, which is the
end of the text unless there is a reason. -/
theorem tiles_scanFrom (fits : read.Fits) (offset : Nat) (text : List Char) :
    Spanned.Tiles offset (read.scanFrom 0 offset text).pieces (read.scanFrom 0 offset text).stop ∧
      ((read.scanFrom 0 offset text).reason = none →
        (read.scanFrom 0 offset text).stop = offset + text.length) ∧
      ((read.scanFrom 0 offset text).reason ≠ none →
        (read.scanFrom 0 offset text).stop < offset + text.length) := by
  induction offset, text using induction_scan fits with
  | nil offset => exact ⟨rfl, fun _ => rfl, fun h => absurd rfl h⟩
  | stop offset c rest reason hread =>
    rw [scanFrom_error _ hread]
    exact ⟨rfl, nofun, fun _ => by simp⟩
  | step offset c rest value width hread ih =>
    obtain ⟨hpos, hfit⟩ := fits hread
    rw [scanFrom_step fits hread]
    obtain ⟨htiles, hnone, hsome⟩ := ih
    rw [add_length_drop_cons hfit] at hnone hsome
    exact ⟨⟨rfl, hpos, htiles⟩, hnone, hsome⟩

/-- What is left after a piece, in a longer text. -/
theorem drop_cons_append {width : Nat} {rest : List Char} (h : width ≤ rest.length + 1) (c : Char)
    (more : List Char) : (c :: (rest ++ more)).drop width = (c :: rest).drop width ++ more := by
  rw [← List.cons_append, List.drop_append_of_le_length (by simpa using h)]

end Reader

end RegexAutomaton
