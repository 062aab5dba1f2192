/-
Patterns of bytes.

A pattern of bytes is read as the same pattern of wide symbols, unless an escape in
it asks for a symbol that is no byte (`Narrows`). Reading stops at such an escape, but
what came before it is the same, and so is what is wrong with that. So an automaton of
bytes is that of the wide pattern, and all symbols in it are bytes (`compile_byte_agrees`).
-/
import RegexAutomaton.Proofs.ErrorStability
import RegexAutomaton.Proofs.Symbols

namespace RegexAutomaton

/-! ## Reading -/

/-- What is found in bytes is what is found in wide symbols, unless an escape asks for
a symbol that is no byte. -/
def Narrows {α : Type} (narrow wide : Except SyntaxError α) : Prop :=
  narrow = wide ∨ ∃ offset, narrow = .error ⟨.unrepresentable, offset⟩

theorem Narrows.refl {α : Type} (x : Except SyntaxError α) : Narrows x x := .inl rfl

theorem Narrows.map {α β : Type} {narrow wide : Except SyntaxError α} (h : Narrows narrow wide)
    (f : α → β) :
    Narrows (narrow.map f) (wide.map f) := by
  rcases h with rfl | ⟨offset, rfl⟩
  · exact .refl _
  · exact .inr ⟨offset, rfl⟩

theorem Encoding.symbol?_unicode {n : Nat} {c : Char} (h : byte.symbol? n = some c) : unicode.symbol? n = some c := by
  obtain ⟨hn, rfl⟩ : n < 256 ∧ Char.ofNat n = c := by simpa [symbol?] using h
  have hvalid : n.isValidChar := .inl (by omega)
  simp [symbol?, hvalid]

namespace Reader

variable {α ε : Type} {narrow wide : Reader α ε} {stops : ε → Prop}

/-- Two readers that differ only where the first one stops find the same up to there. -/
theorem scanFrom_narrows
    (h : ∀ offset c rest, narrow offset c rest = wide offset c rest ∨
      ∃ reason, narrow offset c rest = .error reason ∧ stops reason)
    (skip offset : Nat) (text : List Char) :
    narrow.scanFrom skip offset text = wide.scanFrom skip offset text ∨
      ∃ reason later, stops reason ∧ (narrow.scanFrom skip offset text).reason = some reason ∧
        (wide.scanFrom skip offset text).pieces = (narrow.scanFrom skip offset text).pieces ++ later := by
  induction text generalizing skip offset with
  | nil => exact .inl (by rw [scanFrom_nil, scanFrom_nil])
  | cons c rest ih =>
    cases skip with
    | succ skip => exact ih skip (offset + 1)
    | zero =>
      rcases h offset c rest with hread | ⟨reason, hread, hstops⟩
      · simp only [scanFrom, hread]
        cases wide offset c rest with
        | error reason => exact .inl rfl
        | ok found =>
          obtain ⟨value, width⟩ := found
          rcases ih (width - 1) (offset + 1) with hsame | ⟨reason, later, hstops, hreason, hpieces⟩
          · exact .inl (by simp only [hsame])
          · exact .inr ⟨reason, later, hstops, hreason, by simp only [hpieces, List.cons_append]⟩
      · rw [scanFrom_error _ hread]
        exact .inr ⟨reason, _, hstops, rfl, rfl⟩

end Reader

theorem Escape.read_narrows (offset : Nat) (rest : List Char) :
    Narrows (read .byte offset rest) (read .unicode offset rest) := by
  have hcode (places : Nat) (short : Fault) (rest : List Char) :
      Narrows (readCode .byte places short offset rest) (readCode .unicode places short offset rest) := by
    unfold readCode
    split
    · exact .refl _
    · split
      · exact .refl _
      · next n _ =>
        cases hsymbol : Encoding.byte.symbol? n with
        | none => exact .inr ⟨offset, rfl⟩
        | some c =>
          rw [Encoding.symbol?_unicode hsymbol]
          exact .refl _
  cases rest with
  | nil => exact .refl _
  | cons c rest =>
    simp only [read]
    split
    · exact hcode 2 .shortByteEscape rest
    · split
      · exact hcode 4 .shortWideEscape rest
      · exact .refl _

theorem Bracket.element_narrows (first offset : Nat) (c : Char) (rest : List Char) :
    element .byte first offset c rest = element .unicode first offset c rest ∨
      ∃ reason, element .byte first offset c rest = .error reason ∧
        ∃ place, reason = .failed ⟨.unrepresentable, place⟩ := by
  unfold element
  split
  · exact .inl rfl
  · split
    · rcases Escape.read_narrows offset rest with h | ⟨place, h⟩
      · exact .inl (by rw [h])
      · exact .inr ⟨_, by rw [h], place, rfl⟩
    · exact .inl rfl

theorem Bracket.read_narrows (offset : Nat) (rest : List Char) :
    Narrows (read .byte offset rest) (read .unicode offset rest) := by
  unfold read
  simp only
  generalize offset + openingWidth rest = first
  rcases Reader.scanFrom_narrows (element_narrows first) 0 first (body rest) with
    hsame | ⟨reason, later, ⟨place, rfl⟩, hreason, hpieces⟩
  · rw [hsame]
    exact .refl _
  · rw [hreason, hpieces]
    -- A range that is the wrong way round before the escape is found on both sides.
    cases hranges : ranges ((element .byte first).scanFrom 0 first (body rest)).pieces with
    | error e =>
      rw [(ranges_error hranges).2.2 later]
      exact .refl _
    | ok members => exact .inr ⟨place, rfl⟩

theorem Glyph.read_narrows (offset : Nat) (c : Char) (rest : List Char) :
    Narrows (read .byte offset c rest) (read .unicode offset c rest) := by
  unfold read
  split
  · exact (Escape.read_narrows offset rest).map _
  · exact .refl _

theorem Token.read_narrows (offset : Nat) (c : Char) (rest : List Char) :
    Narrows (read .byte offset c rest) (read .unicode offset c rest) := by
  have hspecial (m : Metachar) : Narrows (readSpecial .byte offset rest m) (readSpecial .unicode offset rest m) := by
    cases m with
    | openBracket => exact (Bracket.read_narrows offset rest).map _
    | _ => exact .refl _
  unfold read
  rcases Glyph.read_narrows offset c rest with h | ⟨place, h⟩
  · rw [h]
    cases Glyph.read .unicode offset c rest with
    | error e => exact .refl _
    | ok found =>
      obtain ⟨glyph, width⟩ := found
      cases glyph with
      | literal symbol => exact .refl _
      | special m => exact hspecial m
  · rw [h]
    exact .inr ⟨place, rfl⟩

/-- The tokens of a pattern of bytes, up to an escape that asks for more. -/
theorem tokens_narrows (pattern : List Char) :
    tokens .byte pattern = tokens .unicode pattern ∨
      ∃ offset later, (tokens .byte pattern).reason = some ⟨.unrepresentable, offset⟩ ∧
        (tokens .unicode pattern).pieces = (tokens .byte pattern).pieces ++ later := by
  have hread (offset : Nat) (c : Char) (rest : List Char) :
      Token.read .byte offset c rest = Token.read .unicode offset c rest ∨
        ∃ reason, Token.read .byte offset c rest = .error reason ∧
          ∃ place, reason = ⟨.unrepresentable, place⟩ := by
    rcases Token.read_narrows offset c rest with h | ⟨place, h⟩
    · exact .inl h
    · exact .inr ⟨_, h, place, rfl⟩
  rcases Reader.scanFrom_narrows hread 0 0 pattern with hsame | ⟨reason, later, ⟨place, rfl⟩, hreason, hpieces⟩
  · exact .inl hsame
  · exact .inr ⟨place, later, hreason, hpieces⟩

/-- **A pattern of bytes is read as the same pattern of wide symbols**, unless an escape
asks for more. -/
theorem NodeList.parse_narrows (pattern : List Char) (options : Options) :
    Narrows (parse .byte pattern options) (parse .unicode pattern options) := by
  rcases tokens_narrows pattern with hsame | ⟨offset, later, hreason, hpieces⟩
  · refine .inl ?_
    rw [parse, parse, read, read, hsame]
  · cases hcheck : Grammar.checkItems .start [] ((tokens .byte pattern).pieces.map (·.map .token)) with
    | error e =>
      have hnarrow : parse .byte pattern options = .error e :=
        parse_eq_error_iff.2 (Grammar.checkPattern_of_checkItems_error (List.append_nil _).symm hcheck)
      have hwide : parse .unicode pattern options = .error e :=
        parse_eq_error_iff.2 (Grammar.checkPattern_of_checkItems_error hpieces hcheck)
      exact .inl (hnarrow.trans hwide.symm)
    | ok found =>
      exact .inr ⟨offset, parse_eq_error_iff.2 (Grammar.checkPattern_of_reason hreason hcheck)⟩

/-! ## Compiling -/

theorem Encoding.has_byte_ofUInt8 (b : UInt8) : byte.Has (Char.ofUInt8 b) := by
  rw [has_byte_iff]
  exact b.toNat_lt

/-- **An automaton of bytes is that of the same pattern of wide symbols**, and holds
bytes only. What is wrong with a pattern of bytes is wrong with that of wide symbols,
unless it is an escape that asks for more. -/
theorem compile_byte_agrees (bytes : List UInt8) (options : Options) :
    (∀ a, compile .byte (bytes.map Char.ofUInt8) options = .ok a →
      compile .unicode (bytes.map Char.ofUInt8) options = .ok a ∧ ∀ c ∈ a.symbols, Encoding.byte.Has c) ∧
    ∀ e, compile .byte (bytes.map Char.ofUInt8) options = .error (.malformed e) → e.fault ≠ .unrepresentable →
      compile .unicode (bytes.map Char.ofUInt8) options = .error (.malformed e) := by
  have hbytes : ∀ c ∈ bytes.map Char.ofUInt8, Encoding.byte.Has c := by
    intro c hc
    obtain ⟨b, -, rfl⟩ := List.mem_map.1 hc
    exact Encoding.has_byte_ofUInt8 b
  generalize bytes.map Char.ofUInt8 = pattern at hbytes ⊢
  have hcompile : compile .byte pattern options = compile .unicode pattern options ∨
      ∃ offset, compile .byte pattern options = .error (.malformed ⟨.unrepresentable, offset⟩) := by
    rcases NodeList.parse_narrows pattern options with h | ⟨offset, h⟩
    · exact .inl (by rw [compile, compile, h])
    · exact .inr ⟨offset, by rw [compile, h]⟩
  constructor
  · intro a ha
    refine ⟨?_, Automaton.has_of_compile hbytes ha⟩
    rcases hcompile with h | ⟨offset, h⟩
    · rw [← h, ha]
    · rw [h] at ha
      cases ha
  · intro e he hfault
    rcases hcompile with h | ⟨offset, h⟩
    · rw [← h, he]
    · rw [h] at he
      cases he
      exact absurd rfl hfault

theorem compile_byte_agrees_escaped :
    (∃ a, compile .byte ([0x61, 0x7C, 0x5C, 0x78, 0x46, 0x46].map Char.ofUInt8) {} = .ok a ∧
      compile .unicode ([0x61, 0x7C, 0x5C, 0x78, 0x46, 0x46].map Char.ofUInt8) {} = .ok a ∧
      ∀ c ∈ a.symbols, Encoding.byte.Has c) ∧
    compile .byte ([0x28, 0xE9].map Char.ofUInt8) {} = .error (.malformed ⟨.unclosedGroup, 0⟩) ∧
      compile .unicode ([0x28, 0xE9].map Char.ofUInt8) {} = .error (.malformed ⟨.unclosedGroup, 0⟩) :=
  ⟨⟨_, rfl, (compile_byte_agrees [0x61, 0x7C, 0x5C, 0x78, 0x46, 0x46] {}).1 _ rfl⟩,
    rfl, (compile_byte_agrees [0x28, 0xE9] {}).2 _ rfl (by decide)⟩

end RegexAutomaton
