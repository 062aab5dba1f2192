/-
Escaped text.

What is written for some symbols is a pattern for just these symbols
(`compile_writeAll`). It is read as literals, each as wide as what is written for it,
so nothing in it stands for anything else; the literals are joined into one run, and
the guard of that run asks for the symbols in a row (`Guard.matchAt?_ofRun`).
-/
import RegexAutomaton.Proofs.PhraseTokens
import RegexAutomaton.Proofs.Writing

namespace RegexAutomaton

/-! ## Reading -/

namespace Escape

variable {encoding : Encoding} {symbols : List Char} {c d : Char}

theorem toNat_hexDigit_lt : ∀ {d : Nat}, d < 16 → (hexDigit d).toNat < 128
  | 0, _ | 1, _ | 2, _ | 3, _ | 4, _ | 5, _ | 6, _ | 7, _ | 8, _ | 9, _
  | 10, _ | 11, _ | 12, _ | 13, _ | 14, _ | 15, _ => by decide
  | _ + 16, h => absurd h (by omega)

theorem toNat_lt_of_mem_hexDigits {places n : Nat} (h : d ∈ hexDigits places n) : d.toNat < 128 := by
  induction places generalizing n with
  | zero => cases h
  | succ places ih =>
    rcases List.mem_append.1 h with h | h
    · exact ih h
    · obtain rfl := List.mem_singleton.1 h
      exact toNat_hexDigit_lt (Nat.mod_lt n (by decide))

/-- What is written for a symbol belongs to its alphabet. -/
theorem has_of_mem_write (hc : encoding.Has c) (h : d ∈ write c) : encoding.Has d := by
  have escaped {letter : Char} {places n : Nat} (hletter : letter.toNat < 128)
      (h : d ∈ backslash :: letter :: hexDigits places n) : encoding.Has d := by
    refine Encoding.has_of_lt ?_
    rcases List.mem_cons.1 h with rfl | h
    · decide
    rcases List.mem_cons.1 h with rfl | h
    · exact hletter
    · exact toNat_lt_of_mem_hexDigits h
  have special (h : d ∈ [backslash, c]) : encoding.Has d := by
    rcases List.mem_cons.1 h with rfl | h
    · exact Encoding.has_of_lt (by decide)
    · exact List.mem_singleton.1 h ▸ hc
  have plain (h : d ∈ [c]) : encoding.Has d := List.mem_singleton.1 h ▸ hc
  unfold write at h
  split at h
  · exact @escaped 'n' 0 0 (by decide) h
  split at h
  · exact @escaped 'r' 0 0 (by decide) h
  split at h
  · exact @escaped 't' 0 0 (by decide) h
  split at h
  · exact special h
  split at h
  · exact plain h
  split at h
  · exact escaped (by decide) h
  split at h
  · exact escaped (by decide) h
  · exact plain h

/-- What is written for some symbols, as it is to be read: each of them as a literal,
the first at the given offset. -/
def glyphs : (offset : Nat) → List Char → List (Spanned Glyph)
  | _, [] => []
  | offset, c :: symbols =>
    ⟨.literal c, offset, (write c).length⟩ :: glyphs (offset + (write c).length) symbols

/-- **What is written for some symbols is read as these**, and nothing is left. -/
theorem scanFrom_writeAll (h : ∀ c ∈ symbols, encoding.Has c) (offset : Nat) :
    (Glyph.read encoding).scanFrom 0 offset (writeAll symbols) =
      ⟨glyphs offset symbols, offset + (writeAll symbols).length, none⟩ := by
  induction symbols generalizing offset with
  | nil => rfl
  | cons c symbols ih =>
    obtain ⟨hc, hsymbols⟩ := List.forall_mem_cons.1 h
    have htext : writeAll (c :: symbols) = write c ++ writeAll symbols := rfl
    rw [htext, (Glyph.spells_write hc).scanFrom, ih hsymbols, List.length_append, Nat.add_assoc]
    rfl

end Escape

/-! ## Literals in a row -/

theorem NodeKind.isStructural_literal (symbols : List Char) : (literal symbols).isStructural = false := rfl

namespace Outline

/-- The outline of some literals. -/
def literals : List Char → Outline
  | [] => nil
  | c :: symbols => leaf (.literal [c]) (NodeKind.isStructural_literal [c]) (literals symbols)

theorem barred_literals (symbols : List Char) : (literals symbols).barred = false := by
  induction symbols with
  | nil => rfl
  | cons c symbols ih => exact ih

theorem collapse_literals (symbols : List Char) : (literals symbols).collapse = literals symbols := by
  induction symbols with
  | nil => rfl
  | cons c symbols ih => simp only [literals, collapse, ih]

theorem lone?_literals (c : Char) (symbols : List Char) : lone? (.literal [c]) (literals symbols) = some c := by
  cases symbols <;> rfl

theorem run_literals (symbols : List Char) : (literals symbols).run = symbols := by
  induction symbols with
  | nil => rfl
  | cons c symbols ih => simp only [literals, run, lone?_literals, ih]

theorem coalesce_true_literals (symbols : List Char) : (literals symbols).coalesce true = inert symbols.length nil := by
  induction symbols with
  | nil => rfl
  | cons c symbols ih =>
    simp only [literals, coalesce, lone?_literals, ih, if_true]
    rfl

/-- Literals in a row become one run. -/
theorem rewritten_literals (c : Char) (symbols : List Char) :
    (literals (c :: symbols)).rewritten {} =
      leaf (.literal (c :: symbols)) (NodeKind.isStructural_literal _) (inert symbols.length nil) := by
  have hcollapsed : (literals (c :: symbols)).collapsed {} = literals (c :: symbols) := by
    have hset : (literals (c :: symbols)).set? = none := by simp [set?, barred_literals]
    show (literals (c :: symbols)).collapseBody = _
    rw [collapseBody, hset, Option.getD_none, collapse_literals]
  show ((literals (c :: symbols)).collapsed {}).coalesce false = _
  rw [hcollapsed]
  simp only [literals, coalesce, lone?_literals, run_literals, coalesce_true_literals, Bool.false_eq_true, if_false]

theorem states_inert (n : Nat) (c : Setting) (first : Nat) : (inert n nil).states c first = [] := by
  induction n with
  | zero => rfl
  | succ n ih => exact ih

/-- A run alone has one state. -/
theorem exists_states_run (symbols : List Char) (n : Nat) (c : Setting) (first : Nat) :
    ∃ s, (leaf (.literal symbols) (NodeKind.isStructural_literal _) (inert n nil)).states c first = [s] ∧
      s.guard = .ofRun symbols := by
  have hguard : Guard.ofKind? (.literal symbols) = some (.ofRun symbols) := rfl
  rw [states_leaf hguard, states_inert]
  exact ⟨_, rfl, rfl⟩

end Outline

namespace Phrase

variable {symbols : List Char}

/-- The phrase of some literals. -/
def literals : List Char → Phrase
  | [] => nil
  | c :: symbols => leaf ⟨.atom (.literal c), 0, 0⟩ (Token.isLeaf_atom _) (literals symbols)

theorem outline_literals (symbols : List Char) : (literals symbols).outline = .literals symbols := by
  induction symbols with
  | nil => rfl
  | cons c symbols ih =>
    have hbar : (⟨.atom (.literal c), 0, 0⟩ : Spanned Token).value ≠ .bar := nofun
    rw [literals, outline_leaf hbar, ih]
    rfl

theorem checks_literals (symbols : List Char) : (literals symbols).Checks := by
  have hchain {before : Role} (hbefore : before = .start ∨ before = .atom) :
      List.IsChain Role.Admits (before :: ((literals symbols).roles ++ [.finish])) := by
    induction symbols generalizing before with
    | nil => rcases hbefore with rfl | rfl <;> simp [literals, Role.Admits, Role.refusal?]
    | cons c symbols ih =>
      have hatom : before.Admits .atom := by rcases hbefore with rfl | rfl <;> rfl
      exact List.isChain_cons_cons.2 ⟨hatom, ih (.inr rfl)⟩
  exact hchain (.inl rfl)

/-- The automaton of some literals has one state besides those that are final. -/
theorem exists_state_literals (hne : symbols ≠ []) (stop : Nat) :
    ∃ s, ((literals symbols).automaton stop {}).states = [s, (State.final 1).looped, (State.final 2).looped] ∧
      s.guard = .ofRun symbols := by
  obtain ⟨c, rest, rfl⟩ := List.exists_cons_of_ne_nil hne
  obtain ⟨s, hstates, hguard⟩ := Outline.exists_states_run (c :: rest) rest.length
    (.top ((Outline.literals (c :: rest)).rewritten {}).size) 0
  rw [← Outline.rewritten_literals] at hstates
  refine ⟨s.connected, ?_, hguard⟩
  rw [automaton, outline_literals, hstates]
  rfl

end Phrase

theorem Token.spellsAll_writeAll {encoding : Encoding} {symbols : List Char} (h : ∀ c ∈ symbols, encoding.Has c) :
    (read encoding).SpellsAll (Escape.writeAll symbols) (Phrase.literals symbols).values := by
  induction symbols with
  | nil => exact .nil
  | cons c symbols ih =>
    obtain ⟨hc, hsymbols⟩ := List.forall_mem_cons.1 h
    exact .cons (spells_literal (Glyph.spells_write hc)) (ih hsymbols)

/-! ## Matching -/

/-- The guard of a run matches exactly where the text goes on with the run. -/
theorem Guard.matchAt?_ofRun {symbols : List Char} (hne : symbols ≠ []) (text : List Char) (position : Nat) :
    (ofRun symbols).matchAt? text position = if symbols <+: text.drop position then some symbols.length else none := by
  match symbols with
  | [c] =>
    have hprefix : [c] <+: text.drop position ↔ text[position]?.any (literal c).matchesFirst := by
      rw [← List.head?_drop]
      cases text.drop position <;> simp [matchesFirst]
    simp only [ofRun, matchAt?, hprefix]
    rfl
  | c :: d :: symbols =>
    have hinside (h : c :: d :: symbols <+: text.drop position) : position ≤ text.length := by
      by_contra hout
      rw [List.drop_of_length_le (by omega)] at h
      cases List.prefix_nil.1 h
    simp only [ofRun, matchAt?, List.isPrefixOf_iff_prefix]
    by_cases h : c :: d :: symbols <+: text.drop position
    · rw [if_pos h, if_pos ⟨hinside h, h⟩]
    · rw [if_neg h, if_neg fun hboth => h hboth.2]

/-! ## Patterns -/

section

variable {encoding : Encoding} {symbols : List Char}

/-- **What is written for some symbols is a pattern for just these symbols.** It is read
as these, each as wide as what is written for it, and accepted whatever the options
are. Its automaton has one state besides those that are final, and this matches where
the text goes on with the symbols, all of them, and nowhere else. -/
theorem compile_writeAll (hne : symbols ≠ []) (hsymbols : ∀ c ∈ symbols, encoding.Has c) :
    (∀ d ∈ Escape.writeAll symbols, encoding.Has d) ∧
      (Glyph.read encoding).scan (Escape.writeAll symbols) =
        ⟨Escape.glyphs 0 symbols, (Escape.writeAll symbols).length, none⟩ ∧
      (∀ options, ∃ list, NodeList.parse encoding (Escape.writeAll symbols) options = .ok list) ∧
      ∃ a s, compile encoding (Escape.writeAll symbols) {} = .ok a ∧
        a.states = [s, (State.final 1).looped, (State.final 2).looped] ∧
        ∀ text position, s.guard.matchAt? text position =
          if symbols <+: text.drop position then some symbols.length else none := by
  have hcompile (options : Options) := compile_of_spellsAll (Token.spellsAll_writeAll hsymbols)
    (Phrase.checks_literals symbols) 0 options
  obtain ⟨s, hstates, hguard⟩ := Phrase.exists_state_literals hne 0
  refine ⟨fun d hd => ?_, ?_, fun options => ?_, _, s, hcompile {}, hstates, fun text position => ?_⟩
  · obtain ⟨symbol, hsymbol, hd⟩ := List.mem_flatMap.1 hd
    exact Escape.has_of_mem_write (hsymbols symbol hsymbol) hd
  · have hscan := Escape.scanFrom_writeAll hsymbols 0
    rwa [Nat.zero_add] at hscan
  · obtain ⟨list, hparse, -⟩ := exists_parse_of_compile (hcompile options)
    exact ⟨list, hparse⟩
  · rw [hguard, Guard.matchAt?_ofRun hne]

/-- A backslash before what would be an escape with it, and escapes before what could be
one more of their digits. -/
theorem compile_writeAll_mixed :
    ∃ a s, compile .unicode
          ['\\', '\\', 'x', '4', '\\', 'n', '\\', 'x', '0', '7', 'A', '\\', '(', '\\', 'u', '2', '0', 'A', 'C', '0']
          {} = .ok a ∧
      a.states = [s, (State.final 1).looped, (State.final 2).looped] ∧
      ∀ text position, s.guard.matchAt? text position =
        if ['\\', 'x', '4', '\n', '\x07', 'A', '(', '\u20ac', '0'] <+: text.drop position then some 9 else none := by
  have htext : Escape.writeAll ['\\', 'x', '4', '\n', '\x07', 'A', '(', '\u20ac', '0'] =
      ['\\', '\\', 'x', '4', '\\', 'n', '\\', 'x', '0', '7', 'A', '\\', '(', '\\', 'u', '2', '0', 'A', 'C', '0'] := by
    decide
  obtain ⟨-, -, -, a, s, hcompile, hstates, hmatch⟩ := @compile_writeAll .unicode
    ['\\', 'x', '4', '\n', '\x07', 'A', '(', '\u20ac', '0'] (by simp) fun c _ => Encoding.has_unicode c
  rw [htext] at hcompile
  exact ⟨a, s, hcompile, hstates, hmatch⟩

end

end RegexAutomaton
