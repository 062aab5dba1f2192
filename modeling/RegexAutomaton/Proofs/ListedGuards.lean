/-
Guards are known from their listings.

The listing of a guard is a text of a pattern, so it is read as tokens
(`Guard.spellsAll_text`), and the tokens tell which guard it is (`Guard.ofTokens_tokens`)
if the guard is the plainest for what it holds, as those of nodes are
(`Guard.legible_of_ofKind?`). The listing of a symbol may start that of a run, as both may
start with a quote; what stands after a guard tells the two apart
(`Guard.text_append_inj`).
-/
import RegexAutomaton.Proofs.CollapsedSets
import RegexAutomaton.Proofs.EscapedText
import RegexAutomaton.Proofs.WrittenSets

namespace RegexAutomaton

/-! ## Literals in a row -/

/-- What is written for a repetition is nothing, or starts with a symbol that has a meaning
of its own. -/
theorem Repetition.text_eq_nil_or (r : Repetition) : r.text = [] ∨ ∃ m : Metachar, ∃ own, r.text = m.toChar :: own := by
  unfold text
  split
  · exact .inl rfl
  split
  · exact .inr ⟨.star, [], rfl⟩
  split
  · exact .inr ⟨.plus, [], rfl⟩
  split
  · exact .inr ⟨.question, [], rfl⟩
  split
  · exact .inr ⟨.openRepeat, _, rfl⟩
  · split <;> exact .inr ⟨.openRepeat, _, rfl⟩

namespace Token

variable {encoding : Encoding} {text rest more : List Char} {c : Char} {symbols : List Char}

/-- The tokens of some literals in a row. -/
def literals (symbols : List Char) : List Token := symbols.map fun c => atom (.literal c)

theorem spellsAll_literals (h : ∀ c ∈ symbols, encoding.Has c) :
    (read encoding).SpellsAll (Escape.writeAll symbols) (literals symbols) := by
  have hvalues (symbols : List Char) : (Phrase.literals symbols).values = literals symbols := by
    induction symbols with
    | nil => rfl
    | cons c symbols ih => exact congrArg (List.cons _) ih
  rw [← hvalues]
  exact spellsAll_writeAll h

/-- The symbol that a literal stands for. -/
def literal? : Token → Option Char
  | atom (.literal c) => some c
  | _ => none

theorem filterMap_literals (symbols : List Char) : (literals symbols).filterMap literal? = symbols := by
  rw [literals, List.filterMap_map]
  exact List.filterMap_some

/-- No literal starts with a symbol that has a meaning of its own. -/
theorem ne_metachar_of_spells (h : (read encoding).Spells text (atom (.literal c))) (m : Metachar) :
    m.toChar :: rest ≠ text ++ more := by
  intro heq
  obtain ⟨d, own, rfl, hread⟩ := h
  obtain ⟨rfl, -⟩ := List.cons.inj heq
  have hwritten := read_eq_ok_iff.1 (hread 0 [])
  generalize (m.toChar :: own).length = width at hwritten
  cases hwritten with
  | plain _ hc => exact hc m rfl
  | escape hc _ => exact absurd hc (by cases m <;> decide)

/-- After what is written for a repetition, a blank and a bracket there is no literal but
that blank. -/
theorem eq_of_literals_before {r : Repetition} (h : (read encoding).SpellsAll text (literals symbols))
    (heq : r.text ++ ' ' :: '[' :: rest = text ++ more) : symbols = [] ∨ symbols = [' '] := by
  cases symbols with
  | nil => exact .inl rfl
  | cons c symbols =>
    obtain ⟨⟩ | @⟨first, later, _, _, head, tail⟩ := h
    rw [List.append_assoc] at heq
    rcases r.text_eq_nil_or with hr | ⟨m, own, hr⟩
    · have hblank : (read encoding).Spells [' '] (atom (.literal ' ')) :=
        spells_of_read (read_eq_ok_iff.2 (.plain (by decide) (Metachar.ofChar?_eq_none_iff.1 (by decide))))
      rw [hr] at heq
      obtain ⟨-, hc, hrest⟩ := hblank.append_inj head heq
      obtain rfl : ' ' = c := by simpa using hc
      cases symbols with
      | nil => exact .inr rfl
      | cons d symbols =>
        -- The second literal would have to start with the bracket.
        obtain ⟨⟩ | @⟨second, later, _, _, head, tail⟩ := tail
        rw [List.append_assoc] at hrest
        exact absurd hrest (ne_metachar_of_spells head .openBracket)
    · rw [hr] at heq
      exact absurd heq (ne_metachar_of_spells head m)

end Token

/-! ## Guards -/

namespace Guard

variable {encoding : Encoding} {g h : Guard}

/-- A guard as a pattern can give it: it is made of symbols of the alphabet, and it is the
plainest guard for what it holds. -/
def Legible (encoding : Encoding) : Guard → Prop
  | literal c => encoding.Has c
  | range lo hi => CharSet.Legible encoding ⟨false, [⟨lo, hi⟩]⟩ ∧ ofSet ⟨false, [⟨lo, hi⟩]⟩ = range lo hi
  | set s => s.Legible encoding ∧ ofSet s = set s
  | run symbols => ∀ c ∈ symbols, encoding.Has c
  | _ => True

/-- The plainest guard for a set is legible if the set is. -/
theorem legible_ofSet {s : CharSet} (hs : s.Legible encoding) : (ofSet s).Legible encoding := by
  rcases ofSet_cases s with ⟨-, h⟩ | ⟨c, rfl, h⟩ | ⟨lo, hi, rfl, h⟩ | h <;> rw [h]
  · trivial
  · exact (hs.has _ (List.mem_singleton_self _)).1
  · exact ⟨hs, h⟩
  · exact ⟨hs, h⟩

/-- The guard of a node is legible if the node is. -/
theorem legible_of_ofKind? {kind : NodeKind} (hkind : kind.Legible encoding) (h : ofKind? kind = some g) :
    g.Legible encoding := by
  cases kind with
  | literal symbols =>
    obtain rfl := Option.some.inj h
    match symbols with
    | [] => exact hkind
    | [c] => exact hkind c (List.mem_singleton_self c)
    | _ :: _ :: _ => exact hkind
  | bracket s =>
    obtain rfl := Option.some.inj h
    exact legible_ofSet hkind
  | collapsedStart s =>
    obtain rfl := Option.some.inj h
    rcases hkind with rfl | hs
    · trivial
    · exact legible_ofSet hs
  | groupOpen | dot | anchorStart | anchorEnd =>
    obtain rfl := Option.some.inj h
    trivial
  | _ => cases h

/-- The tokens that the listing of a guard is read as. -/
def tokens : Guard → List Token
  | literal c => [.atom (.literal c)]
  | range lo hi => [.atom (.bracket ⟨false, [⟨lo, hi⟩]⟩)]
  | set s => [.atom (.bracket s)]
  | dot => [.atom .dot]
  | run symbols => Token.literals ('"' :: (symbols ++ ['"']))
  | group => .groupOpen :: (Token.literals ['g', 'r', 'o', 'u', 'p'] ++ [.groupClose])
  | anchorStart => [.anchorStart]
  | anchorEnd => [.anchorEnd]
  | final => .groupOpen :: (Token.literals ['e', 'n', 'd'] ++ [.groupClose])

/-- **The listing of a guard is read as its tokens.** -/
theorem spellsAll_text (hg : g.Legible encoding) : (Token.read encoding).SpellsAll g.text g.tokens := by
  have one {c : Char} {t : Token} (h : Token.WrittenAt encoding 0 c [] t 1) : (Token.read encoding).SpellsAll [c] [t] :=
    (Token.spells_of_read (Token.read_eq_ok_iff.2 h)).one
  have word (symbols : List Char) (hwrite : Escape.writeAll symbols = symbols) (hascii : ∀ c ∈ symbols, c.toNat < 128) :
      (Token.read encoding).SpellsAll ('(' :: (symbols ++ [')']))
        (.groupOpen :: (Token.literals symbols ++ [.groupClose])) := by
    have hsymbols := Token.spellsAll_literals fun c hc => @Encoding.has_of_lt encoding c (hascii c hc)
    rw [hwrite] at hsymbols
    exact (one (.groupOpen rfl)).append (hsymbols.append (one (.groupClose rfl)))
  cases g with
  | literal c => exact (Token.spells_literal (Glyph.spells_write hg)).one
  | range lo hi =>
    have hmem : (⟨lo, hi⟩ : CharRange) ∈ [⟨lo, hi⟩] := List.mem_singleton_self _
    obtain ⟨hlo, hhi⟩ := hg.1.has _ hmem
    exact (Token.spells_bracket (setText_range hlo hhi (hg.1.ordered _ hmem)) hg.1.nodup).one
  | set s => exact (Token.spells_bracket (Bracket.setText_text hg.1) hg.1.nodup).one
  | dot => exact one (.dot rfl)
  | run symbols =>
    have htext : Escape.writeAll ('"' :: (symbols ++ ['"'])) = '"' :: Escape.writeAll symbols ++ ['"'] := by
      simp [Escape.writeAll, show Escape.write '"' = ['"'] by decide]
    show (Token.read encoding).SpellsAll ('"' :: Escape.writeAll symbols ++ ['"']) _
    rw [← htext]
    refine Token.spellsAll_literals fun c hc => ?_
    rcases List.mem_cons.1 hc with rfl | hc
    · exact Encoding.has_of_lt (by decide)
    rcases List.mem_append.1 hc with hc | hc
    · exact hg c hc
    · exact List.mem_singleton.1 hc ▸ Encoding.has_of_lt (by decide)
  | group => exact word ['g', 'r', 'o', 'u', 'p'] (by decide) (by simp)
  | anchorStart => exact one (.anchorStart rfl)
  | anchorEnd => exact one (.anchorEnd rfl)
  | final => exact word ['e', 'n', 'd'] (by decide) (by simp)

/-- The guard whose listing is read as the given tokens. -/
def ofTokens : List Token → Guard
  | [.atom (.literal c)] => literal c
  | [.atom (.bracket s)] => ofSet s
  | [.atom .dot] => dot
  | [.anchorStart] => anchorStart
  | [.anchorEnd] => anchorEnd
  | .groupOpen :: .atom (.literal 'g') :: _ => group
  | .groupOpen :: _ => final
  | quoted => run (quoted.filterMap Token.literal?).tail.dropLast

theorem ofTokens_tokens (hg : g.Legible encoding) : ofTokens g.tokens = g := by
  cases g with
  | literal c => rfl
  | range lo hi => exact hg.2
  | set s => exact hg.2
  | dot => rfl
  | run symbols =>
    have hquoted : ofTokens (run symbols).tokens =
        run ((Token.literals ('"' :: (symbols ++ ['"']))).filterMap Token.literal?).tail.dropLast := by
      cases symbols <;> rfl
    rw [hquoted, Token.filterMap_literals, List.tail_cons, List.dropLast_concat]
  | group => rfl
  | anchorStart => rfl
  | anchorEnd => rfl
  | final => rfl

/-- Where the tokens of one guard go on with more than those of another, the guard is a run. -/
theorem eq_nil_or_literals {later : List Token} (heq : h.tokens = g.tokens ++ later) :
    later = [] ∨ ∃ symbols, later = Token.literals (symbols ++ ['"']) := by
  have hne : g.tokens ≠ [] := by cases g <;> exact List.cons_ne_nil _ _
  have one {t : Token} (heq : [t] = g.tokens ++ later) : later = [] := by
    rcases List.append_eq_singleton_iff.1 heq.symm with ⟨hnil, -⟩ | ⟨-, hlater⟩
    · exact absurd hnil hne
    · exact hlater
  cases h with
  | run symbols =>
    obtain ⟨left, right, hsymbols, -, rfl⟩ := List.map_eq_append_iff.1 heq
    rcases List.eq_nil_or_concat' right with rfl | ⟨init, last, rfl⟩
    · exact .inl rfl
    · have hlast : ('"' :: symbols) ++ ['"'] = (left ++ init) ++ [last] := by rw [List.append_assoc]; exact hsymbols
      obtain rfl := (List.append_singleton_inj.1 hlast).2
      exact .inr ⟨init, rfl⟩
  | group =>
    cases g with
    | group => exact .inl (List.append_right_eq_self.1 heq.symm)
    | _ => cases heq
  | final =>
    cases g with
    | final => exact .inl (List.append_right_eq_self.1 heq.symm)
    | _ => cases heq
  | _ => exact .inl (one heq)

/-- A guard whose listing starts as that of another is the other guard. -/
theorem eq_of_tokens_append (hg : g.Legible encoding) (hh : h.Legible encoding) {r : Repetition}
    {part rest more : List Char} {later : List Token} (htokens : h.tokens = g.tokens ++ later)
    (hpart : (Token.read encoding).SpellsAll part later) (heq : r.text ++ ' ' :: '[' :: rest = part ++ more) :
    g = h ∧ part = [] := by
  obtain rfl : later = [] := by
    rcases eq_nil_or_literals htokens with hnil | ⟨symbols, rfl⟩
    · exact hnil
    -- What a run has left ends with its quote, so it is not the blank alone.
    · rcases Token.eq_of_literals_before hpart heq with hsymbols | hsymbols <;> cases symbols <;> simp at hsymbols
  rw [List.append_nil] at htokens
  cases hpart
  exact ⟨by rw [← ofTokens_tokens hg, ← htokens, ofTokens_tokens hh], rfl⟩

/-- **A guard is known from its listing**, where a repetition, a blank and a bracket follow. -/
theorem text_append_inj (hg : g.Legible encoding) (hh : h.Legible encoding) {r q : Repetition} {rest rest' : List Char}
    (heq : g.text ++ (r.text ++ ' ' :: '[' :: rest) = h.text ++ (q.text ++ ' ' :: '[' :: rest')) :
    g = h ∧ r.text ++ ' ' :: '[' :: rest = q.text ++ ' ' :: '[' :: rest' := by
  rcases (spellsAll_text hg).append_cases (spellsAll_text hh) heq with
    ⟨part, later, htokens, hpart, hrest⟩ | ⟨part, later, htokens, hpart, hrest⟩
  · obtain ⟨hguard, rfl⟩ := eq_of_tokens_append hg hh htokens hpart hrest
    exact ⟨hguard, hrest⟩
  · obtain ⟨hguard, rfl⟩ := eq_of_tokens_append hh hg htokens hpart hrest
    exact ⟨hguard.symm, hrest.symm⟩

/-- A guard that is not the plainest for its set may be listed as another guard. -/
example : (set ⟨false, [⟨'a', 'c'⟩]⟩).text = (range 'a' 'c').text := by decide

end Guard

end RegexAutomaton
