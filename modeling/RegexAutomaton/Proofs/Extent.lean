/-
How far a number, an escape and a bracket reach.

Nothing stands in a number but digits, blanks and a mark (`Numeral.mayHold_of_read`),
and after the first symbol of an escape nothing but digits (`Escape.digits_of_read`). An
escape is read from these symbols alone (`Escape.exists_own`), and a bracket that can be
read ends where `Bracket.extent?` says (`Bracket.extent?_of_read`).
-/
import Mathlib.Data.List.TakeWhile
import RegexAutomaton.Proofs.Reads
import RegexAutomaton.Token

namespace RegexAutomaton

/-! ## Numbers -/

namespace Numeral

/-- A symbol that may stand in a number: a digit, a blank, or the mark of a
hexadecimal number. -/
def MayHold (c : Char) : Prop :=
  isBlank c ∨ c = 'x' ∨ c = 'X' ∨ (Base.hexadecimal.digit? c).isSome

instance : DecidablePred MayHold := fun _ => inferInstanceAs (Decidable (_ ∨ _))

theorem MayHold.ne {c d : Char} (h : MayHold c) (hd : ¬ MayHold d) : c ≠ d := by
  intro heq
  subst heq
  exact hd h

theorem digits_of_valueOf {base : Base} {value offset n : Nat} {digits : List Char}
    (h : valueOf base value offset digits = .ok n) : ∀ d ∈ digits, (base.digit? d).isSome := by
  induction digits generalizing value offset with
  | nil => simp
  | cons c digits ih =>
    simp only [valueOf] at h
    split at h
    · cases h
    · rename_i d hd
      split at h
      · simp only [List.mem_cons, forall_eq_or_imp]
        exact ⟨by rw [hd]; rfl, ih h⟩
      · cases h

theorem valueOf_shift {base : Base} {value offset n : Nat} {digits : List Char}
    (h : valueOf base value offset digits = .ok n) (offset' : Nat) :
    valueOf base value offset' digits = .ok n := by
  induction digits generalizing value offset offset' with
  | nil => exact h
  | cons c digits ih =>
    simp only [valueOf] at h ⊢
    cases hd : base.digit? c with
    | none => simp [hd] at h
    | some d =>
      simp only [hd] at h ⊢
      by_cases hle : value * base.size + d ≤ greatest
      · rw [if_pos hle] at h ⊢
        exact ih h (offset' + 1)
      · simp [if_neg hle] at h

theorem mayHold_of_digit {base : Base} {c : Char} (h : (base.digit? c).isSome) : MayHold c := by
  refine .inr (.inr (.inr ?_))
  simp only [Base.digit?, Option.isSome_filter, Option.any_eq_true, decide_eq_true_eq] at h ⊢
  obtain ⟨d, hd, hlt⟩ := h
  refine ⟨d, hd, Nat.lt_of_lt_of_le hlt ?_⟩
  cases base <;> decide

theorem isBlank_or_mem_dropWhile {c : Char} {run : List Char} (h : c ∈ run) :
    isBlank c ∨ c ∈ run.dropWhile isBlank := by
  rw [← List.takeWhile_append_dropWhile (p := isBlank) (l := run), List.mem_append] at h
  exact h.imp_left fun h => List.mem_takeWhile_imp h

theorem isBlank_or_mem_trim {c : Char} {run : List Char} (h : c ∈ run) : isBlank c ∨ c ∈ trim run := by
  rcases isBlank_or_mem_dropWhile h with h | h
  · exact .inl h
  · simpa only [trim, List.mem_reverse] using isBlank_or_mem_dropWhile (List.mem_reverse.2 h)

theorem mayHold_of_readIn {base : Base} {offset n : Nat} {run : List Char}
    (h : readIn base offset run = .ok n) : ∀ c ∈ run, MayHold c := by
  intro c hc
  rcases isBlank_or_mem_trim hc with hc | hc
  · exact .inl hc
  · unfold readIn at h
    split at h
    · cases h
    · next heq => exact mayHold_of_digit (digits_of_valueOf h c (heq ▸ hc))

theorem afterHexMark?_eq_some {text digits : List Char} (h : afterHexMark? text = some digits) :
    ∃ mark, (mark = 'x' ∨ mark = 'X') ∧ text = '0' :: mark :: digits := by
  unfold afterHexMark? at h
  split at h
  · split at h
    · next hmark =>
      obtain ⟨rfl, hmark⟩ := hmark
      obtain rfl := Option.some.inj h
      exact ⟨_, hmark, rfl⟩
    · cases h
  · cases h

/-- Nothing but digits, blanks and a mark stands in a number. -/
theorem mayHold_of_read {offset n : Nat} {run : List Char} (h : read offset run = .ok n) :
    ∀ c ∈ run, MayHold c := by
  unfold read at h
  split at h
  · next digits hmark =>
    obtain ⟨mark, hm, htrim⟩ := afterHexMark?_eq_some hmark
    intro c hc
    rcases isBlank_or_mem_trim hc with hc | hc
    · exact .inl hc
    · rw [htrim, List.mem_cons, List.mem_cons] at hc
      rcases hc with rfl | rfl | hc
      · exact .inr (.inr (.inr (by decide)))
      · exact .inr (hm.imp_right .inl)
      · exact mayHold_of_readIn h c hc
  · exact mayHold_of_readIn h

end Numeral

/-! ## Escapes -/

namespace Escape

theorem digits_of_readCode {encoding : Encoding} {places offset width : Nat} {short : Fault}
    {rest : List Char} {symbol : Char}
    (h : readCode encoding places short offset rest = .ok (symbol, width)) :
    ∃ digits more, rest = digits ++ more ∧ width = digits.length + 2 ∧
      ∀ d ∈ digits, Numeral.MayHold d := by
  unfold readCode at h
  split at h
  · cases h
  · next hlen =>
    split at h
    · cases h
    · next n hvalue =>
      split at h
      · obtain ⟨rfl, rfl⟩ := Prod.mk.inj (Except.ok.inj h)
        refine ⟨rest.take places, rest.drop places, (List.take_append_drop ..).symm, ?_, ?_⟩
        · rw [List.length_take]
          omega
        · exact fun d hd => Numeral.mayHold_of_digit (Numeral.digits_of_valueOf hvalue d hd)
      · cases h

/-- After the backslash an escape is one symbol and perhaps some digits. -/
theorem digits_of_read {encoding : Encoding} {offset width : Nat} {rest : List Char} {symbol : Char}
    (h : read encoding offset rest = .ok (symbol, width)) :
    ∃ c digits more, rest = c :: digits ++ more ∧ width = digits.length + 2 ∧
      ∀ d ∈ digits, Numeral.MayHold d := by
  have code {places : Nat} {short : Fault} {c : Char} {rest : List Char}
      (h : readCode encoding places short offset rest = .ok (symbol, width)) :
      ∃ c' digits more, c :: rest = c' :: digits ++ more ∧ width = digits.length + 2 ∧
        ∀ d ∈ digits, Numeral.MayHold d := by
    obtain ⟨digits, more, rfl, hwidth, hdigits⟩ := digits_of_readCode h
    exact ⟨c, digits, more, rfl, hwidth, hdigits⟩
  have plain {s c : Char} {rest : List Char}
      (h : (.ok (s, 2) : Except SyntaxError (Char × Nat)) = .ok (symbol, width)) :
      ∃ c' digits more, c :: rest = c' :: digits ++ more ∧ width = digits.length + 2 ∧
        ∀ d ∈ digits, Numeral.MayHold d := by
    obtain ⟨rfl, rfl⟩ := Prod.mk.inj (Except.ok.inj h)
    exact ⟨c, [], rest, rfl, rfl, by simp⟩
  cases rest with
  | nil => cases h
  | cons c rest =>
    simp only [read] at h
    split at h
    · exact code h
    · split at h
      · exact code h
      · split at h
        · exact plain h
        · split at h
          · exact plain h
          · split at h
            · exact plain h
            · exact plain h

section

variable {encoding : Encoding} {offset width : Nat} {rest : List Char} {symbol : Char}

theorem readCode_append {places : Nat} {short : Fault}
    (h : readCode encoding places short offset rest = .ok (symbol, width)) (offset' : Nat)
    (more : List Char) : readCode encoding places short offset' (rest ++ more) = .ok (symbol, width) := by
  unfold readCode at h ⊢
  by_cases hlen : rest.length < places
  · simp [hlen] at h
  · have hlen' : ¬ (rest ++ more).length < places := by
      rw [List.length_append]
      omega
    have htake : (rest ++ more).take places = rest.take places := List.take_append_of_le_length (by omega)
    rw [if_neg hlen] at h
    rw [if_neg hlen', htake]
    cases hvalue : Numeral.valueOf .hexadecimal 0 (offset + 2) (rest.take places) with
    | error e => simp [hvalue] at h
    | ok n =>
      rw [hvalue] at h
      rw [Numeral.valueOf_shift hvalue]
      cases hsymbol : encoding.symbol? n with
      | none => simp [hsymbol] at h
      | some c => simpa [hsymbol] using h

theorem read_append (h : read encoding offset rest = .ok (symbol, width)) (offset' : Nat)
    (more : List Char) : read encoding offset' (rest ++ more) = .ok (symbol, width) := by
  cases rest with
  | nil => cases h
  | cons c rest =>
    simp only [List.cons_append, read] at h ⊢
    by_cases hx : c = 'x'
    · rw [if_pos hx] at h ⊢
      exact readCode_append h offset' more
    · rw [if_neg hx] at h ⊢
      by_cases hu : c = 'u'
      · rw [if_pos hu] at h ⊢
        exact readCode_append h offset' more
      · rw [if_neg hu] at h ⊢
        exact h

theorem readCode_take {places : Nat} {short : Fault}
    (h : readCode encoding places short offset rest = .ok (symbol, width)) :
    width = (rest.take places).length + 2 ∧
      readCode encoding places short 0 (rest.take places) = .ok (symbol, width) := by
  unfold readCode at h ⊢
  split at h
  · cases h
  next hlen =>
  have htake : (rest.take places).length = places := List.length_take_of_le (by omega)
  split at h
  · cases h
  next n hvalue =>
  rw [if_neg (by omega), List.take_take, Nat.min_self, Numeral.valueOf_shift hvalue, htake]
  cases hsymbol : encoding.symbol? n with
  | none => simp [hsymbol] at h
  | some c =>
    simp only [hsymbol] at h ⊢
    exact ⟨(Prod.mk.inj (Except.ok.inj h)).2.symm, h⟩

/-- An escape is read from its own symbols. -/
theorem exists_own (h : read encoding offset rest = .ok (symbol, width)) :
    ∃ code more, rest = code ++ more ∧ width = code.length + 1 ∧ read encoding 0 code = .ok (symbol, width) := by
  cases rest with
  | nil => cases h
  | cons c rest =>
    have plain {s : Char} (hread : read encoding 0 [c] = .ok (s, 2))
        (h : (.ok (s, 2) : Except SyntaxError (Char × Nat)) = .ok (symbol, width)) :
        ∃ code more, c :: rest = code ++ more ∧ width = code.length + 1 ∧
          read encoding 0 code = .ok (symbol, width) := by
      obtain ⟨rfl, rfl⟩ := Prod.mk.inj (Except.ok.inj h)
      exact ⟨[c], rest, rfl, rfl, hread⟩
    simp only [read] at h
    split at h
    · next hx =>
      obtain ⟨hwidth, hread⟩ := readCode_take h
      exact ⟨c :: rest.take 2, rest.drop 2, by simp, hwidth, by rw [read, if_pos hx, hread]⟩
    split at h
    · next hx hu =>
      obtain ⟨hwidth, hread⟩ := readCode_take h
      exact ⟨c :: rest.take 4, rest.drop 4, by simp, hwidth, by rw [read, if_neg hx, if_pos hu, hread]⟩
    split at h
    · next hx hu hn => exact plain (by simp [read, hn]) h
    split at h
    · next hx hu hn hr => exact plain (by simp [read, hr]) h
    split at h
    · next hx hu hn hr ht => exact plain (by simp [read, ht]) h
    · next hx hu hn hr ht => exact plain (by simp [read, hx, hu, hn, hr, ht]) h

end

theorem indexOf?_self (target : Char) (rest : List Char) :
    indexOf? target (target :: rest) = some 0 := by
  rw [indexOf?.eq_def]
  simp only [↓reduceIte]

theorem indexOf?_escaped {target : Char} (ht : backslash ≠ target) (c : Char) (rest : List Char) :
    indexOf? target (backslash :: c :: rest) = (indexOf? target rest).map (· + 2) := by
  rw [indexOf?.eq_def]
  simp only [if_neg ht, ↓reduceIte]

theorem indexOf?_cons {target c : Char} (rest : List Char) (ht : c ≠ target) (hb : c ≠ backslash) :
    indexOf? target (c :: rest) = (indexOf? target rest).map (· + 1) := by
  rw [indexOf?.eq_def]
  simp only [if_neg ht, if_neg hb]

theorem indexOf?_eq_some {target : Char} {text : List Char} {k : Nat}
    (h : indexOf? target text = some k) : ∃ left right, text = left ++ target :: right ∧ left.length = k := by
  induction text using indexOf?.induct target generalizing k with
  | case1 => cases h
  | case2 rest =>
    rw [indexOf?_self, Option.some.injEq] at h
    exact ⟨[], rest, rfl, h⟩
  | case3 ht =>
    rw [indexOf?.eq_def] at h
    simp [if_neg ht] at h
  | case4 c rest ht ih =>
    rw [indexOf?_escaped ht, Option.map_eq_some_iff] at h
    obtain ⟨k', hk, rfl⟩ := h
    obtain ⟨left, right, rfl, rfl⟩ := ih hk
    exact ⟨backslash :: c :: left, right, rfl, rfl⟩
  | case5 c rest ht hb ih =>
    rw [indexOf?_cons rest ht hb, Option.map_eq_some_iff] at h
    obtain ⟨k', hk, rfl⟩ := h
    obtain ⟨left, right, rfl, rfl⟩ := ih hk
    exact ⟨c :: left, right, rfl, rfl⟩

/-- Symbols of which none is the one looked for, or a backslash, are passed. -/
theorem indexOf?_append {target : Char} {passed : List Char} (rest : List Char)
    (h : ∀ c ∈ passed, c ≠ target ∧ c ≠ backslash) :
    indexOf? target (passed ++ rest) = (indexOf? target rest).map (· + passed.length) := by
  induction passed with
  | nil => simp
  | cons c passed ih =>
    obtain ⟨ht, hb⟩ := h c (by simp)
    rw [List.cons_append, indexOf?_cons _ ht hb, ih fun d hd => h d (by simp [hd]), Option.map_map]
    rfl

end Escape

/-! ## Brackets -/

namespace Bracket

open Escape

variable {encoding : Encoding} {first offset width : Nat} {text rest : List Char} {c : Char} {e : Element}

theorem element_eq_ok (h : element encoding first offset c rest = .ok (e, width)) :
    (c = ']' → offset = first) ∧
      ((c ≠ backslash ∧ width = 1) ∨
        (c = backslash ∧ ∃ x digits more, rest = x :: digits ++ more ∧ width = digits.length + 2 ∧
          ∀ d ∈ digits, Numeral.MayHold d)) := by
  unfold element at h
  split at h
  · cases h
  · next hclose =>
    refine ⟨fun hc => Classical.byContradiction fun ho => hclose ⟨hc, ho⟩, ?_⟩
    split at h
    · next hb =>
      split at h
      · next hread =>
        obtain ⟨rfl, rfl⟩ := Prod.mk.inj (Except.ok.inj h)
        exact .inr ⟨hb, digits_of_read hread⟩
      · cases h
    · next hb =>
      obtain ⟨rfl, rfl⟩ := Prod.mk.inj (Except.ok.inj h)
      exact .inl ⟨hb, rfl⟩

theorem element_eq_closed (h : element encoding first offset c rest = .error .closed) : c = ']' := by
  unfold element at h
  split at h
  · next hclose => exact hclose.1
  · split at h
    · split at h <;> cases h
    · cases h

theorem fits_element (encoding : Encoding) (first : Nat) : (element encoding first).Fits := by
  intro offset c rest e width h
  obtain ⟨-, ⟨-, rfl⟩ | ⟨-, x, digits, more, rfl, rfl, -⟩⟩ := element_eq_ok h
  · exact ⟨by decide, by omega⟩
  · simp only [List.length_append, List.length_cons]
    omega

theorem ranges_cons_of_ne_dash {lo : Spanned Element} {rest : List (Spanned Element)}
    (h : ∀ middle ∈ rest.head?, middle.value ≠ dash) :
    ranges (lo :: rest) = (ranges rest).map (.single lo.value.symbol :: ·) := by
  rcases rest with _ | ⟨middle, _ | ⟨hi, rest⟩⟩
  · rfl
  · rfl
  · rw [ranges, if_neg (h middle rfl)]

/-- A bracket can be read if its elements can be, up to a closing bracket, and joined. -/
theorem read_eq_ok_iff {set : CharSet} :
    let first := offset + openingWidth rest
    let scan := (element encoding first).scanFrom 0 first (body rest)
    read encoding offset rest = .ok (set, width) ↔ ∃ members, ranges scan.pieces = .ok members ∧
      scan.reason = some .closed ∧ set = ⟨isNegated rest, members.eraseDups⟩ ∧ width = scan.stop + 1 - offset := by
  intro first scan
  constructor
  · intro h
    unfold read at h
    simp only at h
    split at h
    · cases h
    next members hranges =>
    split at h
    · cases h
    · cases h
    next hclosed =>
    obtain ⟨rfl, rfl⟩ := Prod.mk.inj (Except.ok.inj h)
    exact ⟨members, hranges, hclosed, rfl, rfl⟩
  · rintro ⟨members, hranges, hclosed, rfl, rfl⟩
    simp only [scan, first] at hranges hclosed
    simp only [read, hranges, hclosed, scan, first]

theorem element_first (first : Nat) (rest : List Char) :
    element encoding first first ']' rest = .ok (⟨']', false⟩, 1) := by
  simp [element, backslash]

theorem element_closing (h : offset ≠ first) (rest : List Char) :
    element encoding first offset ']' rest = .error .closed := if_pos ⟨rfl, h⟩

/-- An element other than a closing bracket hides none. -/
theorem indexOf?_of_element (h : element encoding first offset c rest = .ok (e, width))
    (hc : c ≠ ']') : indexOf? ']' (c :: rest) = (indexOf? ']' ((c :: rest).drop width)).map (· + width) := by
  rcases (element_eq_ok h).2 with ⟨hb, rfl⟩ | ⟨rfl, x, digits, more, rfl, rfl, hdigits⟩
  · exact indexOf?_cons rest hc hb
  · have hpassed : ∀ d ∈ digits, d ≠ ']' ∧ d ≠ backslash := fun d hd =>
      ⟨(hdigits d hd).ne (by decide), (hdigits d hd).ne (by decide)⟩
    rw [List.cons_append, List.drop_succ_cons, List.drop_succ_cons, List.drop_left, indexOf?_escaped (by decide),
      indexOf?_append more hpassed, Option.map_map]
    rfl

/-- If all elements can be read, their scan ends at the first closing bracket outside an
escape, and it goes on to the end of the text only if there is none. -/
theorem indexOf?_of_elements (ho : first ≤ offset) (hfirst : offset = first → text.head? ≠ some ']')
    (h : ∀ e, ((element encoding first).scanFrom 0 offset text).reason ≠ some (.failed e)) :
    (indexOf? ']' text).map (offset + ·) =
      ((element encoding first).scanFrom 0 offset text).reason.map
        fun _ => ((element encoding first).scanFrom 0 offset text).stop := by
  induction offset, text using Reader.induction_scan (fits_element encoding first) with
  | nil offset => rfl
  | stop offset c rest reason hread =>
    rw [Reader.scanFrom_error _ hread] at h ⊢
    cases reason with
    | failed e => exact absurd rfl (h e)
    | closed =>
      obtain rfl := element_eq_closed hread
      rw [indexOf?_self]
      rfl
  | step offset c rest e width hread ih =>
    obtain ⟨hpos, -⟩ := fits_element encoding first hread
    rw [Reader.scanFrom_step (fits_element encoding first) hread] at h ⊢
    have hc : c ≠ ']' := fun hc => hfirst ((element_eq_ok hread).1 hc) (by rw [hc]; rfl)
    rw [indexOf?_of_element hread hc, ← ih (by omega) (by omega) h, Option.map_map]
    refine congrArg (fun f => Option.map f _) (funext fun k => ?_)
    show offset + (k + width) = offset + width + k
    omega

/-- **A bracket ends where the scan of its elements does**, if all of these can be read. -/
theorem extent?_eq_scan (encoding : Encoding) (offset : Nat) (rest : List Char) :
    let first := offset + openingWidth rest
    let scan := (element encoding first).scanFrom 0 first (body rest)
    (∀ e, scan.reason ≠ some (.failed e)) → extent? rest = scan.reason.map fun _ => scan.stop + 1 - offset := by
  intro first scan h
  have hscan : scan = (element encoding first).scanFrom 0 first (body rest) := rfl
  -- The index of the closing bracket is counted from another place than its offset.
  have shift (place width : Nat) {index : Option Nat} (hwidth : place + 1 = first + width)
      (hindex : index.map (place + ·) = scan.reason.map fun _ => scan.stop) :
      index.map (· + width + openingWidth rest) = scan.reason.map fun _ => scan.stop + 1 - offset := by
    have hshift := congrArg (Option.map (· + 1 - offset)) hindex
    rw [Option.map_map, Option.map_map] at hshift
    refine Eq.trans (congrArg (fun f => index.map f) (funext fun k => ?_)) hshift
    show k + width + openingWidth rest = place + k + 1 - offset
    omega
  unfold extent?
  cases hbody : body rest with
  | nil => rw [hscan, hbody]; rfl
  | cons c more =>
    rw [hbody] at hscan
    by_cases hc : c = ']'
    · subst hc
      rw [Reader.scanFrom_step (fits_element encoding _) (element_first first more)] at hscan
      rw [hscan] at h
      have hindex := indexOf?_of_elements (by omega) (by omega) h
      simp only [if_true]
      exact shift (first + 1) 2 rfl (by rw [hscan]; exact hindex)
    · rw [hscan] at h
      have hindex := indexOf?_of_elements (Nat.le_refl _) (by simpa using hc) h
      simp only [if_neg hc]
      exact shift first 1 rfl (by rw [hscan]; exact hindex)

/-- A bracket that can be read ends where its elements are not looked at. -/
theorem extent?_of_read {encoding : Encoding} {offset width : Nat} {rest : List Char} {set : CharSet}
    (h : read encoding offset rest = .ok (set, width)) : extent? rest = some width := by
  obtain ⟨-, -, hreason, -, rfl⟩ := read_eq_ok_iff.1 h
  rw [extent?_eq_scan encoding offset rest fun e he => by simp [hreason] at he, hreason]
  rfl

theorem length_body (rest : List Char) : (body rest).length + openingWidth rest = rest.length + 1 := by
  unfold body openingWidth isNegated
  cases rest with
  | nil => rfl
  | cons c rest => split <;> simp

theorem width_le_of_extent? {rest : List Char} {width : Nat} (h : extent? rest = some width) :
    0 < width ∧ width ≤ rest.length + 1 := by
  have hbody := length_body rest
  unfold extent? at h
  split at h
  · cases h
  next first more heq =>
  rw [heq, List.length_cons] at hbody
  split at h
  all_goals
    obtain ⟨k, hk, rfl⟩ := Option.map_eq_some_iff.1 h
    obtain ⟨left, right, htext, rfl⟩ := indexOf?_eq_some hk
    have hlen := congrArg List.length htext
    simp only [List.length_append, List.length_cons] at hlen
    omega

end Bracket

end RegexAutomaton
