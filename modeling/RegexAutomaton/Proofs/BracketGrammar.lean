/-
The grammar of brackets.

A bracket is `[` or `[^`, then items, then `]`. An item is a symbol, or two with a dash
between them; a symbol stands for itself or is written as an escape. A `]` in front of
all items is an item, and a dash in front of the closing `]` joins nothing
(`SetText`). `Bracket.read` accepts this grammar and nothing else
(`read_eq_ok_iff_setText`), so a bracket is read from its own symbols alone
(`exists_own`).
-/
import Mathlib.Data.List.Basic
import RegexAutomaton.Proofs.Extent

namespace RegexAutomaton

namespace Bracket

variable {encoding : Encoding} {first offset width : Nat} {text rest own more : List Char} {c : Char}

/-! ## The grammar -/

/-- A symbol of a set as it may be written: as itself, unless it is a backslash, or as
an escape. -/
inductive SymbolText (encoding : Encoding) : List Char → Char → Prop
  | plain {c : Char} (hc : c ≠ Escape.backslash) : SymbolText encoding [c] c
  | escape {code : List Char} {c : Char} (hread : Escape.read encoding 0 code = .ok (c, code.length + 1)) :
      SymbolText encoding (Escape.backslash :: code) c

/-- A dash stands here, and behind it a symbol that does not close the bracket. -/
def JoinsNext (text : List Char) : Prop := ∃ d rest, text = '-' :: d :: rest ∧ d ≠ ']'

/-- An item with the text `after` behind it: a symbol alone, or two that a dash joins. -/
inductive ItemText (encoding : Encoding) (after : List Char) : List Char → CharRange → Prop
  | single {own : List Char} {c : Char} (symbol : SymbolText encoding own c) (alone : ¬ JoinsNext after) :
      ItemText encoding after own (.single c)
  | range {left right : List Char} {lo hi : Char} (low : SymbolText encoding left lo)
      (high : SymbolText encoding right hi) (hopen : right.head? ≠ some ']') (ordered : lo ≤ hi) :
      ItemText encoding after (left ++ '-' :: right) ⟨lo, hi⟩

/-- Items and the bracket that closes them. Where they lead the bracket there has to be
an item, which may start with a closing bracket; later items may not. -/
inductive ItemsText (encoding : Encoding) : (leading : Bool) → List Char → List CharRange → Prop
  | close : ItemsText encoding false [']'] []
  | cons {leading : Bool} {own later : List Char} {r : CharRange} {items : List CharRange}
      (hopen : leading = true ∨ own.head? ≠ some ']') (item : ItemText encoding later own r)
      (tail : ItemsText encoding false later items) : ItemsText encoding leading (own ++ later) (r :: items)

/-- A bracket with these items. A caret behind the opening bracket always negates it. -/
def SetText (encoding : Encoding) (text : List Char) (negated : Bool) (items : List CharRange) : Prop :=
  ∃ own, text = '[' :: (if negated then ['^'] else []) ++ own ∧ (negated = false → own.head? ≠ some '^') ∧
    ItemsText encoding true own items

/-! ## Symbols -/

/-- An element is read from a symbol as it is written. -/
theorem symbolText_of_element {e : Element} (h : element encoding first offset c rest = .ok (e, width)) :
    ∃ own more, c :: rest = own ++ more ∧ own.length = width ∧ SymbolText encoding own e.symbol ∧
      own.head? = some c ∧ (c = ']' → offset = first) ∧ (e = dash → c = '-') := by
  have hplace := (element_eq_ok h).1
  unfold element at h
  split at h
  · cases h
  split at h
  · next hb =>
    subst hb
    split at h
    · next hread =>
      obtain ⟨rfl, rfl⟩ := Prod.mk.inj (Except.ok.inj h)
      obtain ⟨code, more, rfl, rfl, hcode⟩ := Escape.exists_own hread
      exact ⟨Escape.backslash :: code, more, rfl, rfl, .escape hcode, rfl, hplace, nofun⟩
    · cases h
  · next hb =>
    obtain ⟨rfl, rfl⟩ := Prod.mk.inj (Except.ok.inj h)
    exact ⟨[c], rest, rfl, rfl, .plain hb, rfl, hplace, fun hdash => congrArg Element.symbol hdash⟩

theorem SymbolText.ne_nil (h : SymbolText encoding own c) : own ≠ [] := by
  cases h <;> exact List.cons_ne_nil _ _

/-- A symbol as it is written is read as an element, unless it closes the bracket. -/
theorem SymbolText.scanFrom (h : SymbolText encoding own c) (first offset : Nat)
    (hplace : offset = first ∨ own.head? ≠ some ']') (more : List Char) :
    ∃ e : Element, e.symbol = c ∧
      (element encoding first).scanFrom 0 offset (own ++ more) =
        let later := (element encoding first).scanFrom 0 (offset + own.length) more
        { later with pieces := ⟨e, offset, own.length⟩ :: later.pieces } := by
  cases h with
  | plain hb =>
    have hclose : ¬ (c = ']' ∧ offset ≠ first) := fun hc => hplace.elim hc.2 fun hne => hne (congrArg some hc.1)
    have hread : element encoding first offset c more = .ok (⟨c, false⟩, 1) := by
      rw [element, if_neg hclose, if_neg hb]
    exact ⟨⟨c, false⟩, rfl, Reader.scanFrom_step (fits_element encoding first) hread⟩
  | @escape code c hcode =>
    have hread : element encoding first offset Escape.backslash (code ++ more) = .ok (⟨c, true⟩, code.length + 1) := by
      simp [element, Escape.backslash, Escape.read_append hcode offset more]
    have hscan := Reader.scanFrom_step (fits_element encoding first) hread
    rw [List.drop_succ_cons, List.drop_left' rfl] at hscan
    exact ⟨⟨c, true⟩, rfl, hscan⟩

/-- The dash that joins two symbols is read as such. -/
theorem scanFrom_dash (text : List Char) :
    (element encoding first).scanFrom 0 offset ('-' :: text) =
      let later := (element encoding first).scanFrom 0 (offset + 1) text
      { later with pieces := ⟨dash, offset, 1⟩ :: later.pieces } := by
  have hread : element encoding first offset '-' text = .ok (dash, 1) := by
    simp [element, Escape.backslash, dash]
  exact Reader.scanFrom_step (fits_element encoding first) hread

/-! ## Items -/

/-- An element is an item of its own unless a dash joins it to the element behind. -/
theorem ranges_cons_of_not_joinsNext (encoding : Encoding) (lo : Spanned Element) (hfirst : first < offset)
    (h : ¬ JoinsNext text) :
    ranges (lo :: ((element encoding first).scanFrom 0 offset text).pieces) =
      (ranges ((element encoding first).scanFrom 0 offset text).pieces).map (.single lo.value.symbol :: ·) := by
  cases text with
  | nil => rfl
  | cons c rest =>
    by_cases hdash : c = '-'
    · subst hdash
      rw [scanFrom_dash]
      cases rest with
      | nil => rfl
      | cons d rest =>
        obtain rfl : d = ']' := Classical.byContradiction fun hne => h ⟨d, rest, rfl, hne⟩
        rw [Reader.scanFrom_error _ (element_closing (by omega) rest)]
        rfl
    · refine ranges_cons_of_ne_dash fun middle hmiddle hvalue => ?_
      cases hread : element encoding first offset c rest with
      | error reason =>
        rw [Reader.scanFrom_error _ hread] at hmiddle
        cases hmiddle
      | ok found =>
        obtain ⟨-, -, -, -, -, -, -, hc⟩ := symbolText_of_element hread
        rw [Reader.scanFrom_step (fits_element encoding first) hread] at hmiddle
        obtain rfl := Option.some.inj hmiddle
        exact hdash (hc hvalue)

/-- What a dash joins with a symbol is an item, if the rest of the bracket can be read. -/
theorem exists_of_joinsNext {items : List CharRange} {lo : Spanned Element} (h : JoinsNext text)
    (hclosed : ((element encoding first).scanFrom 0 offset text).reason = some .closed)
    (hranges : ranges (lo :: ((element encoding first).scanFrom 0 offset text).pieces) = .ok items) :
    ∃ right later hi items', text = '-' :: right ++ later ∧ SymbolText encoding right hi ∧
      right.head? ≠ some ']' ∧ lo.value.symbol ≤ hi ∧ items = ⟨lo.value.symbol, hi⟩ :: items' ∧
      let scan := (element encoding first).scanFrom 0 (offset + 1 + right.length) later
      scan.reason = some .closed ∧ ranges scan.pieces = .ok items' ∧
        ((element encoding first).scanFrom 0 offset text).stop = scan.stop := by
  obtain ⟨d, rest, rfl, hd⟩ := h
  rw [scanFrom_dash] at hclosed hranges ⊢
  cases hread : element encoding first (offset + 1) d rest with
  | error reason =>
    rw [Reader.scanFrom_error _ hread] at hclosed
    obtain rfl := Option.some.inj hclosed
    exact absurd (element_eq_closed hread) hd
  | ok found =>
    obtain ⟨e, width⟩ := found
    obtain ⟨right, later, htext, rfl, hsymbol, hhead, -, -⟩ := symbolText_of_element hread
    rw [Reader.scanFrom_step (fits_element encoding first) hread, htext, List.drop_left' rfl] at hclosed hranges ⊢
    simp only [ranges, if_true] at hranges
    split at hranges
    · cases hranges
    next hordered =>
    obtain ⟨items', hitems, rfl⟩ := map_eq_ok_iff.1 hranges
    have hopen : right.head? ≠ some ']' := by simpa [hhead] using hd
    exact ⟨right, later, e.symbol, items', rfl, hsymbol, hopen, Char.not_lt.1 hordered, rfl, hclosed, hitems, rfl⟩

/-- **Items that are read are written as the grammar says.** -/
theorem itemsText_of_scanFrom {items : List CharRange} (hle : first ≤ offset)
    (hclosed : ((element encoding first).scanFrom 0 offset text).reason = some .closed)
    (hranges : ranges ((element encoding first).scanFrom 0 offset text).pieces = .ok items) :
    ∃ own more, text = own ++ more ∧
      ((element encoding first).scanFrom 0 offset text).stop + 1 = offset + own.length ∧
      ItemsText encoding (offset == first) own items := by
  -- A range takes three elements at once, so the induction is on how much text is left.
  induction hn : text.length using Nat.strongRecOn generalizing offset text items with
  | ind n ih =>
  subst hn
  cases text with
  | nil => cases hclosed
  | cons c rest =>
  cases hread : element encoding first offset c rest with
  | error reason =>
    rw [Reader.scanFrom_error _ hread] at hclosed hranges ⊢
    obtain rfl := Option.some.inj hclosed
    obtain rfl := element_eq_closed hread
    obtain rfl := Except.ok.inj hranges
    have hne : offset ≠ first := by
      rintro rfl
      rw [element_first] at hread
      cases hread
    refine ⟨[']'], rest, rfl, rfl, ?_⟩
    rw [beq_false_of_ne hne]
    exact .close
  | ok found =>
    obtain ⟨e, width⟩ := found
    obtain ⟨hpos, -⟩ := fits_element encoding first hread
    obtain ⟨left, after, htext, rfl, hsymbol, hhead, hplace, -⟩ := symbolText_of_element hread
    rw [Reader.scanFrom_step (fits_element encoding first) hread, htext, List.drop_left' rfl] at hclosed hranges ⊢
    have hlength : (c :: rest).length = left.length + after.length := by rw [htext, List.length_append]
    have hopen (later : List Char) : (offset == first) = true ∨ (left ++ later).head? ≠ some ']' := by
      rw [List.head?_append, hhead]
      by_cases hc : c = ']'
      · exact .inl (beq_iff_eq.2 (hplace hc))
      · exact .inr (by simpa using hc)
    by_cases hjoins : JoinsNext after
    · obtain ⟨right, later, hi, items', rfl, hright, hhead', hordered, rfl, hclosed', hitems, hscan⟩ :=
        exists_of_joinsNext hjoins hclosed hranges
      have hlt : later.length < (c :: rest).length := by
        rw [hlength, List.length_append]
        omega
      obtain ⟨own, more, rfl, hstop, hown⟩ := ih later.length hlt (by omega) hclosed' hitems rfl
      rw [beq_false_of_ne (by omega)] at hown
      refine ⟨(left ++ '-' :: right) ++ own, more, by simp, ?_,
        .cons (hopen _) (.range hsymbol hright hhead' hordered) hown⟩
      simp only [hscan, List.length_append, List.length_cons]
      omega
    · rw [ranges_cons_of_not_joinsNext _ _ (by omega) hjoins] at hranges
      obtain ⟨items', hitems, rfl⟩ := map_eq_ok_iff.1 hranges
      obtain ⟨own, more, rfl, hstop, hown⟩ := ih after.length (by omega) (by omega) hclosed hitems rfl
      rw [beq_false_of_ne (by omega)] at hown
      have halone : ¬ JoinsNext own := fun ⟨d, rest, hown, hd⟩ => hjoins ⟨d, rest ++ more, by rw [hown]; rfl, hd⟩
      refine ⟨left ++ own, more, by simp, ?_, .cons (by simpa using hopen []) (.single hsymbol halone) hown⟩
      simp only [hstop, List.length_append]
      omega

theorem ItemsText.getLast?_eq {leading : Bool} {items : List CharRange} (h : ItemsText encoding leading own items) :
    own.getLast? = some ']' := by
  induction h with
  | close => rfl
  | cons hopen item tail ih => rw [List.getLast?_append, ih]; rfl

/-- Whether a dash joins something is decided before the closing bracket. -/
theorem ItemsText.joinsNext_of_append {leading : Bool} {items : List CharRange}
    (h : ItemsText encoding leading own items) (more : List Char) (hjoins : JoinsNext (own ++ more)) :
    JoinsNext own := by
  have hlast := h.getLast?_eq
  obtain ⟨d, rest, htext, hd⟩ := hjoins
  rcases own with _ | ⟨c, _ | ⟨d', own⟩⟩
  · cases hlast
  · cases hlast
    cases htext
  · simp only [List.cons_append, List.cons.injEq] at htext
    obtain ⟨rfl, rfl, -⟩ := htext
    exact ⟨d', own, rfl, hd⟩

/-- **Items that are written as the grammar says are read**, up to the bracket that
closes them. -/
theorem ItemsText.scanFrom {items : List CharRange} (h : ItemsText encoding (offset == first) own items)
    (hle : first ≤ offset) (more : List Char) :
    ∃ pieces, (element encoding first).scanFrom 0 offset (own ++ more) =
      ⟨pieces, offset + own.length - 1, some .closed⟩ ∧ ranges pieces = .ok items := by
  generalize hleading : (offset == first) = leading at h
  induction h generalizing offset with
  | close => exact ⟨[], Reader.scanFrom_error _ (element_closing (ne_of_beq_false hleading) more), rfl⟩
  | @cons leading own later r items hopen item tail ih =>
    subst hleading
    rw [beq_iff_eq] at hopen
    have hlater {k : Nat} (hk : first < k) := ih (Nat.le_of_lt hk) (beq_false_of_ne (Nat.ne_of_gt hk))
    cases item with
    | single symbol alone =>
      have hpos := List.length_pos_iff.2 symbol.ne_nil
      obtain ⟨e, rfl, hscan⟩ := symbol.scanFrom first offset hopen (later ++ more)
      obtain ⟨pieces, hlater, hranges⟩ := @hlater (offset + own.length) (by omega)
      have hsingle : ranges (⟨e, offset, own.length⟩ :: pieces) = .ok (.single e.symbol :: items) := by
        have hcons := ranges_cons_of_not_joinsNext encoding ⟨e, offset, own.length⟩
          (Nat.lt_of_le_of_lt hle (Nat.lt_add_of_pos_right hpos)) (mt (tail.joinsNext_of_append more) alone)
        rwa [hlater, hranges] at hcons
      refine ⟨_, ?_, hsingle⟩
      rw [List.append_assoc, hscan, hlater, List.length_append, Nat.add_assoc]
    | @range left right lo hi low high hright ordered =>
      have hpos := List.length_pos_iff.2 low.ne_nil
      obtain ⟨e, rfl, hlow⟩ := low.scanFrom first offset
        (by rwa [List.head?_append_of_ne_nil _ low.ne_nil] at hopen) ('-' :: (right ++ (later ++ more)))
      obtain ⟨e', rfl, hhigh⟩ := high.scanFrom first (offset + left.length + 1) (.inr hright) (later ++ more)
      obtain ⟨pieces, hlater, hranges⟩ := @hlater (offset + left.length + 1 + right.length) (by omega)
      refine ⟨⟨e, offset, left.length⟩ :: ⟨dash, offset + left.length, 1⟩ ::
        ⟨e', offset + left.length + 1, right.length⟩ :: pieces, ?_, ?_⟩
      · have hstop : offset + left.length + 1 + right.length + later.length - 1 =
            offset + (left ++ '-' :: right ++ later).length - 1 := by
          simp only [List.length_append, List.length_cons]
          omega
        rw [List.append_assoc, List.append_assoc, List.cons_append, hlow, scanFrom_dash, hhigh, hlater, hstop]
      · rw [ranges, if_pos rfl, if_neg (Char.not_lt.2 ordered), hranges]
        rfl

/-! ## Brackets -/

/-- What follows a `[` is the rest of the opening and the body. -/
theorem opening_append_body (rest : List Char) :
    rest = (if isNegated rest then ['^'] else []) ++ body rest ∧
      (isNegated rest = false → (body rest).head? ≠ some '^') := by
  by_cases h : isNegated rest = true
  · obtain ⟨rest, rfl⟩ := List.head?_eq_some_iff.1 (eq_of_beq h)
    exact ⟨rfl, nofun⟩
  · have hbody : body rest = rest := if_neg h
    refine ⟨by rw [if_neg h, hbody, List.nil_append], fun _ hhead => h ?_⟩
    rw [isNegated, ← hbody, hhead]
    rfl

/-- An opening is recognised, unless the body starts with the mark of a negated set. -/
theorem opening_eq {negated : Bool} (h : negated = false → own.head? ≠ some '^') :
    isNegated ((if negated then ['^'] else []) ++ own) = negated ∧
      body ((if negated then ['^'] else []) ++ own) = own := by
  cases negated with
  | true => exact ⟨rfl, rfl⟩
  | false =>
    have hplain : isNegated own = false := by simpa [isNegated] using h rfl
    exact ⟨hplain, by simp [body, hplain]⟩

theorem length_opening (rest : List Char) :
    (if isNegated rest then ['^'] else []).length + 1 = openingWidth rest := by
  unfold openingWidth
  split <;> rfl

theorem contains_iff {s : CharSet} {items : List CharRange} (h : s.members = items.eraseDups) (c : Char) :
    s.contains c = true ↔ ¬ ((∃ r ∈ items, r.lo ≤ c ∧ c ≤ r.hi) ↔ s.negated = true) := by
  have hany : s.members.any (·.contains c) = true ↔ ∃ r ∈ items, r.lo ≤ c ∧ c ≤ r.hi := by
    simp [h, CharRange.contains, List.mem_eraseDups]
  rw [CharSet.contains, bne_iff_ne, ne_eq, Bool.eq_iff_iff, hany]

/-- What is read is written as the grammar says. -/
theorem setText_of_read {set : CharSet} (h : read encoding offset rest = .ok (set, width)) :
    ∃ own more items, rest = own ++ more ∧ width = own.length + 1 ∧ set.members = items.eraseDups ∧
      SetText encoding ('[' :: own) set.negated items := by
  obtain ⟨items, hranges, hclosed, rfl, rfl⟩ := read_eq_ok_iff.1 h
  obtain ⟨hrest, hcaret⟩ := opening_append_body rest
  obtain ⟨own, more, hbody, hstop, hitems⟩ := itemsText_of_scanFrom (Nat.le_refl _) hclosed hranges
  rw [beq_self_eq_true] at hitems
  have hcaret' : isNegated rest = false → own.head? ≠ some '^' := fun h hhead =>
    hcaret h (by rw [hbody, List.head?_append, hhead]; rfl)
  refine ⟨(if isNegated rest then ['^'] else []) ++ own, more, items, ?_, ?_, rfl, own, rfl, hcaret', hitems⟩
  · rw [List.append_assoc, ← hbody, ← hrest]
  · have hopening := length_opening rest
    rw [List.length_append]
    omega

/-- What is written as the grammar says is read, wherever it stands and whatever follows
it. -/
theorem SetText.read {negated : Bool} {items : List CharRange} (h : SetText encoding ('[' :: text) negated items)
    (offset : Nat) (more : List Char) :
    Bracket.read encoding offset (text ++ more) = .ok (⟨negated, items.eraseDups⟩, text.length + 1) := by
  obtain ⟨own, htext, hcaret, hitems⟩ := h
  obtain ⟨-, rfl⟩ := List.cons.inj htext
  have hne : own ≠ [] := by
    rintro rfl
    cases hitems.getLast?_eq
  have hpos := List.length_pos_iff.2 hne
  obtain ⟨hnegated, hbody⟩ := @opening_eq (own ++ more) negated fun h => by
    rw [List.head?_append_of_ne_nil _ hne]
    exact hcaret h
  rw [List.append_eq, List.append_assoc]
  generalize (if negated then ['^'] else []) ++ (own ++ more) = rest at hnegated hbody
  have hopening := length_opening rest
  rw [hnegated] at hopening
  rw [← beq_self_eq_true (offset + openingWidth rest)] at hitems
  obtain ⟨pieces, hscan, hranges⟩ := hitems.scanFrom (Nat.le_refl _) more
  refine read_eq_ok_iff.2 ⟨items, ?_⟩
  rw [hbody, hscan, hnegated]
  refine ⟨hranges, rfl, rfl, ?_⟩
  rw [List.length_append]
  show _ = offset + openingWidth rest + own.length - 1 + 1 - offset
  omega

/-- A bracket is read from its own symbols. -/
theorem exists_own {set : CharSet} (h : read encoding offset rest = .ok (set, width)) :
    ∃ own more, rest = own ++ more ∧ width = own.length + 1 ∧
      ∀ offset' more', read encoding offset' (own ++ more') = .ok (set, width) := by
  obtain ⟨own, more, items, hrest, rfl, hmembers, htext⟩ := setText_of_read h
  obtain ⟨negated, members⟩ := set
  obtain rfl : members = items.eraseDups := hmembers
  exact ⟨own, more, hrest, rfl, htext.read⟩

/-- **A bracket can be read if and only if the grammar allows it**, and it is the set of
its items. -/
theorem read_eq_ok_iff_setText {set : CharSet} :
    read encoding offset rest = .ok (set, width) ↔
      ∃ text more items, '[' :: rest = text ++ more ∧ text.length = width ∧
        SetText encoding text set.negated items ∧ set.members = items.eraseDups ∧
        ∀ c, set.contains c = true ↔ ¬ ((∃ r ∈ items, r.lo ≤ c ∧ c ≤ r.hi) ↔ set.negated = true) := by
  constructor
  · intro h
    obtain ⟨own, more, items, rfl, rfl, hmembers, htext⟩ := setText_of_read h
    exact ⟨'[' :: own, more, items, rfl, rfl, htext, hmembers, contains_iff hmembers⟩
  · rintro ⟨text, more, items, hrest, rfl, htext, hmembers, -⟩
    obtain ⟨negated, members⟩ := set
    obtain rfl : members = items.eraseDups := hmembers
    obtain ⟨own, rfl, -⟩ := id htext
    obtain ⟨-, rfl⟩ := List.cons.inj hrest
    exact htext.read offset more

-- A leading bracket starts a range, and a dash behind a range is a symbol.
example : read .unicode 0 "]-a-]".toList = .ok (⟨false, [⟨']', 'a'⟩, .single '-']⟩, 6) := by decide

end Bracket

end RegexAutomaton
