/-
What reading a pattern can give.

Every symbol that a token holds belongs to the alphabet of the pattern, the set of a
bracket has members, no two of them equal and none the wrong way round, and the counts
of a repetition are numerals in order. `Token.Legible` says so, and what is read is
always legible (`Token.legible_of_read`).
-/
import RegexAutomaton.Proofs.Lexing

namespace RegexAutomaton

namespace Encoding

variable {encoding : Encoding}

theorem has_of_symbol? {n : Nat} {c : Char} (h : encoding.symbol? n = some c) : encoding.Has c := by
  rw [Has, toNat_of_symbol? h, h]

/-- The symbols of the first 128 code points belong to both alphabets. -/
theorem has_of_lt {c : Char} (h : c.toNat < 128) : encoding.Has c := by
  cases encoding with
  | byte => exact (has_byte_iff c).2 (by omega)
  | unicode => exact has_unicode c

end Encoding

theorem nodup_eraseDups {α : Type} [BEq α] [LawfulBEq α] (l : List α) : l.eraseDups.Nodup := by
  induction hlen : l.length using Nat.strongRecOn generalizing l with
  | ind n ih =>
    subst hlen
    cases l with
    | nil => simp
    | cons a l =>
      have hshort : (l.filter fun b => !b == a).length < (a :: l).length :=
        Nat.lt_succ_of_le (List.length_filter_le ..)
      rw [List.eraseDups_cons, List.nodup_cons]
      exact ⟨by simp [List.mem_eraseDups], ih _ hshort _ rfl⟩

theorem eraseDups_of_nodup {α : Type} [BEq α] [LawfulBEq α] {l : List α} (h : l.Nodup) : l.eraseDups = l := by
  induction l with
  | nil => rfl
  | cons a l ih =>
    obtain ⟨ha, hl⟩ := List.nodup_cons.1 h
    have hfilter : l.filter (fun b => !b == a) = l := by
      refine List.filter_eq_self.2 fun b hb => ?_
      have hne : b ≠ a := by
        rintro rfl
        exact ha hb
      simp [hne]
    rw [List.eraseDups_cons, hfilter, ih hl]

/-- What a scan finds has what each reading gives, as long as the text has what reading
needs of it. -/
theorem Reader.forall_mem_pieces {α ε : Type} {read : Reader α ε} {p : Char → Prop} {q : α → Prop}
    (hread : ∀ ⦃offset c rest value width⦄, (∀ d ∈ c :: rest, p d) →
      read offset c rest = .ok (value, width) → q value)
    (skip offset : Nat) {text : List Char} (htext : ∀ d ∈ text, p d) :
    ∀ piece ∈ (read.scanFrom skip offset text).pieces, q piece.value := by
  induction text generalizing skip offset with
  | nil => simp
  | cons c rest ih =>
    have hrest : ∀ d ∈ rest, p d := fun d hd => htext d (List.mem_cons_of_mem c hd)
    cases skip with
    | succ skip => exact ih skip (offset + 1) hrest
    | zero =>
      rw [scanFrom]
      split
      · next value width hok =>
        exact List.forall_mem_cons.2 ⟨hread htext hok, ih _ _ hrest⟩
      · simp

/-- A set as a bracket can give it. -/
structure CharSet.Legible (encoding : Encoding) (s : CharSet) : Prop where
  ne_nil : s.members ≠ []
  nodup : s.members.Nodup
  ordered : ∀ r ∈ s.members, r.lo ≤ r.hi
  has : ∀ r ∈ s.members, encoding.Has r.lo ∧ encoding.Has r.hi

/-- Ranges that are in order make such a set. -/
theorem CharSet.legible_ofMembers {encoding : Encoding} {members : List CharRange} (hne : members ≠ [])
    (h : ∀ r ∈ members, r.lo ≤ r.hi ∧ encoding.Has r.lo ∧ encoding.Has r.hi) :
    (ofMembers members).Legible encoding where
  ne_nil := by
    obtain ⟨r, hr⟩ := List.exists_mem_of_ne_nil _ hne
    exact List.ne_nil_of_mem (List.mem_eraseDups.2 hr)
  nodup := nodup_eraseDups members
  ordered := fun r hr => (h r (List.mem_eraseDups.1 hr)).1
  has := fun r hr => (h r (List.mem_eraseDups.1 hr)).2

/-- A repetition as counts between braces can give it. -/
structure Repetition.Legible (r : Repetition) : Prop where
  inOrder : r.InOrder
  least_le : r.least ≤ Numeral.greatest
  most_le : ∀ most, r.most = some most → most ≤ Numeral.greatest

/-- A token as a pattern can give it. -/
def Token.Legible (encoding : Encoding) : Token → Prop
  | atom (.literal c) => encoding.Has c
  | atom (.bracket set) => set.Legible encoding
  | quantifier q => q.repetition.Legible
  | _ => True

/-! ## Escapes -/

namespace Escape

variable {encoding : Encoding} {offset width : Nat} {rest : List Char} {symbol : Char}

theorem has_of_readCode {places : Nat} {short : Fault}
    (h : readCode encoding places short offset rest = .ok (symbol, width)) : encoding.Has symbol := by
  unfold readCode at h
  split at h
  · cases h
  · split at h
    · cases h
    · split at h
      · next hsymbol =>
        obtain ⟨rfl, rfl⟩ := Prod.mk.inj (Except.ok.inj h)
        exact Encoding.has_of_symbol? hsymbol
      · cases h

theorem has_of_read (htext : ∀ d ∈ rest, encoding.Has d) (h : read encoding offset rest = .ok (symbol, width)) :
    encoding.Has symbol := by
  cases rest with
  | nil => cases h
  | cons c rest =>
    have plain {s : Char} (hs : encoding.Has s)
        (h : (.ok (s, 2) : Except SyntaxError (Char × Nat)) = .ok (symbol, width)) : encoding.Has symbol := by
      obtain ⟨rfl, -⟩ := Prod.mk.inj (Except.ok.inj h)
      exact hs
    simp only [read] at h
    split at h
    · exact has_of_readCode h
    split at h
    · exact has_of_readCode h
    split at h
    · exact plain (Encoding.has_of_lt (by decide)) h
    split at h
    · exact plain (Encoding.has_of_lt (by decide)) h
    split at h
    · exact plain (Encoding.has_of_lt (by decide)) h
    · exact plain (htext c List.mem_cons_self) h

end Escape

/-! ## Brackets -/

namespace Bracket

variable {encoding : Encoding} {first offset width : Nat} {rest : List Char}

theorem has_of_element {c : Char} {e : Element} (htext : ∀ d ∈ c :: rest, encoding.Has d)
    (h : element encoding first offset c rest = .ok (e, width)) : encoding.Has e.symbol := by
  obtain ⟨hc, hrest⟩ := List.forall_mem_cons.1 htext
  unfold element at h
  split at h
  · cases h
  split at h
  · split at h
    · next hread =>
      obtain ⟨rfl, -⟩ := Prod.mk.inj (Except.ok.inj h)
      exact Escape.has_of_read hrest hread
    · cases h
  · obtain ⟨rfl, -⟩ := Prod.mk.inj (Except.ok.inj h)
    exact hc

/-- The first element of a bracket does not close it. -/
theorem pieces_ne_nil {text : List Char}
    (h : ((element encoding offset).scanFrom 0 offset text).reason = some .closed) :
    ((element encoding offset).scanFrom 0 offset text).pieces ≠ [] := by
  cases text with
  | nil => cases h
  | cons c rest =>
    cases hread : element encoding offset offset c rest with
    | ok found =>
      rw [Reader.scanFrom_step (fits_element encoding offset) hread]
      simp
    | error reason =>
      rw [Reader.scanFrom_error _ hread] at h
      obtain rfl := Option.some.inj h
      unfold element at hread
      simp only [ne_eq, not_true_eq_false, and_false, if_false] at hread
      split at hread
      · split at hread <;> cases hread
      · cases hread

/-- Ranges are made of the elements, and are in order. -/
theorem forall_mem_ranges {p : Char → Prop} {pieces : List (Spanned Element)} {members : List CharRange}
    (hpieces : ∀ piece ∈ pieces, p piece.value.symbol) (h : ranges pieces = .ok members) :
    ∀ r ∈ members, r.lo ≤ r.hi ∧ p r.lo ∧ p r.hi := by
  induction pieces using ranges.induct generalizing members with
  | case1 lo middle hi rest hdash hlt => simp [ranges, hdash, hlt] at h
  | case2 lo middle hi rest hdash hlt ih =>
    simp only [ranges, hdash, hlt, if_true, if_false] at h
    obtain ⟨members', hmembers', rfl⟩ := map_eq_ok_iff.1 h
    simp only [List.forall_mem_cons] at hpieces
    exact List.forall_mem_cons.2 ⟨⟨Char.not_lt.1 hlt, hpieces.1, hpieces.2.2.1⟩, ih hpieces.2.2.2 hmembers'⟩
  | case3 lo middle hi rest hdash ih =>
    simp only [ranges, hdash, if_false] at h
    obtain ⟨members', hmembers', rfl⟩ := map_eq_ok_iff.1 h
    obtain ⟨hlo, hrest⟩ := List.forall_mem_cons.1 hpieces
    exact List.forall_mem_cons.2 ⟨⟨Char.le_refl _, hlo, hlo⟩, ih hrest hmembers'⟩
  | case4 lo rest hshort ih =>
    rw [ranges] at h
    · obtain ⟨members', hmembers', rfl⟩ := map_eq_ok_iff.1 h
      obtain ⟨hlo, hrest⟩ := List.forall_mem_cons.1 hpieces
      exact List.forall_mem_cons.2 ⟨⟨Char.le_refl _, hlo, hlo⟩, ih hrest hmembers'⟩
    · exact hshort
  | case5 =>
    obtain rfl := Except.ok.inj h
    exact fun _ hr => absurd hr List.not_mem_nil

theorem ranges_ne_nil {pieces : List (Spanned Element)} {members : List CharRange} (hne : pieces ≠ [])
    (h : ranges pieces = .ok members) : members ≠ [] := by
  cases pieces with
  | nil => exact absurd rfl hne
  | cons lo rest =>
    unfold ranges at h
    split at h
    · split at h
      · split at h
        · cases h
        · obtain ⟨_, -, rfl⟩ := map_eq_ok_iff.1 h
          simp
      · obtain ⟨_, -, rfl⟩ := map_eq_ok_iff.1 h
        simp
    · obtain ⟨_, -, rfl⟩ := map_eq_ok_iff.1 h
      simp
    · next heq => cases heq

theorem legible_of_read {set : CharSet} (htext : ∀ d ∈ rest, encoding.Has d)
    (h : read encoding offset rest = .ok (set, width)) : set.Legible encoding := by
  obtain ⟨members, hranges, hclosed, rfl, -⟩ := read_eq_ok_iff.1 h
  have hbody : ∀ d ∈ body rest, encoding.Has d := by
    intro d hd
    unfold body at hd
    split at hd
    · exact htext d (List.mem_of_mem_tail hd)
    · exact htext d hd
  have hpieces := @Reader.forall_mem_pieces _ _ (element encoding (offset + openingWidth rest)) encoding.Has
    (fun e => encoding.Has e.symbol) (fun _ _ _ _ _ => has_of_element) 0 (offset + openingWidth rest) _ hbody
  obtain ⟨hne, -, hordered, hhas⟩ :=
    CharSet.legible_ofMembers (ranges_ne_nil (pieces_ne_nil hclosed) hranges) (forall_mem_ranges hpieces hranges)
  exact ⟨hne, nodup_eraseDups members, hordered, hhas⟩

end Bracket

/-! ## Counted repetitions -/

theorem Numeral.le_greatest_of_read {offset n : Nat} {run : List Char} (h : read offset run = .ok n) :
    n ≤ greatest := by
  obtain ⟨base, start, digits, hlayout⟩ := exists_layout run
  obtain ⟨-, -, hle⟩ := (hlayout.read_eq_ok_iff offset).1 h
  exact hle

namespace Repetition

theorem CountText.le_greatest {run : List Char} {n : Nat} (h : CountText run (some n)) : n ≤ Numeral.greatest := by
  cases h with
  | number h => exact Numeral.le_greatest_of_read h

theorem CountsText.legible {body : List Char} {r : Repetition} (h : CountsText body r) : r.Legible := by
  cases h with
  | exact _ hn =>
    have hle := Numeral.le_greatest_of_read hn
    exact ⟨fun most hmost => Nat.le_of_eq (Option.some.inj hmost), hle, fun most hmost => Option.some.inj hmost ▸ hle⟩
  | @between _ _ least most _ hlow hhigh hordered =>
    refine ⟨fun n hn => ?_, ?_, fun n hn => ?_⟩
    · cases least with
      | none => exact Nat.zero_le n
      | some m => exact hordered m n rfl hn
    · cases least with
      | none => exact Nat.zero_le _
      | some m => exact hlow.le_greatest
    · obtain rfl : most = some n := hn
      exact hhigh.le_greatest

theorem legible_of_read {offset width : Nat} {rest : List Char} {r : Repetition}
    (h : read offset rest = .ok (r, width)) : r.Legible := by
  obtain ⟨body, more, -, hcounts, -⟩ := read_eq_ok_iff.1 h
  exact hcounts.legible

end Repetition

/-! ## Tokens -/

namespace Token

variable {encoding : Encoding} {offset width : Nat} {c : Char} {rest : List Char} {t : Token}

/-- **What is read as a token is legible.** -/
theorem legible_of_read (htext : ∀ d ∈ c :: rest, encoding.Has d)
    (h : read encoding offset c rest = .ok (t, width)) : t.Legible encoding := by
  obtain ⟨hc, hrest⟩ := List.forall_mem_cons.1 htext
  cases read_eq_ok_iff.1 h with
  | plain => exact hc
  | escape _ h => exact Escape.has_of_read hrest h
  | bracket _ h => exact Bracket.legible_of_read hrest h
  | counted _ h => exact Repetition.legible_of_read h
  | star | plus => exact ⟨nofun, by decide, nofun⟩
  | question => exact ⟨fun _ _ => Nat.zero_le _, by decide, fun _ h => Option.some.inj h ▸ by decide⟩
  | _ => trivial

theorem forall_legible_of_reads {text : List Char} {ts : List (Spanned Token)} (htext : ∀ d ∈ text, encoding.Has d)
    (h : (read encoding).Reads offset text ts) : ∀ t ∈ ts, t.value.Legible encoding := by
  induction h with
  | nil offset => nofun
  | cons head tail ih =>
    exact List.forall_mem_cons.2 ⟨legible_of_read htext head, ih fun d hd => htext d (List.mem_of_mem_drop hd)⟩

end Token

end RegexAutomaton
