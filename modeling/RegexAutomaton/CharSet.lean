/-
Sets of symbols: a union of ranges, or everything outside one. The order of
the ranges matters to how a set is written, not to what it holds.
-/
import RegexAutomaton.Escape

namespace RegexAutomaton

/-- The symbols from `lo` to `hi`, both included. -/
structure CharRange where
  lo : Char
  hi : Char
  deriving DecidableEq, Repr

namespace CharRange

/-- The range of one symbol. -/
def single (c : Char) : CharRange := ⟨c, c⟩

/-- Whether both ends are the same symbol. -/
def isSingle (r : CharRange) : Bool := r.lo == r.hi

/-- Whether the range holds a symbol. -/
def contains (r : CharRange) (c : Char) : Bool := r.lo ≤ c && c ≤ r.hi

/-- An end of a range as it is written in a bracket, where a dash is special. -/
def writeEnd (c : Char) : List Char :=
  if c = '-' then [Escape.backslash, '-'] else Escape.write c

/-- The range as it is written in a bracket. -/
def text (r : CharRange) : List Char :=
  if r.isSingle then writeEnd r.lo else writeEnd r.lo ++ '-' :: writeEnd r.hi

@[simp] theorem contains_single (a c : Char) : (single a).contains c = (a == c) := by
  rw [Bool.eq_iff_iff]
  simp only [contains, single, Bool.and_eq_true, beq_iff_eq]
  refine ⟨fun h => Char.le_antisymm (of_decide_eq_true h.1) (of_decide_eq_true h.2), ?_⟩
  rintro rfl
  exact ⟨decide_eq_true (Char.le_refl _), decide_eq_true (Char.le_refl _)⟩

end CharRange

/-- The symbols in some of the members, or those in none of them. -/
structure CharSet where
  negated : Bool
  members : List CharRange
  deriving DecidableEq, Repr

namespace CharSet

/-- The set of all symbols. -/
def any : CharSet := ⟨true, []⟩

/-- Whether the set is `any`. -/
def isAny (s : CharSet) : Bool := s.negated && s.members.isEmpty

/-- The union of some ranges, each kept where it is first seen. -/
def ofMembers (members : List CharRange) : CharSet := ⟨false, members.eraseDups⟩

/-- Whether the set holds a symbol. -/
def contains (s : CharSet) (c : Char) : Bool := s.members.any (·.contains c) != s.negated

/-- The set as it is written in a pattern. -/
def text (s : CharSet) : List Char :=
  if s.isAny then ['.']
  else '[' :: (if s.negated then ['^'] else []) ++ s.members.flatMap CharRange.text ++ [']']

@[simp] theorem contains_any (c : Char) : any.contains c = true := rfl

theorem isAny_iff {s : CharSet} : s.isAny = true ↔ s = any := by
  cases s; simp [isAny, any]

@[simp] theorem contains_ofMembers (members : List CharRange) (c : Char) :
    (ofMembers members).contains c = members.any (·.contains c) := by
  rw [Bool.eq_iff_iff]
  simp [ofMembers, contains, List.mem_eraseDups]

end CharSet

end RegexAutomaton
