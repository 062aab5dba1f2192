/-
What decides how a state is left.

Each of five flags is on or off, and a number below 32 stands for the flags
that are on. From the flags of a state alone follows which way it is left
when its guard holds (`Flags.primary`), when it does not (`Flags.failed`),
and when the guard takes no symbol (`Flags.lookahead`). That a state ends its
group matters only if it belongs to one.
-/

namespace RegexAutomaton

/-- The flags of a state. -/
structure Flags where
  /-- The state may match no time at all. -/
  optional : Bool
  /-- The state belongs to a group. -/
  member : Bool
  /-- The state may match more than one time. -/
  repeatable : Bool
  /-- Nothing comes after the state in its branch of a group. -/
  endsGroup : Bool
  /-- The state is the entry of a group. -/
  opensGroup : Bool
  deriving DecidableEq, Repr

/-- A way out of a state. -/
inductive Exit where
  /-- Stay in the state. -/
  | self
  /-- Go on after the state. -/
  | next
  /-- Return to the entry of the group that the state belongs to. -/
  | parent
  /-- Go on after the group that the state opens. -/
  | close
  /-- There is none. -/
  | halt
  deriving DecidableEq, Repr

/-- The name of a way out. -/
def Exit.text : Exit → List Char
  | self => "self".toList
  | next => "next".toList
  | parent => "parent".toList
  | close => "close".toList
  | halt => "halt".toList

namespace Flags

/-- No flag is on. -/
def empty : Flags := ⟨false, false, false, false, false⟩

/-- The flags that a number stands for; only its last five binary digits
count. -/
def ofBits (n : Nat) : Flags :=
  ⟨n.testBit 0, n.testBit 1, n.testBit 2, n.testBit 3, n.testBit 4⟩

/-- The number that stands for the flags. -/
def bits (f : Flags) : Nat :=
  f.optional.toNat + 2 * f.member.toNat + 4 * f.repeatable.toNat + 8 * f.endsGroup.toNat +
    16 * f.opensGroup.toNat

/-- Combine two sets of flags, flag by flag. -/
def zipWith (op : Bool → Bool → Bool) (f g : Flags) : Flags :=
  ⟨op f.optional g.optional, op f.member g.member, op f.repeatable g.repeatable,
    op f.endsGroup g.endsGroup, op f.opensGroup g.opensGroup⟩

/-- Turn on the flags that are on in `g`. -/
def insert (f g : Flags) : Flags := zipWith (· || ·) f g

/-- Turn off the flags that are on in `g`. -/
def erase (f g : Flags) : Flags := zipWith (fun a b => a && !b) f g

/-- Switch the flags that are on in `g`. -/
def toggle (f g : Flags) : Flags := zipWith xor f g

/-- Turn the flags that are on in `g` on or off. -/
def set (f g : Flags) (on : Bool) : Flags := if on then f.insert g else f.erase g

/-- Whether all flags that are on in `g` are on. -/
def hasAll (f g : Flags) : Bool := g.erase f == empty

/-- Whether some flag that is on in `g` is on. -/
def hasAny (f g : Flags) : Bool := zipWith (· && ·) f g != empty

/-- The flags as five letters, with a dash for each that is off. -/
def text (f : Flags) : List Char :=
  [if f.opensGroup then 'G' else '-', if f.endsGroup then 'E' else '-',
    if f.repeatable then 'R' else '-', if f.member then 'S' else '-',
    if f.optional then 'O' else '-']

/-- How to go on from a state that needs no more of its own matches. -/
def onward (f : Flags) : Exit := if f.endsGroup && f.member then .parent else .next

/-- The way out when the guard holds. -/
def primary (f : Flags) : Exit :=
  if f.opensGroup then .next
  else if f.repeatable then .self
  else f.onward

/-- The way out when the guard does not hold. -/
def failed (f : Flags) : Exit :=
  if f.opensGroup then .close
  else if f.optional || f.repeatable then f.onward
  else .halt

/-- The way out of a state whose guard takes no symbol. -/
def lookahead (f : Flags) : Exit :=
  if f.opensGroup then if f.optional then .close else .next
  else f.onward

/-- A rule for all flags, in the order of their numbers. -/
def table (rule : Flags → Exit) : List Exit := (List.range 32).map fun n => rule (ofBits n)

theorem bits_lt (f : Flags) : f.bits < 32 := by
  simp only [bits]
  have h (b : Bool) : b.toNat ≤ 1 := Bool.toNat_le b
  have := h f.optional; have := h f.member; have := h f.repeatable
  have := h f.endsGroup; have := h f.opensGroup
  omega

@[simp] theorem ofBits_bits (f : Flags) : ofBits f.bits = f := by
  obtain ⟨a, b, c, d, e⟩ := f
  cases a <;> cases b <;> cases c <;> cases d <;> cases e <;> decide

theorem table_bits (rule : Flags → Exit) (f : Flags) : (table rule)[f.bits]? = some (rule f) := by
  simp [table, bits_lt]

end Flags

end RegexAutomaton
