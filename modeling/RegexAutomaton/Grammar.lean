/-
Which items may follow each other.

Apart from groups, which must be closed, whether an item is allowed depends
on the item before it only: `Role.refusal?` says what is wrong with a pair of
neighbours. `Grammar.check` looks at the items in order, and then at the end
of the pattern, and reports the first fault.
-/
import RegexAutomaton.Item

namespace RegexAutomaton

/-- What an item is to its neighbours. -/
inductive Role where
  /-- The start of the pattern. -/
  | start
  | atom
  | anchorStart
  | anchorEnd
  | groupOpen
  | groupClose
  | alternationStart
  | bar
  | alternationEnd
  | quantifier
  /-- The end of the pattern. -/
  | finish
  deriving DecidableEq, Repr

/-- The role of an item. -/
def Item.role : Item → Role
  | token (.atom _) => .atom
  | token (.quantifier _) => .quantifier
  | token .anchorStart => .anchorStart
  | token .anchorEnd => .anchorEnd
  | token .groupOpen => .groupOpen
  | token .groupClose => .groupClose
  | token .bar => .bar
  | alternationStart => .alternationStart
  | alternationEnd => .alternationEnd

/-- What is wrong with a role directly after another. -/
def Role.refusal? : (before after : Role) → Option Fault
  | quantifier, quantifier => some .doubleQuantifier
  | bar, quantifier => some .noBranchAfterBar
  | start, quantifier => some .nothingToRepeat
  | groupOpen, quantifier => some .nothingToRepeat
  | alternationStart, quantifier => some .nothingToRepeat
  | anchorStart, quantifier => some .nothingToRepeat
  | anchorEnd, quantifier => some .nothingToRepeat
  | start, bar => some .noBranchBeforeBar
  | groupOpen, bar => some .noBranchBeforeBar
  | alternationStart, bar => some .noBranchBeforeBar
  | bar, bar => some .noBranchBeforeBar
  | bar, groupClose => some .noBranchAfterBar
  | bar, alternationEnd => some .noBranchAfterBar
  | bar, finish => some .noBranchAfterBar
  | groupOpen, groupClose => some .misplaced
  | anchorEnd, atom => some .misplaced
  | anchorEnd, groupOpen => some .misplaced
  | anchorEnd, anchorStart => some .misplaced
  | _, _ => none

namespace Grammar

/-- Allow a role at `offset`, after another. -/
def allow (before after : Role) (offset : Nat) : Except SyntaxError Unit :=
  match before.refusal? after with
  | some fault => .error ⟨fault, offset⟩
  | none => .ok ()

/-- The offsets of the groups that are open after an item, the innermost
first, given those open before it. -/
def groupsAfter (groups : List Nat) (item : Spanned Item) : Except SyntaxError (List Nat) :=
  match item.value with
  | .token .groupOpen => .ok (item.offset :: groups)
  | .token .groupClose =>
    match groups with
    | [] => .error ⟨.strayGroupClose, item.offset⟩
    | _ :: outer => .ok outer
  | _ => .ok groups

/-- Check items, after one of role `before` and with some groups open. Answers
with the role of the last item and with the groups that are still open. -/
def checkItems : (before : Role) → (groups : List Nat) → List (Spanned Item) →
    Except SyntaxError (Role × List Nat)
  | before, groups, [] => .ok (before, groups)
  | before, groups, item :: rest => do
    let groups ← groupsAfter groups item
    allow before item.value.role item.offset
    checkItems item.value.role groups rest

/-- Check the items of a pattern whose tokens end at `stop`, for the given
reason if they end early. -/
def check (items : List (Spanned Item)) (stop : Nat) (reason : Option SyntaxError) :
    Except SyntaxError Unit := do
  let (last, groups) ← checkItems .start [] items
  match reason, groups with
  | some e, _ => .error e
  | none, offset :: _ => .error ⟨.unclosedGroup, offset⟩
  | none, [] => allow last .finish stop

theorem checkItems_append (before : Role) (groups : List Nat) (left right : List (Spanned Item)) :
    checkItems before groups (left ++ right) =
      (checkItems before groups left).bind fun (role, stillOpen) =>
        checkItems role stillOpen right := by
  induction left generalizing before groups with
  | nil => rfl
  | cons item left ih =>
    simp only [List.cons_append, checkItems, bind, Except.bind]
    cases groupsAfter groups item with
    | error e => rfl
    | ok groups =>
      cases allow before item.value.role item.offset with
      | error e => rfl
      | ok _ => exact ih item.value.role groups

end Grammar

end RegexAutomaton
