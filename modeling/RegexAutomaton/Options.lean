/-
Which rewriting is done. Both kinds are done unless an option says otherwise.
-/

namespace RegexAutomaton

/-- Choices about rewriting, each of which may be left open. -/
structure Options where
  /-- Rewrite alternations of single symbols into sets. -/
  collapse : Option Bool := none
  /-- Join runs of literals. -/
  coalesce : Option Bool := none
  deriving DecidableEq, Repr

namespace Options

/-- Whether alternations of single symbols are rewritten into sets. -/
def collapses (o : Options) : Bool := o.collapse.getD true

/-- Whether runs of literals are joined. -/
def coalesces (o : Options) : Bool := o.coalesce.getD true

/-- The choices of `other`, and where it has none those of `o`. -/
def overwrite (o other : Options) : Options :=
  ⟨other.collapse.or o.collapse, other.coalesce.or o.coalesce⟩

@[simp] theorem overwrite_open (o : Options) : o.overwrite {} = o := rfl

theorem overwrite_assoc (o p q : Options) :
    (o.overwrite p).overwrite q = o.overwrite (p.overwrite q) := by
  simp [overwrite, Option.or_assoc]

end Options

end RegexAutomaton
