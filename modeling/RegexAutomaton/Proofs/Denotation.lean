/-
What a list of nodes means in a text.

The list is read from left to right. A body is open for the pattern, for each
group and for each alternation around the place reached; a `Frame` keeps what
its items mean so far, with the last of them apart, because a quantifier may
still follow it. What a body means becomes, where the body ends, the meaning
of one item of the body around it.

That `denote` is the meaning one expects of a pattern is `denote_eq_of_means`:
it is the one that the grammar gives the tokens of the pattern, part by part.
-/
import Mathlib.Data.List.Forall2
import RegexAutomaton.Node
import RegexAutomaton.Proofs.Meaning

namespace RegexAutomaton

/-- What a body means, as far as it has been read. -/
structure Frame where
  /-- The branches that are over. -/
  earlier : Meaning
  /-- The branch being read, but for its last item. -/
  before : Meaning
  /-- The last item. -/
  last : Meaning

namespace Frame

/-- Nothing read yet. -/
def fresh : Frame := ⟨.never, .empty, .empty⟩

/-- What the branch being read means. -/
def branch (f : Frame) : Meaning := f.before.seq f.last

/-- What the body means. -/
def whole (f : Frame) : Meaning := f.earlier.alt f.branch

/-- One more item. -/
def push (f : Frame) (item : Meaning) : Frame := ⟨f.earlier, f.branch, item⟩

/-- The last item is repeated. -/
def repeatLast (f : Frame) (r : Repetition) : Frame := { f with last := f.last.repeated r }

/-- Another branch starts. -/
def bar (f : Frame) : Frame := ⟨f.whole, .empty, .empty⟩

end Frame

/-- The bodies that are open at some place of a list, the innermost first. -/
structure Reading where
  body : Frame
  outer : List Frame

namespace Reading

/-- Nothing read yet. -/
def fresh : Reading := ⟨.fresh, []⟩

/-- One more item in the innermost body. -/
def push (s : Reading) (item : Meaning) : Reading := { s with body := s.body.push item }

/-- A body starts. -/
def enter (s : Reading) : Reading := ⟨.fresh, s.body :: s.outer⟩

/-- The innermost body ends, and is an item of the one around it. Where there
is none around it, nothing ends. -/
def leave (s : Reading) : Reading :=
  match s.outer with
  | [] => s.push .empty
  | frame :: outer => ⟨frame.push s.body.whole, outer⟩

/-- Read one more node. A node that bears no meaning is passed over. -/
def step (text : List Char) (s : Reading) : NodeKind → Reading
  | .literal symbols => s.push (.run text symbols)
  | .bracket set | .collapsedStart set => s.push (.symbol text set)
  | .dot => s.push (.symbol text .any)
  | .anchorStart => s.push .atStart
  | .anchorEnd => s.push (.atEnd text)
  | .quantifier q => { s with body := s.body.repeatLast q.repetition }
  | .bar => { s with body := s.body.bar }
  | .groupOpen | .alternationStart => s.enter
  | .groupClose _ | .alternationEnd => s.leave
  | .collapsedEnd | .inert | .sentinel => s

/-- Read nodes one after the other. -/
def steps (text : List Char) (s : Reading) (kinds : List NodeKind) : Reading :=
  kinds.foldl (step text) s

/-- The body of the whole pattern. -/
def outermost (s : Reading) : Frame := s.outer.getLast?.getD s.body

variable {text : List Char} {s : Reading}

@[simp] theorem steps_nil : s.steps text [] = s := rfl

@[simp] theorem steps_cons (kind : NodeKind) (kinds : List NodeKind) :
    s.steps text (kind :: kinds) = (s.step text kind).steps text kinds := rfl

theorem steps_append (left right : List NodeKind) :
    s.steps text (left ++ right) = (s.steps text left).steps text right := List.foldl_append

/-- What holds of the frames of two readings, one by one, holds of the
outermost frames. -/
theorem forall₂_outermost {α : Type} {R : α → Frame → Prop} {body : α} {outer : List α}
    (hbody : R body s.body) (houter : List.Forall₂ R outer s.outer) :
    R (outer.getLast?.getD body) s.outermost := by
  obtain ⟨frame, frames⟩ := s
  unfold outermost
  simp only at hbody houter ⊢
  induction houter generalizing body frame with
  | nil => exact hbody
  | cons hhead _ ih =>
    rw [List.getLast?_cons, List.getLast?_cons]
    exact ih _ hhead

end Reading

/-- **What a list of nodes means in a text**: where its matches start and end. -/
def denote (text : List Char) (nodes : List Node) : Meaning :=
  (Reading.fresh.steps text (nodes.map (·.kind))).outermost.whole

end RegexAutomaton
