/-
Tokens with their groups matched.

A `Phrase` is what is left of a body of the pattern, from some place in it on;
a group in it holds a whole body of its own. `tokens` lists the tokens again,
and any tokens whose parentheses match are those of a phrase
(`exists_tokens_eq`). `items` puts markers around every inner body that has a
bar directly in it.
-/
import RegexAutomaton.Grammar
import RegexAutomaton.Proofs.Lexing

namespace RegexAutomaton

namespace Token

/-- Whether a token is neither end of a group. -/
def IsLeaf (t : Token) : Prop := t ≠ groupOpen ∧ t ≠ groupClose

/-- How many groups are open after some tokens, with `depth` open before them,
unless a token closes nothing. -/
def depthAfter? : (depth : Nat) → List Token → Option Nat
  | depth, [] => some depth
  | depth, groupOpen :: rest => depthAfter? (depth + 1) rest
  | 0, groupClose :: _ => none
  | depth + 1, groupClose :: rest => depthAfter? depth rest
  | depth, _ :: rest => depthAfter? depth rest

theorem depthAfter?_leaf {t : Token} (h : t.IsLeaf) (depth : Nat) (rest : List Token) :
    depthAfter? depth (t :: rest) = depthAfter? depth rest := by
  cases t with
  | groupOpen => exact absurd rfl h.1
  | groupClose => exact absurd rfl h.2
  | _ => rfl

end Token

/-- A run of tokens in which every group that is opened is closed. -/
inductive Phrase where
  | nil
  | leaf (t : Spanned Token) (isLeaf : t.value.IsLeaf) (rest : Phrase)
  /-- A group, with the offsets of its two parentheses. -/
  | group (opening : Nat) (inner : Phrase) (closing : Nat) (rest : Phrase)

namespace Phrase

/-- The tokens of a phrase, in order. -/
def tokens : Phrase → List (Spanned Token)
  | nil => []
  | leaf t _ rest => t :: rest.tokens
  | group opening inner closing rest =>
    ⟨.groupOpen, opening, 1⟩ :: (inner.tokens ++ ⟨.groupClose, closing, 1⟩ :: rest.tokens)

/-- Whether a bar stands directly in the phrase. -/
def barred : Phrase → Bool
  | nil => false
  | leaf t _ rest => t.value == .bar || rest.barred
  | group _ _ _ rest => rest.barred

/-- Put markers around the items of a body, if it has a bar. The body lies
between the offsets `first` and `last`. -/
def mark (barred : Bool) (first last : Nat) (items : List (Spanned Item)) : List (Spanned Item) :=
  if barred then ⟨.alternationStart, first, 0⟩ :: (items ++ [⟨.alternationEnd, last, 0⟩]) else items

/-- The items of a phrase, with markers around its inner bodies. -/
def items : Phrase → List (Spanned Item)
  | nil => []
  | leaf t _ rest => t.map .token :: rest.items
  | group opening inner closing rest =>
    ⟨.token .groupOpen, opening, 1⟩ ::
      (mark inner.barred (opening + 1) closing inner.items ++
        ⟨.token .groupClose, closing, 1⟩ :: rest.items)

/-- The items of a phrase that is a whole body. -/
def body (p : Phrase) (first last : Nat) : List (Spanned Item) := mark p.barred first last p.items

/-- Tokens whose parentheses match, but for `depth` of them that close groups
from before, are phrases with those parentheses between them. -/
theorem exists_phrases {ts : List (Spanned Token)} {depth : Nat}
    (hwidth : ∀ t ∈ ts, ¬ t.value.IsLeaf → t.width = 1)
    (h : Token.depthAfter? depth (ts.map (·.value)) = some 0) :
    ∃ (p : Phrase) (outer : List (Nat × Phrase)), outer.length = depth ∧
      ts = p.tokens ++ outer.flatMap fun (closing, q) => ⟨.groupClose, closing, 1⟩ :: q.tokens := by
  induction ts generalizing depth with
  | nil =>
    simp only [List.map_nil, Token.depthAfter?, Option.some.injEq] at h
    exact ⟨nil, [], h.symm, rfl⟩
  | cons t ts ih =>
    have hrest : ∀ t ∈ ts, ¬ t.value.IsLeaf → t.width = 1 := fun t ht => hwidth t (by simp [ht])
    obtain ⟨value, offset, width⟩ := t
    by_cases hleaf : value.IsLeaf
    · rw [List.map_cons, Token.depthAfter?_leaf hleaf] at h
      obtain ⟨p, outer, hlen, rfl⟩ := ih hrest h
      exact ⟨leaf ⟨value, offset, width⟩ hleaf p, outer, hlen, rfl⟩
    · obtain rfl : width = 1 := hwidth ⟨value, offset, width⟩ (by simp) hleaf
      cases value with
      | groupOpen =>
        obtain ⟨p, outer, hlen, rfl⟩ := @ih (depth + 1) hrest h
        cases outer with
        | nil => cases hlen
        | cons q outer =>
          obtain ⟨closing, q⟩ := q
          exact ⟨group offset p closing q, outer, Nat.succ.inj hlen, by simp [tokens]⟩
      | groupClose =>
        cases depth with
        | zero => cases h
        | succ depth =>
          obtain ⟨p, outer, hlen, rfl⟩ := @ih depth hrest h
          exact ⟨nil, (offset, p) :: outer, congrArg (· + 1) hlen, by simp [tokens]⟩
      | _ => exact absurd ⟨by simp, by simp⟩ hleaf

theorem exists_tokens_eq {ts : List (Spanned Token)} (hwidth : ∀ t ∈ ts, ¬ t.value.IsLeaf → t.width = 1)
    (h : Token.depthAfter? 0 (ts.map (·.value)) = some 0) : ∃ p : Phrase, p.tokens = ts := by
  obtain ⟨p, outer, hlen, rfl⟩ := exists_phrases hwidth h
  obtain rfl := List.length_eq_zero_iff.1 hlen
  exact ⟨p, by simp⟩

end Phrase

/-- A parenthesis is one symbol wide. -/
theorem Token.width_of_read {encoding : Encoding} {offset width : Nat} {c : Char} {rest : List Char} {t : Token}
    (h : read encoding offset c rest = .ok (t, width)) (hleaf : ¬ t.IsLeaf) : width = 1 := by
  cases read_eq_ok_iff.1 h with
  | groupOpen hc | groupClose hc => rfl
  | _ => exact absurd ⟨by simp, by simp⟩ hleaf

theorem Token.width_of_reads {encoding : Encoding} {offset : Nat} {text : List Char}
    {ts : List (Spanned Token)} (h : (Token.read encoding).Reads offset text ts) :
    ∀ t ∈ ts, ¬ t.value.IsLeaf → t.width = 1 := by
  induction h with
  | nil offset => simp
  | cons head tail ih =>
    simp only [List.mem_cons, forall_eq_or_imp]
    exact ⟨width_of_read head, ih⟩

end RegexAutomaton
