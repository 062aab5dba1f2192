import RegexAutomaton.Automaton
import RegexAutomaton.Automaton.Build
import RegexAutomaton.Automaton.Fallback
import RegexAutomaton.Automaton.Flags
import RegexAutomaton.CharSet
import RegexAutomaton.CharSet.Bracket
import RegexAutomaton.Compile
import RegexAutomaton.Encoding
import RegexAutomaton.Escape
import RegexAutomaton.Grammar
import RegexAutomaton.Guard
import RegexAutomaton.Indexed.Access
import RegexAutomaton.Indexed.Assembly
import RegexAutomaton.Indexed.Building
import RegexAutomaton.Indexed.Compile
import RegexAutomaton.Indexed.Lexing
import RegexAutomaton.Indexed.Markers
import RegexAutomaton.Indexed.Passes
import RegexAutomaton.Item
import RegexAutomaton.Liveness
import RegexAutomaton.Markers
import RegexAutomaton.Metachar
import RegexAutomaton.Node
import RegexAutomaton.Node.Coalesce
import RegexAutomaton.Node.Collapse
import RegexAutomaton.Node.Continuation
import RegexAutomaton.Node.Pass
import RegexAutomaton.NodeList
import RegexAutomaton.Numeral
import RegexAutomaton.Options
import RegexAutomaton.Repetition
import RegexAutomaton.Scan
import RegexAutomaton.SyntaxError
import RegexAutomaton.Token
import RegexAutomaton.Proofs.Alternations
import RegexAutomaton.Proofs.BodyMarkers
import RegexAutomaton.Proofs.BracketEnds
import RegexAutomaton.Proofs.BracketGrammar
import RegexAutomaton.Proofs.BranchEnds
import RegexAutomaton.Proofs.ChoiceAlternations
import RegexAutomaton.Proofs.ChoiceGroups
import RegexAutomaton.Proofs.Coalescing
import RegexAutomaton.Proofs.CollapsedSets
import RegexAutomaton.Proofs.Collapsing
import RegexAutomaton.Proofs.Composition
import RegexAutomaton.Proofs.Continuation
import RegexAutomaton.Proofs.DeadBranches
import RegexAutomaton.Proofs.Denotation
import RegexAutomaton.Proofs.Derivation
import RegexAutomaton.Proofs.Encapsulation
import RegexAutomaton.Proofs.ErrorStability
import RegexAutomaton.Proofs.EscapedText
import RegexAutomaton.Proofs.Extent
import RegexAutomaton.Proofs.FailLinks
import RegexAutomaton.Proofs.ForwardWalk
import RegexAutomaton.Proofs.GrammarMeaning
import RegexAutomaton.Proofs.GroupSpans
import RegexAutomaton.Proofs.GroupStack
import RegexAutomaton.Proofs.GroupSwaps
import RegexAutomaton.Proofs.Grouping
import RegexAutomaton.Proofs.GuardMatches
import RegexAutomaton.Proofs.IndexedAssembly
import RegexAutomaton.Proofs.IndexedBrackets
import RegexAutomaton.Proofs.IndexedBuilding
import RegexAutomaton.Proofs.IndexedCoalescing
import RegexAutomaton.Proofs.IndexedCollapsing
import RegexAutomaton.Proofs.IndexedCompile
import RegexAutomaton.Proofs.IndexedDrafts
import RegexAutomaton.Proofs.IndexedLinking
import RegexAutomaton.Proofs.IndexedMarkers
import RegexAutomaton.Proofs.IndexedNumerals
import RegexAutomaton.Proofs.IndexedPasses
import RegexAutomaton.Proofs.IndexedRepetitions
import RegexAutomaton.Proofs.Layout
import RegexAutomaton.Proofs.Legible
import RegexAutomaton.Proofs.Lexing
import RegexAutomaton.Proofs.Linking
import RegexAutomaton.Proofs.ListedGuards
import RegexAutomaton.Proofs.Listings
import RegexAutomaton.Proofs.LiteralRuns
import RegexAutomaton.Proofs.Locality
import RegexAutomaton.Proofs.MarkedCheck
import RegexAutomaton.Proofs.MarkerOffsets
import RegexAutomaton.Proofs.MarkerPlacement
import RegexAutomaton.Proofs.MaximalRuns
import RegexAutomaton.Proofs.Meaning
import RegexAutomaton.Proofs.NarrowAlphabet
import RegexAutomaton.Proofs.Neighbours
import RegexAutomaton.Proofs.NeverMatches
import RegexAutomaton.Proofs.NextBranch
import RegexAutomaton.Proofs.NodeSpans
import RegexAutomaton.Proofs.NumberGrammar
import RegexAutomaton.Proofs.Outline
import RegexAutomaton.Proofs.OutlineAgrees
import RegexAutomaton.Proofs.OutlineAppend
import RegexAutomaton.Proofs.OutlineAutomaton
import RegexAutomaton.Proofs.OutlineCoalesce
import RegexAutomaton.Proofs.OutlineCollapse
import RegexAutomaton.Proofs.OutlineLinks
import RegexAutomaton.Proofs.OutlinePasses
import RegexAutomaton.Proofs.OutlineSets
import RegexAutomaton.Proofs.OutlineSpots
import RegexAutomaton.Proofs.OutlineStates
import RegexAutomaton.Proofs.OutlineWalk
import RegexAutomaton.Proofs.Parsing
import RegexAutomaton.Proofs.PassOrder
import RegexAutomaton.Proofs.Phrase
import RegexAutomaton.Proofs.PhraseAppend
import RegexAutomaton.Proofs.PhraseLiveness
import RegexAutomaton.Proofs.PhraseTokens
import RegexAutomaton.Proofs.Printing
import RegexAutomaton.Proofs.QuantifiedStates
import RegexAutomaton.Proofs.QuantifierPlaces
import RegexAutomaton.Proofs.Reachability
import RegexAutomaton.Proofs.ReadErrors
import RegexAutomaton.Proofs.Reads
import RegexAutomaton.Proofs.Relinking
import RegexAutomaton.Proofs.RepetitionGrammar
import RegexAutomaton.Proofs.Rewriting
import RegexAutomaton.Proofs.RewritingOrder
import RegexAutomaton.Proofs.Spelling
import RegexAutomaton.Proofs.States
import RegexAutomaton.Proofs.Symbols
import RegexAutomaton.Proofs.SyntaxTree
import RegexAutomaton.Proofs.TokenNesting
import RegexAutomaton.Proofs.UnclosedGroups
import RegexAutomaton.Proofs.Unmarked
import RegexAutomaton.Proofs.Wiring
import RegexAutomaton.Proofs.Writing
import RegexAutomaton.Proofs.WrittenSets
