import Scriptlet.Run
import Scriptlet.Position
import Scriptlet.Name
import Scriptlet.Digits
import Scriptlet.Double.Basic
import Scriptlet.Double.Arithmetic
import Scriptlet.Double.Decimal
import Scriptlet.Pattern
import Scriptlet.Token.Basic
import Scriptlet.Token.Escape
import Scriptlet.Token.Scan
import Scriptlet.Operator
import Scriptlet.Script.Basic
import Scriptlet.Script.ParseError
import Scriptlet.Script.Literal
import Scriptlet.Script.Parser
import Scriptlet.Value.Basic
import Scriptlet.Value.Heap
import Scriptlet.Value.Operation
import Scriptlet.Fault
import Scriptlet.Function
import Scriptlet.Scope
import Scriptlet.Machine
import Scriptlet.Eval
import Scriptlet.Host
import Scriptlet.Evaluator
import Scriptlet.Session
import Scriptlet.CommandLine
import Scriptlet.Main
import Scriptlet.Proofs.Moment
import Scriptlet.Proofs.Locality
import Scriptlet.Proofs.Discipline
import Scriptlet.Proofs.Grammar
import Scriptlet.Proofs.TokenStep
import Scriptlet.Proofs.Boundary
import Scriptlet.Proofs.ExpressionSoundness
import Scriptlet.Proofs.ParserSoundness
import Scriptlet.Proofs.ExpressionCompleteness
import Scriptlet.Proofs.ParserCompleteness
import Scriptlet.Proofs.Rendering
import Scriptlet.Proofs.RoundTrip
import Scriptlet.Proofs.PatternLanguage
import Scriptlet.Proofs.RuleOverlap
import Scriptlet.Proofs.MaximalMunch
import Scriptlet.Proofs.Access
import Scriptlet.Proofs.Safety
import Scriptlet.Proofs.Termination
import Scriptlet.Proofs.Parallel
import Scriptlet.Proofs.Isolation
import Scriptlet.Proofs.Shadowing
import Scriptlet.Proofs.Correspondence
import Scriptlet.Proofs.LikeRuns
import Scriptlet.Proofs.CallLimit
import Scriptlet.Proofs.Renaming
import Scriptlet.Proofs.LikeParsing
import Scriptlet.Proofs.Layout
import Scriptlet.Proofs.Datum
import Scriptlet.Proofs.DatumTokens
import Scriptlet.Proofs.DatumReading
import Scriptlet.Proofs.ReadBack
import Scriptlet.Proofs.Spelling
import Scriptlet.Proofs.WrittenTokens
import Scriptlet.Proofs.ErrorPlaces
import Scriptlet.Proofs.TokenPlaces
import Scriptlet.Proofs.Jumps
import Scriptlet.Proofs.Placement
import Scriptlet.Proofs.Blame
import Scriptlet.Proofs.Equality
import Scriptlet.Proofs.Conduct
import Scriptlet.Proofs.Bindings
import Scriptlet.Proofs.ScopeStore
import Scriptlet.Proofs.ListStorage
import Scriptlet.Proofs.Hoisting
import Scriptlet.Proofs.EmptyScope
import Scriptlet.Proofs.EqualityLaws
import Scriptlet.Proofs.Fuel
import Scriptlet.Proofs.LoopForms
import Scriptlet.Proofs.ForEach
import Scriptlet.Proofs.ParserFuel
import Scriptlet.Proofs.Lookahead
import Scriptlet.Proofs.LineEnds
import Scriptlet.Proofs.TokenSpans
import Scriptlet.Proofs.EscapePieces
import Scriptlet.Proofs.Activation
import Scriptlet.Proofs.CallProtocol
import Scriptlet.Proofs.IntegerArithmetic
import Scriptlet.Proofs.ParserProgress
import Scriptlet.Proofs.LiteralValues
import Scriptlet.Proofs.NodeSpans
import Scriptlet.Proofs.NodePlaces
