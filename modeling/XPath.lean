import XPath.Number.Text
import XPath.Text.Lowercase
import XPath.Text.Search
import XPath.Tree.Forest
import XPath.Tree.Axis
import XPath.Value.Operator
import XPath.Syntax.Build
import XPath.Expr.Basic
import XPath.Expr.OfSyntax
import XPath.Sequence.Script
import XPath.Evaluation.Meaning
import XPath.Evaluation.Eager
import XPath.Library.Extension
import XPath.Query.Engine
import XPath.Tree.Sample
import XPath.Proofs.Number.Grains
import XPath.Proofs.Tree.Subtree
import XPath.Proofs.Tree.Presentation
import XPath.Proofs.Tree.Partition
import XPath.Proofs.Tree.Preorder
import XPath.Proofs.Tree.Ancestry
import XPath.Proofs.Tree.Sorting
import XPath.Proofs.Sequence.Production
import XPath.Proofs.Sequence.Readers
import XPath.Proofs.Evaluation.Abbreviation
import XPath.Proofs.Evaluation.Accord
import XPath.Proofs.Library.Accord
import XPath.Proofs.Evaluation.Stages
import XPath.Proofs.Evaluation.Rules
import XPath.Proofs.Evaluation.Habit
import XPath.Proofs.Evaluation.Logging
import XPath.Proofs.Evaluation.Growth
import XPath.Proofs.Evaluation.Truth
import XPath.Proofs.Evaluation.Reading
import XPath.Proofs.Evaluation.Following
import XPath.Proofs.Evaluation.Laziness
import XPath.Proofs.Evaluation.Position
import XPath.Proofs.Tree.Walks
import XPath.Proofs.Tree.Forks
import XPath.Proofs.Tree.Bounds
import XPath.Proofs.Tree.Converse
import XPath.Proofs.Evaluation.Agreement
import XPath.Proofs.Evaluation.Selection
import XPath.Proofs.Evaluation.Uniqueness
import XPath.Proofs.Evaluation.Indifference
import XPath.Proofs.Value.Comparison
import XPath.Proofs.Evaluation.Errors
import XPath.Proofs.Evaluation.Steadiness
import XPath.Proofs.Evaluation.Supply
import XPath.Proofs.Evaluation.Delivery
import XPath.Proofs.Evaluation.Slots
import XPath.Proofs.Evaluation.Literal
import XPath.Proofs.Query.Recall
import XPath.Proofs.Query.Recency
import XPath.Proofs.Tree.Ranking
import XPath.Proofs.Value.Union
import XPath.Proofs.Query.Requests
import XPath.Proofs.Evaluation.Calls
import XPath.Proofs.Library.Replacement
import XPath.Proofs.Evaluation.Levels
import XPath.Proofs.Evaluation.Backwards
import XPath.Proofs.Evaluation.Rewriting
import XPath.Proofs.Evaluation.SameNodes
import XPath.Proofs.Tree.Requalified
import XPath.Proofs.Evaluation.Qualifiers
import XPath.Proofs.Evaluation.PartialAgreement
import XPath.Proofs.Evaluation.Variables
import XPath.Proofs.Evaluation.Invariants
import XPath.Proofs.Evaluation.Echoing
import XPath.Proofs.Evaluation.Frames
import XPath.Proofs.Evaluation.JudgementLog
import XPath.Proofs.Evaluation.Coherence
import XPath.Proofs.Evaluation.Numeric
import XPath.Proofs.Evaluation.Impartiality
import XPath.Proofs.Evaluation.Seeking
import XPath.Proofs.Evaluation.Concurrence
import XPath.Proofs.Evaluation.PrefixDependence
import XPath.Proofs.Text.Blank
import XPath.Proofs.Number.Nearest
import XPath.Proofs.Number.RoundTrip
import XPath.Proofs.Syntax.Names
import XPath.Proofs.Syntax.Builders
import XPath.Proofs.Text.Words
import XPath.Proofs.Library.Identifiers
import XPath.Proofs.Number.Grammar
import XPath.Proofs.Syntax.Shape
import XPath.Proofs.Number.Exact
import XPath.Proofs.Number.Sums
import XPath.Proofs.Number.Whole
import XPath.Proofs.Number.Rounding
import XPath.Proofs.Number.Reading
import XPath.Proofs.Number.Writing
import XPath.Proofs.Library.Documents
import XPath.Proofs.Library.Strings
import XPath.Proofs.Number.Integers
import XPath.Proofs.Text.Normal
import XPath.Proofs.Text.Search
import XPath.Proofs.Text.Substring
import XPath.Proofs.Evaluation.StringValue
import XPath.Proofs.Evaluation.Resolution
