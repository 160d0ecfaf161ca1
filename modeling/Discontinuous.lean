import Discontinuous.Agenda
import Discontinuous.Chart
import Discontinuous.Clause
import Discontinuous.Closure
import Discontinuous.Cost
import Discontinuous.Decimal.Digits
import Discontinuous.Decimal.Literal
import Discontinuous.Decimal.Magnitude
import Discontinuous.Decimal.Written
import Discontinuous.Dictionary
import Discontinuous.Estimate.Build
import Discontinuous.Estimate.Outside
import Discontinuous.Estimate.Table
import Discontinuous.Grammar.Basic
import Discontinuous.Grammar.Summary
import Discontinuous.Heap
import Discontinuous.Item
import Discontinuous.Join
import Discontinuous.Key
import Discontinuous.Keyed
import Discontinuous.Label
import Discontinuous.Lexicon
import Discontinuous.Parser.Basic
import Discontinuous.Parser.Derivation
import Discontinuous.Parser.Pool
import Discontinuous.Parser.Search
import Discontinuous.Parser.Tagging
import Discontinuous.Pattern
import Discontinuous.Proofs.Admissible
import Discontinuous.Proofs.Agenda
import Discontinuous.Proofs.Binding
import Discontinuous.Proofs.Chart
import Discontinuous.Proofs.Cheapest
import Discontinuous.Proofs.Closure
import Discontinuous.Proofs.Combination
import Discontinuous.Proofs.Cost
import Discontinuous.Proofs.Cutoff
import Discontinuous.Proofs.Derivation
import Discontinuous.Proofs.Descent
import Discontinuous.Proofs.Estimate
import Discontinuous.Proofs.Exactness
import Discontinuous.Proofs.Flattening
import Discontinuous.Proofs.Frontier
import Discontinuous.Proofs.Grammar
import Discontinuous.Proofs.Heap
import Discontinuous.Proofs.Horizon
import Discontinuous.Proofs.Inside
import Discontinuous.Proofs.Join
import Discontinuous.Proofs.Key
import Discontinuous.Proofs.Keyed
import Discontinuous.Proofs.Ledger
import Discontinuous.Proofs.Lexeme
import Discontinuous.Proofs.Lexicon
import Discontinuous.Proofs.Line
import Discontinuous.Proofs.Linear
import Discontinuous.Proofs.Optimality
import Discontinuous.Proofs.Outline
import Discontinuous.Proofs.Outside
import Discontinuous.Proofs.Parser
import Discontinuous.Proofs.Partition
import Discontinuous.Proofs.Pattern
import Discontinuous.Proofs.Phrase
import Discontinuous.Proofs.Placement
import Discontinuous.Proofs.Proposal
import Discontinuous.Proofs.Recognition
import Discontinuous.Proofs.Refusal
import Discontinuous.Proofs.Register
import Discontinuous.Proofs.Rendering
import Discontinuous.Proofs.Representation
import Discontinuous.Proofs.Reuse
import Discontinuous.Proofs.Scheme
import Discontinuous.Proofs.Script
import Discontinuous.Proofs.Search
import Discontinuous.Proofs.Shape
import Discontinuous.Proofs.Signature
import Discontinuous.Proofs.Splice
import Discontinuous.Proofs.Tagging
import Discontinuous.Proofs.Termination
import Discontinuous.Proofs.Text
import Discontinuous.Proofs.Token
import Discontinuous.Proofs.Turn
import Discontinuous.Proofs.Uniform
import Discontinuous.Proofs.Walker
import Discontinuous.Proofs.Width
import Discontinuous.Script.Binding
import Discontinuous.Script.Document
import Discontinuous.Script.Lexeme
import Discontinuous.Script.Line
import Discontinuous.Script.Statement
import Discontinuous.Script.Walker
import Discontinuous.Settings.Basic
import Discontinuous.Settings.Fields
import Discontinuous.Span
import Discontinuous.Text.Base64
import Discontinuous.Text.Blank
import Discontinuous.Text.Composed
import Discontinuous.Text.Composer
import Discontinuous.Text.Decomposition
import Discontinuous.Text.Glyph
import Discontinuous.Text.Hangul
import Discontinuous.Text.Printable
import Discontinuous.Text.Quoted
import Discontinuous.Text.Table
import Discontinuous.Trace
import Discontinuous.Word
import Discontinuous.Yaml.Block
import Discontinuous.Yaml.Comment
import Discontinuous.Yaml.Document
import Discontinuous.Yaml.Folded
import Discontinuous.Yaml.Moment
import Discontinuous.Yaml.Node
import Discontinuous.Yaml.Number
import Discontinuous.Yaml.Source
import Discontinuous.Yaml.Stream
import Discontinuous.Yaml.Tag
import Discontinuous.Yaml.Token
import Discontinuous.Yaml.Value
import Discontinuous.Yield
