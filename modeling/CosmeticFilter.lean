import CosmeticFilter.Css.Basic
import CosmeticFilter.Css.Error
import CosmeticFilter.Css.Ident
import CosmeticFilter.Css.Keyword
import CosmeticFilter.Css.Nth
import CosmeticFilter.Extended.Name
import CosmeticFilter.Extended.Token
import CosmeticFilter.Text.Basic
import CosmeticFilter.Text.Nesting
import CosmeticFilter.Text.Number
import CosmeticFilter.Css.Reader
import CosmeticFilter.Text.Category
import CosmeticFilter.Text.LetterCase
import CosmeticFilter.Regex.Basic
import CosmeticFilter.Regex.Matching
import CosmeticFilter.Regex.Escape
import CosmeticFilter.Regex.Bracket
import CosmeticFilter.Regex.Reader
import CosmeticFilter.Decimal.Double
import CosmeticFilter.Decimal.Reader
import CosmeticFilter.Decimal.Shortest
import CosmeticFilter.Condition.Assignment
import CosmeticFilter.Condition.Error
import CosmeticFilter.Condition.Pattern
import CosmeticFilter.Json.Basic
import CosmeticFilter.Json.Number
import CosmeticFilter.Json.Printer
import CosmeticFilter.Json.Reader
import CosmeticFilter.Document.Basic
import CosmeticFilter.Document.Description
import CosmeticFilter.Document.Fixture
import CosmeticFilter.Css.Matching
import CosmeticFilter.XPath.Basic
import CosmeticFilter.XPath.Error
import CosmeticFilter.XPath.Evaluation
import CosmeticFilter.XPath.Reader
import CosmeticFilter.Condition.Attribute
import CosmeticFilter.Condition.Basic
import CosmeticFilter.Extended.Basic
import CosmeticFilter.Extended.Error
import CosmeticFilter.Extended.Piece
import CosmeticFilter.Extended.Reader
import CosmeticFilter.Extended.Cache
import CosmeticFilter.Query.Continuation
import CosmeticFilter.Query.Evaluation
import CosmeticFilter.StyleSheet.Compiler
import CosmeticFilter.Command.Basic
import CosmeticFilter.Command.Run
import CosmeticFilter.Main
import CosmeticFilter.Proofs.Text.Trim
import CosmeticFilter.Proofs.Text.Cut
import CosmeticFilter.Proofs.StyleSheet.JoinedRules
import CosmeticFilter.Proofs.Extended.Chunks
import CosmeticFilter.Proofs.Extended.Pieces
import CosmeticFilter.Proofs.Extended.Reading
import CosmeticFilter.Proofs.Extended.BlankRuns
import CosmeticFilter.Proofs.Extended.Shielded
import CosmeticFilter.Proofs.Extended.CachedReading
import CosmeticFilter.Proofs.Css.Conditions
import CosmeticFilter.Proofs.Css.Unread
import CosmeticFilter.Proofs.Css.GoingOn
import CosmeticFilter.Proofs.Css.Scope
import CosmeticFilter.Proofs.Document.Built
import CosmeticFilter.Proofs.Css.LastCharacter
import CosmeticFilter.Proofs.Extended.NativeText
import CosmeticFilter.Proofs.Extended.Respaced
import CosmeticFilter.Proofs.Extended.Inserted
import CosmeticFilter.Proofs.Query.Continuation
import CosmeticFilter.Proofs.Query.TwoSteps
import CosmeticFilter.Proofs.Extended.Seams
import CosmeticFilter.Proofs.Css.Alternatives
import CosmeticFilter.Proofs.Extended.Growth
import CosmeticFilter.Proofs.Extended.Placement
import CosmeticFilter.Proofs.Query.Refusal
import CosmeticFilter.Proofs.Query.NativePath
import CosmeticFilter.Proofs.Extended.Written
import CosmeticFilter.Proofs.Extended.WrittenBranch
import CosmeticFilter.Proofs.Extended.Reprinted
import CosmeticFilter.Proofs.Document.Tree
import CosmeticFilter.Proofs.Document.Preorder
import CosmeticFilter.Proofs.Css.Combinators
import CosmeticFilter.Proofs.StyleSheet.RemovalMarks
import CosmeticFilter.Proofs.StyleSheet.SingleRule
import CosmeticFilter.Proofs.StyleSheet.RemovalForms
import CosmeticFilter.Proofs.Css.Brackets
import CosmeticFilter.Proofs.Extended.Squeezed
import CosmeticFilter.Proofs.Css.ReadAlike
import CosmeticFilter.Proofs.Extended.NativePieces
import CosmeticFilter.Proofs.Extended.Transparency
import CosmeticFilter.Proofs.StyleSheet.Merging
import CosmeticFilter.Proofs.StyleSheet.Attempts
import CosmeticFilter.Proofs.StyleSheet.SharedCache
import CosmeticFilter.Proofs.Css.Foreign
import CosmeticFilter.Proofs.Extended.Foreign
import CosmeticFilter.Proofs.StyleSheet.BlockStart
import CosmeticFilter.Proofs.StyleSheet.Repeated
import CosmeticFilter.Proofs.Extended.Comma
import CosmeticFilter.Proofs.Query.Lists
import CosmeticFilter.Proofs.Extended.Arguments
import CosmeticFilter.Proofs.Extended.TextArguments
import CosmeticFilter.Proofs.Query.Relatives
import CosmeticFilter.Proofs.Document.Loaded
import CosmeticFilter.Proofs.TagPath.Native
import CosmeticFilter.Proofs.TagPath.XPath
import CosmeticFilter.Proofs.TagPath.Agreement
import CosmeticFilter.Proofs.Warning.History
import CosmeticFilter.Proofs.StyleSheet.Candidates
import CosmeticFilter.Proofs.StyleSheet.EmittedRemovals
import CosmeticFilter.Proofs.Document.Order
import CosmeticFilter.Proofs.XPath.Meaning
import CosmeticFilter.Proofs.XPath.Axes
import CosmeticFilter.Proofs.XPath.Grammar
import CosmeticFilter.Proofs.XPath.Operands
import CosmeticFilter.Proofs.XPath.Conditions
import CosmeticFilter.Proofs.XPath.Openings
import CosmeticFilter.Proofs.XPath.Predicates
import CosmeticFilter.Proofs.XPath.Reading
import CosmeticFilter.Proofs.XPath.Acceptance
import CosmeticFilter.Proofs.XPath.Numbers
import CosmeticFilter.Proofs.XPath.Values
import CosmeticFilter.Proofs.XPath.Agreement
import CosmeticFilter.Proofs.StyleSheet.EmittedStyles
import CosmeticFilter.Proofs.Document.Subtree
import CosmeticFilter.Proofs.Query.ScopedSearch
import CosmeticFilter.Proofs.Extended.Places
import CosmeticFilter.Proofs.Extended.SingleFragments
import CosmeticFilter.Proofs.Query.Filters
import CosmeticFilter.Proofs.Extended.Characters
import CosmeticFilter.Proofs.Document.Parents
import CosmeticFilter.Proofs.Document.TextContent
import CosmeticFilter.Proofs.Query.NearestAncestor
import CosmeticFilter.Proofs.Extended.NativeArgument
import CosmeticFilter.Proofs.Css.Relative
import CosmeticFilter.Proofs.Query.RelativeMatch
import CosmeticFilter.Proofs.Query.Duality
import CosmeticFilter.Proofs.Document.Numbering
import CosmeticFilter.Proofs.Document.ReadBack
import CosmeticFilter.Proofs.XPath.DocumentOrder
import CosmeticFilter.Proofs.Text.BlankCategories
import CosmeticFilter.Proofs.XPath.TextEnds
import CosmeticFilter.Proofs.XPath.EndBlind
import CosmeticFilter.Proofs.XPath.OuterBlanks
import CosmeticFilter.Proofs.XPath.Unions
import CosmeticFilter.Proofs.Query.AbsoluteXPath
import CosmeticFilter.Proofs.Extended.Ascents
import CosmeticFilter.Proofs.Query.Ascents
import CosmeticFilter.Proofs.Query.TextContent
import CosmeticFilter.Proofs.Css.Identifiers
import CosmeticFilter.Proofs.Css.Names
import CosmeticFilter.Proofs.Text.Integers
import CosmeticFilter.Proofs.Css.StepNotation
import CosmeticFilter.Proofs.Css.ChildPositions
import CosmeticFilter.Proofs.Extended.AttributeForm
import CosmeticFilter.Proofs.Query.EscapedContent
import CosmeticFilter.Proofs.Regex.Spans
import CosmeticFilter.Proofs.Condition.Globs
import CosmeticFilter.Proofs.Condition.Chains
import CosmeticFilter.Proofs.Condition.PropertyPaths
import CosmeticFilter.Proofs.Style.Pieces
import CosmeticFilter.Proofs.StyleSheet.Slices
import CosmeticFilter.Proofs.StyleSheet.RuleAlone
import CosmeticFilter.Proofs.StyleSheet.Comments
import CosmeticFilter.Proofs.Extended.Tokens
import CosmeticFilter.Proofs.Css.CompoundEnd
import CosmeticFilter.Proofs.Query.FirstCompound
import CosmeticFilter.Proofs.Extended.NormalForm
import CosmeticFilter.Proofs.Css.OuterColons
import CosmeticFilter.Proofs.Extended.Interruption
import CosmeticFilter.Proofs.Extended.Uninterrupted
