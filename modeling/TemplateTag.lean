import TemplateTag.Argument.Construction
import TemplateTag.Invocation.Basic
import TemplateTag.Main
import TemplateTag.Proofs.RawArgument.Advance
import TemplateTag.Proofs.Text.Span
import TemplateTag.Proofs.RawArgument.Coverage
import TemplateTag.Proofs.RawArgument.Opening
import TemplateTag.Proofs.Context.History
import TemplateTag.Proofs.Context.Calls
import TemplateTag.Proofs.Written.Name
import TemplateTag.Proofs.Written.Basic
import TemplateTag.Proofs.Written.Cut
import TemplateTag.Proofs.Written.Reading
import TemplateTag.Proofs.RawArgument.Part
import TemplateTag.Proofs.Reading.Trace
import TemplateTag.Proofs.Reading.Truncation
import TemplateTag.Proofs.Context.Depth
import TemplateTag.Proofs.RawArgument.BlockParams
import TemplateTag.Proofs.Reading.Names
import TemplateTag.Proofs.Reading.WellFormed
import TemplateTag.Proofs.Context.WellFormed
import TemplateTag.Proofs.Session.Basic
import TemplateTag.Proofs.Session.Invariant
import TemplateTag.Proofs.Context.Splitting
import TemplateTag.Proofs.Tag.Printing
import TemplateTag.Proofs.Template.Scan
import TemplateTag.Proofs.Construction.Reader
import TemplateTag.Proofs.Context.Usage
import TemplateTag.Proofs.Context.Helpers
import TemplateTag.Proofs.Context.Balance
import TemplateTag.Proofs.Arguments.Operation
import TemplateTag.Proofs.RawArgument.Between
import TemplateTag.Proofs.RawArgument.Sheltered
import TemplateTag.Proofs.Context.Brackets
import TemplateTag.Proofs.Reading.Plain
import TemplateTag.Proofs.Context.Dialects
import TemplateTag.Proofs.RawArgument.Quoted
import TemplateTag.Proofs.RawArgument.QuotedCall
import TemplateTag.Proofs.Context.Quoted
import TemplateTag.Proofs.Context.BlockParams
import TemplateTag.Proofs.Context.Spacing
import TemplateTag.Proofs.Context.Partials
import TemplateTag.Proofs.RawArgument.Closing
import TemplateTag.Proofs.RawArgument.Named
import TemplateTag.Proofs.Context.Named
import TemplateTag.Proofs.Context.Concatenation
import TemplateTag.Proofs.Reading.Interleaving
import TemplateTag.Proofs.Context.Paths
import TemplateTag.Proofs.Argument.Steps
import TemplateTag.Proofs.Context.BracketedNames
import TemplateTag.Proofs.VariableName.Tests
import TemplateTag.Proofs.VariableName.Normalized
import TemplateTag.Proofs.VariableName.Unpaired
import TemplateTag.Proofs.VariableName.Path
import TemplateTag.Proofs.Numeral.Integer
import TemplateTag.Proofs.Context.Integers
import TemplateTag.Proofs.Context.Literals
import TemplateTag.Proofs.Invocation.Grammar
import TemplateTag.Proofs.Text.Bytes
import TemplateTag.Proofs.Text.WordSpans
import TemplateTag.Proofs.Context.Excerpt
