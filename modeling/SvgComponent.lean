import SvgComponent.Main
import SvgComponent.Proofs.Text.Blank
import SvgComponent.Proofs.Path.Rereading
import SvgComponent.Proofs.Path.Drawing
import SvgComponent.Proofs.Path.Joining
import SvgComponent.Proofs.Path.Tracing
import SvgComponent.Proofs.Markup.Escaping
import SvgComponent.Proofs.Markup.Below
import SvgComponent.Proofs.Markup.Slots
import SvgComponent.Proofs.Markup.Walks
import SvgComponent.Proofs.Markup.Tag
import SvgComponent.Proofs.Markup.Outline
import SvgComponent.Proofs.Markup.Quotes
import SvgComponent.Proofs.Markup.Scanning
import SvgComponent.Proofs.Markup.Nesting
import SvgComponent.Proofs.Markup.RoundTrip
import SvgComponent.Proofs.Markup.Reading
import SvgComponent.Proofs.Markup.Pieces
import SvgComponent.Proofs.Markup.Stable
import SvgComponent.Proofs.Markup.Unambiguous
import SvgComponent.Proofs.Clean.Change
import SvgComponent.Proofs.Clean.Naming
import SvgComponent.Proofs.Clean.Stability
import SvgComponent.Proofs.Clean.Values
import SvgComponent.Proofs.Clean.Holding
import SvgComponent.Proofs.Clean.References
import SvgComponent.Proofs.Clean.Forms
import SvgComponent.Proofs.Clean.Sweep
import SvgComponent.Proofs.Clean.Resolvable
import SvgComponent.Proofs.Clean.Distinct
import SvgComponent.Proofs.Clean.Unused
import SvgComponent.Proofs.Clean.Merging
import SvgComponent.Proofs.Clean.Geometry
import SvgComponent.Proofs.Jsx.Scanning
import SvgComponent.Proofs.Jsx.Formatting
import SvgComponent.Proofs.Jsx.Boundaries
import SvgComponent.Proofs.Jsx.Clear
import SvgComponent.Proofs.Component.Tidying
import SvgComponent.Proofs.Jsx.Attributes
import SvgComponent.Proofs.Jsx.Converted
import SvgComponent.Proofs.Style.Declarations
import SvgComponent.Proofs.Component.Pretty
import SvgComponent.Proofs.Jsx.Reader
import SvgComponent.Proofs.Jsx.Indenting
import SvgComponent.Proofs.Jsx.Payloads
import SvgComponent.Proofs.Jsx.Sources
import SvgComponent.Proofs.Component.Literals
import SvgComponent.Proofs.Style.Blocks
import SvgComponent.Proofs.Component.Isolation
import SvgComponent.Proofs.Jsx.Code
import SvgComponent.Proofs.Clean.Editing
import SvgComponent.Proofs.Path.Simplest
import SvgComponent.Proofs.Decimal.Places
import SvgComponent.Proofs.Clean.Repetition
import SvgComponent.Proofs.Clean.Frame
import SvgComponent.Proofs.Markup.Restriction
import SvgComponent.Proofs.Jsx.Depicted
import SvgComponent.Proofs.Jsx.Identifiers
import SvgComponent.Proofs.Component.Depiction
import SvgComponent.Proofs.Jsx.Numbering
import SvgComponent.Proofs.Component.Extraction
import SvgComponent.Proofs.Clean.Accounting
import SvgComponent.Proofs.Convert.Offloading
import SvgComponent.Proofs.Markup.Grammar
import SvgComponent.Proofs.Markup.Items
import SvgComponent.Proofs.Markup.Denotation
import SvgComponent.Proofs.Jsx.Evaluation
import SvgComponent.Proofs.Jsx.Tags
import SvgComponent.Proofs.Component.Expression
import SvgComponent.Proofs.Path.Spelled
import SvgComponent.Proofs.Decimal.Numerals
import SvgComponent.Proofs.Decimal.Nearest
import SvgComponent.Proofs.Decimal.Carry
import SvgComponent.Proofs.Clean.Rounded
import SvgComponent.Proofs.Text.Replace
import SvgComponent.Proofs.Jsx.Delimited
import SvgComponent.Proofs.Component.Leftovers
import SvgComponent.Proofs.Component.Hollow
import SvgComponent.Proofs.Component.Removal
import SvgComponent.Proofs.Analysis.Written
import SvgComponent.Proofs.Clean.Grouped
import SvgComponent.Proofs.Clean.Recolored
import SvgComponent.Proofs.Component.Bindings
import SvgComponent.Proofs.Clean.Trimmed
import SvgComponent.Proofs.Markup.Attributes
import SvgComponent.Proofs.Style.Splitting
import SvgComponent.Proofs.Convert.Positions
import SvgComponent.Proofs.Clean.Dangling
import SvgComponent.Proofs.Convert.Cancelling
