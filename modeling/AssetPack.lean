import AssetPack.Bytes
import AssetPack.Codec.Cursor
import AssetPack.Codec.Decode
import AssetPack.Codec.Encode
import AssetPack.Codec.Writer
import AssetPack.Command
import AssetPack.Command.Build
import AssetPack.Command.Inspect
import AssetPack.Command.Outline
import AssetPack.Command.Request
import AssetPack.Command.Run
import AssetPack.Compression
import AssetPack.Compression.Block
import AssetPack.Compression.Early
import AssetPack.Compression.Frame
import AssetPack.Compression.Header
import AssetPack.Compression.Input
import AssetPack.Compression.Room
import AssetPack.Compression.RoundTrip
import AssetPack.Decimal
import AssetPack.Description.Compile
import AssetPack.Description.Context
import AssetPack.Description.Expansion
import AssetPack.Description.Keys
import AssetPack.Description.Located
import AssetPack.Description.Objects
import AssetPack.Description.References
import AssetPack.Dict
import AssetPack.Digest
import AssetPack.Double
import AssetPack.Double.Nearest
import AssetPack.Double.Read
import AssetPack.Double.Shortest
import AssetPack.Fault
import AssetPack.Files.Disk
import AssetPack.Files.Error
import AssetPack.Files.Path
import AssetPack.Files.Plan
import AssetPack.Issue
import AssetPack.Json
import AssetPack.Json.Escape
import AssetPack.Json.Read
import AssetPack.Json.Token
import AssetPack.Json.Write
import AssetPack.Main
import AssetPack.Pack.Cache
import AssetPack.Pack.Extraction
import AssetPack.Pack.File
import AssetPack.Pack.SourceText
import AssetPack.Proofs.Account
import AssetPack.Proofs.Codec.Accessed
import AssetPack.Proofs.Codec.Alike
import AssetPack.Proofs.Codec.Canonical
import AssetPack.Proofs.Codec.Form
import AssetPack.Proofs.Codec.Given
import AssetPack.Proofs.Codec.Ranges
import AssetPack.Proofs.Codec.Reading
import AssetPack.Proofs.Codec.RoundTrip
import AssetPack.Proofs.Codec.Saved
import AssetPack.Proofs.Codec.Shift
import AssetPack.Proofs.Codec.Spelled
import AssetPack.Proofs.Command.Executed
import AssetPack.Proofs.Command.Exits
import AssetPack.Proofs.Command.Failing
import AssetPack.Proofs.Command.Transparent
import AssetPack.Proofs.Compression.Drawn
import AssetPack.Proofs.Decimal
import AssetPack.Proofs.Description.Alongside
import AssetPack.Proofs.Description.Closed
import AssetPack.Proofs.Description.Compiled
import AssetPack.Proofs.Description.Consulted
import AssetPack.Proofs.Description.Cycles
import AssetPack.Proofs.Description.Debugged
import AssetPack.Proofs.Description.Dependencies
import AssetPack.Proofs.Description.Ending
import AssetPack.Proofs.Description.Entries
import AssetPack.Proofs.Description.Expanded
import AssetPack.Proofs.Description.Finished
import AssetPack.Proofs.Description.Fueled
import AssetPack.Proofs.Description.InPlace
import AssetPack.Proofs.Description.Inherited
import AssetPack.Proofs.Description.Inlined
import AssetPack.Proofs.Description.Inlining
import AssetPack.Proofs.Description.Listed
import AssetPack.Proofs.Description.Loaded
import AssetPack.Proofs.Description.Marks
import AssetPack.Proofs.Description.Names
import AssetPack.Proofs.Description.Neighbours
import AssetPack.Proofs.Description.Noted
import AssetPack.Proofs.Description.Orderless
import AssetPack.Proofs.Description.Packed
import AssetPack.Proofs.Description.Passes
import AssetPack.Proofs.Description.Read
import AssetPack.Proofs.Description.Resolved
import AssetPack.Proofs.Description.Roots
import AssetPack.Proofs.Description.Scoped
import AssetPack.Proofs.Description.Scopes
import AssetPack.Proofs.Description.Symbols
import AssetPack.Proofs.Description.TemplateCycles
import AssetPack.Proofs.Description.Told
import AssetPack.Proofs.Description.Unlisted
import AssetPack.Proofs.Dict.Merged
import AssetPack.Proofs.Dict.Reordered
import AssetPack.Proofs.Double.Exact
import AssetPack.Proofs.Files.Answers
import AssetPack.Proofs.Files.Inside
import AssetPack.Proofs.Files.Later
import AssetPack.Proofs.Files.Places
import AssetPack.Proofs.Files.Systems
import AssetPack.Proofs.Files.Unchanged
import AssetPack.Proofs.Files.Written
import AssetPack.Proofs.Json.Accepted
import AssetPack.Proofs.Json.Canonical
import AssetPack.Proofs.Json.Grammar
import AssetPack.Proofs.Json.Image
import AssetPack.Proofs.Json.Lexing
import AssetPack.Proofs.Json.Parsed
import AssetPack.Proofs.Json.Parts
import AssetPack.Proofs.Json.Quoted
import AssetPack.Proofs.Json.Stored
import AssetPack.Proofs.Json.Written
import AssetPack.Proofs.Pack.Confined
import AssetPack.Proofs.Pack.Current
import AssetPack.Proofs.Pack.Extracted
import AssetPack.Proofs.Pack.Listed
import AssetPack.Proofs.Pack.Located
import AssetPack.Proofs.Pack.Sourced
import AssetPack.Proofs.Pack.Updated
import AssetPack.Proofs.Resource.Dependents
import AssetPack.Proofs.Resource.FlushOrder
import AssetPack.Proofs.Resource.Flushed
import AssetPack.Proofs.Resource.Made
import AssetPack.Proofs.Resource.Memoized
import AssetPack.Proofs.Resource.Rebuilding
import AssetPack.Proofs.Resource.Reloaded
import AssetPack.Proofs.Resource.Restored
import AssetPack.Proofs.Resource.Shown
import AssetPack.Proofs.Resource.Stored
import AssetPack.Proofs.Selector
import AssetPack.Proofs.Tree.Alike
import AssetPack.Proofs.Tree.Opening
import AssetPack.Proofs.Tree.Stored
import AssetPack.Proofs.Value.Printed
import AssetPack.Proofs.Value.Revealed
import AssetPack.Proofs.Value.Vocabulary
import AssetPack.Proofs.Visit
import AssetPack.Proofs.Visit.Asked
import AssetPack.Proofs.Visit.Fields
import AssetPack.Proofs.Visit.Followed
import AssetPack.Proofs.Visit.Kept
import AssetPack.Proofs.Visit.Placed
import AssetPack.Resource
import AssetPack.Resource.Builtin
import AssetPack.Resource.Container
import AssetPack.Resource.Holder
import AssetPack.Selector
import AssetPack.Symbol
import AssetPack.Text.Blank
import AssetPack.Text.CaseIgnorable
import AssetPack.Text.Cased
import AssetPack.Text.Extending
import AssetPack.Text.Literal
import AssetPack.Text.Lowercase
import AssetPack.Text.Numeral
import AssetPack.Text.Printable
import AssetPack.Text.Ranges
import AssetPack.Tree
import AssetPack.Tree.Merge
import AssetPack.Tree.Refs
import AssetPack.Tree.Same
import AssetPack.Tree.Show
import AssetPack.Value
import AssetPack.Value.Convert
import AssetPack.Value.Materialize
import AssetPack.Visit
