import Cildec.Lib.Script
import Cildec.Lib.Walk
import Cildec.Lib.Grammar
import Cildec.Lib.Logged
import Cildec.Lib.Pieces
import Cildec.Lib.Transport
import Cildec.Lib.Needs
import Cildec.Lib.Window
import Cildec.Lib.Follow
import Cildec.Lib.Utf16
import Cildec.Lib.Utf8Valid
import Cildec.Reader.Raw
import Cildec.Reader.Located
import Cildec.Reader.Extend
import Cildec.Compressed
import Cildec.Heaps.Entries
import Cildec.Heaps.Tiling
import Cildec.Heaps.Tokens
import Cildec.Heaps.Spelled
import Cildec.Heaps.Text
import Cildec.Heaps.Guids
import Cildec.Tables.Moved
import Cildec.Tables.Lookup
import Cildec.Tables.Sums
import Cildec.Tables.Parents
import Cildec.Tables.RoundTrip
import Cildec.Tables.Pdb
import Cildec.Tables.Rounds
import Cildec.Tables.Partition
import Cildec.Tables.Widths
import Cildec.Tables.Enclosing
import Cildec.Tables.Located
import Cildec.Tables.Iter
import Cildec.Tables.Keyed
import Cildec.Tables.Reencode
import Cildec.Metadata.Extent
import Cildec.Metadata.RoundTrip
import Cildec.Metadata.Moved
import Cildec.Metadata.Sums
import Cildec.Metadata.Damaged
import Cildec.Metadata.Pdb
import Cildec.Metadata.Located
import Cildec.Signature.Traced
import Cildec.Signature.Reencode
import Cildec.Signature.Reference
import Cildec.Signature.Nested
import Cildec.Signature.Locality
import Cildec.Signature.RoundTrip
import Cildec.Signature.Depth
import Cildec.Signature.Shapes
import Cildec.Signature.Truncated
import Cildec.Signature.Limits
import Cildec.Signature.Sentinel
import Cildec.Signature.Void
import Cildec.Signature.Pinned
import Cildec.Signature.Located
import Cildec.Il.PrefixData
import Cildec.Il.Canonical
import Cildec.Il.Blocks
import Cildec.Il.Truncated
import Cildec.Il.Shape
import Cildec.Body.RoundTrip
import Cildec.Body.Code
import Cildec.Body.Offsets
import Cildec.Body.Delimited
import Cildec.Body.Misized
import Cildec.Body.Handlers
import Cildec.Body.Progress
import Cildec.Body.Located
import Cildec.Display.Names
import Cildec.Display.Nesting
import Cildec.Display.Terminates
import Cildec.Display.Faults
import Cildec.Display.Outline
import Cildec.Display.Length
import Cildec.Display.Members
import Cildec.Display.Bound
import Cildec.Located
import Cildec.Pe.Rva
import Cildec.Pe.Slice
import Cildec.Pe.Cli
import Cildec.Pe.Encode
import Cildec.Pe.RoundTrip
import Cildec.Pe.Managed
import Cildec.Pe.Pipeline
import Cildec.Pe.Program
import Cildec.Pe.Provenance
import Cildec.Pe.Overlay
import Cildec.Strictness
