import MessageCatalog.Bytes.Cursor
import MessageCatalog.Main
import MessageCatalog.Workspace
import MessageCatalog.Proofs.Entry
import MessageCatalog.Proofs.Headers
import MessageCatalog.Proofs.Text.Utf8
import MessageCatalog.Proofs.Catalog.Reachable
import MessageCatalog.Proofs.Image.Layout
import MessageCatalog.Proofs.Catalog.RoundTrip
import MessageCatalog.Proofs.Plural.Parser
import MessageCatalog.Proofs.Catalog.Rule
import MessageCatalog.Proofs.Workspace
import MessageCatalog.Proofs.Catalog.Acceptance
import MessageCatalog.Proofs.Catalog.Meaning
import MessageCatalog.Proofs.Catalog.Lookup
import MessageCatalog.Proofs.CommandLine.Concatenate
import MessageCatalog.Proofs.Workspace.Content
import MessageCatalog.Proofs.CommandLine.Precedence
import MessageCatalog.Proofs.CommandLine.Outcome
import MessageCatalog.Proofs.CommandLine.Dump
import MessageCatalog.Proofs.Workspace.Table
import MessageCatalog.Proofs.Catalog.Cut
import MessageCatalog.Proofs.Catalog.Search
import MessageCatalog.Proofs.PoText.Quoted
import MessageCatalog.Proofs.PoText.Reading
import MessageCatalog.Proofs.Plural.Arithmetic
import MessageCatalog.Proofs.Text.Blank
import MessageCatalog.Proofs.Plural.Header
import MessageCatalog.Proofs.Plural.Depth
import MessageCatalog.Proofs.Plural.Rendering
import MessageCatalog.Proofs.Image.Overflow
import MessageCatalog.Proofs.Image.Extents
import MessageCatalog.Proofs.Catalog.Encoding
import MessageCatalog.Proofs.Catalog.Growth
import MessageCatalog.Proofs.Headers.Normal
import MessageCatalog.Proofs.Catalog.Address
import MessageCatalog.Proofs.Catalog.Merge
import MessageCatalog.Proofs.PoText.Lines
import MessageCatalog.Proofs.Image.Indices
import MessageCatalog.Proofs.Bytes.Cursor
import MessageCatalog.Proofs.Plural.Bounds
