import PageSync.Deflate.Bits
import PageSync.Deflate.Code
import PageSync.Deflate.Decoder
import PageSync.Deflate.Delivery
import PageSync.Deflate.Inflate
import PageSync.Deflate.Intake
import PageSync.Deflate.Member
import PageSync.Deflate.Reader
import PageSync.Deflate.Stretch
import PageSync.Deflate.Tables
import PageSync.Forward.NearestLine
import PageSync.Forward.Region
import PageSync.Forward.Search
import PageSync.Forward.Selection
import PageSync.Gzip.Crc32
import PageSync.Gzip.Decoder
import PageSync.Gzip.Decompress
import PageSync.Host.Answer
import PageSync.Host.Decode
import PageSync.Host.Function
import PageSync.Host.Session
import PageSync.Host.Term
import PageSync.Index.Basic
import PageSync.Index.Draft
import PageSync.Index.Read
import PageSync.Inverse.Descent
import PageSync.Inverse.Search
import PageSync.Inverse.Siblings
import PageSync.Inverse.Start
import PageSync.Kind
import PageSync.Page.Basic
import PageSync.Page.Closest
import PageSync.Page.Distance
import PageSync.Page.Node
import PageSync.Proofs.Index.Friends
import PageSync.Proofs.Index.Nesting
import PageSync.Proofs.Written.RoundTrip
import PageSync.Scale
import PageSync.Settings
import PageSync.Source.FileName
import PageSync.Source.Inputs
import PageSync.Stream.Document
import PageSync.Stream.Event
import PageSync.Stream.Record
import PageSync.Text.Decimal
import PageSync.Text.Field
import PageSync.Text.Lines
import PageSync.Text.Trim
import PageSync.Text.Utf8
import PageSync.Text.Whitespace
import PageSync.Proofs.Page.Ancestors
import PageSync.Proofs.Inverse.Start
import PageSync.Proofs.Inverse.Descent
import PageSync.Proofs.Inverse.Siblings
import PageSync.Proofs.Inverse.Search
import PageSync.Proofs.Forward.NearestLine
import PageSync.Proofs.Forward.Search
import PageSync.Proofs.Forward.Return
import PageSync.Proofs.Stream.Part
import PageSync.Proofs.Index.Growth
import PageSync.Proofs.Stream.Says
import PageSync.Proofs.Stream.Cut
import PageSync.Proofs.Index.Isolation
import PageSync.Proofs.Index.Damage
import PageSync.Proofs.Inverse.Passing
import PageSync.Proofs.Stream.Header
import PageSync.Proofs.Index.Header
import PageSync.Proofs.Page.Leaf
import PageSync.Proofs.Index.Deletion
import PageSync.Proofs.Forward.Deletion
import PageSync.Proofs.Deflate.Decoder
import PageSync.Proofs.Gzip.Stored
import PageSync.Proofs.Gzip.Cut
import PageSync.Proofs.Binary64.Order
import PageSync.Proofs.Binary64.Packing
import PageSync.Proofs.Binary64.Sign
import PageSync.Proofs.Forward.LeastDistance
import PageSync.Proofs.Forward.Narrowing
import PageSync.Proofs.Binary64.Size
import PageSync.Proofs.Index.Bounds
import PageSync.Proofs.Page.Closest
import PageSync.Proofs.Inverse.Optimum
import PageSync.Proofs.Inverse.Choice
import PageSync.Proofs.Inverse.Unlined
import PageSync.Proofs.Text.Utf8
import PageSync.Proofs.Binary64.Products
import PageSync.Proofs.Index.Orientation
import PageSync.Proofs.Stream.Grammar
import PageSync.Proofs.Text.Decimal
import PageSync.Proofs.Index.LineEnds
import PageSync.Proofs.Index.Neutral
import PageSync.Proofs.Forward.Region
import PageSync.Proofs.Text.Stretches
import PageSync.Proofs.Gzip.PlainText
import PageSync.Proofs.Inverse.Steps
import PageSync.Proofs.Host.Decode
import PageSync.Proofs.Host.Batch
