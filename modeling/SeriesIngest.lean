import SeriesIngest.Outbox.Describe
import SeriesIngest.Outbox.Staffed
import SeriesIngest.Settings.Document
import SeriesIngest.Proofs.Grouping
import SeriesIngest.Proofs.Line.RoundTrip
import SeriesIngest.Proofs.Outbox.Moves
import SeriesIngest.Proofs.Outbox.Conservation
import SeriesIngest.Proofs.Column.Bits
import SeriesIngest.Proofs.Column.Pushes
import SeriesIngest.Proofs.Wire.BigEndian
import SeriesIngest.Proofs.Column.Rows
import SeriesIngest.Proofs.Schema.Columns
import SeriesIngest.Proofs.Record.Reading
import SeriesIngest.Proofs.Record.RoundTrip
import SeriesIngest.Proofs.Record.Partition
import SeriesIngest.Proofs.Client.Body
import SeriesIngest.Proofs.Client.Delivery
import SeriesIngest.Proofs.Client.Accounts
import SeriesIngest.Proofs.Client.NoLoss
import SeriesIngest.Proofs.Client.Refusal
import SeriesIngest.Proofs.Client.Batches
import SeriesIngest.Proofs.Record.Taking
import SeriesIngest.Proofs.Record.Spelling
import SeriesIngest.Proofs.Record.Truncation
import SeriesIngest.Proofs.Outbox.Staff
import SeriesIngest.Proofs.Outbox.Interference
import SeriesIngest.Proofs.Outbox.Lifecycle
import SeriesIngest.Proofs.Outbox.Prompt
import SeriesIngest.Endpoint.Rotation
import SeriesIngest.Proofs.Endpoint.Flags
import SeriesIngest.Proofs.Endpoint.Skipping
import SeriesIngest.Proofs.Client.Stable
import SeriesIngest.Proofs.Client.Failover
import SeriesIngest.Proofs.Line.Feeds
import SeriesIngest.Proofs.Decimal.Interval
import SeriesIngest.Proofs.Decimal.Text
import SeriesIngest.Proofs.Line.Unambiguous
import SeriesIngest.Proofs.Endpoint.Wrap
import SeriesIngest.Proofs.Endpoint.Load
import SeriesIngest.Proofs.Outbox.Overflow
import SeriesIngest.Proofs.Record.Footprint
import SeriesIngest.Proofs.Record.Lookup
import SeriesIngest.Proofs.Schema.Widening
import SeriesIngest.Point.Edits
import SeriesIngest.Proofs.Endpoint.Form
import SeriesIngest.Proofs.Point.Edits
import SeriesIngest.Proofs.Schema.Growth
import SeriesIngest.Proofs.Column.Layout
import SeriesIngest.Proofs.Wire.Words
import SeriesIngest.Compression.Codecs
