import EseReader.Database
import EseReader.Proofs.Catalog.Independence
import EseReader.Proofs.Catalog.RoundTrip
import EseReader.Proofs.Checksum.Corruption
import EseReader.Proofs.Compression.Bounds
import EseReader.Proofs.Compression.TextRoundTrip
import EseReader.Proofs.Database
import EseReader.Proofs.Key.Comparison
import EseReader.Proofs.LongValue.Open
import EseReader.Proofs.LongValue.RandomAccess
import EseReader.Proofs.MultiValue.Splitting
import EseReader.Proofs.Record.Values
import EseReader.Proofs.Row.Growth
import EseReader.Proofs.Row.Index
import EseReader.Proofs.Row.Linear
import EseReader.Proofs.Row.LinearSize
import EseReader.Proofs.Row.Partition
import EseReader.Proofs.Row.RoundTrip
import EseReader.Proofs.Row.Template
import EseReader.Proofs.Source.Memory
import EseReader.Proofs.Trace
import EseReader.Proofs.Tree.Bounds
import EseReader.Proofs.Tree.Depth
import EseReader.Proofs.Tree.Iteration
import EseReader.Proofs.Tree.Lookup
import EseReader.Proofs.Tree.Requests
import EseReader.Proofs.Tree.RoundTrip
import EseReader.Proofs.Tree.Scan
import EseReader.Proofs.Tree.Termination
import EseReader.Proofs.Verified
