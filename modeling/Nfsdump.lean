import Nfsdump.Record.Phantom
import Nfsdump.Record.Print
import Nfsdump.Record.XidLifo
import Nfsdump.Record.Whole
import Nfsdump.Record.Transport
import Nfsdump.Record.Total
import Nfsdump.Decode.Output
import Nfsdump.Decode.Cursor
import Nfsdump.Decode.V3
import Nfsdump.Decode.V2
import Nfsdump.Decode.Tally
import Nfsdump.Decode.Percent
import Nfsdump.Decode.Words
import Nfsdump.Decode.Text
import Nfsdump.Decode.Bounds
import Nfsdump.Lib.Xdr
import Nfsdump.Decode.Names
import Nfsdump.Decode.Reply3
import Nfsdump.Decode.Tokens
import Nfsdump.Decode.Render3
import Nfsdump.Decode.Cuts
import Nfsdump.Decode.Args2
import Nfsdump.Lib.Words
import Nfsdump.Decode.Lines
import Nfsdump.Decode.Render2
import Nfsdump.Decode.Exact2
import Nfsdump.Lib.Ascent
import Nfsdump.Pathtree.FhParent
import Nfsdump.Pathtree.FullPath
import Nfsdump.Pathtree.Csv
import Nfsdump.Pathtree.Quoting
import Nfsdump.Record.PrintRecord
import Nfsdump.Record.Progress
import Nfsdump.Anonymize.Maps
import Nfsdump.Anonymize.Ids
import Nfsdump.Anonymize.Subwords
import Nfsdump.Anonymize.Renamed
import Nfsdump.Driver.IntervalLoop
import Nfsdump.Driver.Logs
import Nfsdump.Driver.Chapters
import Nfsdump.Driver.Summaries
import Nfsdump.Driver.Zipper
import Nfsdump.Pathtree.RwMerge
import Nfsdump.Pathtree.SvcQuerier
import Nfsdump.Record.Status
import Nfsdump.Record.Lengths
import Nfsdump.Record.Copies
import Nfsdump.Anonymize.Words
import Nfsdump.Anonymize.Paths
import Nfsdump.Wire.Measure
import Nfsdump.Wire.Reads
import Nfsdump.Wire.Declared
import Nfsdump.Decode.Fits
import Nfsdump.Decode.Hashed
import Nfsdump.Pathtree.Pairing
import Nfsdump.Record.Ownership
import Nfsdump.Decode.MemStream
import Nfsdump.Decode.Volumes
import Nfsdump.Decode.WriteCall
import Nfsdump.Decode.Account
import Nfsdump.Decode.Buffers
import Nfsdump.Lib.XdrTypes
import Nfsdump.Pathtree.Cells
import Nfsdump.Pathtree.RawNames
import Nfsdump.Pathtree.Exchange
import Nfsdump.Pathtree.Relations
import Nfsdump.Pathtree.Listing
import Nfsdump.Pathtree.Chains
import Nfsdump.Pathtree.Queriers
import Nfsdump.Pathtree.Operations
import Nfsdump.Pathtree.Merged
import Nfsdump.Pathtree.Sweeps
import Nfsdump.Record.Answered
import Nfsdump.Record.Transcript
import Nfsdump.Pathtree.Rows
import Nfsdump.Pathtree.Matchers
import Nfsdump.Record.Encapsulation
import Nfsdump.Anonymize.Stream
import Nfsdump.Anonymize.OneNaming
import Nfsdump.Anonymize.ReadBack
import Nfsdump.Anonymize.SamePairs
import Nfsdump.Pathtree.OtherClients
import Nfsdump.Driver.LogRows
import Nfsdump.Driver.LogPairs
import Nfsdump.Record.IpRecord
import Nfsdump.Record.Waiting
import Nfsdump.Driver.AnonymizedLog
