import Tsdb.ChunkLossless
import Tsdb.Clients
import Tsdb.GetAnswer
import Tsdb.PutAnswer
import Tsdb.ExactlyOnce
import Tsdb.CoarseAgreement
import Tsdb.MinuteStore
import Tsdb.ScanOnce
import Tsdb.NotFound
import Tsdb.Parsing
import Tsdb.WalMirror
import Tsdb.TornTail
import Tsdb.Durability
import Tsdb.Runs
import Tsdb.SharedName
import Tsdb.IdleRounds
import Tsdb.TimeOrder
import Tsdb.TimestampStream
import Tsdb.BucketExact
import Tsdb.DistinctCount
import Tsdb.GetSize
import Tsdb.Pruning
import Tsdb.StatsExtent
import Tsdb.Framing
import Tsdb.WholeLines
import Tsdb.Grammar
import Tsdb.Forgetting
import Tsdb.BucketRange
import Tsdb.Capacity
import Tsdb.WriteAhead
import Tsdb.MinuteAverages
import Tsdb.OutputArrays
import Tsdb.DoneMarker
import Tsdb.ExactExpiry
import Tsdb.ValueWindow
import Tsdb.RowBooks
import Tsdb.DecoderWindow
import Tsdb.BitRoundTrip
import Tsdb.Survival
import Tsdb.HashedRegistry
import Tsdb.ByteRuns
import Tsdb.LockSteps
import Tsdb.ClientSession
import Tsdb.AggAnswers
import Tsdb.Extremes
import Tsdb.Background
import Tsdb.AggBuffer
import Tsdb.Exactness
import Tsdb.HeadRecovery
import Tsdb.Outcomes
import Tsdb.Moves
