import MdfeedItch.BookEvents
import MdfeedItch.BookSnapshotCodec
import MdfeedItch.BookSnapshotWire
import MdfeedItch.ByteLayout
import MdfeedItch.CaptureFormat
import MdfeedItch.ConfinedRuns
import MdfeedItch.CyclicRedundancy
import MdfeedItch.DepthBook
import MdfeedItch.DepthBookOwnership
import MdfeedItch.DepthBookRouting
import MdfeedItch.EmptyAnswers
import MdfeedItch.FiniteMapSums
import MdfeedItch.FlatOrderMap
import MdfeedItch.FrameDecoder
import MdfeedItch.FrameEncoder
import MdfeedItch.FrameGrammar
import MdfeedItch.FrameRoundTrip
import MdfeedItch.FrameSizes
import MdfeedItch.FrameStream
import MdfeedItch.GapAccounting
import MdfeedItch.GapReports
import MdfeedItch.GeneratorAgreement
import MdfeedItch.GeneratorLocates
import MdfeedItch.GeneratorSteps
import MdfeedItch.HistogramBuckets
import MdfeedItch.HistogramPercentiles
import MdfeedItch.IdleMessages
import MdfeedItch.IndependentStreams
import MdfeedItch.IndexReset
import MdfeedItch.IntervalTiling
import MdfeedItch.LatencyHistogram
import MdfeedItch.LevelArithmetic
import MdfeedItch.LogReplication
import MdfeedItch.LosslessFeed
import MdfeedItch.MessageGenerator
import MdfeedItch.OnesComplement
import MdfeedItch.OrderIndex
import MdfeedItch.PartialTransfers
import MdfeedItch.PcapFiles
import MdfeedItch.PcapHeaders
import MdfeedItch.PcapRoundTrip
import MdfeedItch.Reconciliation
import MdfeedItch.RecoveredBooks
import MdfeedItch.RecoveringStreams
import MdfeedItch.RecoveryConvergence
import MdfeedItch.RecoveryFrames
import MdfeedItch.RecoveryPositions
import MdfeedItch.RecoverySystem
import MdfeedItch.RejectedDatagrams
import MdfeedItch.ReplaceAtomicity
import MdfeedItch.ReservedRecords
import MdfeedItch.SequenceWrap
import MdfeedItch.ShadowBook
import MdfeedItch.SignificantBits
import MdfeedItch.SilentLoss
import MdfeedItch.SnapshotCatchUp
import MdfeedItch.SnapshotClient
import MdfeedItch.SnapshotCorruption
import MdfeedItch.SnapshotDepth
import MdfeedItch.SnapshotExchange
import MdfeedItch.SnapshotLadder
import MdfeedItch.SnapshotService
import MdfeedItch.SnapshotTransfer
import MdfeedItch.SocketFrames
import MdfeedItch.SubscriberConsistency
import MdfeedItch.TraceRuns
import MdfeedItch.CaptureReplay
import MdfeedItch.GeneratedCaptures
import MdfeedItch.HandlerLedger
import MdfeedItch.MergedHistograms
import MdfeedItch.PublisherRuns
import MdfeedItch.SubscriberStreams
