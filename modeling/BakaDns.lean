import BakaDns.RoundTrip
import BakaDns.ResolvIdentity
import BakaDns.ResolvAnswers
import BakaDns.ResolvRuns
import BakaDns.Forwarding
import BakaDns.CacheInvariant
import BakaDns.JobQueue
import BakaDns.Server
import BakaDns.Edns
import BakaDns.EncodeBounds
import BakaDns.UpstreamRequests
import BakaDns.DecodedNames
import BakaDns.Lib.Words
import BakaDns.Loader
import BakaDns.RelayCase
import BakaDns.AnswerBytes
import BakaDns.Lib.Threads
import BakaDns.ResolvThreads
import BakaDns.Expiry
import BakaDns.Provenance
import BakaDns.CacheOrder
import BakaDns.Compression
import BakaDns.RdataDecoding
import BakaDns.WriteBounds
import BakaDns.ResolvExit
import BakaDns.TlsConnections
import BakaDns.ThreadPool
import BakaDns.TlsReceive
import BakaDns.TreeEffects
import BakaDns.RequestFrame
import BakaDns.LocalMatches
import BakaDns.AnswerBuffer
import BakaDns.TreePaths
import BakaDns.HashFunction
import BakaDns.DomainRev
import BakaDns.LoaderBounds
import BakaDns.TreeInvariant
import BakaDns.TreeHeap
import BakaDns.TreeHeapRefinement
import BakaDns.Lib.Progress
import BakaDns.Lib.TimedMap
import BakaDns.JobReplies
import BakaDns.JobQueries
import BakaDns.ServerThreads
import BakaDns.ServerWakeups
import BakaDns.ServerProgress
import BakaDns.ServerAccounts
import BakaDns.ServerContracts
import BakaDns.ServerReplies
import BakaDns.ReplyIdentity
import BakaDns.ServerLocal
import BakaDns.ServerRelay
import BakaDns.CacheRefinement
import BakaDns.CacheIntegrity
import BakaDns.ReplyMoments
import BakaDns.ReplySources
import BakaDns.PrintQuestion
import BakaDns.Lib.Blocks
import BakaDns.MessageBlocks
import BakaDns.ResolvBlocks
import BakaDns.JobBlocks
import BakaDns.TlsBlocks
