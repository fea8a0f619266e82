import Zaver.Lib.Bytes
import Zaver.Lib.Chunked
import Zaver.Lib.Gather
import Zaver.Lib.DotSegments
import Zaver.Lib.HeaderBlock
import Zaver.Lib.BinaryHeap
import Zaver.Lib.Ring
import Zaver.Lib.Runs
import Zaver.Lib.Scan
import Zaver.Lib.Grammar
import Zaver.Lib.Frames
import Zaver.Lib.Agree
import Zaver.Request
import Zaver.HttpParse
import Zaver.ParseResume
import Zaver.RefusedLine
import Zaver.RequestLine
import Zaver.RequestLineCodes
import Zaver.HeaderLines
import Zaver.WholeRequest
import Zaver.RequestRoundTrip
import Zaver.Cgi
import Zaver.HttpPath
import Zaver.PathSafety
import Zaver.PathNormal
import Zaver.PercentDecode
import Zaver.UriFile
import Zaver.Output
import Zaver.ResponseHeader
import Zaver.SendComplete
import Zaver.Http
import Zaver.Answer
import Zaver.Containment
import Zaver.CgiEnvironment
import Zaver.HeaderDecisions
import Zaver.Connection
import Zaver.Persistence
import Zaver.Framing
import Zaver.Callbacks
import Zaver.RequestPool
import Zaver.Worker
import Zaver.WorkerEvents
import Zaver.WorkerTimers
import Zaver.WorkerRuns
import Zaver.WorkerLedger
import Zaver.StaleEvents
import Zaver.WorkerIsolation
import Zaver.WorkerDeadlines
import Zaver.ReceiveBuffer
import Zaver.RequestStream
import Zaver.RequestMemory
import Zaver.CallbackTurns
import Zaver.Stranded
import Zaver.Reaping
import Zaver.ChunkWriter
import Zaver.CgiReader
import Zaver.CgiRelay
import Zaver.CgiOutput
import Zaver.CgiHeaderLines
import Zaver.CgiDecision
import Zaver.StaleBytes
import Zaver.Recycled
import Zaver.PriorityQueue
import Zaver.Timer
import Zaver.HeaderCache
import Zaver.ReadConf
import Zaver.ThreadPool
import Zaver.ThreadPoolCalls
import Zaver.Master
import Zaver.Affinity
