import ProgSistema.Lib.Runs
import ProgSistema.Lib.Traces
import ProgSistema.Lib.Sharing
import ProgSistema.Lib.Semaphore
import ProgSistema.Lib.LinkedChain
import ProgSistema.Lib.BoundedStack
import ProgSistema.Lib.Ring
import ProgSistema.Lib.Tally
import ProgSistema.Lib.Snapshot
import ProgSistema.Lib.ArrayPrefix
import ProgSistema.Lib.Window
import ProgSistema.Lib.Ledger
import ProgSistema.Lib.OffsetLog
import ProgSistema.Lib.CRuntime
import ProgSistema.Lib.Framing
import ProgSistema.Lib.StreamSocket
import ProgSistema.Lib.FileTree
import ProgSistema.Lib.PathResolution
import ProgSistema.Lib.Visit
import ProgSistema.Lib.FileFaults
import ProgSistema.Lib.FaultyVisit
import ProgSistema.Lib.VisitTrace
import ProgSistema.Lib.LinkedHost
import ProgSistema.Lib.Unfolding
import ProgSistema.SharedList.Model
import ProgSistema.SharedList.Invariant
import ProgSistema.SharedList.Refinement
import ProgSistema.SharedList.Instances
import ProgSistema.Lib.Stdin
import ProgSistema.SharedList.Menu
import ProgSistema.SharedList.Reports
import ProgSistema.SharedList.Startup
import ProgSistema.SharedList.Removal
import ProgSistema.DirectoryServer.Model
import ProgSistema.DirectoryServer.Listing
import ProgSistema.DirectoryServer.ListGrowth
import ProgSistema.DirectoryServer.Protocol
import ProgSistema.DirectoryServer.Session
import ProgSistema.DirectoryServer.EndToEnd
import ProgSistema.DirectoryServer.Agreement
import ProgSistema.DirectoryServer.Interactive
import ProgSistema.DirectoryServer.LongLines
import ProgSistema.DirectoryServer.BrokenReply
import ProgSistema.DirectoryServer.ReplyText
import ProgSistema.DirectoryServer.PartialListing
import ProgSistema.DirectoryServer.LinkedListing
import ProgSistema.DirectoryServer.MainLoop
import ProgSistema.DirectoryServer.Children
import ProgSistema.DirectoryServer.Isolation
import ProgSistema.DirectoryServer.Idle
import ProgSistema.DiskScanner.Model
import ProgSistema.DiskScanner.Invariant
import ProgSistema.DiskScanner.Wakeup
import ProgSistema.DiskScanner.Total
import ProgSistema.DiskScanner.Termination
import ProgSistema.DiskScanner.Documented
import ProgSistema.DiskScanner.Revisits
import ProgSistema.FileDaemon.Model
import ProgSistema.FileDaemon.Check
import ProgSistema.FileDaemon.Monitor
import ProgSistema.FileDaemon.Recheck
import ProgSistema.FileDaemon.PidFile
import ProgSistema.FileDaemon.Deletions
import ProgSistema.FileDaemon.Truncation
import ProgSistema.FileDaemon.Totals
import ProgSistema.DirectoryDaemon.LockFile
import ProgSistema.DirectoryDaemon.FileList
import ProgSistema.DirectoryDaemon.Baseline
import ProgSistema.FileQuery.Model
import ProgSistema.FileQuery.Reply
import ProgSistema.FileQuery.Session
import ProgSistema.FeedbackServer.Model
import ProgSistema.FeedbackServer.Windows
import ProgSistema.FeedbackServer.Purge
import ProgSistema.FeedbackServer.Datagrams
import ProgSistema.SharedArray.Model
import ProgSistema.SharedArray.Conservation
import ProgSistema.SharedArray.Discipline
import ProgSistema.SharedArray.LogFile
import ProgSistema.SharedArray.Pipeline
import ProgSistema.SharedArray.ExistingLog
import ProgSistema.SharedArray.Lifetimes
import ProgSistema.SharedLog.Records
import ProgSistema.WordBuffer.Finish
import ProgSistema.WordBuffer.Departures
import ProgSistema.EchoClient.Changes
import ProgSistema.EchoClient.Greeting
import ProgSistema.EchoClient.LockStep
import ProgSistema.ValueStream.Server
import ProgSistema.ValueStream.Connection
import ProgSistema.ValueStream.Sender
import ProgSistema.PortDaemon.Counting
import ProgSistema.ChatDaemon.Table
import ProgSistema.PingPong.Alternation
import ProgSistema.PingPong.Delivery
import ProgSistema.VectorServer.Positions
import ProgSistema.Benchmark.Measures
import ProgSistema.Benchmark.Joins
import ProgSistema.Benchmark.CrewOfProgram
import ProgSistema.RecordFile.Bounds
import ProgSistema.RecordFile.Finished
import ProgSistema.ClockMonitor.Warnings
import ProgSistema.MovingPoint.Steps
import ProgSistema.QueueCrossing.Cars
import ProgSistema.StringRelay.Locking
import ProgSistema.SelectServer.Model
import ProgSistema.SelectServer.Connections
import ProgSistema.BulkTransfer.Model
import ProgSistema.BulkTransfer.Stream
import ProgSistema.BulkTransfer.Pipe
import ProgSistema.BulkTransfer.SharedMemory
import ProgSistema.TcpUtils.RoundTrip
import ProgSistema.ClockMonitor.NistTime
import ProgSistema.TripletScanner.Model
import ProgSistema.TripletScanner.Positions
import ProgSistema.SharedCounter.Model
import ProgSistema.SharedCounter.Increments
import ProgSistema.HashedDatabase.Model
import ProgSistema.HashedDatabase.Format
import ProgSistema.HashedDatabase.Files
import ProgSistema.HashedDatabase.Growth
import ProgSistema.Lib.ChainedTable
import ProgSistema.HashedDatabase.Search
import ProgSistema.HashedDatabase.Space
import ProgSistema.HashedDatabase.Update
import ProgSistema.HashedDatabase.Sequence
import ProgSistema.HashedDatabase.Sessions
import ProgSistema.HashedDatabase.Scan
