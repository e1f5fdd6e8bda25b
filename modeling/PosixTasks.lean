import PosixTasks.Lib.Transition
import PosixTasks.Lib.Lines
import PosixTasks.Lib.CString
import PosixTasks.Lib.Fgets
import PosixTasks.Lib.Numbers
import PosixTasks.Lib.Doubles
import PosixTasks.Lib.Arithmetic
import PosixTasks.Lib.Pieces
import PosixTasks.Lib.Descriptors
import PosixTasks.Lib.LittleEndian
import PosixTasks.Lib.Heap
import PosixTasks.Lib.Truncation
import PosixTasks.Lib.Distinct
import PosixTasks.Lib.Network
import PosixTasks.SignalCopy.Model
import PosixTasks.SignalCopy.Moves
import PosixTasks.SignalCopy.Tokens
import PosixTasks.SignalCopy.Order
import PosixTasks.SignalCopy.Frames
import PosixTasks.SignalCopy.Phases
import PosixTasks.SignalCopy.Deadlock
import PosixTasks.SignalCopy.Completion
import PosixTasks.SignalCopy.Ending
import PosixTasks.SignalCopy.ExitStatus
import PosixTasks.Logger.AnsiCodes
import PosixTasks.Logger.LeftCodes
import PosixTasks.Lib.Directories
import PosixTasks.FileServer.FifoPath
import PosixTasks.Lib.FileTree
import PosixTasks.FileServer.Cleanup
import PosixTasks.ThreadIntegral.Model
import PosixTasks.ThreadIntegral.Counter
import PosixTasks.ThreadIntegral.Estimate
import PosixTasks.ThreadIntegral.Sequential
import PosixTasks.FileServer.Registration
import PosixTasks.FileServer.Connection
import PosixTasks.FileServer.Commands
import PosixTasks.FileServer.Sender
import PosixTasks.FileServer.Table
import PosixTasks.FileServer.Dispatch
import PosixTasks.FileServer.Routing
import PosixTasks.FileServer.Transfer
import PosixTasks.FileServer.Answers
import PosixTasks.FileServer.Liveness
import PosixTasks.FileServer.FileName
import PosixTasks.MonitorDaemon.Command
import PosixTasks.MonitorDaemon.Disk
import PosixTasks.MonitorDaemon.Names
import PosixTasks.MonitorDaemon.State
import PosixTasks.MonitorDaemon.Backup
import PosixTasks.MonitorDaemon.UnifiedDiff
import PosixTasks.MonitorDaemon.History
import PosixTasks.MonitorDaemon.Detect
import PosixTasks.MonitorDaemon.Restore
import PosixTasks.MonitorDaemon.Scan
import PosixTasks.MonitorDaemon.CleanDiff
import PosixTasks.MonitorDaemon.EventBuffer
import PosixTasks.MonitorDaemon.ChangeQueue
import PosixTasks.MonitorDaemon.DrainQueue
import PosixTasks.MonitorDaemon.FileTable
import PosixTasks.MonitorDaemon.Reply
import PosixTasks.MonitorDaemon.Process
import PosixTasks.MonitorDaemon.Loop
import PosixTasks.MonitorDaemon.Sampling
import PosixTasks.MonitorDaemon.Period
import PosixTasks.MonitorDaemon.Archive
import PosixTasks.MonteCarlo.Serializer
import PosixTasks.MonteCarlo.RoundTrip
import PosixTasks.MonteCarlo.Socket
import PosixTasks.MonteCarlo.Strips
import PosixTasks.MonteCarlo.Arguments
import PosixTasks.MonteCarlo.Discovery
import PosixTasks.MonteCarlo.Broadcast
import PosixTasks.MonteCarlo.Address
import PosixTasks.MonteCarlo.Points
import PosixTasks.MonteCarlo.Client
import PosixTasks.MonteCarlo.TaskServer
import PosixTasks.MonteCarlo.Serving
import PosixTasks.SemaphoreCopy.Complete
import PosixTasks.SemaphoreCopy.Exit
import PosixTasks.SemaphoreCopy.Ending
import PosixTasks.MonitorDaemon.Watched
import PosixTasks.FifoCopy.Model
import PosixTasks.FifoCopy.Stream
import PosixTasks.MessageQueueCopy.Model
import PosixTasks.MessageQueueCopy.Complete
import PosixTasks.MessageQueueCopy.Ending
import PosixTasks.DuplexCopy.Model
import PosixTasks.DuplexCopy.Echo
import PosixTasks.DuplexCopy.Output
import PosixTasks.DuplexCopy.Ending
import PosixTasks.Shell.Parser
import PosixTasks.Shell.CmdTable
import PosixTasks.Shell.Split
import PosixTasks.Shell.Runnable
import PosixTasks.Shell.RunCmd
import PosixTasks.Shell.Wiring
import PosixTasks.Shell.ExitCodes
import PosixTasks.Shell.Pipeline
import PosixTasks.MonteCarlo.Distributed
