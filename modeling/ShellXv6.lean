import ShellXv6.Lib.Run
import ShellXv6.Lib.ArrayQueue
import ShellXv6.Xv6.Proc
import ShellXv6.Xv6.Mlfq
import ShellXv6.Xv6.Smp
import ShellXv6.Xv6.Occupancy
import ShellXv6.Xv6.ReadyOnce
import ShellXv6.Xv6.BoostRace
import ShellXv6.Xv6.Uniprocessor
import ShellXv6.Xv6.PriorityOrder
import ShellXv6.Shell.Lexer
import ShellXv6.Shell.Scan
import ShellXv6.Shell.Words
import ShellXv6.Shell.Render
import ShellXv6.Shell.Parser
import ShellXv6.Shell.Pipeline
import ShellXv6.Shell.Operands
import ShellXv6.Shell.Jobs
import ShellXv6.Shell.PidReuse
import ShellXv6.Shell.Resume
import ShellXv6.Shell.ProcessGroup
import ShellXv6.Shell.ReadLoop
import ShellXv6.Shell.SegmentLoop
import ShellXv6.Shell.Compose
import ShellXv6.Shell.Quoting
import ShellXv6.Lib.SignalMask
import ShellXv6.Shell.Derivation
import ShellXv6.Shell.LaunchMasks
import ShellXv6.Shell.StoppedPipeline
import ShellXv6.Shell.JobTracking
import ShellXv6.Shell.PathSearch
import ShellXv6.Shell.SegmentTrace
import ShellXv6.Lib.OutputBuffer
import ShellXv6.Shell.BuiltinOutput
import ShellXv6.Shell.BackgroundOutput
import ShellXv6.Lib.DescriptorTable
import ShellXv6.Lib.Lines
import ShellXv6.Shell.Peek
import ShellXv6.Shell.PeekNumbers
import ShellXv6.Shell.PipeWiring
import ShellXv6.Xv6.SliceAccounting
import ShellXv6.Lib.IntConversion
import ShellXv6.Xv6.BuildSteps
import ShellXv6.Xv6.FifoOrder
import ShellXv6.Xv6.KillTarget
import ShellXv6.Xv6.Metrics
import ShellXv6.Lib.Calls
import ShellXv6.Lib.Scanf
import ShellXv6.Lib.Tally
import ShellXv6.Lib.Transfer
import ShellXv6.Shell.Frecency
import ShellXv6.Shell.InputRedirection
import ShellXv6.Shell.OutputRedirection
import ShellXv6.Shell.QuoteStatus
import ShellXv6.Shell.RedirectionErrors
import ShellXv6.Shell.Reveal
import ShellXv6.Shell.RevealListing
import ShellXv6.Lib.Simulation
import ShellXv6.Xv6.QueueRefinement
import ShellXv6.Lib.RunningBest
import ShellXv6.Xv6.FifoLocks
import ShellXv6.Shell.FrecencySearch
import ShellXv6.Shell.SegmentLine
import ShellXv6.Shell.CtrlD
import ShellXv6.Shell.LexerReads
import ShellXv6.Shell.Ping
import ShellXv6.Shell.Locate
import ShellXv6.Shell.Snoop
import ShellXv6.Shell.Spy
import ShellXv6.Shell.SnoopReport
import ShellXv6.Lib.Monitor
import ShellXv6.Lib.Ring
import ShellXv6.Lib.CrashDisk
import ShellXv6.Xv6.Pipe
import ShellXv6.Xv6.PipeStream
import ShellXv6.Xv6.Log
import ShellXv6.Xv6.LogOps
import ShellXv6.Xv6.LogData
import ShellXv6.Xv6.LogControl
import ShellXv6.Xv6.LogRun
import ShellXv6.Xv6.LogCrash
import ShellXv6.Xv6.LogSleep
import ShellXv6.Lib.LinkedRing
import ShellXv6.Xv6.BufferCache
import ShellXv6.Xv6.BufferUsers
import ShellXv6.Xv6.BufferRuns
import ShellXv6.Lib.Words
import ShellXv6.Lib.Ownership
import ShellXv6.Xv6.DiskLayout
import ShellXv6.Xv6.BlockMap
import ShellXv6.Xv6.FileIO
import ShellXv6.Xv6.FileArrays
import ShellXv6.Lib.CString
import ShellXv6.Lib.LinkTree
import ShellXv6.Xv6.Directory
import ShellXv6.Xv6.Inodes
import ShellXv6.Xv6.FileCalls
import ShellXv6.Xv6.Namespace
import ShellXv6.Xv6.NamespaceCalls
import ShellXv6.Xv6.NamespaceUnlink
import ShellXv6.Xv6.NamespaceCreate
import ShellXv6.Xv6.NamespaceOpen
import ShellXv6.Xv6.NamespacePaths
import ShellXv6.Xv6.NamespaceRuns
import ShellXv6.Xv6.Reclaim
