import SystemProgramming.Homework.EchoClient
import SystemProgramming.KernelLab.Ptree
import SystemProgramming.Library.Buffered
import SystemProgramming.Library.ByteMemory
import SystemProgramming.Library.CString
import SystemProgramming.Library.FormattedInput
import SystemProgramming.Library.Intervals
import SystemProgramming.Library.KBest
import SystemProgramming.Library.LexicalPath
import SystemProgramming.Library.LinkedRing
import SystemProgramming.Library.MachineWord
import SystemProgramming.Library.Permits
import SystemProgramming.Library.Runs
import SystemProgramming.Library.Scanning
import SystemProgramming.Library.Slots
import SystemProgramming.Library.StateProgram
import SystemProgramming.MemoryLab.Allocator
import SystemProgramming.MemoryLab.Blocks
import SystemProgramming.MemoryLab.Checking
import SystemProgramming.MemoryLab.Coalescing
import SystemProgramming.MemoryLab.DoubleFree
import SystemProgramming.MemoryLab.Driver.Client
import SystemProgramming.MemoryLab.Driver.Fcyc
import SystemProgramming.MemoryLab.Driver.Main
import SystemProgramming.MemoryLab.Driver.Mm
import SystemProgramming.MemoryLab.Driver.Package
import SystemProgramming.MemoryLab.Driver.Ranges
import SystemProgramming.MemoryLab.Driver.Speed
import SystemProgramming.MemoryLab.Driver.Trace
import SystemProgramming.MemoryLab.Driver.TraceFile
import SystemProgramming.MemoryLab.Driver.Util
import SystemProgramming.MemoryLab.Driver.Valid
import SystemProgramming.MemoryLab.Exit
import SystemProgramming.MemoryLab.FreeBlocks
import SystemProgramming.MemoryLab.Growing
import SystemProgramming.MemoryLab.Guarantees
import SystemProgramming.MemoryLab.HeapInvariant
import SystemProgramming.MemoryLab.Initialization
import SystemProgramming.MemoryLab.Limits
import SystemProgramming.MemoryLab.Memlib
import SystemProgramming.MemoryLab.Placing
import SystemProgramming.MemoryLab.Plain.Allocator
import SystemProgramming.MemoryLab.Plain.Operations
import SystemProgramming.MemoryLab.Plain.Requests
import SystemProgramming.MemoryLab.Plain.Sessions
import SystemProgramming.MemoryLab.Plain.Shapes
import SystemProgramming.MemoryLab.Plain.View
import SystemProgramming.MemoryLab.Primitives
import SystemProgramming.MemoryLab.Reallocation
import SystemProgramming.MemoryLab.Release
import SystemProgramming.MemoryLab.Requests
import SystemProgramming.MemoryLab.Searching
import SystemProgramming.MemoryLab.Sessions
import SystemProgramming.MemoryLab.Shapes
import SystemProgramming.MemoryLab.SizeClass
import SystemProgramming.MemoryLab.Stale
import SystemProgramming.MemoryLab.Traces
import SystemProgramming.MemoryLab.View
import SystemProgramming.ProxyLab.Balance
import SystemProgramming.ProxyLab.Budget
import SystemProgramming.ProxyLab.Cache
import SystemProgramming.ProxyLab.CacheList
import SystemProgramming.ProxyLab.Cutting
import SystemProgramming.ProxyLab.Doit
import SystemProgramming.ProxyLab.Duplicates
import SystemProgramming.ProxyLab.Eviction
import SystemProgramming.ProxyLab.Forwarding
import SystemProgramming.ProxyLab.Loops
import SystemProgramming.ProxyLab.Overruns
import SystemProgramming.ProxyLab.ParseUri
import SystemProgramming.ProxyLab.Replay
import SystemProgramming.ProxyLab.Replies
import SystemProgramming.ProxyLab.Rio
import SystemProgramming.ProxyLab.RioPackage
import SystemProgramming.ProxyLab.Standstill
import SystemProgramming.ProxyLab.StaticServer
import SystemProgramming.ProxyLab.Transparency
import SystemProgramming.ShellLab.Arguments
import SystemProgramming.ShellLab.CommandLine
import SystemProgramming.ShellLab.Continuing
import SystemProgramming.ShellLab.Foreground
import SystemProgramming.ShellLab.FullTable
import SystemProgramming.ShellLab.JobTable
import SystemProgramming.ShellLab.Keyboard
import SystemProgramming.ShellLab.Listing
import SystemProgramming.ShellLab.Parseline
import SystemProgramming.ShellLab.Reaping
import SystemProgramming.ShellLab.Shell
import SystemProgramming.ShellLab.Waiting
