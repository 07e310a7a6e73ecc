import Phpspy.Support.Bytes
import Phpspy.Support.Packing
import Phpspy.Trace.Event
import Phpspy.Fout.Buffer
import Phpspy.Fout.BufferSpec
import Phpspy.Fout.Write
import Phpspy.Support.Records
import Phpspy.Fout.Chunks
import Phpspy.Fout.Handler
import Phpspy.Fout.RecordList
import Phpspy.Support.Interleaving
import Phpspy.Support.Reassembly
import Phpspy.StackCollapse.Decoder
import Phpspy.StackCollapse.Lines
import Phpspy.StackCollapse.Packets
import Phpspy.Fout.Traces
import Phpspy.StackCollapse.RoundTrip
import Phpspy.Trace.Memory
import Phpspy.Trace.Stack
import Phpspy.Support.KeepEnds
import Phpspy.Trace.Elision
import Phpspy.Callgrind.Handler
import Phpspy.Callgrind.Digest
import Phpspy.Callgrind.Accounting
import Phpspy.Callgrind.CallCounts
import Phpspy.Pgrep.Queue
import Phpspy.Support.Transition
import Phpspy.Pgrep.System
import Phpspy.Pgrep.WorkQueue
import Phpspy.Pgrep.TraceLimit
import Phpspy.Pgrep.Version
import Phpspy.Trace.DoTrace
import Phpspy.MainPid.Limit
import Phpspy.Varpeek.Add
import Phpspy.Varpeek.Denotation
import Phpspy.Support.Walk
import Phpspy.Zend.Lookup
import Phpspy.Zend.HashArray
import Phpspy.Render.Print
import Phpspy.Support.PrinterLimits
import Phpspy.Render.Recursion
import Phpspy.Render.Text
import Phpspy.Render.Exact
import Phpspy.Render.Packed
import Phpspy.Render.Truncation
import Phpspy.Render.Places
import Phpspy.Fout.Delimiters
import Phpspy.Trace.Request
import Phpspy.Support.Scan
import Phpspy.Support.SteadyPrinting
import Phpspy.Render.Steady
import Phpspy.Trace.Locals
import Phpspy.Glopeek.Add
import Phpspy.Trace.Division
import Phpspy.Trace.Sample
import Phpspy.Trace.Depth
import Phpspy.MainPid.Dead
import Phpspy.Fout.Announce
import Phpspy.Support.ShellWords
import Phpspy.AddrObjdump.ShellEscape
import Phpspy.Support.LineSplitting
import Phpspy.Top.HandleLine
import Phpspy.Top.ReadChildOut
import Phpspy.AddrObjdump.Commands
import Phpspy.Top.Display
import Phpspy.Top.ReadChildErr
import Phpspy.Pgrep.Turn
import Phpspy.Options.Parse
import Phpspy.Trace.Pdo
import Phpspy.Support.GetoptAgain
import Phpspy.Support.GetoptRewrite
import Phpspy.Top.FilterChildArgs
import Phpspy.Fout.Frames
import Phpspy.MainPid.Clock
import Phpspy.Pgrep.Shutdown
import Phpspy.Top.MainLoop
import Phpspy.Top.Pipeline
import Phpspy.Callgrind.Dump
import Phpspy.Callgrind.Profile
import Phpspy.MainPid.Collapse
import Phpspy.MainPid.FlameGraph
import Phpspy.AddrObjdump.Addresses
import Phpspy.Output.OneFile
import Phpspy.Output.PerThread
import Phpspy.Options.Main
import Phpspy.Top.Screen
import Phpspy.Callgrind.Sampling
import Phpspy.Render.Peeked
import Phpspy.Trace.GlobalValues
import Phpspy.Trace.LocalValues
