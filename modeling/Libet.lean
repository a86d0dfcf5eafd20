import Libet.Lib.Exec
import Libet.Lib.Framing
import Libet.Lib.OrdMap
import Libet.Lib.Heap
import Libet.Lib.BitString
import Libet.Lib.Cells
import Libet.Lib.DirTree
import Libet.CInt
import Libet.Buffer
import Libet.RawBuffer
import Libet.BufferRuns
import Libet.BufferCap
import Libet.Codec
import Libet.Headers
import Libet.Timer
import Libet.TimerRuns
import Libet.Cancel
import Libet.TimerPass
import Libet.PollWait
import Libet.IdlePeriod
import Libet.SelectSets
import Libet.DispatchSafety
import Libet.PollerDestroy
import Libet.ChannelRuns
import Libet.Wakeup
import Libet.QueueWait
import Libet.ConnThreadPool
import Libet.TcpConn
import Libet.RecvRoom
import Libet.Reentry
import Libet.Refine
import Libet.Runs
import Libet.Registry
import Libet.Lifecycle
import Libet.WorldRule
import Libet.SendInv
import Libet.SendRuns
import Libet.SendRace
import Libet.SendWatch
import Libet.Teardown
import Libet.Lifetime
import Libet.TornDown
import Libet.Reassembly
import Libet.RoundTrip
import Libet.Base64
import Libet.Base64Decode
import Libet.Accept
import Libet.PostData
import Libet.MakeDirs
import Libet.SliceSplit
import Libet.TimerTicks
import Libet.CallRule
import Libet.Echo
import Libet.ThreadPool
import Libet.PostOrder
import Libet.MakeDirTree
import Libet.MultiBase
import Libet.SliceText
import Libet.SliceOrder
import Libet.LoopExit
import Libet.IdleServer
import Libet.IdleClose
import Libet.SafeCall
import Libet.SetUp
import Libet.ConnCalls
import Libet.PeriodicServer
