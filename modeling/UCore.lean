import UCore.Mm.DefaultPmmRuns
import UCore.Mm.KmallocRuns
import UCore.Mm.DefaultPmmOps
import UCore.Mm.DupMmap
import UCore.Mm.ExitMmap
import UCore.Mm.SwapOut
import UCore.Mm.UnmapExact
import UCore.Mm.SwapFifo
import UCore.Mm.SwapQueue
import UCore.Mm.SwapSlots
import UCore.Mm.VmaCache
import UCore.Mm.MmMapExact
import UCore.Mm.KmallocSize
import UCore.Mm.FaultPresent
import UCore.Mm.ExitPrune
import UCore.Process.SegBounds
import UCore.Process.LoadTwice
import UCore.Process.LoadComplete
import UCore.Process.FaultPerm
import UCore.Libs.Memmove
import UCore.Libs.PrintTotal
import UCore.Libs.Vsnprintf
import UCore.Debug.Kmonitor
import UCore.Trap.KernelRuns
import UCore.Trap.SchedRuns
import UCore.Trap.InitRuns
import UCore.Trap.PidRuns
import UCore.Trap.SpaceRuns
import UCore.Trap.PointerRuns
import UCore.Trap.CpuResume
import UCore.Trap.FrameRuns
import UCore.Process.DemandRuns
