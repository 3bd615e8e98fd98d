import LuaKernel.AllocationRuns
import LuaKernel.BundleScan
import LuaKernel.CommandLine
import LuaKernel.Devices
import LuaKernel.DrawTerminalBounds
import LuaKernel.DrawText
import LuaKernel.FileAppend
import LuaKernel.FileIsolation
import LuaKernel.FileOverwrite
import LuaKernel.FilePositions
import LuaKernel.FileRead
import LuaKernel.FileRefinement
import LuaKernel.FileRoundTrip
import LuaKernel.Framebuffer
import LuaKernel.HeapConfig
import LuaKernel.IdtSetup
import LuaKernel.InterruptEntry
import LuaKernel.Interrupts
import LuaKernel.KeyboardTask
import LuaKernel.LuaAlloc
import LuaKernel.LuaTablesSequences
import LuaKernel.MultibootBounds
import LuaKernel.MultibootOrder
import LuaKernel.PageTable
import LuaKernel.Pic
import LuaKernel.PicProtocol
import LuaKernel.Preemption
import LuaKernel.PutpixelBounds
import LuaKernel.RedZone
import LuaKernel.Require
import LuaKernel.Scancodes
import LuaKernel.SchedulerHalt
import LuaKernel.SchedulerWait
import LuaKernel.SeekTell
import LuaKernel.StdioOpen
import LuaKernel.StdioRuns
import LuaKernel.SyscallErrors
import LuaKernel.SyscallOpen
import LuaKernel.Terminal
import LuaKernel.UnwindingRuns
import LuaKernel.Writev
