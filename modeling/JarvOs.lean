import JarvOs.Lib.Word
import JarvOs.Lib.Trace
import JarvOs.Lib.Bytes
import JarvOs.Lib.Moves
import JarvOs.Lib.BitFields
import JarvOs.Lib.Blocks
import JarvOs.Lib.Ensures
import JarvOs.Lib.Paging
import JarvOs.Lib.Chain
import JarvOs.Lib.Ring
import JarvOs.Lib.Tokens
import JarvOs.Lib.Buffer
import JarvOs.Lib.Board
import JarvOs.Lib.X86
import JarvOs.Lib.Transducer
import JarvOs.Lib.Pieces
import JarvOs.Lib.Hex
import JarvOs.Lib.Cache
import JarvOs.Memory.Pmm
import JarvOs.Memory.Image
import JarvOs.Memory.Reserved
import JarvOs.Memory.Kmalloc
import JarvOs.Memory.Headers
import JarvOs.Memory.HeapList
import JarvOs.Memory.HeapInv
import JarvOs.Memory.HeapRuns
import JarvOs.Memory.HeapSizes
import JarvOs.Memory.Realloc
import JarvOs.Memory.Vmm
import JarvOs.Memory.PageTables
import JarvOs.Memory.VmmSpec
import JarvOs.Memory.AddressSpaces
import JarvOs.Memory.DataPages
import JarvOs.Memory.KernelHeap
import JarvOs.Memory.HeapFrames
import JarvOs.Memory.HeapOverflow
import JarvOs.Memory.HeapOom
import JarvOs.Process.Scheduler
import JarvOs.Process.Lists
import JarvOs.Process.Transitions
import JarvOs.Process.ProcessMemory
import JarvOs.Process.SchedRuns
import JarvOs.Process.TickRefines
import JarvOs.Process.RoundRobin
import JarvOs.Process.EarlyWake
import JarvOs.Process.IdleYields
import JarvOs.Process.IdentityMap
import JarvOs.Process.HeapVisible
import JarvOs.Process.Endings
import JarvOs.Process.LoadedDirectory
import JarvOs.Process.InterruptFlag
import JarvOs.Process.Resources
import JarvOs.Process.CreateFailure
import JarvOs.Process.ContextSwitch
import JarvOs.Ipc.Msg
import JarvOs.Ipc.Fifo
import JarvOs.Ipc.Typed
import JarvOs.Ipc.Residue
import JarvOs.Ipc.Failure
import JarvOs.Fs.Vfs
import JarvOs.Fs.Store
import JarvOs.Fs.FailedWrite
import JarvOs.Fs.Bounds
import JarvOs.Fs.Path
import JarvOs.Fs.PathHeap
import JarvOs.Fs.Tree
import JarvOs.Fs.PathLaws
import JarvOs.Fs.Children
import JarvOs.Syscall.Stub
import JarvOs.Syscall.Write
import JarvOs.Memory.EntryWords
import JarvOs.Memory.Rights
import JarvOs.Memory.Lookup
import JarvOs.Memory.MapFailure
import JarvOs.Memory.Tlb
import JarvOs.Drivers.Keyboard
import JarvOs.Drivers.Timer
import JarvOs.Drivers.Sleep
import JarvOs.Drivers.Decoder
import JarvOs.Drivers.Registry
import JarvOs.Drivers.Serial
import JarvOs.Lib.Fair
import JarvOs.Drivers.KeyboardInit
import JarvOs.Drivers.Dma
import JarvOs.Shell.Dispatch
import JarvOs.Shell.Console
import JarvOs.Shell.Interpreter
import JarvOs.Libc.Strtok
import JarvOs.Libc.Memmove
import JarvOs.Libc.Calloc
import JarvOs.Libc.Strstr
import JarvOs.Core.CpuFeatures
import JarvOs.Core.Gdt
import JarvOs.Core.Interrupts
import JarvOs.Core.InterruptStubs
import JarvOs.Core.Ring3
import JarvOs.Lib.Format
import JarvOs.Core.ExceptionReport
import JarvOs.Process.Preemption
import JarvOs.Boot.ReadLoop
import JarvOs.Lib.StringOps
import JarvOs.Boot.Handover
