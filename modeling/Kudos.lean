import Kudos.Library.Chain
import Kudos.Library.CInt
import Kudos.Library.Counting
import Kudos.Library.Transition
import Kudos.Library.Words
import Kudos.Kernel.Thread
import Kudos.Kernel.ThreadQueues
import Kudos.Kernel.ThreadInvariant
import Kudos.Kernel.Semaphore
import Kudos.Lib.Bitmap
import Kudos.Fs.Vfs
import Kudos.Fs.VfsAccounting
import Kudos.Fs.VfsShutdown
import Kudos.Fs.Tfs
import Kudos.Fs.TfsRun
import Kudos.Library.Ownership
import Kudos.Fs.TfsInvariant
import Kudos.Fs.TfsConsistency
import Kudos.Fs.TfsInterrupted
import Kudos.Fs.TfsByteOrder
import Kudos.Library.Radix
import Kudos.Vm.PageTable
import Kudos.Vm.AddressSpace
import Kudos.Library.LeastFirst
import Kudos.Vm.Physmem
import Kudos.Vm.PhysmemSafety
import Kudos.Proc.Elf
import Kudos.Proc.Process
import Kudos.Proc.ProcessIsolation
import Kudos.Lib.BitmapWords
import Kudos.Lib.Libc
import Kudos.Lib.Printf
import Kudos.Lib.PrintfText
import Kudos.Lib.PrintfRuns
import Kudos.Lib.PrintfBuffer
import Kudos.Lib.Atoi
import Kudos.Vm.PagePool
import Kudos.Userland.HeapSizes
import Kudos.Vm.TableReturn
import Kudos.Vm.TlbGetmap
import Kudos.Vm.TlbTable
import Kudos.Vm.Kmalloc
import Kudos.Drivers.Disk
import Kudos.Fs.VfsMount
import Kudos.Library.ByteMemory
import Kudos.Library.Supply
import Kudos.Library.Tiling
import Kudos.Userland.Heap
import Kudos.Userland.HeapInvariant
import Kudos.Fs.VfsRead
import Kudos.Library.Mutex
import Kudos.Fs.VfsControl
import Kudos.Fs.VfsOpen
import Kudos.Fs.VfsUnmount
import Kudos.Fs.TfsContents
import Kudos.Fs.TfsArray
import Kudos.Fs.TfsCreate
import Kudos.Fs.Filesystems
import Kudos.Fs.TfsPlacement
import Kudos.Fs.VfsTfs
import Kudos.Fs.VfsHandles
import Kudos.Fs.Tfstool
import Kudos.Fs.TfstoolCopy
import Kudos.Fs.TfstoolAgreement
import Kudos.Kernel.SleepWake
import Kudos.Kernel.ThreadOrder
import Kudos.Library.RingBuffer
import Kudos.Drivers.Tty
import Kudos.Drivers.TtyInput
import Kudos.Drivers.TtyOutput
import Kudos.Fs.TfstoolDelete
import Kudos.Fs.TfsSpace
import Kudos.Library.Requests
import Kudos.Fs.TfsBlockTable
import Kudos.Fs.VfsChunks
import Kudos.Fs.VfsPath
import Kudos.Fs.VfsVerify
import Kudos.Fs.VfsRemount
import Kudos.Fs.VfsListing
import Kudos.Library.Acyclic
import Kudos.Fs.PartitionScan
import Kudos.Drivers.Ide
import Kudos.Fs.TfsIde
import Kudos.Vm.TableSupply
import Kudos.Proc.PageBytes
import Kudos.Proc.ElfFile
import Kudos.Proc.ElfHeaders
import Kudos.Proc.ProcessImage
import Kudos.Proc.ProgramLoading
import Kudos.Proc.ProgramFile
import Kudos.Vm.PageEntries
import Kudos.Proc.PagePermissions
import Kudos.Proc.ProcessFaults
import Kudos.Fs.VfsView
import Kudos.Proc.ProcessStart
import Kudos.Userland.HeapRealloc
import Kudos.Fs.TfstoolRoom
import Kudos.Fs.TfstoolLimit
import Kudos.Drivers.Bootargs
import Kudos.Kernel.ThreadStack
import Kudos.Drivers.TtyConsole
import Kudos.Drivers.Keyboard
import Kudos.Drivers.IdeCommand
import Kudos.Library.Runs
import Kudos.Userland.Tokenize
import Kudos.Userland.LineInput
import Kudos.Fs.TfstoolBitmap
import Kudos.Vm.TablePool
import Kudos.Lib.PrintUint
import Kudos.Lib.PrintfDirective
import Kudos.Lib.Stringcopy
import Kudos.Library.LongDivision
import Kudos.Lib.Qdivrem
import Kudos.Vm.TlbFill
import Kudos.Library.Simulation
import Kudos.Kernel.Spinlock
import Kudos.Kernel.ContextSwitch
import Kudos.Kernel.ContextSwitchRuns
import Kudos.Library.Coroutine
import Kudos.Kernel.ContextSwitchSteps
import Kudos.Kernel.ContextSwitchResume
import Kudos.Vm.BootMemory
import Kudos.Library.NamedFiles
import Kudos.Fs.TfsListing
import Kudos.Fs.TfsStore
import Kudos.Drivers.DiskData
import Kudos.Fs.TfsCalls
