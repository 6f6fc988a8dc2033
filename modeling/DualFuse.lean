import DualFuse.Cpu.Apic
import DualFuse.Cpu.Madt
import DualFuse.Drivers.Calendars
import DualFuse.Drivers.Disk
import DualFuse.Drivers.I2c
import DualFuse.Drivers.Mouse
import DualFuse.Drivers.Touchpad
import DualFuse.Filesystems.BitmapAccess
import DualFuse.Filesystems.Descriptors
import DualFuse.Filesystems.DirectoryPaths
import DualFuse.Filesystems.Execve
import DualFuse.Filesystems.Ext2.AssignFetch
import DualFuse.Filesystems.Ext2.BlockMap
import DualFuse.Filesystems.Ext2.BlockSearch
import DualFuse.Filesystems.Ext2.Blocks
import DualFuse.Filesystems.Ext2.Directory
import DualFuse.Filesystems.Ext2.DirectoryRecords
import DualFuse.Filesystems.Ext2.DirectoryRuns
import DualFuse.Filesystems.Ext2.FileBlocks
import DualFuse.Filesystems.Ext2.FoundObjects
import DualFuse.Filesystems.Ext2.Getdents
import DualFuse.Filesystems.Ext2.InodeSearch
import DualFuse.Filesystems.Ext2.InodeTable
import DualFuse.Filesystems.Ext2.Mount
import DualFuse.Filesystems.Ext2.Namespace
import DualFuse.Filesystems.Ext2.NamespaceCreate
import DualFuse.Filesystems.Ext2.NamespacePaths
import DualFuse.Filesystems.Ext2.NamespaceRuns
import DualFuse.Filesystems.Ext2.NamespaceTree
import DualFuse.Filesystems.Ext2.ReadInner
import DualFuse.Filesystems.Ext2.RecordLoops
import DualFuse.Filesystems.Ext2.Rmdir
import DualFuse.Filesystems.Ext2.SizeAccounting
import DualFuse.Filesystems.Ext2.Write
import DualFuse.Filesystems.Ext2.WriteBack
import DualFuse.Filesystems.FailedCalls
import DualFuse.Filesystems.FakefsTree
import DualFuse.Filesystems.Fat32
import DualFuse.Filesystems.Fat32Cache
import DualFuse.Filesystems.Fat32Chains
import DualFuse.Filesystems.Fat32Directory
import DualFuse.Filesystems.Fat32Inodes
import DualFuse.Filesystems.Fat32Listing
import DualFuse.Filesystems.Fat32ListingRuns
import DualFuse.Filesystems.Fat32LongNames
import DualFuse.Filesystems.Fat32Names
import DualFuse.Filesystems.Fat32Read
import DualFuse.Filesystems.LinkBuffers
import DualFuse.Filesystems.LinkChains
import DualFuse.Filesystems.Mounts
import DualFuse.Filesystems.Paths
import DualFuse.Filesystems.PseudoFiles
import DualFuse.Filesystems.Ramdisk
import DualFuse.Filesystems.RamdiskContents
import DualFuse.Filesystems.Sanitize
import DualFuse.Filesystems.SanitizeBuffer
import DualFuse.Filesystems.SanitizeInside
import DualFuse.Filesystems.Vfs
import DualFuse.Gui.Calculator
import DualFuse.Gui.Desktop
import DualFuse.Gui.EditorInvariant
import DualFuse.Gui.EditorPaste
import DualFuse.Gui.EditorRuns
import DualFuse.Gui.EditorText
import DualFuse.Gui.Expressions
import DualFuse.Gui.Frames
import DualFuse.Gui.Lines
import DualFuse.Gui.Primitives
import DualFuse.Gui.Shapes
import DualFuse.Gui.TextEditor
import DualFuse.Gui.XPWindows
import DualFuse.Library.Batches
import DualFuse.Library.BitArray
import DualFuse.Library.BlockStream
import DualFuse.Library.Blocks
import DualFuse.Library.Bytes
import DualFuse.Library.CString
import DualFuse.Library.Chain
import DualFuse.Library.Clusters
import DualFuse.Library.Cursor
import DualFuse.Library.Decimal
import DualFuse.Library.DoubleChain
import DualFuse.Library.Execution
import DualFuse.Library.FirstRun
import DualFuse.Library.FlatText
import DualFuse.Library.Follow
import DualFuse.Library.Listing
import DualFuse.Library.Loop
import DualFuse.Library.NameTree
import DualFuse.Library.PagedBytes
import DualFuse.Library.Painting
import DualFuse.Library.PathText
import DualFuse.Library.Places
import DualFuse.Library.Polling
import DualFuse.Library.RadixTree
import DualFuse.Library.Raster
import DualFuse.Library.Records
import DualFuse.Library.RingCache
import DualFuse.Library.Scan
import DualFuse.Library.SearchTree
import DualFuse.Library.SharedPool
import DualFuse.Library.Tiling
import DualFuse.Library.Traced
import DualFuse.Memory.AddressSpace
import DualFuse.Memory.Bitmap
import DualFuse.Memory.BitmapRuns
import DualFuse.Memory.Boot
import DualFuse.Memory.Fork
import DualFuse.Memory.ForkCorrect
import DualFuse.Memory.HeapGrowth
import DualFuse.Memory.KernelSpace
import DualFuse.Memory.Liballoc
import DualFuse.Memory.LiballocBlocks
import DualFuse.Memory.LiballocFree
import DualFuse.Memory.LiballocRuns
import DualFuse.Memory.Mmap
import DualFuse.Memory.Ownership
import DualFuse.Memory.PageEntry
import DualFuse.Memory.Paging
import DualFuse.Memory.Physical
import DualFuse.Memory.RegionRounding
import DualFuse.Memory.Translation
import DualFuse.Memory.Unmap
import DualFuse.Multitasking.Children
import DualFuse.Multitasking.Spinlock
import DualFuse.Multitasking.TaskInfo
import DualFuse.Multitasking.UserStack
import DualFuse.Multitasking.UserStackBuilt
import DualFuse.Multitasking.UserStackLayout
import DualFuse.Multitasking.Wait
import DualFuse.Syscalls.Dispatch
import DualFuse.Syscalls.Epoll
import DualFuse.Syscalls.EventFd
import DualFuse.Syscalls.Futex
import DualFuse.Syscalls.FutexKeys
import DualFuse.Syscalls.FutexQueues
import DualFuse.Syscalls.FutexRuns
import DualFuse.Syscalls.Pipe
import DualFuse.Syscalls.PipeEnds
import DualFuse.Syscalls.PipeNonblock
import DualFuse.Syscalls.PipeTasks
import DualFuse.Syscalls.PollEvents
import DualFuse.Syscalls.ScriptRuns
import DualFuse.Syscalls.Scripts
import DualFuse.Syscalls.Select
import DualFuse.Syscalls.SelectRuns
import DualFuse.Syscalls.UnixBacklog
import DualFuse.Syscalls.UnixPairs
import DualFuse.Syscalls.UnixSocket
import DualFuse.Syscalls.UnixStreams
import DualFuse.Utility.AvlTree
import DualFuse.Utility.AvlUnregister
import DualFuse.Utility.Elf
import DualFuse.Utility.ElfBounds
import DualFuse.Utility.ElfImage
import DualFuse.Utility.ElfLoads
import DualFuse.Utility.LinkedList
import DualFuse.Utility.LinkedListCalls
import DualFuse.Utility.Md5
import DualFuse.Utility.Numbers
import DualFuse.Utility.ShellCalc
import DualFuse.Utility.ShellCreate
import DualFuse.Utility.WindowManager
import DualFuse.Utility.Words
