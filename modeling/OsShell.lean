import OsShell.Library.Runs
import OsShell.FirstFit.Tags
import OsShell.FirstFit.Threaded
import OsShell.FirstFit.WellFormed
import OsShell.KernelHeap.Code
import OsShell.KernelHeap.Operations
import OsShell.KernelHeap.Runs
import OsShell.KernelHeap.Guarantees
import OsShell.Debug
import OsShell.Library.Outcome
import OsShell.PhysMem.Code
import OsShell.PhysMem.Pool
import OsShell.PhysMem.Free
import OsShell.PhysMem.Runs
import OsShell.Library.FrameTree
import OsShell.Library.Words
import OsShell.Vmm.Code
import OsShell.Vmm.Layout
import OsShell.Vmm.Operations
import OsShell.Vmm.Deletion
import OsShell.Vmm.Walks
import OsShell.Vmm.Boot
import OsShell.Vmm.Runs
import OsShell.Vmm.Isolation
import OsShell.Vmm.Accounting
import OsShell.Vmm.Mappings
import OsShell.Process.Code
import OsShell.Process.Fork
import OsShell.BlockIO.Code
import OsShell.BlockIO.ReadAll
import OsShell.Ext2.Files
import OsShell.Threads.Queue
import OsShell.Library.CountingSemaphore
import OsShell.Threads.Semaphore
import OsShell.Threads.Grants
import OsShell.Library.Sections
import OsShell.Pipe.Code
import OsShell.Pipe.Fifo
import OsShell.Process.Handles
import OsShell.Shell.Code
import OsShell.Process.Tables
import OsShell.Process.HandleRuns
import OsShell.Shell.Delivery
import OsShell.Threads.InterruptSafeLock
import OsShell.Threads.Barrier
import OsShell.Threads.BoundedBuffer
import OsShell.Process.SharedFile
import OsShell.Exec.Load
import OsShell.Exec.Stack
import OsShell.Exec.Arguments
import OsShell.Threads.Places
import OsShell.Threads.Preemption
import OsShell.Process.Exit
import OsShell.Process.Waiting
import OsShell.Exec.Code
import OsShell.Shell.Prompt
import OsShell.Shell.Line
import OsShell.Shell.Pipes
import OsShell.Shell.Launch
import OsShell.Library.Holders
import OsShell.Shared.Code
import OsShell.Shared.Drop
import OsShell.Shared.Counts
import OsShell.Sys.Descriptors
import OsShell.Exec.AllOrNothing
import OsShell.Sys.Redirection
import OsShell.Sys.UserMemory
import OsShell.FirstFit.Owners
import OsShell.UserHeap.Code
import OsShell.UserHeap.Operations
import OsShell.UserHeap.Runs
import OsShell.UserHeap.Guarantees
import OsShell.UserHeap.Placement
import OsShell.KernelHeap.DoubleFree
import OsShell.Vmm.Progress
import OsShell.Exec.Buffers
import OsShell.Exec.Leaks
import OsShell.Ext2.Sparse
import OsShell.Library.Loops
import OsShell.Library.Lines
import OsShell.Library.Delivery
import OsShell.Ext2.Entries
import OsShell.Ext2.Symlink
import OsShell.Ext2.Tree
import OsShell.Ext2.Directory
import OsShell.Ext2.Find
import OsShell.Process.ActualFile
import OsShell.Exec.Image
import OsShell.Sys.Strings
import OsShell.Sys.Open
import OsShell.Sys.ChangeDir
import OsShell.Sys.CwdStorage
import OsShell.Programs.Listing
import OsShell.Programs.Grep
import OsShell.Programs.Input
import OsShell.Programs.Login
import OsShell.Programs.Cp
import OsShell.Acpi.Madt
import OsShell.Library.AddressSpace
import OsShell.Library.Machine
import OsShell.Threads.ContextSwitch
import OsShell.Threads.Resumption
import OsShell.Ext2.Mount
import OsShell.Ext2.Volume
import OsShell.BlockIO.Ide
import OsShell.Library.Interrupts
import OsShell.Machine.Copy
import OsShell.Machine.Traps
import OsShell.Machine.SystemCalls
import OsShell.Boot.Cores
import OsShell.Machine.InterruptTable
import OsShell.Format.Code
import OsShell.Format.Numbers
import OsShell.Format.Directives
import OsShell.Format.Returns
import OsShell.Programs.Echo
import OsShell.Exec.FromDisk
import OsShell.Machine.Start
