import OS537.Base.Bytes
import OS537.Base.Code
import OS537.Base.Posix
import OS537.Base.Run
import OS537.Base.Scan
import OS537.Base.Forest
import OS537.Base.Blocks
import OS537.Base.Chain
import OS537.Base.Family
import OS537.LFS.Records
import OS537.LFS.Server
import OS537.LFS.Directory
import OS537.LFS.Effects
import OS537.LFS.Commit
import OS537.LFS.Log
import OS537.LFS.Restart
import OS537.LFS.Runs
import OS537.LFS.Crash
import OS537.LFS.CrossChunk
import OS537.LFS.Tree
import OS537.LFS.TreeSteps
import OS537.LFS.TreeCalls
import OS537.LFS.TreeRuns
import OS537.Mem.Allocator
import OS537.Mem.FreeList
import OS537.Mem.Alloc
import OS537.Mem.Moves
import OS537.Mem.Free
import OS537.Mem.Runs
import OS537.Threads.Table
import OS537.Threads.Control
import OS537.Threads.Steps
import OS537.Threads.Ownership
import OS537.Threads.Making
import OS537.Threads.Reaping
import OS537.Threads.Pages
import OS537.Threads.Sizes
import OS537.Stride.Scheduler
import OS537.Stride.Window
import OS537.Stride.Share
import OS537.Stride.Range
import OS537.LFS.Reading
import OS537.MFS.Messages
import OS537.MFS.Server
import OS537.LFS.Defined
import OS537.MFS.Validation
import OS537.LFS.Observed
import OS537.LFS.Repeat
import OS537.LFS.Entries
import OS537.LFS.Twice
import OS537.MFS.Retry
import OS537.XV6.Disk
import OS537.XV6.Bmap
import OS537.XV6.Search
import OS537.XV6.Reach
import OS537.XV6.Growth
import OS537.XV6.Leaks
import OS537.XV6.Stable
import OS537.XV6.Cache
import OS537.Base.Interleave
import OS537.Threads.SpinLock
import OS537.Traps.Counting
import OS537.Mem.Coalescing
import OS537.Mem.Exhaustion
import OS537.Mem.Requests
import OS537.LFS.AppendOnly
import OS537.LFS.Flat
import OS537.LFS.Usable
import OS537.LFS.UsableRuns
import OS537.XV6.LinkMaps
import OS537.XV6.LinkRuns
import OS537.XV6.Zeroed
import OS537.Base.Move
import OS537.LFS.Delivered
import OS537.LFS.DirectoryGrowth
import OS537.LFS.FileSizes
import OS537.LFS.RemoveDirectory
import OS537.Stride.Dispatch
import OS537.Threads.Clone
import OS537.XV6.Calls
import OS537.XV6.InStep
import OS537.XV6.FileTable
import OS537.XV6.KernelRuns
import OS537.XV6.Apart
import OS537.XV6.SameBytes
import OS537.Base.Strtok
import OS537.Fastsort.Reading
import OS537.Fastsort.Sorting
import OS537.LFS.Tombstones
import OS537.Shell.Prompt
import OS537.Shell.Redirect
import OS537.XV6.CallInvariants
import OS537.XV6.ExtentCalls
import OS537.XV6.OnDisk
import OS537.XV6.Sizes
import OS537.Buffers.Cache
import OS537.Grep.Match
import OS537.Pipes.Transfer
