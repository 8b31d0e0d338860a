import Xv6Container.Lib.Reach
import Xv6Container.Lib.Path
import Xv6Container.Lib.Tickets
import Xv6Container.Lib.Budget
import Xv6Container.Containers.Tables
import Xv6Container.Containers.System
import Xv6Container.Containers.Effects
import Xv6Container.Containers.Holders
import Xv6Container.Containers.Listing
import Xv6Container.Containers.Pids
import Xv6Container.Containers.Schedulable
import Xv6Container.Containers.Reserve
import Xv6Container.Containers.Bounds
import Xv6Container.Message.Queue
import Xv6Container.Message.System
import Xv6Container.Message.Steps
import Xv6Container.Message.Receivers
import Xv6Container.Message.Delivery
import Xv6Container.Message.Wakeup
import Xv6Container.Message.Addressing
import Xv6Container.Log.Header
import Xv6Container.Log.Reservation
import Xv6Container.Lib.RedoLog
import Xv6Container.Lib.Triple
import Xv6Container.Log.Bio
import Xv6Container.Log.Cache
import Xv6Container.Log.Commit
import Xv6Container.Log.Recovery
import Xv6Container.Fs.Blocks
import Xv6Container.Lib.Ownership
import Xv6Container.Log.Operations
import Xv6Container.Fs.Owned
import Xv6Container.Fs.Inodes
import Xv6Container.Fs.Iput
import Xv6Container.Names.Model
import Xv6Container.Lib.Tally
import Xv6Container.Names.Cache
import Xv6Container.Names.Lookup
import Xv6Container.Names.Tree
import Xv6Container.Names.Changes
import Xv6Container.Names.Edits
import Xv6Container.Names.Create
import Xv6Container.Names.Calls
import Xv6Container.Names.Links
import Xv6Container.Names.Dangling
import Xv6Container.Names.Creator
import Xv6Container.Names.Reopen
import Xv6Container.Memory.Mapping
import Xv6Container.Containers.Kills
import Xv6Container.Containers.Parents
import Xv6Container.Containers.Turns
import Xv6Container.Containers.Isolation
import Xv6Container.Containers.Barrier
import Xv6Container.Containers.Creates
import Xv6Container.Lib.Ring
import Xv6Container.Pipes.Pipe
import Xv6Container.Pipes.Stream
import Xv6Container.Files.Model
import Xv6Container.Names.Frames
import Xv6Container.Names.Descriptors
import Xv6Container.Files.Counts
import Xv6Container.Files.Inodes
import Xv6Container.Files.Calls
import Xv6Container.Files.Pages
import Xv6Container.Kernel.System
import Xv6Container.Kernel.Moves
import Xv6Container.Kernel.Owners
import Xv6Container.Kernel.Sizes
import Xv6Container.Kernel.Returns
import Xv6Container.Kernel.Reserved
import Xv6Container.Lib.Monitor
import Xv6Container.Locks.SleepLock
import Xv6Container.Pipes.Sleepers
import Xv6Container.Console.Console
import Xv6Container.Console.Editing
import Xv6Container.Console.Reading
import Xv6Container.Mkfs.Append
import Xv6Container.Mkfs.Files
import Xv6Container.Mkfs.Reading
import Xv6Container.Mkfs.Layout
import Xv6Container.Lib.Links
import Xv6Container.Malloc.Umalloc
import Xv6Container.Malloc.Free
import Xv6Container.Malloc.Blocks
import Xv6Container.Malloc.Requests
import Xv6Container.Malloc.Programs
import Xv6Container.Shell.Grammar
import Xv6Container.Shell.Tokens
import Xv6Container.Shell.Sound
import Xv6Container.Shell.Complete
import Xv6Container.Shell.Parsecmd
import Xv6Container.Bcache.Buffers
import Xv6Container.Bcache.Coherence
import Xv6Container.Bcache.Steps
import Xv6Container.Bcache.Commit
import Xv6Container.Lib.Halts
import Xv6Container.Ops.Model
import Xv6Container.Ops.Syscalls
import Xv6Container.Ops.Reads
import Xv6Container.Ops.Cache
import Xv6Container.Containers.Polling
import Xv6Container.Fs.NewPath
import Xv6Container.Containers.Counting
import Xv6Container.Containers.Delisting
import Xv6Container.Message.Nodes
import Xv6Container.Memory.Copyout
import Xv6Container.Ops.Owned
import Xv6Container.Lib.Splice
import Xv6Container.Ops.Content
import Xv6Container.Ops.ReadWrite
import Xv6Container.Ops.Shared
import Xv6Container.Ops.Directory
import Xv6Container.Lib.Components
import Xv6Container.Paths.Skipelem
import Xv6Container.Paths.Locks
import Xv6Container.Paths.Namex
import Xv6Container.Lib.Footprint
import Xv6Container.Ops.Costs
import Xv6Container.Ops.Lookup
import Xv6Container.Ops.Others
import Xv6Container.Ops.Budget
import Xv6Container.Ops.Dirlink
import Xv6Container.Ops.Create
import Xv6Container.Ops.Transactions
import Xv6Container.Ops.Failures
import Xv6Container.Lib.Words
import Xv6Container.Syscall.Arguments
import Xv6Container.Malloc.Amounts
import Xv6Container.Lib.Slots
import Xv6Container.Paging.Tables
import Xv6Container.Paging.Walk
import Xv6Container.Paging.Mappages
import Xv6Container.Paging.Dealloc
import Xv6Container.Paging.Alloc
import Xv6Container.Paging.Space
import Xv6Container.Paging.Copy
import Xv6Container.Exec.Model
import Xv6Container.Paging.Peek
import Xv6Container.Exec.Load
import Xv6Container.Paging.Copyout
import Xv6Container.Exec.Stack
import Xv6Container.Exec.Commit
import Xv6Container.Grep.Match
import Xv6Container.Strings.Memmove
import Xv6Container.Grep.Chunks
import Xv6Container.Manager.FileName
import Xv6Container.Message.Digits
import Xv6Container.Containers.Forks
import Xv6Container.Shell.Processes
import Xv6Container.Ide.Service
import Xv6Container.Locks.Switches
import Xv6Container.Containers.Waiting
import Xv6Container.Crash.Survival
import Xv6Container.Plumbing.Pipelines
