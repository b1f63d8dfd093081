import Xv6.Log.Ops
import Xv6.Log.Reserve
import Xv6.Lib.Bytes
import Xv6.Lib.Prog
import Xv6.Log.Code
import Xv6.Log.Crash
import Xv6.Bio.Cache
import Xv6.Bio.Machine
import Xv6.Log.Boot
import Xv6.Fs.Layout
import Xv6.Icache.Machine
import Xv6.Icache.Protocol
import Xv6.Fs.Code
import Xv6.Fs.Machine
import Xv6.Lib.Ledger
import Xv6.Fs.Rows
import Xv6.Fs.Invariant
import Xv6.Fs.Locks
import Xv6.Fs.Commands
import Xv6.Fs.Outline
import Xv6.Fs.Ownership
import Xv6.Sched.Machine
import Xv6.Sched.Context
import Xv6.Sched.Tree
import Xv6.Sched.Reap
import Xv6.Sched.Kill
import Xv6.Lib.Bag
import Xv6.Lib.Fail
import Xv6.Vm.Code
import Xv6.Vm.Pages
import Xv6.Vm.Table
import Xv6.Vm.Unmap
import Xv6.Vm.Alloc
import Xv6.Vm.Process
import Xv6.Vm.Copy
import Xv6.Kernel.Code
import Xv6.Kernel.Exec
import Xv6.Kernel.Life
import Xv6.Kernel.Load
import Xv6.Kernel.Image
import Xv6.Lib.Monitor
import Xv6.Lib.Window
import Xv6.Pipes.Code
import Xv6.Pipes.Fifo
import Xv6.Pipes.Wakeup
import Xv6.Console.Code
import Xv6.Console.Line
import Xv6.Virtio.Code
import Xv6.Virtio.Chains
import Xv6.Virtio.Rings
import Xv6.Virtio.Protocol
import Xv6.Lib.Circle
import Xv6.Lib.Count
import Xv6.Umalloc.Code
import Xv6.Umalloc.FreeList
import Xv6.Umalloc.Malloc
import Xv6.Umalloc.Run
import Xv6.Sh.Code
import Xv6.Sh.Grammar
import Xv6.Sh.Lexer
import Xv6.Sh.Parser
import Xv6.Sh.Line
import Xv6.Buddy.Code
import Xv6.Lib.BuddyTree
import Xv6.Buddy.State
import Xv6.Buddy.Calls
import Xv6.Buddy.Run
import Xv6.Fs.Solo
import Xv6.Vm.Map
import Xv6.Vm.Extend
import Xv6.Vm.Grow
import Xv6.Vm.Snapshot
import Xv6.Vm.Copies
import Xv6.Kernel.Growproc
import Xv6.Vm.Contents
import Xv6.Kernel.Args
import Xv6.Kernel.Launch
import Xv6.Kernel.Boot
import Xv6.Kernel.Segments
import Xv6.Fs.File
import Xv6.Fs.Section
import Xv6.Fs.Budget
import Xv6.Fs.Delete
import Xv6.Fs.Transfer
import Xv6.Locks.Sleeplock
import Xv6.Log.Waiting
import Xv6.Locks.Spinlock
import Xv6.Locks.Nesting
import Xv6.User.Grep
import Xv6.Buddy.Request
import Xv6.Buddy.Undo
import Xv6.Sched.Pids
import Xv6.Sh.Run
import Xv6.Kernel.Failure
import Xv6.Locks.Exclusion
import Xv6.Fs.ReadBack
import Xv6.Kernel.Bridge
