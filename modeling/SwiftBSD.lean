import SwiftBSD.Lib.Bytes
import SwiftBSD.Lib.Prog
import SwiftBSD.Lib.Ownership
import SwiftBSD.Fs.Format
import SwiftBSD.Fs.Store
import SwiftBSD.Fs.Swiftfs2
import SwiftBSD.Fs.Mkfs
import SwiftBSD.Fs.Call
import SwiftBSD.Proof.Fs.Codec
import SwiftBSD.Proof.Fs.Volume
import SwiftBSD.Proof.Fs.Primitives
import SwiftBSD.Proof.Fs.Alloc
import SwiftBSD.Proof.Fs.Ownership
import SwiftBSD.Proof.Fs.Bmap
import SwiftBSD.Proof.Fs.FileIO
import SwiftBSD.Proof.Fs.Records
import SwiftBSD.Proof.Fs.Directory
import SwiftBSD.Proof.Fs.AddEntry
import SwiftBSD.Proof.Fs.Release
import SwiftBSD.Proof.Fs.Namespace
import SwiftBSD.Proof.Fs.Create
import SwiftBSD.Proof.Fs.Calls
import SwiftBSD.Proof.Fs.Image
import SwiftBSD.Proof.Fs.Mount
import SwiftBSD.Proof.Fs.Remount
import SwiftBSD.Proof.Fs.Run
import SwiftBSD.Proof.Fs.DataCalls
import SwiftBSD.Proof.Fs.Fresh
import SwiftBSD.Proof.Fs.Contents
import SwiftBSD.Lib.Loop
import SwiftBSD.Lib.Tables
import SwiftBSD.Lib.Ring
import SwiftBSD.Vfs.Pipe
import SwiftBSD.Vfs.File
import SwiftBSD.Vfs.Call
import SwiftBSD.Mm.Pmm
import SwiftBSD.Mm.Vmm
import SwiftBSD.Proof.Fs.Descriptors
import SwiftBSD.Proof.Vfs.Fifo
import SwiftBSD.Proof.Vfs.Slots
import SwiftBSD.Proof.Vfs.Handles
import SwiftBSD.Proof.Vfs.Ends
import SwiftBSD.Mm.Walk
import SwiftBSD.Proof.Mm.Entry
import SwiftBSD.Proof.Mm.Tables
import SwiftBSD.Proof.Mm.CloneStep
import SwiftBSD.Proof.Mm.Clone
import SwiftBSD.Proof.Mm.Fork
import SwiftBSD.Mm.Cow
import SwiftBSD.Proof.Mm.Page
import SwiftBSD.Proof.Mm.CowFault
import SwiftBSD.Proof.Mm.Cow
import SwiftBSD.Proof.Mm.Enough
import SwiftBSD.Proof.Mm.CloneRun
import SwiftBSD.Sched.Switch
import SwiftBSD.Proof.Sched.Switch
import SwiftBSD.User.Vma
import SwiftBSD.Proof.User.Table
import SwiftBSD.Proof.User.Sweep
import SwiftBSD.Proof.User.Progress
import SwiftBSD.Proof.User.Mappings
import SwiftBSD.Proof.User.Maps
import SwiftBSD.Proof.User.Exact
import SwiftBSD.Lib.Moves
import SwiftBSD.Proof.Mm.Count
import SwiftBSD.Sched.Process
import SwiftBSD.User.Fault
import SwiftBSD.User.Exec
import SwiftBSD.Proof.User.Program
import SwiftBSD.Proof.User.OutOfMemory
import SwiftBSD.Proof.Mm.FullTables
import SwiftBSD.Proof.Mm.Split
import SwiftBSD.Proof.Mm.Map
import SwiftBSD.Proof.Mm.Unmap
import SwiftBSD.Proof.Mm.Active
import SwiftBSD.Proof.Mm.Boot
import SwiftBSD.Proof.Mm.Given
import SwiftBSD.Proof.User.Writable
import SwiftBSD.Proof.User.Heap
import SwiftBSD.Proof.Mm.Alike
import SwiftBSD.Proof.User.Filled
import SwiftBSD.Proof.User.Isolation
import SwiftBSD.User.Mapped
import SwiftBSD.Proof.User.Invisible
import SwiftBSD.Proof.Vfs.Denotes
import SwiftBSD.Proof.User.Tied
import SwiftBSD.Sched.Table
import SwiftBSD.Proof.Sched.Table
import SwiftBSD.Proof.Sched.Exit
import SwiftBSD.Mm.PmmInit
import SwiftBSD.Proof.Mm.PmmInit
import SwiftBSD.Mm.Paging
import SwiftBSD.Proof.Mm.Reach
import SwiftBSD.Lib.Blocks
import SwiftBSD.Mm.Kheap
import SwiftBSD.Proof.Mm.Kheap
import SwiftBSD.Userland.Malloc
import SwiftBSD.Proof.Userland.Malloc
import SwiftBSD.Proof.Fs.Areas
import SwiftBSD.Proof.Fs.Counts
import SwiftBSD.Lib.WriteBack
import SwiftBSD.Fs.Io
import SwiftBSD.Proof.Fs.Cache
import SwiftBSD.Proof.Fs.Allocator
import SwiftBSD.Userland.Syscall
import SwiftBSD.Proof.Userland.Mmap
import SwiftBSD.Vfs.Dispatch
import SwiftBSD.Proof.Vfs.Dispatch
import SwiftBSD.Proof.Vfs.Cursors
import SwiftBSD.Proof.Fs.ReadEnd
import SwiftBSD.Proof.Fs.Storage
import SwiftBSD.Proof.Fs.Room
import SwiftBSD.Proof.Fs.NewFile
import SwiftBSD.Lib.Parts
import SwiftBSD.Proof.Fs.Resolution
import SwiftBSD.Proof.Fs.InodeAllocator
import SwiftBSD.Proof.Fs.AccessModes
import SwiftBSD.Proof.Mm.Meaning
import SwiftBSD.Proof.Mm.MapAny
import SwiftBSD.Proof.Mm.MapFull
import SwiftBSD.Proof.Vfs.Positions
import SwiftBSD.Proof.Fs.Tiling
import SwiftBSD.Lib.Partial
import SwiftBSD.Proof.Fs.Prefixes
import SwiftBSD.Proof.Fs.Parents
import SwiftBSD.Proof.Sched.RoundRobin
import SwiftBSD.Proof.Mm.Coalesce
import SwiftBSD.Proof.Mm.Spared
import SwiftBSD.Proof.Sched.ForkFrame
import SwiftBSD.Proof.Sched.Context
import SwiftBSD.Proof.User.Loading
import SwiftBSD.Proof.User.Segments
import SwiftBSD.Proof.User.Frames
import SwiftBSD.Proof.User.Placement
import SwiftBSD.Proof.User.Permissions
import SwiftBSD.Proof.Userland.Sizes
import SwiftBSD.Proof.Userland.Realloc
import SwiftBSD.Proof.Sched.Children
import SwiftBSD.Proof.User.Pieces
import SwiftBSD.Proof.Fs.InodeArray
import SwiftBSD.Proof.Hal.Transfers
import SwiftBSD.Lib.Chars
import SwiftBSD.Userland.Shell
import SwiftBSD.Proof.Userland.Paths
import SwiftBSD.Proof.Userland.Canonical
import SwiftBSD.Proof.Userland.Commands
import SwiftBSD.Hal.Pci
import SwiftBSD.Lib.Preorder
import SwiftBSD.Proof.Hal.Enumeration
import SwiftBSD.Userland.Readline
import SwiftBSD.Proof.Userland.Readline
import SwiftBSD.Proof.Fs.EntryNames
import SwiftBSD.Lib.Simulate
import SwiftBSD.Proof.Fs.Simulation
import SwiftBSD.Proof.Fs.Transparent
import SwiftBSD.Proof.User.Ranges
import SwiftBSD.Proof.Fs.Reboot
import SwiftBSD.Proof.Fs.Growing
import SwiftBSD.Lib.ByteFiles
import SwiftBSD.Proof.Fs.Files
import SwiftBSD.Proof.Fs.FileRuns
import SwiftBSD.Fs.Driver
import SwiftBSD.Proof.Fs.Driver
import SwiftBSD.Proof.Vfs.Whole
import SwiftBSD.Proof.User.Reading
import SwiftBSD.Proof.User.Execute
import SwiftBSD.Proof.User.PageIn
import SwiftBSD.Proof.Fs.Listing
import SwiftBSD.Proof.Fs.Several
