import Xv6.Lib.TMap
import Xv6.Lib.Bytes
import Xv6.Lib.Hoare
import Xv6.Lib.RedoLog
import Xv6.Lib.Ring
import Xv6.Lib.Transition
import Xv6.Lib.Monitor
import Xv6.Proc.SleepLock
import Xv6.Dev.Uart
import Xv6.Lib.Hart
import Xv6.Proc.Trampoline
import Xv6.Lib.FreeList
import Xv6.Lib.RadixTree
import Xv6.Lib.Ledger
import Xv6.Fs.Layout
import Xv6.Fs.State
import Xv6.Fs.Bio
import Xv6.Fs.BioSpec
import Xv6.Fs.BufferCache
import Xv6.Fs.BufferCacheSafety
import Xv6.Fs.LruRing
import Xv6.Fs.Log
import Xv6.Fs.LogSpec
import Xv6.Fs.Transaction
import Xv6.Fs.LogProtocol
import Xv6.Fs.UserCopy
import Xv6.Fs.Inode
import Xv6.Fs.Dir
import Xv6.Fs.File
import Xv6.Fs.Sysfile
import Xv6.Fs.Exec
import Xv6.Fs.Mkfs
import Xv6.Fs.Codec
import Xv6.Fs.Slots
import Xv6.Fs.MkfsSpec
import Xv6.Fs.MkfsImage
import Xv6.Fs.MkfsRegions
import Xv6.Fs.MkfsReadBack
import Xv6.Fs.Namei
import Xv6.Fs.MkfsTidy
import Xv6.Fs.NameiLaw
import Xv6.Fs.MkfsVolume
import Xv6.Fs.Boot
import Xv6.Fs.CrashSafety
import Xv6.Fs.LogSpace
import Xv6.Dev.Virtio
import Xv6.Dev.VirtioSafety
import Xv6.Dev.ConsoleSpec
import Xv6.Proc.Basic
import Xv6.Proc.File
import Xv6.Proc.Pipe
import Xv6.Proc.PipeRead
import Xv6.Proc.PushOffSafety
import Xv6.Vm.Riscv
import Xv6.Vm.State
import Xv6.Vm.Kalloc
import Xv6.Vm.PageTable
import Xv6.Vm.UserCopy
import Xv6.Vm.Proc
import Xv6.Vm.Exec
import Xv6.Vm.Pages
import Xv6.Vm.KallocRuns
import Xv6.Vm.KernelTable
import Xv6.Vm.Tables
import Xv6.Vm.Unmap
import Xv6.Vm.Space
import Xv6.Vm.Lifetime
import Xv6.Vm.Mapping
import Xv6.Vm.Access
import Xv6.Vm.SpaceAccess
import Xv6.Vm.Contents
import Xv6.Vm.ExecSpec
import Xv6.Vm.Growproc
import Xv6.Vm.Calls
import Xv6.Vm.ExecArgs
import Xv6.Vm.Fork
import Xv6.Proc.Sched
import Xv6.Proc.Wakeup
import Xv6.Proc.ExitWait
import Xv6.Proc.ExitWaitTable
import Xv6.Proc.ExitWaitHistory
import Xv6.Proc.ExitWaitSafety
import Xv6.Proc.ExitWaitProtocol
import Xv6.Proc.Cpus
import Xv6.Proc.CpusCode
import Xv6.Proc.OneCpu
import Xv6.Proc.Kill
import Xv6.Lib.Count
import Xv6.Lib.RefTable
import Xv6.Lib.SlotMap
import Xv6.Fs.RefSpec
import Xv6.Fs.RefCount
import Xv6.Fs.RefCalls
import Xv6.Fs.RefRuns
import Xv6.Fs.BlockView
import Xv6.Fs.Volume
import Xv6.Fs.Bmap
import Xv6.Fs.Readi
import Xv6.Fs.FileSystem
import Xv6.Fs.InodeSteps
import Xv6.Fs.Directory
import Xv6.Fs.BootSpec
import Xv6.User.Sh
import Xv6.User.ShGrammar
import Xv6.User.ShCursor
import Xv6.User.ShParser
import Xv6.User.ShCommand
import Xv6.User.ShWords
import Xv6.Lib.Blocks
import Xv6.Lib.CircularList
import Xv6.Lib.DoublyLinked
import Xv6.User.Umalloc
import Xv6.User.UmallocFree
import Xv6.User.UmallocSearch
import Xv6.User.UmallocHeap
import Xv6.User.UmallocRuns
import Xv6.User.UmallocRequest
import Xv6.User.Xargs
import Xv6.User.XargsRuns
import Xv6.User.XargsWords
import Xv6.User.Find
import Xv6.User.FindSpec
import Xv6.Lib.Copy
import Xv6.Lib.Numeral
import Xv6.Lib.Pattern
import Xv6.User.Memmove
import Xv6.User.Printf
import Xv6.User.PrintfSpec
import Xv6.User.Grep
import Xv6.User.GrepMatch
import Xv6.User.GrepLines
