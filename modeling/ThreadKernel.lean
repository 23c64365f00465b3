import ThreadKernel.Proc.Entries
import ThreadKernel.Proc.Parents
import ThreadKernel.Registry.Freevm
import ThreadKernel.Lock.Calls
import ThreadKernel.File.Directory
import ThreadKernel.File.Log
import ThreadKernel.Memory.Exec
import ThreadKernel.Disk.Recovery
import ThreadKernel.Disk.Cache
import ThreadKernel.Vm.Ranges
import ThreadKernel.File.Objects
import ThreadKernel.Fs.Links
import ThreadKernel.Fs.Deadlock
import ThreadKernel.Fs.IcacheSafety
import ThreadKernel.Stream.Pipe
import ThreadKernel.Stream.Console
import ThreadKernel.Lock.Wakeup
import ThreadKernel.User.Bakery
import ThreadKernel.Disk.IdeQueue
import ThreadKernel.Vm.Growproc
import ThreadKernel.Block.Content
import ThreadKernel.Memory.Copyout
import ThreadKernel.User.Grep
import ThreadKernel.Boot.Mp
import ThreadKernel.Memory.Move
import ThreadKernel.Syscall.Fetch
