import Xv6Ringbuf.User.Window
import Xv6Ringbuf.User.Fifo
import Xv6Ringbuf.User.Bench
import Xv6Ringbuf.User.DescriptorRun
import Xv6Ringbuf.User.Finish
import Xv6Ringbuf.Kernel.Sharing
import Xv6Ringbuf.Kernel.Isolation
import Xv6Ringbuf.Kernel.Capacity
import Xv6Ringbuf.Kernel.Teardown
import Xv6Ringbuf.Kernel.Syscall
import Xv6Ringbuf.Fs.Commit
import Xv6Ringbuf.Fs.OpsBracket
import Xv6Ringbuf.Fs.Reserve
import Xv6Ringbuf.Fs.ItableRun
import Xv6Ringbuf.Fs.StoreRun
import Xv6Ringbuf.Fs.ItableRoom
import Xv6Ringbuf.Kernel.PageHistory
import Xv6Ringbuf.Procs.Kill
import Xv6Ringbuf.Kernel.Guard
import Xv6Ringbuf.Kernel.Failed
import Xv6Ringbuf.Kernel.LibraryOpen
import Xv6Ringbuf.Kernel.RoundTrip
import Xv6Ringbuf.Kernel.StackName
import Xv6Ringbuf.Dev.ConsoleRun
import Xv6Ringbuf.User.MallocRun
import Xv6Ringbuf.Shell.ParseCmd
import Xv6Ringbuf.Ipc.PipeRead
import Xv6Ringbuf.Ipc.PipeRun
import Xv6Ringbuf.Grep.Lines
import Xv6Ringbuf.Kernel.HighestRun
import Xv6Ringbuf.User.FreeCanonical
import Xv6Ringbuf.Bio.LruRun
import Xv6Ringbuf.Kernel.UserCopySpec
import Xv6Ringbuf.Fs.FailedCopy
import Xv6Ringbuf.Kernel.Growproc
import Xv6Ringbuf.Kernel.Fork
import Xv6Ringbuf.Memmove
import Xv6Ringbuf.Kernel.ExecOutcome
import Xv6Ringbuf.Dev.VirtioRun
