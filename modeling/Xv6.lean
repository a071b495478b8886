import Xv6.Cache.Coherence
import Xv6.Console.Discipline
import Xv6.Fs.Descriptors
import Xv6.Fs.Layout
import Xv6.Fs.Mount
import Xv6.Fs.Sharedfd
import Xv6.Grep.Chunks
import Xv6.Ide.Queue
import Xv6.Lock.Interrupts
import Xv6.Mp.Discovery
import Xv6.Pipe.Delivery
import Xv6.Pipe.Wakeup
import Xv6.Proc.Kill
import Xv6.Proc.Reaping
import Xv6.Proc.Starvation
import Xv6.Proc.Tickets
import Xv6.Sh.Wiring
import Xv6.Storage.Memmove
import Xv6.Storage.Recovery
import Xv6.Sys.Bounds
import Xv6.Umalloc.Requests
import Xv6.Vm.Arguments
import Xv6.Vm.Copyout
import Xv6.Vm.ExecOutcome
import Xv6.Vm.Fork
import Xv6.Vm.Runs
