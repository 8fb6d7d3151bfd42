import SustainableXv6.Kernel.Deadlock
import SustainableXv6.Kernel.Exclusion
import SustainableXv6.Kernel.Periodic
import SustainableXv6.Pipe.Fifo
import SustainableXv6.Pipe.Exclusion
import SustainableXv6.Pipe.Blocking
import SustainableXv6.Sched.Overtaking
import SustainableXv6.Log.Reservation
import SustainableXv6.Bio.Room
import SustainableXv6.Smp.Iteration
import SustainableXv6.Smp.LockOrder
import SustainableXv6.Smp.Ticking
import SustainableXv6.Smp.Current
import SustainableXv6.Inode.Directory
import SustainableXv6.Inode.Reclaim
import SustainableXv6.Console.Discipline
import SustainableXv6.Family.Clean
import SustainableXv6.Sleeplock.Exact
import SustainableXv6.Kernel.Budget
import SustainableXv6.File.FailedWrite
import SustainableXv6.File.Read
import SustainableXv6.Vm.Grow
import SustainableXv6.Vm.Strings
import SustainableXv6.Mkfs.Layout
import SustainableXv6.Umalloc.Run
import SustainableXv6.Sh.Strings
import SustainableXv6.Printf.Printint
import SustainableXv6.Grep.Lines
import SustainableXv6.Lib.Move
import SustainableXv6.Str.Memmove
