import Xv6.Log.Crash
import Xv6.Log.Reservation
import Xv6.Proc.Pids
import Xv6.Proc.ExitWait
import Xv6.Proc.Atomic
import Xv6.Spinlock.Interrupts
import Xv6.Pipe.ShortRead
import Xv6.Pipe.Sleepers
import Xv6.Bio.Transparent
import Xv6.Fs.FileWrite
import Xv6.File.Appends
import Xv6.Fs.Namei
import Xv6.Fs.DirMap
import Xv6.Fs.Client
import Xv6.Console.LineDiscipline
import Xv6.Sh.Terminate
import Xv6.Umalloc.Sbrk
import Xv6.Vm.Copy
import Xv6.Kern.Break
import Xv6.Grep.Lines
import Xv6.Fs.ShortWrite
import Xv6.Mkfs.Agree
import Xv6.Memmove
import Xv6.Monitor.Sleeplock
import Xv6.Monitor.Uart
import Xv6.Printf.Integers
import Xv6.Fs.FreeMap
