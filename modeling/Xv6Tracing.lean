import Xv6Tracing.Ktrace.LossReport
import Xv6Tracing.Process.KillLive
import Xv6Tracing.Process.Reaping
import Xv6Tracing.Log.Admission
import Xv6Tracing.Fs.Dangling
import Xv6Tracing.Fs.LinkCount
import Xv6Tracing.Fs.Icache
import Xv6Tracing.Bio.Transparency
import Xv6Tracing.Pipe.Fifo
import Xv6Tracing.Pipe.Stranded
import Xv6Tracing.Console.Stream
import Xv6Tracing.File.Balance
import Xv6Tracing.Volume.Agreement
import Xv6Tracing.Volume.ImageOk
import Xv6Tracing.Sched.Wakeups
import Xv6Tracing.Volume.LogBudget
import Xv6Tracing.Exec.Image
import Xv6Tracing.Ide.Protocol
import Xv6Tracing.Shell.Completion
import Xv6Tracing.Grep.Match
import Xv6Tracing.Bio.Sleeplock
import Xv6Tracing.User.Memmove
import Xv6Tracing.User.Numbers
import Xv6Tracing.Trace.Dashboard
import Xv6Tracing.Log.Durability
