import Xv6.Sched.Moddi3
import Xv6.Sched.Exhaustion
import Xv6.Sched.Policies
import Xv6.Sched.Sequences
import Xv6.Proc.Lost
import Xv6.Proc.Zombies
import Xv6.Proc.Status
import Xv6.Proc.Killed
import Xv6.Proc.GetMin
import Xv6.Proc.SleepLock
import Xv6.Log.Space
import Xv6.Pipe.Sleepers
import Xv6.Console.Discipline
import Xv6.Fs.InodeRefs
import Xv6.Fs.Puts
import Xv6.Fs.LogSpace
import Xv6.Fs.Directory
import Xv6.Mkfs.Trusted
import Xv6.Sys.Copy
import Xv6.Sys.ExecImage
import Xv6.Sys.Failed
import Xv6.User.Sbrk
import Xv6.User.Parsecmd
import Xv6.User.PathSearch
import Xv6.User.Grep
import Xv6.User.Memmove
import Xv6.Boot.Mp
