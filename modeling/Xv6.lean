import Xv6.Buffer.Contents
import Xv6.Console.Input
import Xv6.Console.Output
import Xv6.Foundation.Allocation
import Xv6.Foundation.RedoLog
import Xv6.Fs.Budget
import Xv6.Fs.Paths
import Xv6.Fs.LockedOffset
import Xv6.Log.Group
import Xv6.Log.Region
import Xv6.Memmove
import Xv6.Pipe.Wakeup
import Xv6.Process.Forest
import Xv6.Process.Locks
import Xv6.Process.Sleeplock
import Xv6.User.Grep
import Xv6.User.Printf
import Xv6.Vm.Growth
