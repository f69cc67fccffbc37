import Xv6.Cafe.WaitTime
import Xv6.Cafe.Wasted
import Xv6.Fileread
import Xv6.Fs.Exhaustion
import Xv6.Fs.Reservation
import Xv6.Fs.View
import Xv6.Inodes.Directory
import Xv6.Inodes.FailedCopy
import Xv6.Inodes.SharedFile
import Xv6.Inodes.Views
import Xv6.Ipc.Fifo
import Xv6.Ipc.Uart
import Xv6.Memmove
import Xv6.Names.Dangling
import Xv6.Names.FailedCalls
import Xv6.Names.InodeTable
import Xv6.Names.Orphans
import Xv6.Names.Paths
import Xv6.Radix.FiniteMap
import Xv6.Rights
import Xv6.Sbrk
import Xv6.Sched.Accounting
import Xv6.Sched.Kill
import Xv6.Sched.Locks
import Xv6.Sched.Pids
import Xv6.Sched.Selection
import Xv6.Sched.Setpriority
import Xv6.Sync.LostWakeup
import Xv6.Sync.PushOff
import Xv6.Sync.ReadCount
import Xv6.SysExec
import Xv6.User.Grep
import Xv6.Usertrap
import Xv6.Virtio.Requests
import Xv6.Waitx
