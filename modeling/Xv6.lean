import Xv6.Share.Tickets
import Xv6.Group.Sbrk
import Xv6.Group.Handles
import Xv6.Group.Zombies
import Xv6.Sync.Mutex
import Xv6.Sync.Channel
import Xv6.Sync.Guard
import Xv6.Log.Crash
import Xv6.Sync.Accounts
import Xv6.Group.Ending
import Xv6.Group.Execed
import Xv6.Group.Failure
import Xv6.Group.Grow
import Xv6.Share.Split
import Xv6.Sync.PipeEnds
import Xv6.Bio.Store
import Xv6.Sys.Extent
import Xv6.Fs.LinkCount
import Xv6.Fs.Seek
import Xv6.Fs.Directory
import Xv6.Mlfq.Quantum
import Xv6.Mlfq.Priority
import Xv6.Share.Service
import Xv6.Group.FreeList
import Xv6.Exec.Safe
import Xv6.Log.Waiting
