import CosmoRT.Ipc.PipeFifo
import CosmoRT.Sys.LockWait
import CosmoRT.Mm.Buddy
import CosmoRT.Mm.PageCache
import CosmoRT.Event.EdgeTriggered
import CosmoRT.Proc.JobControl
import CosmoRT.Ipc.RobustFutex
import CosmoRT.Proc.SigStack
import CosmoRT.Proc.KillGroup
import CosmoRT.Net.UnixStream
import CosmoRT.Net.TcpListen
import CosmoRT.Net.Tcp6
import CosmoRT.Net.TcpTransmit
import CosmoRT.Net.TcpReceive
import CosmoRT.Fs.Ext4Bytes
import CosmoRT.Sys.Chroot
import CosmoRT.Fs.BcacheStore
import CosmoRT.Fs.TmpfsBytes
import CosmoRT.Vfs.WriteCount
import CosmoRT.Vfs.Mounts
import CosmoRT.Sys.Credentials
import CosmoRT.Ipc.PiFutex
import CosmoRT.Core.WaitQueue
import CosmoRT.Ipc.FutexWait
import CosmoRT.Core.RunQueue
import CosmoRT.Core.Rcu
import CosmoRT.Core.TimerWheel
import CosmoRT.Ipc.FutexBuckets
import CosmoRT.Sys.Clock
import CosmoRT.Sys.Vdso
import CosmoRT.Proc.Scripts
import CosmoRT.Sys.LockApart
