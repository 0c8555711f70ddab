import SunOS.Diff.DiffregSpec
import SunOS.Ipc.MsgRuns
import SunOS.Ipc.SemWakeups
import SunOS.Kern.CalloutRuns
import SunOS.Kern.HeapKmemIntrRuns
import SunOS.Kern.HeapKmemRuns
import SunOS.Kern.HeapTree
import SunOS.Kern.MbufMove
import SunOS.Kern.RmapSwap
import SunOS.Kern.SoreceiveRuns
import SunOS.Kern.TtySubrCatq
import SunOS.Kern.TtySubrUnputc
import SunOS.Kern.UipcChains
import SunOS.Kern.VuidMeaning
import SunOS.Libc.Memalign
import SunOS.Libc.Qsort
import SunOS.Libc.Random
import SunOS.Libmp.Text
import SunOS.Lockd.MsgRuns
import SunOS.Lockd.ReclockRuns
import SunOS.Ndbm.NoRoom
import SunOS.Netinet.IpForward
import SunOS.Netinet.IpOptionsRuns
import SunOS.Netinet.IpReassHanded
import SunOS.Netinet.TcpOob
import SunOS.Netinet.TcpReassRuns
import SunOS.Netinet.TcpTrim
import SunOS.Nfs.Readdir
import SunOS.Nfs.References
import SunOS.Rpc.XdrMbufMem
import SunOS.Rpc.XdrRecPos
import SunOS.Rpc.XdrStorage
import SunOS.Suntool.FingerTable
import SunOS.Sunwindow.ClippingPartition
import SunOS.Sunwindow.WintreeRuns
import SunOS.Ufs.BmapSpec
import SunOS.Ufs.HashSweep
import SunOS.Ufs.Mapsearch
import SunOS.Unp.Collect
import SunOS.Vfs.DnlcRuns
