import Hpux910.Lib.Lts
import Hpux910.Lib.Ranges
import Hpux910.Lib.Chase
import Hpux910.Lib.Sparse
import Hpux910.Ufs.Locklist
import Hpux910.Ufs.LockEdit
import Hpux910.Ufs.InsertLock
import Hpux910.Ufs.DeleteLock
import Hpux910.Ufs.LockMap
import Hpux910.Ufs.LockSys
import Hpux910.Ufs.LockRefs
import Hpux910.Ufs.LostWakeup
import Hpux910.Ufs.Deadlock
import Hpux910.Sys.SysVMap
import Hpux910.Sys.SysVIpc
import Hpux910.Sys.SemUndo
import Hpux910.Sys.SysVSem
import Hpux910.Sys.SemopAtomic
import Hpux910.Sys.SemSets
import Hpux910.Sys.SemLedger
import Hpux910.Sys.SubrRmap
import Hpux910.Sys.RmapRuns
import Hpux910.Lib.DeltaQueue
import Hpux910.Sys.KernClock
import Hpux910.Sys.CalloutRuns
import Hpux910.Lib.SlotTable
import Hpux910.Dux.Sitemap
import Hpux910.Dux.SitemapRuns
import Hpux910.Dux.DoubleCount
import Hpux910.Lib.LruCache
import Hpux910.Sys.VfsDnlc
import Hpux910.Sys.DnlcRuns
import Hpux910.Sys.SemWakeup
import Hpux910.Lib.Census
import Hpux910.Dux.Multisite
import Hpux910.Lib.LinkedQueue
import Hpux910.Dux.Window
import Hpux910.Lib.Pending
import Hpux910.Dux.WindowInv
import Hpux910.Dux.WindowRuns
import Hpux910.Sys.SwapReserve
import Hpux910.Sys.SwapMap
import Hpux910.Sys.SwapRuns
import Hpux910.Lib.Ring
import Hpux910.Sys.SemBeta
import Hpux910.Sys.MsemRuns
import Hpux910.Lib.FreeList
import Hpux910.Sys.KernMalloRuns
import Hpux910.Lib.RefTally
import Hpux910.Ufs.DirLink
import Hpux910.Ufs.DirLinkCount
import Hpux910.Ufs.DirLinkRuns
import Hpux910.Lib.Forest
import Hpux910.Lib.WaitGraph
import Hpux910.Ufs.DirRename
import Hpux910.Ufs.DirRenameInv
import Hpux910.Ufs.DirRenameRuns
import Hpux910.Ufs.Acl
import Hpux910.Ufs.AclOrder
import Hpux910.Ufs.AclRuns
import Hpux910.Dux.FixedRmap
import Hpux910.Lib.Segments
import Hpux910.Net.Mbuf
import Hpux910.Net.MbufBytes
import Hpux910.Net.MbufCopy
import Hpux910.Net.MbufCut
import Hpux910.Net.IpReass
import Hpux910.Net.IpReassMem
import Hpux910.Net.IpReassData
import Hpux910.Net.TcpReass
import Hpux910.Net.TcpReassRuns
import Hpux910.Lib.Stream
import Hpux910.Net.MbufHeap
import Hpux910.Net.MbufHeapInv
import Hpux910.Net.MbufHeapRuns
import Hpux910.Dux.DuxGetpid
import Hpux910.Dux.DuxGetpidRuns
import Hpux910.Net.UnpStream
import Hpux910.Cmd.Unpack
import Hpux910.Cmd.UnpackRuns
import Hpux910.Dux.NetBuf
import Hpux910.Dux.NetBufRuns
import Hpux910.Dux.PidChunk
import Hpux910.Lib.FreeRuns
import Hpux910.Lib.KeyTree
import Hpux910.Lib.TwoHands
import Hpux910.Net.IpOptions
import Hpux910.Net.SockBufRuns
import Hpux910.Net.UnpConn
import Hpux910.Net.UnpConnRuns
import Hpux910.Net.UnpGc
import Hpux910.Net.UnpRightsRuns
import Hpux910.Sys.Hzto
import Hpux910.Sys.KernSynch
import Hpux910.Sys.KernSynchRuns
import Hpux910.Sys.KfreeUnused
import Hpux910.Sys.MlockPreg
import Hpux910.Sys.MlockPregRuns
import Hpux910.Sys.MsemGraph
import Hpux910.Sys.SysVMsg
import Hpux910.Sys.SysVShm
import Hpux910.Sys.SysVShmRuns
import Hpux910.Sys.VfdGrow
import Hpux910.Sys.VhandRuns
import Hpux910.Ufs.BlkAlloc
import Hpux910.Ufs.DirRenameFail
import Hpux910.Ufs.DiskSort
import Hpux910.Ufs.DiskSortRuns
import Hpux910.Ufs.LockRange
import Hpux910.Ufs.LockSync
import Hpux910.Ufs.QuotaCache
import Hpux910.Ufs.QuotaCacheInv
import Hpux910.Ufs.QuotaCacheRuns
import Hpux910.Cmd.Uuencode
import Hpux910.Sys.DupVas
import Hpux910.Sys.IpcSlots
import Hpux910.Sys.VfdBound
import Hpux910.Sys.VfsLookup
import Hpux910.Sys.VfsLookupRuns
import Hpux910.Ufs.LockLife
