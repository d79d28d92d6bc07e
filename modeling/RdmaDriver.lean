import RdmaDriver.Basic
import RdmaDriver.Schemes.Run
import RdmaDriver.Schemes.Trail
import RdmaDriver.Schemes.SearchTree
import RdmaDriver.Schemes.Segments
import RdmaDriver.Schemes.PageVec
import RdmaDriver.Schemes.Splice
import RdmaDriver.Schemes.Ring
import RdmaDriver.Schemes.RingWindow
import RdmaDriver.Schemes.Dyadic
import RdmaDriver.Schemes.OrderedTree
import RdmaDriver.Schemes.SortedInsert
import RdmaDriver.Schemes.Tally
import RdmaDriver.Schemes.Tiles
import RdmaDriver.Schemes.Compaction
import RdmaDriver.Xprt.PostRecvs
import RdmaDriver.Core.UdHeader
import RdmaDriver.Core.Umem
import RdmaDriver.Core.SgToPages
import RdmaDriver.Core.SgReport
import RdmaDriver.Core.Smi
import RdmaDriver.Core.RmppRecv
import RdmaDriver.Core.RmppSend
import RdmaDriver.Core.RmppLink
import RdmaDriver.Core.GidTable
import RdmaDriver.Core.Packer
import RdmaDriver.Core.QpCounter
import RdmaDriver.Core.RdmaRw
import RdmaDriver.Mlx5.ReadWqe
import RdmaDriver.Mlx5.SqEdge
import RdmaDriver.Mlx5.Srq
import RdmaDriver.Mlx5.CqRing
import RdmaDriver.Mlx5.CqClean
import RdmaDriver.Mlx5.CqResize
import RdmaDriver.Mlx5.Wq
import RdmaDriver.Mlx5.PollCq
import RdmaDriver.Mlx5.QuantPgoff
import RdmaDriver.Mlx5.RateTable
import RdmaDriver.Mlx5.UmrRecovery
import RdmaDriver.Mlx5.Mailbox
import RdmaDriver.Mlx5.MemoryFault
import RdmaDriver.Mlx5.MkeyCache
import RdmaDriver.Mlx5.MkeyPages
import RdmaDriver.Mlx5.MkeyTree
import RdmaDriver.Mlx5.PiMap
import RdmaDriver.Mlx5.DekPool
import RdmaDriver.Mlx5.DeviceMem
import RdmaDriver.Mlx5.Doorbell
import RdmaDriver.Mlx5.EswQos
import RdmaDriver.Mlx5.Gsi
import RdmaDriver.Mlx5.IrqPool
import RdmaDriver.Mlx5.UserBfregs
import RdmaDriver.Mlx5.PageAlloc
import RdmaDriver.Mlx5.UpdateXlt
import RdmaDriver.Mlx5.UmrWqe
import RdmaDriver.Mlx5.UpdatePas
import RdmaDriver.Mlx5.XltRequests
import RdmaDriver.Mlx5.OdpMr
import RdmaDriver.Mlx5.HtbTree
import RdmaDriver.Mlx5.ImplicitMr
import RdmaDriver.Steering.Buddy
import RdmaDriver.Steering.HtblWrite
import RdmaDriver.Steering.IcmPool
import RdmaDriver.Steering.PtrnCache
import RdmaDriver.Steering.SendRing
import RdmaDriver.Steering.MatcherChain
import RdmaDriver.Flow.Chains
import RdmaDriver.Flow.ChainRefs
import RdmaDriver.Schemes.Meter
import RdmaDriver.Flow.FcPool
import RdmaDriver.Flow.FcStats
import RdmaDriver.Flow.AutoGroups
import RdmaDriver.Flow.Fte
import RdmaDriver.Flow.Chaining
import RdmaDriver.Xprt.Xdr
import RdmaDriver.Xprt.DecodeReq
import RdmaDriver.Xprt.SendQueue
import RdmaDriver.Xprt.ReadList
import RdmaDriver.Xprt.SendCtx
import RdmaDriver.Schemes.LapRing
import RdmaDriver.Schemes.BeBits
import RdmaDriver.Schemes.BitExtents
import RdmaDriver.Schemes.ByteMem
import RdmaDriver.Vfio.DeviceState
import RdmaDriver.Vfio.Tracker
import RdmaDriver.Vfio.MigBuf
import RdmaDriver.Vfio.SaveFile
import RdmaDriver.Vfio.SavePipe
import RdmaDriver.Schemes.RefCount
import RdmaDriver.Core.AvRefs
import RdmaDriver.Schemes.LeastOut
import RdmaDriver.Vfio.TrackRanges
