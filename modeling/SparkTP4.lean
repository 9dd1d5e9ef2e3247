import SparkTP4.SwaCone
import SparkTP4.CertHead
import SparkTP4.PackEngram
import SparkTP4.PackHistory
import SparkTP4.BlockVerifyLaw
import SparkTP4.PrefillSpExact
import SparkTP4.CollectiveStreamsOrder
import SparkTP4.RoceTransportSafe
import SparkTP4.TwoshotReduce
import SparkTP4.PoisonGuardSafe
import SparkTP4.IdleParkHooks
import SparkTP4.IdleParkSafe
import SparkTP4.PoolSafe
import SparkTP4.EngramPrefetchSafe
import SparkTP4.PrefillSoloSafe
import SparkTP4.DecodeYield
import SparkTP4.HeapTrim
import SparkTP4.HeapTrimSafe
import SparkTP4.AutotuneKeep
import SparkTP4.AutotuneKeepSafe
import SparkTP4.CopyPacing
import SparkTP4.CopyPacingSafe
import SparkTP4.FastLoad
import SparkTP4.FastLoadSlice
import SparkTP4.IndexerSplit
import SparkTP4.IndexerSplitExact
import SparkTP4.KvGroup
import SparkTP4.KvGroupSound
import SparkTP4.Memo
import SparkTP4.MoeLaunch
import SparkTP4.MoeLaunchSafe
import SparkTP4.ReplicatedSplit
import SparkTP4.ReplicatedSplitExact
import SparkTP4.AllGather
import SparkTP4.AllGatherColumns
import SparkTP4.BlockVerifyFold
import SparkTP4.BlockVerifyFoldExact
import SparkTP4.LiveLength
import SparkTP4.LiveLengthAgree
import SparkTP4.PoisonGuardArrivals
import SparkTP4.RoceLayoutExact
import SparkTP4.RoceLayoutPosts
import SparkTP4.RoceLayoutSafe
import SparkTP4.RowCopy
import SparkTP4.StageSkip
import SparkTP4.StageSkipExact
import SparkTP4.SwaConePlan
import SparkTP4.SwaConePlanSafe
import SparkTP4.TwinRegistry
import SparkTP4.TwinRegistrySound
import SparkTP4.CycleWalk
import SparkTP4.DoublyLinked
import SparkTP4.EpRemap
import SparkTP4.EpRemapExact
import SparkTP4.IndexTensor
import SparkTP4.LaneCopy
import SparkTP4.MoeCapacities
import SparkTP4.MoeCapacitiesSound
import SparkTP4.RingMesh
import SparkTP4.RingMeshSound
import SparkTP4.SwaConeCopy
import SparkTP4.SwaConeFrame
import SparkTP4.SwaThin
import SparkTP4.SwaThinExact
import SparkTP4.TpPad
import SparkTP4.TpPadExact
import SparkTP4.VerifyCap
import SparkTP4.VerifyCapExact
import SparkTP4.BinaryFormat
import SparkTP4.LoopAbort
import SparkTP4.LoopAbortExact
import SparkTP4.SharedBuffer
import SparkTP4.SlabLayout
import SparkTP4.SlabLayoutExact
import SparkTP4.V4Rounding
import SparkTP4.V4TranscodeExact
import SparkTP4.CertBounds
import SparkTP4.CertBoundsRounding
import SparkTP4.CertBoundsSound
import SparkTP4.FetchAhead
import SparkTP4.HcFused
import SparkTP4.HcFusedExact
import SparkTP4.L2Prefetch
import SparkTP4.L2PrefetchExact
import SparkTP4.SlotIds
import SparkTP4.FloatDatum
import SparkTP4.PaddedScales
import SparkTP4.PaddedScalesExact
import SparkTP4.WoAInput
import SparkTP4.WoAInputExact
import SparkTP4.WoATwin
import SparkTP4.WoATwinExact
import SparkTP4.FallibleLoop
import SparkTP4.RingPaths
import SparkTP4.RingPathsAdmit
import SparkTP4.RingPathsExact
import SparkTP4.RingArrivals
import SparkTP4.RingArrivalsLaunch
import SparkTP4.RingArrivalsSafe
import SparkTP4.RingPosts
import SparkTP4.RingPostsExact
import SparkTP4.RingTransport
import SparkTP4.RingTransportInv
import SparkTP4.RingTransportNet
import SparkTP4.RingTransportSafe
import SparkTP4.RingTransportWaves
import SparkTP4.BlockVerifyExecute
import SparkTP4.BlockVerifyGenerate
