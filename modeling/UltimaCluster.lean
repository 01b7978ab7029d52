/-
  A model of the consensus core of ultima_cluster, and what holds of its runs.
-/
import UltimaCluster.Validated
import UltimaCluster.CommitValidation
import UltimaCluster.Membership
import UltimaCluster.SelfRemoval
import UltimaCluster.RetentionLaw
import UltimaCluster.ReadIndex
import UltimaCluster.JournalDurable
import UltimaCluster.SessionSurvival
import UltimaCluster.BroadcastOrder
import UltimaCluster.MpscOnce
import UltimaCluster.ReplayExact
import UltimaCluster.WrapperRebuild
import UltimaCluster.TimerAnnounce
import UltimaCluster.KeyOverlap
import UltimaCluster.ClientOnce
import UltimaCluster.TailHoles
import UltimaCluster.ServiceArtifacts
import UltimaCluster.ServiceVersions
import UltimaCluster.GateDiscipline
import UltimaCluster.RebuildRefines
import UltimaCluster.ReceiveSafe
import UltimaCluster.RemoteRedial
import UltimaCluster.RemoteOnce
import UltimaCluster.GatewayPrefix
import UltimaCluster.OutputDelivery
import UltimaCluster.RingProgress
import UltimaCluster.StableValue
import UltimaCluster.ArchiveRefines
import UltimaCluster.BackupHistory
import UltimaCluster.KernelViewAgree
import UltimaCluster.AdminRequests
import UltimaCluster.ClusterAgentExact
import UltimaCluster.LincheckExact
import UltimaCluster.PathProbe
import UltimaCluster.LogClock
import UltimaCluster.Pacing
import UltimaCluster.Schedule
import UltimaCluster.TierChain
import UltimaCluster.Ids
