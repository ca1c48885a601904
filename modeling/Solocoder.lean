import Solocoder.Raft.Proofs.JointProofs
import Solocoder.Raft.Proofs.ConflictProofs
import Solocoder.Raft.Proofs.SafetyProofs
import Solocoder.BPlusTree.Proofs.StructureProofs
import Solocoder.LSM.Proofs.ReadProofs
import Solocoder.LSM.Proofs.FlushProofs
import Solocoder.WAL.Proofs.TornProofs
import Solocoder.DiffPatch.Proofs.UnifiedProofs
import Solocoder.DiffPatch.Proofs.MergeProofs
import Solocoder.ShardKV.Proofs.FailureProofs
import Solocoder.ShardKV.Proofs.QuorumProofs
import Solocoder.ChainHash.Proofs.ReportProofs
import Solocoder.ColStore.Proofs.DictionaryProofs
import Solocoder.Snowflake.Proofs.IdProofs
import Solocoder.Orchestration.Proofs.ProgressProofs
import Solocoder.KeyValue.Proofs.FilterProofs
import Solocoder.Audit.Proofs.FalseAlarmProofs
import Solocoder.SkipList.Proofs.RangeProofs
import Solocoder.DistLock.Proofs.ExclusionProofs
import Solocoder.Cron.Proofs.NextProofs
import Solocoder.Serialize.Proofs.ProtoBufTotalProofs
import Solocoder.SchemaMig.Proofs.LockProofs
import Solocoder.CacheSync.Proofs.CacheProofs
import Solocoder.StreamProc.Proofs.BackpressureProofs
import Solocoder.TieredCache.Proofs.CapacityProofs
import Solocoder.TieredCache.Proofs.FileNameProofs
import Solocoder.TieredCache.Proofs.PutProofs
import Solocoder.HttpLb.Proofs.FairnessProofs
import Solocoder.DataDedup.Proofs.DedupProofs
import Solocoder.SchemaMig.Proofs.MigratorProofs
import Solocoder.Tsdb.Proofs.QueryProofs
import Solocoder.StreamProc.Proofs.WindowProofs
import Solocoder.Templater.Proofs.InheritanceProofs
import Solocoder.Dns.Proofs.CacheProofs
import Solocoder.Suggest.Proofs.EditDistanceProofs
