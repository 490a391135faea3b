import Mutiny.Lib.I64
import Mutiny.Lib.Except
import Mutiny.Lib.Pointwise
import Mutiny.Lib.SortedMap
import Mutiny.Lib.Text
import Mutiny.Lib.ZSet
import Mutiny.Lib.WeightMap
import Mutiny.Lib.Wrap
import Mutiny.Lib.Bytes
import Mutiny.Lib.Framed
import Mutiny.Lib.OrderedCode
import Mutiny.Lib.Walk
import Mutiny.Lib.Hex
import Mutiny.Lib.Ancestry
import Mutiny.Schweep.Value
import Mutiny.Schweep.Batch
import Mutiny.Schweep.Plan
import Mutiny.Schweep.TypeSound
import Mutiny.Schweep.Oracle
import Mutiny.Schweep.State
import Mutiny.Schweep.Ops
import Mutiny.Schweep.Circuit
import Mutiny.Schweep.Incremental
import Mutiny.Schweep.LinearSpec
import Mutiny.Schweep.JoinSpec
import Mutiny.Schweep.AggregateSpec
import Mutiny.Schweep.CircuitSpec
import Mutiny.Schweep.GroupValue
import Mutiny.Schweep.GroupMeaning
import Mutiny.Schweep.PlanMeaning
import Mutiny.Schweep.BuildSpec
import Mutiny.Schweep.OracleSpec
import Mutiny.Schweep.OracleGroup
import Mutiny.Schweep.OracleAnswer
import Mutiny.Schweep.Agreement
import Mutiny.Schweep.Batching
import Mutiny.Schweep.StepLaws
import Mutiny.Schweep.Render
import Mutiny.Schweep.Subscribe
import Mutiny.Schweep.LogRecord
import Mutiny.Schweep.Log
import Mutiny.Schweep.LogSpec
import Mutiny.Schweep.Admission
import Mutiny.Schweep.Codec
import Mutiny.Substrate.Manifest
import Mutiny.Substrate.Pager
import Mutiny.Substrate.PagerSpec
import Mutiny.Substrate.WalRecord
import Mutiny.Substrate.Wal
import Mutiny.Substrate.Durable
import Mutiny.Substrate.Replay
import Mutiny.Substrate.DurableSpec
import Mutiny.Substrate.DurableRun
import Mutiny.Substrate.Forks
import Mutiny.Substrate.ForksSpec
import Mutiny.Substrate.Tier
import Mutiny.Substrate.TierSpec
import Mutiny.Substrate.Encrypted
import Mutiny.Bridge.Capture
import Mutiny.Bridge.Apply
import Mutiny.Bridge.Outbox
import Mutiny.Bridge.CaptureSpec
import Mutiny.Bridge.OutboxSpec
import Mutiny.Bridge.ExactlyOnce
import Mutiny.Loom.Refs
import Mutiny.Loom.RefsSpec
import Mutiny.Loom.Record
import Mutiny.Loom.Tree
import Mutiny.Loom.TreeSpec
import Mutiny.Loom.Merge
import Mutiny.Loom.MergeSpec
import Mutiny.Loom.Provenance
import Mutiny.Loom.Session
import Mutiny.Loom.SessionSpec
import Mutiny.Loom.Counters
import Mutiny.Loom.Codec
import Mutiny.Loom.TreeMap
import Mutiny.Loom.Keys
import Mutiny.Loom.KeysSpec
import Mutiny.Loom.Taint
import Mutiny.Loom.Report
import Mutiny.Loom.TaintSpec
import Mutiny.Loom.History
import Mutiny.Loom.HistoryRun
import Mutiny.Loom.Index
import Mutiny.Loom.Run
import Mutiny.Loom.Keyspace
import Mutiny.Loom.Durability
import Mutiny.Loom.Lineage
import Mutiny.Loom.Survival
import Mutiny.Lib.Script
import Mutiny.Lib.Group
import Mutiny.Prism.Event
import Mutiny.Prism.Identity
import Mutiny.Prism.Part
import Mutiny.Prism.Catalog
import Mutiny.Prism.CatalogSpec
import Mutiny.Prism.Lease
import Mutiny.Prism.Engine
import Mutiny.Prism.Scheduling
import Mutiny.Prism.Lifecycle
import Mutiny.Prism.EngineSpec
import Mutiny.Prism.RewriteSpec
import Mutiny.Prism.MergeSpec
import Mutiny.Prism.Conservation
import Mutiny.Prism.Rotation
