import CellHive.CellStore.Gates
import CellHive.CellStore.Generation
import CellHive.CellStore.PagedSpec
import CellHive.Control.Classes
import CellHive.Control.Purges
import CellHive.D1.Migrations
import CellHive.D1.Screen
import CellHive.DoSupervisor.Gate
import CellHive.DoSupervisor.Hosts
import CellHive.Fencing.EpochCuts
import CellHive.Fencing.LateWrites
import CellHive.Kv.Expiry
import CellHive.Owner.EpochOrder
import CellHive.Owner.ReadGuard
import CellHive.Peer.Race
import CellHive.Peer.SessionRuns
import CellHive.Peer.Spool
import CellHive.ProxySQL.Origins
import CellHive.Queue.RunnerSpec
import CellHive.R2.Metadata
import CellHive.Recovery.SealedLog
import CellHive.Replica.FetchSpec
import CellHive.Replica.RetireSpec
import CellHive.Restore.PagingSpec
import CellHive.Server.BindingGate
import CellHive.Server.FleetSessionSpec
import CellHive.SqlCapture.Replay
import CellHive.StaticGen.Manager
import CellHive.Timer.IndexSpec
import CellHive.Timer.Registry
import CellHive.Upload.Batcher
import CellHive.Wal.Read
import CellHive.Workflow.Events
import CellHive.Workflow.Limit
import CellHive.Workflow.Runs
import CellHive.Workflow.WakesSpec
