import Flotilla.Raft.Proposals
import Flotilla.Raft.Mirror
import Flotilla.Raft.ReadIndex
import Flotilla.Txn.Atomicity
import Flotilla.Txn.SnapshotReads
import Flotilla.Txn.Resolution
import Flotilla.Txn.Refinement
import Flotilla.Server.CatchUp
import Flotilla.Server.SplitCrash
import Flotilla.Server.SplitAgreement
import Flotilla.Server.SplitReads
import Flotilla.Client.Retries
import Flotilla.Chaos.CheckerCorrect
import Flotilla.Storage.WriteErrors
import Flotilla.Raft.AppendableLog
import Flotilla.Server.Completions
import Flotilla.Client.TxnScans
import Flotilla.Server.GroupSnapshots
import Flotilla.Storage.ReadErrors
import Flotilla.Raft.LogRepair
import Flotilla.Storage.Quiescence
import Flotilla.Storage.BitErrors
import Flotilla.Sql.Literals
import Flotilla.Sql.Grammar
import Flotilla.Storage.Skiplist
import Flotilla.Net.Wire
import Flotilla.Storage.Manifest
