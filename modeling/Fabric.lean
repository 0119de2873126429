import Fabric.Proof.Validation.MerkleOverflow
import Fabric.Proof.Validation.MerkleSummary
import Fabric.Proof.TxMgr.SelfValidation
import Fabric.Proof.TxMgr.Correspondence
import Fabric.Proof.TxMgr.CommitHashInput
import Fabric.Proof.Private.ExpirySchedule
import Fabric.Proof.Private.ReconciledColl
import Fabric.Proof.Private.HintTransparency
import Fabric.Proof.Configtx.Authorization
import Fabric.Proof.Policies.Conversion
import Fabric.Proof.Policies.Manager
import Fabric.Proof.PvtdataStore.Eligibility
import Fabric.Proof.Gossip.Delivery
import Fabric.Proof.Gossip.MessageStores
import Fabric.Proof.Gossip.LocalPvtdata
import Fabric.Proof.Gossip.Disclosure
import Fabric.Proof.Blkstorage.FailedAdd
import Fabric.Proof.Blkstorage.TxIDSnapshot
import Fabric.Proof.Committer.TxIDs
import Fabric.Proof.Committer.Endorsements
import Fabric.Proof.Lifecycle.Recomputation
import Fabric.Proof.Etcdraft.MembershipRuns
import Fabric.Proof.Etcdraft.Snapshots
import Fabric.Proof.Etcdraft.Agreement
import Fabric.Proof.Etcdraft.Ordering
import Fabric.Proof.Statecouchdb.CacheTransparency
import Fabric.Proof.Stateleveldb.Scans
import Fabric.Proof.SnapshotMgmt.Recovery
import Fabric.Proof.Ledger.CatchUp
import Fabric.Proof.Ledger.Heights
import Fabric.Proof.Etcdraft.RaftIndex
import Fabric.Proof.Etcdraft.RunLoop
import Fabric.Proof.Etcdraft.BlockCutter
import Fabric.Proof.Cluster.BlockPuller
import Fabric.Proof.Cluster.VerifyBlocks
import Fabric.Proof.Multichannel.LastConfig
