import Prysm.Validator.AttesterSafety
import Prysm.Validator.BatchedWrites
import Prysm.Validator.MinimalSafety
import Prysm.Slasher.SurroundVotes
import Prysm.Slasher.Genuine
import Prysm.Slasher.AttestationRecords
import Prysm.DoublyLinkedTree.Optimistic
import Prysm.DoublyLinkedTree.EpochTick
import Prysm.DoublyLinkedTree.FailedInsert
import Prysm.DoublyLinkedTree.Ancestry
import Prysm.DoublyLinkedTree.PullTips
import Prysm.StateNative.ValidatorMap
import Prysm.StateNative.Independence
import Prysm.Helpers.Committees
import Prysm.PeerDas.Custody
import Prysm.Core.ExitQueue
import Prysm.Core.Stake
import Prysm.Core.Withdrawals
import Prysm.DepositSnapshot.Pruning
import Prysm.Aggregation.Soundness
import Prysm.Kv.Migration
import Prysm.Kv.BackfillRuns
import Prysm.Kv.BlockQueries
import Prysm.Sync.ForkWatcher
import Prysm.Sync.OldBlocks
import Prysm.LightClient
