import Quaxar.Snapshot.Commitment
import Quaxar.Views.DirectoryDelete
import Quaxar.Views.KeyletTypes
import Quaxar.Views.TxMetaCommit
import Quaxar.Protocol.STAmountWire
import Quaxar.SHAMap.ItemMap
import Quaxar.Nft.InsertToken
import Quaxar.TxQ.Runs
import Quaxar.Validators.Trust
import Quaxar.Validators.PendingLists
import Quaxar.Signing.BatchSign
import Quaxar.OpenLedger.ClearAhead
import Quaxar.Acquisition.AdmissionGate
import Quaxar.Nft.RepairPages
import Quaxar.OpenLedger.BatchFollowup
import Quaxar.Acquisition.NetworkFrontier
import Quaxar.Basics.NumberRound
import Quaxar.Basics.TaggedCache
import Quaxar.SHAMap.NodeCodec
