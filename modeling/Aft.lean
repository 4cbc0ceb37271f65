import Aft.Hashline.SnapshotSession
import Aft.Hashline.SplitAgreement
import Aft.Hashline.RegisterLocality
import Aft.Hashline.MoveFidelity
import Aft.Patch.RoundTrip
import Aft.Edit.Batch
import Aft.Executor.Arrivals
import Aft.Executor.Concurrency
import Aft.ColdBuild.Slots
import Aft.ColdBuild.Turns
import Aft.Executor.Settlement
import Aft.Executor.TokenRace
import Aft.Search.Compaction
import Aft.Access.Capability
import Aft.Access.Scopes
import Aft.Settings.Trust
import Aft.Views.Switch
import Aft.Gc.LiveData
import Aft.Calls.Consumer
import Aft.Remote.Delivery
import Aft.Push.Observation
import Aft.Push.Order
import Aft.Push.Wakes
import Aft.Watch.NoLoss
import Aft.Watch.Acknowledge
