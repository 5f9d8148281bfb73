import Onlyio.Lib.Hoare
import Onlyio.Lib.Chain
import Onlyio.Lib.History
import Onlyio.Lib.Replay
import Onlyio.Lib.Custody
import Onlyio.Lib.Guard
import Onlyio.Model.Number
import Onlyio.Model.Fault
import Onlyio.Model.Slab
import Onlyio.Model.BufPool
import Onlyio.Model.State
import Onlyio.Model.Runtime
import Onlyio.Model.Calls
import Onlyio.Model.Exec
import Onlyio.Model.Await
import Onlyio.Model.Waker
import Onlyio.Storage.SlabMap
import Onlyio.Storage.WritePool
import Onlyio.Storage.WriteSubmit
import Onlyio.Storage.ReadRing
import Onlyio.Machine.Core
import Onlyio.Machine.Step
import Onlyio.Machine.Effect
import Onlyio.Machine.Account
import Onlyio.Machine.Invariant
import Onlyio.Machine.Stack
import Onlyio.Machine.Silent
import Onlyio.Machine.Sends
import Onlyio.Machine.Polls
import Onlyio.Machine.Blocks
import Onlyio.Machine.Release
import Onlyio.Machine.Simulate
import Onlyio.Machine.View
import Onlyio.Machine.Local
import Onlyio.Machine.Lone
import Onlyio.Machine.Custody
import Onlyio.Machine.Ledger
import Onlyio.Machine.Holdings
import Onlyio.Machine.Guard
import Onlyio.Machine.Intact
import Onlyio.Runs.Accounts
import Onlyio.Runs.Numbers
import Onlyio.Runs.Finished
import Onlyio.Runs.SingleShot
import Onlyio.Runs.CrossTalk
import Onlyio.Runs.FanOut
import Onlyio.Runs.FanResults
import Onlyio.Runs.Internal
import Onlyio.Runs.Agreement
import Onlyio.Runs.Cancelled
import Onlyio.Runs.Buffers
import Onlyio.Runs.Memory
import Onlyio.Runs.ReadBuffers
import Onlyio.Runs.Abandoned
import Onlyio.Model.Thread
import Onlyio.Runs.BlockOn
import Onlyio.Runs.Teardown
import Onlyio.Runs.RefCount
import Onlyio.Storage.RingRun
import Onlyio.Runs.StreamEnd
import Onlyio.Runs.StreamLoop
import Onlyio.Runs.FixedWrites
import Onlyio.Storage.SlabGrowth
import Onlyio.Runs.Exchange
import Onlyio.Runs.Connect
import Onlyio.Machine.Leaves
import Onlyio.Machine.Within
import Onlyio.Machine.Wakes
import Onlyio.Machine.Isolate
import Onlyio.Machine.Lent
import Onlyio.Machine.WakeRuns
import Onlyio.Machine.WakeViews
import Onlyio.Machine.Traffic
import Onlyio.Runs.WakerDrops
import Onlyio.Runs.Wakers
import Onlyio.Runs.WakeContext
import Onlyio.Runs.Isolation
import Onlyio.Runs.Submits
import Onlyio.Runs.Causality
import Onlyio.Runs.LifeCycle
import Onlyio.Runs.Delivery
import Onlyio.Runs.NestedSpawn
import Onlyio.Runs.FanBuffers
