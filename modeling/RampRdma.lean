import RampRdma.Server.ReadEnds
import RampRdma.Server.Exhaustion
import RampRdma.Server.Coherence
import RampRdma.Server.Serving
import RampRdma.Server.Interleaving
import RampRdma.Server.OneSided
import RampRdma.Server.Views
import RampRdma.Server.Versions
import RampRdma.Server.Slots
import RampRdma.Ramp.ReadAtomic
import RampRdma.Ramp.Partitions
import RampRdma.Ramp.Viewed
import RampRdma.Ramp.Visibility
import RampRdma.Ramp.Remote
import RampRdma.Ramp.Collision
import RampRdma.NoCC.Refinement
import RampRdma.Locking.Deadlock
import RampRdma.Locking.Snapshot
import RampRdma.Locking.Serial
import RampRdma.Locking.Balance
import RampRdma.Net.Framing
import RampRdma.Net.Sizes
import RampRdma.Net.Mailbox
import RampRdma.Net.Communicator
import RampRdma.Net.SendBufs
import RampRdma.Net.Delivery
import RampRdma.Ycsb.Visibility
import RampRdma.Ycsb.Commits
import RampRdma.Ycsb.Isolation
import RampRdma.Ycsb.Cache
import RampRdma.Client.Transactions
import RampRdma.Client.TrxQueue
import RampRdma.Client.Benchmark
import RampRdma.Util.Buffer
