import BpfCapsule.Pool.Tokens
import BpfCapsule.Pool.Acquire
import BpfCapsule.Exit.Terminal
import BpfCapsule.Ir.Sret
import BpfCapsule.Stackify.Confinement
import BpfCapsule.Stackify.LivePaths
import BpfCapsule.Drive.Budget
import BpfCapsule.Plan.Replan
import BpfCapsule.Plan.Reservation
import BpfCapsule.Memory.ArenaInit
import BpfCapsule.Budget.Sound
import BpfCapsule.Memory.Confined
import BpfCapsule.Domains.Separation
import BpfCapsule.Stackify.Longjmp
import BpfCapsule.Allocator.Locked
import BpfCapsule.Allocator.HostDriver
import BpfCapsule.Stackify.Partition
import BpfCapsule.Stackify.NoSuspend
import BpfCapsule.Stackify.ChunkGrowth
import BpfCapsule.Stackify.GuardRuns
import BpfCapsule.SoftFloat.Classify
import BpfCapsule.FiberLocal
import BpfCapsule.Atomics.Linearizable
import BpfCapsule.Flatten.Finalize
import BpfCapsule.ExpandMem
import BpfCapsule.LowerSDiv
import BpfCapsule.Stackify.FrameChain
import BpfCapsule.Archives
