import Cuw3.Base.Equiv.Funcs
import Cuw3.Region.Specs
import Cuw3.Lib.Tiling
import Cuw3.Region.Equiv.Layout
import Cuw3.Arena.FastArena
import Cuw3.Arena.Equiv.RetireWord
import Cuw3.Arena.Equiv.Law
import Cuw3.Arena.Equiv.RetireReclaim
import Cuw3.Lib.Linked
import Cuw3.Lib.Slots
import Cuw3.Arena.Allocator
import Cuw3.Small.FastArenaSmallAllocator
import Cuw3.Arena.Equiv.Allocator
import Cuw3.Arena.Equiv.Runs
import Cuw3.Small.Equiv.Bins
import Cuw3.StepSplit.Bitmap
import Cuw3.StepSplit.Equiv.Bitmap
import Cuw3.StepSplit.FastArenaStepSplitAllocator
import Cuw3.StepSplit.Equiv.Bins
import Cuw3.Region.Pools
import Cuw3.Region.Equiv.Pools
import Cuw3.Allocator.ThreadLocalAllocator
import Cuw3.Allocator.Allocator
import Cuw3.Allocator.Graveyard
import Cuw3.Allocator.Equiv.Chunks
import Cuw3.Allocator.Equiv.Blocks
import Cuw3.Allocator.Equiv.Runs
import Cuw3.Allocator.Equiv.Graveyard
import Cuw3.Allocator.Equiv.Processes
import Cuw3.Allocator.Equiv.Usage
import Cuw3.Allocator.Equiv.Commits
import Cuw3.Allocator.Equiv.Frees
import Cuw3.Allocator.Equiv.Reclaim
import Cuw3.Lib.Threads
import Cuw3.Lib.Stride
import Cuw3.Lib.Blocks
import Cuw3.Region.AtomicSteps
import Cuw3.Region.Equiv.Custody
import Cuw3.Region.Equiv.AtomicSteps
import Cuw3.Region.Equiv.Runs
import Cuw3.Allocator.Equiv.Demand
import Cuw3.Allocator.Equiv.Leaks
import Cuw3.Lib.Scale
import Cuw3.StepSplit.Equiv.Location
import Cuw3.Arena.Equiv.BinsRuns
import Cuw3.StepSplit.Equiv.Acquire
import Cuw3.Allocator.Equiv.Sizes
import Cuw3.Allocator.Config
import Cuw3.Allocator.Equiv.Configured
import Cuw3.Allocator.Equiv.Answers
import Cuw3.Lib.Skips
import Cuw3.Graveyard.PushSnatchList
import Cuw3.Graveyard.Equiv.PushSnatchList
import Cuw3.Arena.AtomicSteps
import Cuw3.Lib.Places
import Cuw3.Arena.Equiv.Sequences
import Cuw3.Arena.Equiv.Validation
import Cuw3.Atomic.BumpStack
import Cuw3.Atomic.Equiv.BumpStack
import Cuw3.Atomic.ListView
import Cuw3.Atomic.Equiv.ListView
import Cuw3.Lib.Rank
import Cuw3.Atomic.Equiv.Attempts
import Cuw3.Lib.Fuel
import Cuw3.Graveyard.ListFunctions
import Cuw3.Graveyard.Equiv.ListFunctions
import Cuw3.Graveyard.Equiv.FailedPush
import Cuw3.StepSplit.BitmapQueries
import Cuw3.StepSplit.Equiv.Words
import Cuw3.StepSplit.Equiv.BitmapQueries
import Cuw3.Base.Vmem
import Cuw3.Base.Equiv.Vmem
import Cuw3.Lib.Rings
import Cuw3.Base.List
import Cuw3.Base.Equiv.List
import Cuw3.Arena.Equiv.Queues
import Cuw3.Arena.Equiv.AtomicSteps
import Cuw3.StepSplit.Equiv.AtomicSteps
import Cuw3.Lib.TransitionSystem
import Cuw3.Lib.BlockStore
import Cuw3.Allocator.Api
import Cuw3.Allocator.Equiv.Api
import Cuw3.Allocator.Equiv.Returns
import Cuw3.Allocator.Equiv.Effects
import Cuw3.Allocator.Equiv.Conservation
import Cuw3.Small.Equiv.AtomicSteps
import Cuw3.Arena.Equiv.Balance
import Cuw3.Arena.Equiv.Progress
import Cuw3.Allocator.Equiv.Retires
import Cuw3.Lib.Overlay
import Cuw3.Base.Equiv.Mappings
import Cuw3.Allocator.Create
import Cuw3.Allocator.Equiv.Create
import Cuw3.Allocator.Runtime
import Cuw3.Allocator.Equiv.Runtime
import Cuw3.Region.Equiv.Progress
import Cuw3.Region.Equiv.Emptiness
import Cuw3.Small.Equiv.Acquire
import Cuw3.Graveyard.Equiv.Returns
