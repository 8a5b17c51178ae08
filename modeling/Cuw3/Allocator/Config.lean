/-
  `cuw3.cpp`: the configurations of the allocator and of the thread-local allocators.
-/
import Cuw3.Allocator.ThreadLocalAllocator

namespace Cuw3

/-! ### The constants of `conf.hpp` that they use -/

def confRegionSizesLog2 : List Nat := [36, 36, 36, 36, 36, 36]

def confRegionChunkSizesLog2 : List Nat := [21, 22, 23, 24, 25, 26]

def confMinRegionChunkSizeLog2 : Nat := 21

def confMaxRegionChunkSizeLog2 : Nat := 26

def confMinRegionChunkSize : Nat := 2 ^ confMinRegionChunkSizeLog2

def confMaxAlignmentLog2 : Nat := 12

def confRegionHandleSize : Nat := confControlBlockSize

def confSizeCutoff : Nat := 2 ^ 14

/-! ### The configurations -/

/-- `cuw3_create_rca_alloc_specs_config`, on a platform with huge pages of a size. -/
def cuw3CreateRcaAllocSpecsConfig (vmemHugePageSize : Nat) : RegionChunkAllocatorSpecsConfig :=
  { regionSizes := confRegionSizesLog2
    regionChunkSizes := confRegionChunkSizesLog2
    handleSize := confRegionHandleSize
    handleAlignment := confCacheline
    regionAlignment := max vmemHugePageSize (max confMinRegionChunkSize (2 ^ confMaxAlignmentLog2))
      }

/-- `cuw3_create_fast_arena_small_alloc_config`. -/
def cuw3CreateFastArenaSmallAllocConfig : FastArenaSmallBinsConfig :=
  { minArenaAlignmentLog2 := confFastArenaMinAlignmentLog2
    maxArenaAlignmentLog2 := confFastArenaMaxAlignmentLog2
    sizeCutoff := confSizeCutoff }

/-- `cuw3_create_fast_arena_step_split_alloc_config`. -/
def cuw3CreateFastArenaStepSplitAllocConfig : FastArenaBinsConfig :=
  { numSplitsLog2 := intlog2 confMaxFastArenaLookupSplit
    minArenaStepSizeLog2 := confMaxRegionChunkSizeLog2 - confMaxFastArenaLookupSteps
    maxArenaStepSizeLog2 := confMaxRegionChunkSizeLog2 - 1
    minArenaAlignmentLog2 := confFastArenaMinAlignmentLog2
    maxArenaAlignmentLog2 := confFastArenaMaxAlignmentLog2 }

/-- `cuw3_create_tla_config`. -/
def cuw3CreateTlaConfig : ThreadLocalAllocatorConfig :=
  { stepSplitAllocConfig := cuw3CreateFastArenaStepSplitAllocConfig
    smallAllocConfig := cuw3CreateFastArenaSmallAllocConfig }

end Cuw3
