/-!
# AllocOptions — what the allocator may be told to do
-/

namespace TreeCompiler

structure AllocOptions where
  /-- Merge the two ends of a copy where that is safe. -/
  coalescing : Bool := true
  /-- Check the coloring state after each step. -/
  checkInvariants : Bool := false
  /-- Drop copies within one register. -/
  eliminateRedundantMoves : Bool := true
  deriving DecidableEq

end TreeCompiler
