/-!
# Refusals

Why a call on the hierarchy is refused.
-/

namespace VirtualMemory

/-- **Why a call is refused.** -/
inductive MapError where
  /-- An address is misaligned, not canonical or out of range. -/
  | invalidAddress
  | notMapped
  | outOfFrames
  /-- A large page sits where a table is needed, or a table where a large page is wanted. -/
  | sizeMismatch
deriving DecidableEq, Repr

def MapError.message : MapError → String
  | .invalidAddress => "invalid address argument"
  | .notMapped => "mapping not found"
  | .outOfFrames => "out of memory for page tables"
  | .sizeMismatch => "page size mismatch"

end VirtualMemory
