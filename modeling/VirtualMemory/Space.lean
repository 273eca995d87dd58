import VirtualMemory.Address
import VirtualMemory.FlagSet

/-!
# Address spaces

The kernel runs in a single address space. A handle records what was asked for when a space was
created; no table belongs to it.
-/

namespace VirtualMemory

def spaceFlagKind : FlagKind 32 where
  name := "AspaceFlags"
  flags := [("KERNEL", 1#32 <<< 0)]

abbrev SpaceFlags := FlagSet spaceFlagKind

def SpaceFlags.kernel : SpaceFlags := .bit 0

/-- **A handle of an address space**: where it starts, its length in bytes and its flags. -/
structure Space where
  base : VAddr
  size : BitVec 64
  flags : SpaceFlags
deriving DecidableEq

namespace Space

def forKernel (s : Space) : Bool := s.flags.contains SpaceFlags.kernel

def describe (s : Space) : String :=
  recordText "ArchAddressSpace" [
    ("base", s.base.describe),
    ("size", toString s.size.toNat),
    ("flags", s.flags.describe)]

end Space

end VirtualMemory
