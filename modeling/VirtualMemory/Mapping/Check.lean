import VirtualMemory.Translation

/-!
# Checking a mapping

`Machine.verify` tells whether an address maps where it is expected to, with the attributes
it is expected to have, and `MappingFault` says what is wrong if not.
-/

namespace VirtualMemory

/-- **What is wrong with a mapping.** -/
inductive MappingFault where
  /-- An address is misaligned, not canonical or out of range. -/
  | invalidAddress
  | notMapped (level : Level)
  | otherAddress (found : PAddr)
  | otherFlags (differing : EntryFlags)
deriving DecidableEq

namespace MappingFault

def message : MappingFault → String
  | invalidAddress => "invalid address argument"
  | notMapped level => s!"not mapped: {level.name} entry missing"
  | otherAddress found => s!"mapped to {found.text}"
  | otherFlags differing => s!"flags differ: {Hex.text differing.bits}"

def describe : MappingFault → String
  | invalidAddress => "InvalidArgs"
  | notMapped level => recordText "NotMapped" [("level", level.describe)]
  | otherAddress found => recordText "AddressMismatch" [("found", found.describe)]
  | otherFlags differing => recordText "FlagsMismatch" [("differing", differing.describe)]

/-- The fault as a refusal: all that is not as expected counts as not mapped. -/
def toMapError : MappingFault → MapError
  | invalidAddress => .invalidAddress
  | notMapped _ | otherAddress _ | otherFlags _ => .notMapped

end MappingFault

/-- **Whether an outcome is the expected one**: the address first, then the compared flags. -/
def Translation.check (t : Translation) (p : PAddr) (expected : Attributes) :
    Except MappingFault Unit :=
  match t with
  | missing level _ => .error (.notMapped level)
  | mapped found actual _ =>
    if found ≠ p then .error (.otherAddress found)
    else
      let differing := (expected.encode ^^^ actual.encode) ∩ EntryFlags.compared
      if differing.isEmpty then .ok () else .error (.otherFlags differing)

/-- **Whether the page at `v` maps to the frame at `p`** with the attributes `expected`. -/
def Machine.verify {α : Type} (w : Widths) (root p : PAddr) (v : VAddr)
    (expected : Attributes) (m : Machine α) : Except MappingFault Unit × Machine α :=
  if !w.admitsPage v || !w.admitsFrame p then (.error .invalidAddress, m)
  else
    let walk := m.walk root v
    (walk.1.check p expected, walk.2)

end VirtualMemory
