import VirtualMemory.Address

/-!
# The physical window

The kernel sees all physical memory in its own space, moved up by a fixed offset.
`Window.toPhysical_toVirtual` and `Window.toVirtual_toPhysical` say that the two views fit.
-/

namespace VirtualMemory

/-- **A window** in which physical memory shows, `offset` further up. -/
structure Window where
  offset : BitVec 64
deriving DecidableEq

namespace Window

variable (w : Window)

def toVirtual (p : PAddr) : VAddr := ⟨w.offset + p.bits⟩

def toPhysical (v : VAddr) : PAddr := ⟨v.bits - w.offset⟩

@[simp] theorem toPhysical_toVirtual (p : PAddr) : w.toPhysical (w.toVirtual p) = p := by
  ext1
  simp only [toPhysical, toVirtual]
  rw [BitVec.add_comm, BitVec.add_sub_cancel]

@[simp] theorem toVirtual_toPhysical (v : VAddr) : w.toVirtual (w.toPhysical v) = v := by
  ext1
  simp only [toPhysical, toVirtual]
  rw [BitVec.add_comm, BitVec.sub_add_cancel]

def describe : String := recordText "PhysMap" [("offset", toString w.offset.toNat)]

end Window

end VirtualMemory
