import VirtualMemory.Mapping.Call
import VirtualMemory.Mapping.Check

/-!
# The kernel

The kernel takes the machine over once, at boot, and then maps, unmaps and looks up addresses in
the hierarchy whose root is in CR3.

* `Machine.boot` turns on the protections, measures the widths and drops the identity mapping;
* `Kernel.map`, `Kernel.unmap`, `Kernel.lookup` act on the current root;
* `Kernel.newRoot` makes a further root that shares the kernel's image;
* `Kernel.newSpace`: spaces are recorded, no table changes.
-/

namespace VirtualMemory

/-- **The kernel after boot**: the machine, the measured widths and the root found at boot. -/
structure Kernel (α : Type) where
  machine : Machine α
  widths : Widths
  root : PAddr

/-- The root's entry for the image of the kernel, which all roots share. -/
def imageSlot : Index := Fin.last 511

/-- The root's entry for the identity mapping of low memory, which only boot code uses. -/
def identitySlot : Index := ⟨0, Nat.zero_lt_succ _⟩

/-- **Takes the machine over.** Write protection and no-execute are turned on, and the protections
against user pages that the processor reports; the entry of the identity mapping is cleared, and
CR3 loaded anew, so that the processor forgets it. -/
def Machine.boot {α : Type} (m : Machine α) : Kernel α :=
  let m := m.setCr0 (m.registers.cr0 ∪ Cr0.writeProtect)
  let features := Features.reported m.cpuid
  let m := m.setCr4 (m.registers.cr4
    ∪ (if features.smep then Cr4.smep else ∅)
    ∪ (if features.smap then Cr4.smap else ∅))
  let m := m.setEfer (m.registers.efer ∪ Efer.noExecuteEnable)
  let widths := Widths.reported m.cpuid
  let m := m.note (.measured widths features)
  let root := m.registers.cr3
  let m := ((m.write root identitySlot .empty).setCr3 root).note (.tookOver root)
  { machine := m, widths, root }

namespace Kernel

variable {α : Type} (k : Kernel α)

def currentRoot : PAddr := k.machine.registers.cr3

def onMachine {β : Type} (step : Machine α → β × Machine α) : β × Kernel α :=
  let r := step k.machine
  (r.1, { k with machine := r.2 })

/-! ## The current hierarchy -/

/-- **What the address `v` maps to.** It need not start a page. -/
def lookup (v : VAddr) : Except MapError (PAddr × Attributes) × Kernel α :=
  if !k.widths.isCanonical v then (.error .invalidAddress, k)
  else
    k.onMachine fun m =>
      let walk := m.walk k.currentRoot v
      match walk.1.target? with
      | some target => (.ok target, walk.2)
      | none => (.error .notMapped, walk.2)

variable [FrameSource α]

def call (root : PAddr) (c : Call) : Except MapError Unit × Kernel α :=
  k.onMachine fun m => c.run k.widths root m

/-- **Maps `count` pages at `v`** to the frames from `p` on. -/
def map (v : VAddr) (p : PAddr) (count : Nat) (a : Attributes) : Except MapError Unit × Kernel α :=
  if !k.widths.admitsFrame p || !k.widths.admitsPage v then (.error .invalidAddress, k)
  else if count = 0 then (.ok (), k)
  else
    match Span.ofPages? v p count with
    | none => (.error .invalidAddress, k)
    | some span => k.call k.currentRoot (.mapSpan span a)

/-- **Unmaps `count` pages at `v`.** -/
def unmap (v : VAddr) (count : Nat) : Except MapError Unit × Kernel α :=
  k.call k.currentRoot (.unmapPages v count)

/-! ## Roots and spaces -/

/-- **Makes a root** that shares the kernel's image with the kernel's own root and maps nothing
else. -/
def newRoot : Except MapError PAddr × Kernel α :=
  k.onMachine fun m =>
    match m.allocate with
    | (none, m) => (.error .outOfFrames, m)
    | (some root, m) =>
      let m := m.zero root
      (.ok root, (m.write root imageSlot (m.entry k.root imageSlot)).note (.madeRoot root))

omit [FrameSource α] in
/-- **Records an address space.** No table changes. -/
def newSpace (base : VAddr) (size : BitVec 64) (flags : SpaceFlags) : Space × Kernel α :=
  let space : Space := ⟨base, size, flags⟩
  (space, { k with machine := k.machine.note (.madeSpace space) })

end Kernel

end VirtualMemory
