import VirtualMemory.Address

/-!
# Address widths

A processor implements fewer than 64 bits of an address. Virtual addresses come in two canonical
halves, from zero up and from the top down; physical addresses end at a power of two.

* `Widths`: a pair of widths, each between 1 and 64;
* `lowEnd`, `highStart`, `physEnd`: the bounds;
* `isCanonical`, `admitsPage`, `admitsFrame`: single addresses;
* `admitsPages`, `admitsFrames`: runs, which may not wrap, nor leave the half they start in.
-/

namespace VirtualMemory

/-- **The widths a processor implements**, in bits. -/
structure Widths where
  virt : Nat
  phys : Nat
  virt_pos : 1 ≤ virt
  virt_le : virt ≤ 64
  phys_pos : 1 ≤ phys
  phys_le : phys ≤ 64
deriving DecidableEq

namespace Widths

/-- The widths assumed when the processor reports none. -/
def assumed : Widths := ⟨48, 36, by decide, by decide, by decide, by decide⟩

instance : Inhabited Widths := ⟨assumed⟩

/-- A reported width, or the assumed one if the report is no possible width. -/
def orAssumed (reported assumed : Nat) : Nat :=
  if reported = 0 ∨ 64 < reported then assumed else reported

theorem orAssumed_bounds {r a : Nat} (h₁ : 1 ≤ a) (h₂ : a ≤ 64) :
    1 ≤ orAssumed r a ∧ orAssumed r a ≤ 64 := by
  unfold orAssumed; split <;> omega

/-- **The widths for two reported numbers.** Each one that is zero or above 64 is replaced by its
assumed width, on its own. -/
def ofReported (virt phys : Nat) : Widths where
  virt := orAssumed virt assumed.virt
  phys := orAssumed phys assumed.phys
  virt_pos := (orAssumed_bounds assumed.virt_pos assumed.virt_le).1
  virt_le := (orAssumed_bounds assumed.virt_pos assumed.virt_le).2
  phys_pos := (orAssumed_bounds assumed.phys_pos assumed.phys_le).1
  phys_le := (orAssumed_bounds assumed.phys_pos assumed.phys_le).2

/-- The widths packed in a register: bits 7:0 hold the physical one, bits 15:8 the virtual one. -/
def ofPacked (eax : BitVec 32) : Widths :=
  ofReported (eax.extractLsb' 8 8).toNat (eax.extractLsb' 0 8).toNat

variable (w : Widths)

/-! ## Bounds -/

def lowEnd : BitVec 64 := (1#64 <<< (w.virt - 1)) - 1#64

def highStart : BitVec 64 := ~~~w.lowEnd

def physEnd : BitVec 64 := if 64 ≤ w.phys then BitVec.allOnes 64 else (1#64 <<< w.phys) - 1#64

/-! ## Single addresses -/

def isCanonical (v : VAddr) : Bool := v.bits ≤ w.lowEnd || w.highStart ≤ v.bits

/-- The address starts a page and is canonical. -/
def admitsPage (v : VAddr) : Bool := v.isAligned 4096 && w.isCanonical v

/-- The address starts a frame that the processor can name. -/
def admitsFrame (p : PAddr) : Bool := p.isAligned 4096 && p.bits ≤ w.physEnd

/-! ## Runs -/

/-- The start of the last of `pages` pages from `start` on, if it lies below the top of the space.
An empty run ends where it starts. -/
def finalPage (start : BitVec 64) (pages : Nat) : Option (BitVec 64) :=
  let last := start.toNat + (pages - 1) * 4096
  if last < 1 <<< 64 then some (BitVec.ofNat 64 last) else none

/-- **All pages of a run are admitted**, and they lie in the canonical half of the first one. -/
def admitsPages (v : VAddr) (pages : Nat) : Bool :=
  w.admitsPage v &&
    match finalPage v.bits pages with
    | none => false
    | some last => if v.bits ≤ w.lowEnd then last ≤ w.lowEnd else true

/-- **All frames of a run are admitted.** -/
def admitsFrames (p : PAddr) (pages : Nat) : Bool :=
  w.admitsFrame p &&
    match finalPage p.bits pages with
    | none => false
    | some last => last ≤ w.physEnd

end Widths

end VirtualMemory
