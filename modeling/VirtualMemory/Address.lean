import VirtualMemory.Hex

/-!
# Addresses

A virtual and a physical address are both 64-bit words; the type keeps the two kinds apart. No
width is enforced here: which addresses a processor implements is measured (`Widths`). Arithmetic
wraps at the top of the space.

* `Address`, `VAddr`, `PAddr`;
* `isAligned`, `alignDown`, `remainder` against an alignment (`isAligned_alignDown`);
* `index`: the nine bits that select an entry of a table (`index_val`), and `pageOffset`.
-/

namespace VirtualMemory

inductive AddressKind where
  | virtual
  | physical
deriving DecidableEq, Repr

def AddressKind.addressName : AddressKind → String
  | .virtual => "VirtAddr"
  | .physical => "PhysAddr"

/-- **A 64-bit address** of one of the two kinds. -/
structure Address (k : AddressKind) where
  bits : BitVec 64
deriving DecidableEq

abbrev VAddr := Address .virtual

abbrev PAddr := Address .physical

/-- The position of an entry in a table. -/
abbrev Index := Fin 512

namespace Address

variable {k : AddressKind}

@[ext] theorem ext {a b : Address k} (h : a.bits = b.bits) : a = b := by
  cases a; cases b; simp_all

def zero : Address k := ⟨0⟩

instance : Inhabited (Address k) := ⟨zero⟩

/-! ## Arithmetic and order -/

instance : HAdd (Address k) (BitVec 64) (Address k) := ⟨fun a n => ⟨a.bits + n⟩⟩
instance : HSub (Address k) (BitVec 64) (Address k) := ⟨fun a n => ⟨a.bits - n⟩⟩

instance : HSub (Address k) (Address k) (BitVec 64) := ⟨fun a b => a.bits - b.bits⟩

@[simp] theorem bits_add (a : Address k) (n : BitVec 64) : (a + n).bits = a.bits + n := rfl
@[simp] theorem bits_sub (a : Address k) (n : BitVec 64) : (a - n).bits = a.bits - n := rfl

/-- Addresses are ordered as unsigned numbers. -/
instance : Ord (Address k) := ⟨fun a b => compare a.bits.toNat b.bits.toNat⟩

/-! ## Alignment -/

/-- The address is a multiple of `align`. -/
def isAligned (a : Address k) (align : BitVec 64) : Bool := a.bits % align == 0

/-- The offset of the address in its region of `align` bytes. -/
def remainder (a : Address k) (align : BitVec 64) : BitVec 64 := a.bits % align

/-- The greatest multiple of `align` that is not above the address. -/
def alignDown (a : Address k) (align : BitVec 64) : Address k := ⟨a.bits - a.bits % align⟩

theorem isAligned_iff (a : Address k) (align : BitVec 64) :
    a.isAligned align = true ↔ a.bits.toNat % align.toNat = 0 := by
  simp [isAligned, ← BitVec.toNat_inj]

theorem alignDown_toNat (a : Address k) (align : BitVec 64) :
    (a.alignDown align).bits.toNat = a.bits.toNat - a.bits.toNat % align.toNat := by
  have h : a.bits % align ≤ a.bits := by
    rw [BitVec.le_def, BitVec.toNat_umod]; exact Nat.mod_le _ _
  simp [alignDown, BitVec.toNat_sub_of_le h]

theorem isAligned_alignDown (a : Address k) (align : BitVec 64) :
    (a.alignDown align).isAligned align = true := by
  rw [isAligned_iff, alignDown_toNat]
  exact Nat.sub_mod_eq_zero_of_mod_eq (Nat.mod_mod _ _).symm

theorem alignDown_of_isAligned {a : Address k} {align : BitVec 64} (h : a.isAligned align = true) :
    a.alignDown align = a := by
  ext1; apply BitVec.eq_of_toNat_eq
  rw [alignDown_toNat, (isAligned_iff a align).1 h, Nat.sub_zero]

/-! ## Fields of a virtual address -/

/-- The nine bits from position `shift` upward, which select an entry of a table. -/
def index (v : VAddr) (shift : Nat) : Index := Fin.ofNat 512 (v.bits >>> shift).toNat

theorem index_val (v : VAddr) (shift : Nat) :
    (v.index shift).val = (v.bits.toNat >>> shift) % 512 := by
  simp [index]

/-- The offset in the 4 KiB page, the lowest twelve bits. -/
def pageOffset (v : VAddr) : BitVec 64 := v.remainder 4096

/-! ## Runs of pages -/

/-- The address `count` pages of 4 KiB further up. -/
def addPages (a : Address k) (count : Nat) : Address k := a + BitVec.ofNat 64 (count * 4096)

@[simp] theorem addPages_zero (a : Address k) : a.addPages 0 = a := by
  ext1; simp [addPages]

/-- Below the top of the space, pages further up are bytes further up. -/
theorem toNat_addPages {a : Address k} {i : Nat} (h : a.bits.toNat + i * 4096 < 1 <<< 64) :
    (a.addPages i).bits.toNat = a.bits.toNat + i * 4096 := by
  simp only [addPages, bits_add, BitVec.toNat_add, BitVec.toNat_ofNat]
  omega

/-! ## Text -/

def text (a : Address k) : String := Hex.text a.bits

/-- The address behind the name of its kind. -/
def describe (a : Address k) : String := k.addressName ++ "(" ++ a.text ++ ")"

end Address

end VirtualMemory
