import VirtualMemory.FlagSet
import VirtualMemory.Level

/-!
# Table entries

An entry is a 64-bit word: a frame address in bits 12 to 51 and flags around it. Bit 7 marks a
large leaf where an entry may be one, and selects a memory type in a 4 KiB leaf; a large leaf keeps
that selector in bit 12, inside the address field.

* `EntryFlags` and its single flags;
* `Entry`, `Entry.make`, and the fields `target`, `flags`, `targetOfLarge`, `flagsOfLarge`;
* `Role`: what an entry means at a level (`Entry.role`): absent, a leaf, or a link to a table.
-/

namespace VirtualMemory

def entryFlagKind : FlagKind 64 where
  name := "PageTableFlags"
  flags := [
    ("PRESENT", 1#64 <<< 0),
    ("WRITABLE", 1#64 <<< 1),
    ("USER", 1#64 <<< 2),
    ("WRITE_THROUGH", 1#64 <<< 3),
    ("CACHE_DISABLE", 1#64 <<< 4),
    ("ACCESSED", 1#64 <<< 5),
    ("DIRTY", 1#64 <<< 6),
    ("HUGE_PAGE", 1#64 <<< 7),
    ("PAT", 1#64 <<< 7),
    ("GLOBAL", 1#64 <<< 8),
    ("PAT_LARGE", 1#64 <<< 12),
    ("NO_EXECUTE", 1#64 <<< 63)]

abbrev EntryFlags := FlagSet entryFlagKind

namespace EntryFlags

def present : EntryFlags := .bit 0

def writable : EntryFlags := .bit 1

def user : EntryFlags := .bit 2

def writeThrough : EntryFlags := .bit 3

def cacheDisable : EntryFlags := .bit 4

def large : EntryFlags := .bit 7

/-- The memory-type selector of a 4 KiB leaf, which has the place of `large`. -/
def pat : EntryFlags := .bit 7

/-- The translation outlives a change of the root. -/
def global : EntryFlags := .bit 8

/-- The memory-type selector of a large leaf. -/
def patLarge : EntryFlags := .bit 12

def noExecute : EntryFlags := .bit 63

end EntryFlags

/-- **A table entry.** -/
structure Entry where
  bits : BitVec 64
deriving DecidableEq

/-- What an entry means at its level. -/
inductive Role where
  | absent
  | leaf
  | link (child : PAddr)
deriving DecidableEq

namespace Entry

/-- The address field, bits 12 to 51. -/
def addressMask : BitVec 64 := 0x000FFFFFFFFFF000

@[ext] theorem ext {a b : Entry} (h : a.bits = b.bits) : a = b := by
  cases a; cases b; simp_all

def empty : Entry := ⟨0⟩

instance : Inhabited Entry := ⟨empty⟩

def make (a : PAddr) (f : EntryFlags) : Entry := ⟨(a.bits &&& addressMask) ||| f.bits⟩

/-- All the bits of the entry, read as a flag word. -/
def asFlags (e : Entry) : EntryFlags := ⟨e.bits⟩

def isPresent (e : Entry) : Bool := e.asFlags.contains EntryFlags.present

def isLarge (e : Entry) : Bool := e.asFlags.contains EntryFlags.large

def target (e : Entry) : PAddr := ⟨e.bits &&& addressMask⟩

/-- The frame of a leaf of size `s`. Address bits below the size do not count; the memory-type
selector of a large leaf is one of them. -/
def targetOfLarge (e : Entry) (s : PageSize) : PAddr :=
  ⟨e.bits &&& addressMask &&& ~~~(s.bytes - 1)⟩

/-- The named flags outside the address field. -/
def flags (e : Entry) : EntryFlags := FlagSet.onlyNamed ⟨e.bits &&& ~~~addressMask⟩

/-- The named flags of a large leaf, which has one of them inside the address field. -/
def flagsOfLarge (e : Entry) : EntryFlags :=
  FlagSet.onlyNamed ⟨e.bits &&& (~~~addressMask ||| EntryFlags.patLarge.bits)⟩

/-- The entry taken out of use, with all its other bits. -/
def disabled (e : Entry) : Entry := ⟨(e.asFlags \ EntryFlags.present).bits⟩

theorem isPresent_eq (e : Entry) : e.isPresent = e.bits.getLsbD 0 :=
  FlagSet.contains_bit _ (by decide)

theorem isLarge_eq (e : Entry) : e.isLarge = e.bits.getLsbD 7 :=
  FlagSet.contains_bit _ (by decide)

@[simp] theorem isPresent_empty : empty.isPresent = false := rfl

/-- **An entry taken out of use is not in use**, and its other bits stay. -/
theorem getLsbD_disabled (e : Entry) (i : Nat) :
    e.disabled.bits.getLsbD i = (e.bits.getLsbD i && !decide (i = 0)) := by
  by_cases h : i < 64
  · by_cases h₀ : i = 0
    · subst h₀; simp [disabled, asFlags, EntryFlags.present]
    · simp [disabled, asFlags, EntryFlags.present, h, h₀]
  · have h : 64 ≤ i := Nat.le_of_not_lt h
    simp [BitVec.getLsbD_of_ge, h]

@[simp] theorem isPresent_disabled (e : Entry) : e.disabled.isPresent = false := by
  rw [isPresent_eq, getLsbD_disabled]; simp

/-- An entry of this level that is in use maps memory. At the root none does, at the lowest level
every one does, between them the large ones do. -/
def isLeafAt (e : Entry) : Level → Bool
  | .pml4 => false
  | .pdpt | .pd => e.isLarge
  | .pt => true

/-- **What the entry means at a level.** -/
def role (l : Level) (e : Entry) : Role :=
  if !e.isPresent then .absent
  else if e.isLeafAt l then .leaf
  else .link e.target

@[simp] theorem role_empty (l : Level) : empty.role l = .absent := rfl

theorem role_eq_absent_iff (l : Level) (e : Entry) : e.role l = .absent ↔ e.isPresent = false := by
  unfold role; split <;> simp_all; split <;> simp

/-- **No entry of the lowest level leads to a table.** -/
theorem role_pt_ne_link (e : Entry) (child : PAddr) : e.role .pt ≠ .link child := by
  unfold role; split <;> simp [isLeafAt]

def describe (e : Entry) : String :=
  recordText "PageTableEntry" [("address", e.target.describe), ("flags", e.flags.describe)]

end Entry

end VirtualMemory
