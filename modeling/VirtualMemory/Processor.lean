import VirtualMemory.FlagSet
import VirtualMemory.Widths

/-!
# The processor

What the processor reports about itself, and the registers that govern translation.

* `Cr0`, `Cr4`, `Efer` and their flags; `Registers`;
* `Cpuid`: the answers to its identification instruction;
* `Features.reported` and `Widths.reported` read those answers.
-/

namespace VirtualMemory

/-! ## Registers -/

def cr0Kind : FlagKind 64 where
  name := "Cr0Flags"
  flags := [
    ("PROTECTED_MODE", 1#64 <<< 0),
    ("WRITE_PROTECT", 1#64 <<< 16),
    ("PAGING", 1#64 <<< 31)]

def cr4Kind : FlagKind 64 where
  name := "Cr4Flags"
  flags := [
    ("PAE", 1#64 <<< 5),
    ("PGE", 1#64 <<< 7),
    ("SMEP", 1#64 <<< 20),
    ("SMAP", 1#64 <<< 21)]

def eferKind : FlagKind 64 where
  name := "EferFlags"
  flags := [
    ("SYSTEM_CALL_ENABLE", 1#64 <<< 0),
    ("LONG_MODE_ENABLE", 1#64 <<< 8),
    ("NO_EXECUTE_ENABLE", 1#64 <<< 11)]

abbrev Cr0 := FlagSet cr0Kind

abbrev Cr4 := FlagSet cr4Kind

abbrev Efer := FlagSet eferKind

/-- The kernel's own writes honour read-only pages. -/
def Cr0.writeProtect : Cr0 := .bit 16

/-- The kernel runs no code of user pages. -/
def Cr4.smep : Cr4 := .bit 20

/-- The kernel touches no data of user pages. -/
def Cr4.smap : Cr4 := .bit 21

/-- Entries can forbid running code. -/
def Efer.noExecuteEnable : Efer := .bit 11

/-- The address of the extended feature register among the model-specific ones. -/
def Efer.address : BitVec 32 := 0xC0000080

/-- **The registers that govern translation.** CR3 holds the root of the current hierarchy. -/
structure Registers where
  cr0 : Cr0
  cr3 : PAddr
  cr4 : Cr4
  efer : Efer
deriving DecidableEq

/-! ## Identification -/

/-- The four registers of one answer. -/
structure CpuidLeaf where
  eax : BitVec 32 := 0
  ebx : BitVec 32 := 0
  ecx : BitVec 32 := 0
  edx : BitVec 32 := 0
deriving DecidableEq

/-- **The answers of a processor**, by leaf and subleaf. -/
abbrev Cpuid := (leaf subleaf : BitVec 32) → CpuidLeaf

/-- The protections that a processor offers for the kernel against user pages. -/
structure Features where
  smep : Bool := false
  smap : Bool := false
deriving DecidableEq

/-- **The protections a processor reports**: bits 7 and 20 of EBX in leaf 7. A processor whose
leaves end before offers neither. -/
def Features.reported (cpu : Cpuid) : Features :=
  if (cpu 0 0).eax < 7 then {}
  else
    let ebx := (cpu 7 0).ebx
    { smep := ebx.getLsbD 7, smap := ebx.getLsbD 20 }

/-- **The widths a processor reports**, or the assumed ones if its extended leaves end before the
one that holds them. -/
def Widths.reported (cpu : Cpuid) : Widths :=
  if (cpu 0x80000000 0).eax < 0x80000008 then assumed else ofPacked (cpu 0x80000008 0).eax

end VirtualMemory
