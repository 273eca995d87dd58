import VirtualMemory.Entry

/-!
# Attributes of a mapping

What a caller may ask of a mapping, without regard to how entries express it, and how entries do
express it.

* `Attributes`, `Attributes.cachePolicy`;
* `Attributes.encode` gives the flags of a leaf, `EntryFlags.decode` reads them back;
* `EntryFlags.enlarged` and `EntryFlags.reduced` move the memory-type selector;
* `EntryFlags.asLeaf` and `EntryFlags.asLink` complete the flags of a leaf and of the links above.
-/

namespace VirtualMemory

def attributeKind : FlagKind 32 where
  name := "MmuFlags"
  flags := [
    ("UNCACHED", 1#32 <<< 0),
    ("UNCACHED_DEVICE", 1#32 <<< 1),
    ("USER", 1#32 <<< 2),
    ("READ_ONLY", 1#32 <<< 3),
    ("NO_EXECUTE", 1#32 <<< 4),
    ("CACHE_MASK", 0b11)]

/-- **The attributes of a mapping.** Without any it is cached, writable, executable and reserved to
the kernel. -/
abbrev Attributes := FlagSet attributeKind

namespace Attributes

def uncached : Attributes := .bit 0

def uncachedDevice : Attributes := .bit 1

def user : Attributes := .bit 2

def readOnly : Attributes := .bit 3

def noExecute : Attributes := .bit 4

/-- The bits that choose how the memory is cached. -/
def cacheMask : Attributes := uncached ∪ uncachedDevice

end Attributes

inductive CachePolicy where
  | cached
  | uncached
  /-- A combination without a meaning, for which no caching bits are written. -/
  | unspecified
deriving DecidableEq, Repr

def Attributes.cachePolicy (a : Attributes) : CachePolicy :=
  let cache := a ∩ cacheMask
  if cache = ∅ then .cached
  else if cache = uncached then .uncached
  else .unspecified

namespace EntryFlags

/-- The caching bits of uncached memory. With the memory-type selector clear they choose the
uncacheable type. -/
def uncached : EntryFlags := cacheDisable ∪ writeThrough

/-- The caching bits that a policy writes. -/
def ofCachePolicy : CachePolicy → EntryFlags
  | .uncached => uncached
  | .cached | .unspecified => ∅

/-- The bits in which two mappings are compared: those that the processor does not change on its
own. -/
def compared : EntryFlags :=
  present ∪ writable ∪ user ∪ writeThrough ∪ cacheDisable ∪ pat ∪ global ∪ noExecute

end EntryFlags

/-- **The permission and caching bits of a leaf** with the attributes `a`. -/
def Attributes.encode (a : Attributes) : EntryFlags :=
  EntryFlags.ofCachePolicy a.cachePolicy
    ∪ (if a.contains readOnly then ∅ else EntryFlags.writable)
    ∪ (if a.contains user then EntryFlags.user else ∅)
    ∪ (if a.contains noExecute then EntryFlags.noExecute else ∅)

namespace EntryFlags

/-- **The attributes that the bits of a 4 KiB leaf express.** -/
def decode (f : EntryFlags) : Attributes :=
  (if f.contains writable then ∅ else Attributes.readOnly)
    ∪ (if f.contains user then Attributes.user else ∅)
    ∪ (if f.contains uncached && !f.contains pat then Attributes.uncached else ∅)
    ∪ (if f.contains noExecute then Attributes.noExecute else ∅)

/-- The bits of a 4 KiB leaf rewritten for a large one: the memory-type selector makes room for the
mark of a large leaf. -/
def enlarged (f : EntryFlags) : EntryFlags :=
  (if f.contains pat then f ∪ patLarge else f) ∪ large

/-- The bits that a 4 KiB leaf would have in place of a large one. -/
def reduced (f : EntryFlags) : EntryFlags :=
  (f \ (large ∪ patLarge)) ∪ (if f.contains patLarge then pat else ∅)

/-- The bits of a finished leaf: in use, and global unless it is for user mode. -/
def asLeaf (f : EntryFlags) : EntryFlags :=
  f ∪ present ∪ (if f.contains user then ∅ else global)

/-- The bits of a link above a leaf with the bits `f`. Links are writable and executable, so that
only the leaf restricts access, and open to user mode if the leaf is. -/
def asLink (f : EntryFlags) : EntryFlags :=
  present ∪ writable ∪ (if f.contains user then user else global)

end EntryFlags

end VirtualMemory
