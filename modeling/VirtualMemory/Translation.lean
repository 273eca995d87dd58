import VirtualMemory.Attributes
import VirtualMemory.Machine

/-!
# Translation

A walk follows the entries that an address selects, from the root down, until one maps memory or is
not in use. It only reads.

* `Translation`: the outcome of a walk;
* `Memory.walk`, by recursion on the height of the table;
* `Memory.visits`: the entries that a walk reads;
* `Machine.walk`: the walk with its notices.
-/

namespace VirtualMemory

/-- **The outcome of a walk.** -/
inductive Translation where
  /-- The address maps to `phys`, by a leaf at `level`. -/
  | mapped (phys : PAddr) (attributes : Attributes) (level : Level)
  /-- The entry at `level` is not in use; it is the one in the table at `table`. -/
  | missing (level : Level) (table : PAddr)
deriving DecidableEq

namespace Translation

def target? : Translation → Option (PAddr × Attributes)
  | mapped phys attributes _ => some (phys, attributes)
  | missing .. => none

def ofLarge (s : PageSize) (level : Level) (e : Entry) (v : VAddr) : Translation :=
  mapped (e.targetOfLarge s + v.remainder s.bytes) e.flagsOfLarge.reduced.decode level

/-- **The outcome at a leaf**: the offset in the page goes over into the translated address. -/
def ofLeaf (level : Level) (e : Entry) (v : VAddr) : Translation :=
  match level with
  | .pdpt => ofLarge .gib1 .pdpt e v
  | .pd => ofLarge .mib2 .pd e v
  | .pml4 | .pt => mapped (e.target + v.pageOffset) e.flags.decode level

end Translation

/-! ## Walks -/

structure Visit where
  level : Level
  table : PAddr
  entry : Entry
deriving DecidableEq

namespace Memory

variable (mem : Memory) (v : VAddr)

def walkFrom (n : Nat) (table : PAddr) : Translation :=
  let level := Level.ofHeight n
  let e := mem.entry table (level.index v)
  match e.role level, n with
  | .absent, _ => .missing level table
  | .link child, n + 1 => walkFrom n child
  | _, _ => .ofLeaf level e v

section Equations

variable {mem v} {n : Nat} {table : PAddr}

theorem walkFrom_of_absent
    (h : (mem.entry table ((Level.ofHeight n).index v)).role (.ofHeight n) = .absent) :
    mem.walkFrom v n table = .missing (.ofHeight n) table := by
  rw [walkFrom.eq_def]; simp only [h]

theorem walkFrom_of_leaf
    (h : (mem.entry table ((Level.ofHeight n).index v)).role (.ofHeight n) = .leaf) :
    mem.walkFrom v n table =
      .ofLeaf (.ofHeight n) (mem.entry table ((Level.ofHeight n).index v)) v := by
  rw [walkFrom.eq_def]; simp only [h]

theorem walkFrom_of_link {child : PAddr}
    (h : (mem.entry table ((Level.ofHeight (n + 1)).index v)).role (.ofHeight (n + 1)) =
      .link child) :
    mem.walkFrom v (n + 1) table = mem.walkFrom v n child := by
  rw [walkFrom.eq_def]; simp only [h]

end Equations

/-- **The walk** through the hierarchy with the root `root`. -/
def walk (root : PAddr) (v : VAddr) : Translation := mem.walkFrom v 3 root

/-- The entries that the walk from a table with `n` levels below it reads. -/
def visitsFrom (n : Nat) (table : PAddr) : List Visit :=
  let level := Level.ofHeight n
  let e := mem.entry table (level.index v)
  ⟨level, table, e⟩ ::
    match e.role level, n with
    | .link child, n + 1 => visitsFrom n child
    | _, _ => []

/-- **The entries that a walk reads**, the root's first. -/
def visits (root : PAddr) (v : VAddr) : List Visit := mem.visitsFrom v 3 root

end Memory

/-- **The walk with its notices**: each entry is reported as it is read. -/
def Machine.walk {α : Type} (m : Machine α) (root : PAddr) (v : VAddr) : Translation × Machine α :=
  (m.memory.walk root v,
    (m.memory.visits root v).foldl (fun m s => m.note (.read v s.level s.entry)) m)

end VirtualMemory
