import VirtualMemory.Block

/-!
# Levels of the hierarchy

Four levels of tables lead from the root to a 4 KiB page. A level's height is its distance from the
bottom; recursion down the hierarchy is recursion on the height.

* `Level`, `height`, `ofHeight` (`ofHeight_height`);
* `shift`, `index`: the nine address bits a level looks at;
* `leafSize?`: the size of the region an entry of the level maps, if it can map one.
-/

namespace VirtualMemory

/-- **The four levels**, the root's first. -/
inductive Level where
  | pml4
  | pdpt
  | pd
  | pt
deriving DecidableEq, Repr

namespace Level

def all : List Level := [pml4, pdpt, pd, pt]

def height : Level → Nat
  | pml4 => 3
  | pdpt => 2
  | pd => 1
  | pt => 0

/-- The level with so many levels below it; the root's stands for every number above two. -/
def ofHeight : Nat → Level
  | 0 => pt
  | 1 => pd
  | 2 => pdpt
  | _ + 3 => pml4

@[simp] theorem ofHeight_height (l : Level) : ofHeight l.height = l := by cases l <;> rfl

theorem height_ofHeight {n : Nat} (h : n ≤ 3) : (ofHeight n).height = n := by
  match n, h with
  | 0, _ | 1, _ | 2, _ | 3, _ => rfl

theorem ofHeight_succ_ne_pt (n : Nat) : ofHeight (n + 1) ≠ pt := by
  match n with
  | 0 | 1 | _ + 2 => exact nofun

theorem height_le (l : Level) : l.height ≤ 3 := by cases l <;> decide

/-- Levels are ordered downward: the root's is the least. -/
instance : LT Level := ⟨fun a b => b.height < a.height⟩

instance (a b : Level) : Decidable (a < b) := inferInstanceAs (Decidable (b.height < a.height))

def below? : Level → Option Level
  | pml4 => some pdpt
  | pdpt => some pd
  | pd => some pt
  | pt => none

def above (l : Level) : List Level := all.filter (· < l)

/-- The position of the level's index in a virtual address. -/
def shift (l : Level) : Nat := 12 + 9 * l.height

/-- The entry of the level's table that an address selects. -/
def index (l : Level) (v : VAddr) : Index := v.index l.shift

/-- The size of the region that an entry of this level maps, if it can map one. -/
def leafSize? : Level → Option PageSize
  | pml4 => none
  | pdpt => some .gib1
  | pd => some .mib2
  | pt => some .kib4

theorem shift_eq_of_leafSize? {l : Level} {s : PageSize} (h : l.leafSize? = some s) :
    s.shift = l.shift := by
  cases l <;> cases h <;> rfl

def name : Level → String
  | pml4 => "PML4"
  | pdpt => "PDPT"
  | pd => "PD"
  | pt => "PT"

def describe : Level → String
  | pml4 => "Pml4"
  | pdpt => "Pdpt"
  | pd => "Pd"
  | pt => "Pt"

end Level

end VirtualMemory
