import VirtualMemory.Address

/-!
# Pages, frames and runs of them

A block is a region of one of the three translation sizes that starts at a multiple of its size: a
page if its addresses are virtual, a frame if they are physical. The alignment is part of the type.

* `PageSize`; `Block`, `Page`, `Frame`;
* `Block.containing` and `Block.ofStart?` build blocks (`ofStart?_eq_ok_iff`);
* `Run`: consecutive blocks, taken one by one with `Run.next?` or folded over with `Run.fold`.
-/

namespace VirtualMemory

/-- The sizes of the regions that one entry can map. -/
inductive PageSize where
  | kib4
  | mib2
  | gib1
deriving DecidableEq, Repr

namespace PageSize

/-- The number of address bits inside a region of the size. -/
def shift : PageSize → Nat
  | kib4 => 12
  | mib2 => 21
  | gib1 => 30

def bytes (s : PageSize) : BitVec 64 := 1#64 <<< s.shift

theorem toNat_bytes (s : PageSize) : s.bytes.toNat = 1 <<< s.shift := by cases s <;> rfl

def name : PageSize → String
  | kib4 => "4KiB"
  | mib2 => "2MiB"
  | gib1 => "1GiB"

end PageSize

/-- **An aligned region** of size `s`. -/
structure Block (k : AddressKind) (s : PageSize) where
  start : Address k
  aligned : start.isAligned s.bytes = true
deriving DecidableEq

abbrev Page (s : PageSize) := Block .virtual s

abbrev Frame (s : PageSize) := Block .physical s

def AddressKind.blockName : AddressKind → String
  | .virtual => "Page"
  | .physical => "PhysFrame"

inductive BlockError where
  | notAligned
deriving DecidableEq, Repr

def BlockError.message : BlockError → String
  | .notAligned => "address is not aligned to the page size"

namespace Block

variable {k : AddressKind} {s : PageSize}

@[ext] theorem ext {a b : Block k s} (h : a.start = b.start) : a = b := by
  cases a; cases b; simp_all

def containing (a : Address k) : Block k s :=
  ⟨a.alignDown s.bytes, a.isAligned_alignDown s.bytes⟩

def ofStart? (a : Address k) : Except BlockError (Block k s) :=
  if h : a.isAligned s.bytes = true then .ok ⟨a, h⟩ else .error .notAligned

def first : Block k s := containing .zero

instance : Inhabited (Block k s) := ⟨first⟩

theorem ofStart?_eq_ok_iff (a : Address k) (b : Block k s) :
    ofStart? a = .ok b ↔ b.start = a := by
  unfold ofStart?
  split
  · simp [Block.ext_iff, eq_comm]
  · rename_i h
    simp only [reduceCtorEq, false_iff]
    rintro rfl
    exact h b.aligned

/-- **An aligned start is kept.** -/
theorem containing_start (b : Block k s) : containing b.start = b :=
  ext (Address.alignDown_of_isAligned b.aligned)

theorem start_toNat_mod (b : Block k s) : b.start.bits.toNat % s.bytes.toNat = 0 :=
  (Address.isAligned_iff _ _).1 b.aligned

/-- The block after this one. After the last one comes the one at zero. -/
def succ (b : Block k s) : Block k s where
  start := b.start + s.bytes
  aligned := by
    have h := b.start_toNat_mod
    rw [Address.isAligned_iff, Address.bits_add, BitVec.toNat_add]
    rw [PageSize.toNat_bytes] at h ⊢
    cases s <;> simp only [PageSize.shift, Nat.reduceShiftLeft] at h ⊢ <;> omega

def describe (b : Block k s) : String :=
  k.blockName ++ "[" ++ s.name ++ "](" ++ b.start.text ++ ")"

end Block

/-! ## Runs -/

/-- **A run of consecutive blocks**: the next one and how many are left. -/
structure Run (k : AddressKind) (s : PageSize) where
  next : Block k s
  left : Nat
deriving DecidableEq

def Block.run {k : AddressKind} {s : PageSize} (b : Block k s) (count : Nat) : Run k s :=
  ⟨b, count⟩

namespace Run

variable {k : AddressKind} {s : PageSize} {σ : Type}

def next? (r : Run k s) : Option (Block k s) × Run k s :=
  match r.left with
  | 0 => (none, r)
  | n + 1 => (some r.next, ⟨r.next.succ, n⟩)

/-- The first blocks of a run, `count` of them if there are so many, and the run after as many
attempts to take one. -/
def take (r : Run k s) : (count : Nat) → List (Block k s) × Run k s
  | 0 => ([], r)
  | n + 1 =>
    match r.next? with
    | (none, r) => r.take n
    | (some b, r) => let rest := r.take n; (b :: rest.1, rest.2)

/-- The bounds on the number of blocks still to come: both are exact. -/
def bounds (r : Run k s) : Nat × Option Nat := (r.left, some r.left)

def foldFrom (f : σ → Block k s → σ) (left : Nat) (b : Block k s) (x : σ) : σ :=
  match left with
  | 0 => x
  | n + 1 => foldFrom f n b.succ (f x b)

/-- **Passes a state through the blocks of a run**, in order. -/
def fold (f : σ → Block k s → σ) (r : Run k s) (init : σ) : σ := foldFrom f r.left r.next init

end Run

end VirtualMemory
