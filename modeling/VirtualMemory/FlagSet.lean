import VirtualMemory.Hex

/-!
# Words of named flags

A flag word is a machine word some of whose bits have names. All bits are kept, named or not, so
that a register or entry read from the machine can be written back unchanged.

* `FlagKind`: the name of a kind of flag word and its flags, in the order they are printed;
* `FlagSet`: a word of a kind, with the set operations `∪`, `∩`, `\`, `^^^` on its bits;
* `FlagSet.onlyNamed` keeps the named bits only (`onlyNamed_eq_self_iff`);
* `FlagSet.describe` prints the names, and what no name covers, in hexadecimal.
-/

namespace VirtualMemory

/-- **A kind of flag word**: what it is called, and its flags in the order they are printed. Two
flags may share a bit; the first one then gives the bit its printed name. -/
structure FlagKind (w : Nat) where
  name : String
  flags : List (String × BitVec w)

def FlagKind.named {w : Nat} (k : FlagKind w) : BitVec w :=
  k.flags.foldr (fun f bits => f.2 ||| bits) 0

/-- **A flag word** of the kind `k`. -/
structure FlagSet {w : Nat} (k : FlagKind w) where
  bits : BitVec w
deriving DecidableEq

namespace FlagSet

variable {w : Nat} {k : FlagKind w}

@[ext] theorem ext {s t : FlagSet k} (h : s.bits = t.bits) : s = t := by
  cases s; cases t; simp_all

/-! ## Set operations -/

instance : EmptyCollection (FlagSet k) := ⟨⟨0⟩⟩
instance : Union (FlagSet k) := ⟨fun s t => ⟨s.bits ||| t.bits⟩⟩
instance : Inter (FlagSet k) := ⟨fun s t => ⟨s.bits &&& t.bits⟩⟩
instance : SDiff (FlagSet k) := ⟨fun s t => ⟨s.bits &&& ~~~t.bits⟩⟩

instance : XorOp (FlagSet k) := ⟨fun s t => ⟨s.bits ^^^ t.bits⟩⟩

instance : Inhabited (FlagSet k) := ⟨∅⟩

def bit (i : Nat) : FlagSet k := ⟨BitVec.twoPow w i⟩

@[simp] theorem bits_empty : (∅ : FlagSet k).bits = 0 := rfl
@[simp] theorem bits_union (s t : FlagSet k) : (s ∪ t).bits = s.bits ||| t.bits := rfl
@[simp] theorem bits_inter (s t : FlagSet k) : (s ∩ t).bits = s.bits &&& t.bits := rfl
@[simp] theorem bits_sdiff (s t : FlagSet k) : (s \ t).bits = s.bits &&& ~~~t.bits := rfl
@[simp] theorem bits_xor (s t : FlagSet k) : (s ^^^ t).bits = s.bits ^^^ t.bits := rfl
@[simp] theorem bits_bit (i : Nat) : (bit i : FlagSet k).bits = BitVec.twoPow w i := rfl

/-- Every bit of `t` is set in `s`. -/
def contains (s t : FlagSet k) : Bool := s.bits &&& t.bits == t.bits

theorem contains_iff (s t : FlagSet k) : s.contains t = true ↔ s ∩ t = t := by
  simp [contains, FlagSet.ext_iff]

theorem contains_bit (s : FlagSet k) {i : Nat} (h : i < w) :
    s.contains (bit i) = s.bits.getLsbD i := by
  simp only [contains, bits_bit, BitVec.and_twoPow]
  have h₀ : BitVec.twoPow w i ≠ 0#w := fun e => by
    have := congrArg (·.getLsbD i) e
    simp [h] at this
  cases s.bits.getLsbD i <;> simp [Ne.symm h₀]

def isEmpty (s : FlagSet k) : Bool := s.bits == 0

theorem isEmpty_iff (s : FlagSet k) : s.isEmpty = true ↔ s = ∅ := by
  simp [isEmpty, FlagSet.ext_iff]

/-! ## Named bits -/

/-- Keeps the bits that have a name. -/
def onlyNamed (s : FlagSet k) : FlagSet k := ⟨s.bits &&& k.named⟩

def isNamed (s : FlagSet k) : Bool := s.bits &&& ~~~k.named == 0

@[simp] theorem bits_onlyNamed (s : FlagSet k) : s.onlyNamed.bits = s.bits &&& k.named := rfl

theorem onlyNamed_union (s t : FlagSet k) : (s ∪ t).onlyNamed = s.onlyNamed ∪ t.onlyNamed :=
  ext (BitVec.and_or_distrib_right ..)

theorem onlyNamed_eq_self_iff (s : FlagSet k) : s.onlyNamed = s ↔ s.isNamed = true := by
  simp only [FlagSet.ext_iff, bits_onlyNamed, isNamed, beq_iff_eq]
  constructor <;> intro h
  · rw [← h]
    ext i hi
    simp
  · apply BitVec.eq_of_getLsbD_eq
    intro i hi
    have := congrArg (·.getLsbD i) h
    simp [hi] at this ⊢
    exact this

/-! ## Text -/

/-- The names of the flags that `s` holds, leaving out a flag all of whose bits earlier names
cover, and the bits that stay without a name. The argument `rest` holds the bits not yet named. -/
def nameBits (s : FlagSet k) :
    List (String × BitVec w) → (rest : BitVec w) → List String × BitVec w
  | [], rest => ([], rest)
  | (name, flag) :: more, rest =>
    if s.bits &&& flag = flag ∧ rest &&& flag ≠ 0 then
      let named := s.nameBits more (rest &&& ~~~flag)
      (name :: named.1, named.2)
    else s.nameBits more rest

/-- **The text of a flag word**: the name of its kind, and in parentheses its flags with bars
between them, bits without a name last in hexadecimal. The empty word shows as `0x0`. -/
def describe (s : FlagSet k) : String :=
  let named := s.nameBits k.flags s.bits
  let parts := named.1 ++ if named.2 = 0 then [] else [Hex.text named.2]
  k.name ++ "(" ++ (if parts.isEmpty then Hex.text s.bits else " | ".intercalate parts) ++ ")"

end FlagSet

end VirtualMemory
