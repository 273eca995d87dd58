import VirtualMemory.Attributes
import VirtualMemory.Proofs.Hierarchy
import Mathlib.Data.Nat.Bitwise

/-!
# The fields of an entry

The address field and the flags of an entry do not disturb each other: an entry made for a frame
below `2 ^ 52` names that frame, and means what its flags say. In a large leaf the field leaves room
for one flag more.

* `EntryFlags.getLsbD_enlarged`, `EntryFlags.getLsbD_reduced`: flags rewritten for another size;
* `Entry.getLsbD_make`, `Entry.target_make`;
* `Entry.targetOfLarge_make`, `Entry.flagsOfLarge_make` for large leaves;
* **`Entry.link?_make_asLink`**: the entries made for tables link them;
* **`Entry.isLeafAt_make_asLeaf`**, `isLeafAt_make_enlarged`: the entries made for pages are leaves;
* **`Attributes.decode_leaf`**, **`decode_large`**: the attributes of a page, read back from its leaf.
-/

namespace VirtualMemory

/-- The address starts a frame that an entry can name. -/
def Address.Nameable (a : PAddr) : Prop := a.isAligned 4096 = true ∧ a.bits.toNat < 2 ^ 52

theorem PageSize.getLsbD_not_bytes_sub_one (s : PageSize) {i : Nat} (hi : i < 64) :
    (~~~(s.bytes - 1)).getLsbD i = decide (s.shift ≤ i) := by
  have hmask : ∀ i < 64, (~~~(s.bytes - 1)).getLsbD i = decide (s.shift ≤ i) := by
    cases s <;> decide
  exact hmask i hi

theorem Address.getLsbD_of_isAligned {k : AddressKind} {a : Address k} {s : PageSize} {i : Nat}
    (h : a.isAligned s.bytes = true) (hi : i < s.shift) : a.bits.getLsbD i = false := by
  rw [isAligned_iff, s.toNat_bytes, Nat.one_shiftLeft] at h
  have hbit := Nat.testBit_mod_two_pow a.bits.toNat s.shift i
  rw [h, Nat.zero_testBit, decide_eq_true hi, Bool.true_and] at hbit
  exact hbit.symm

namespace EntryFlags

variable (f : EntryFlags) (i : Nat)

/-- **Rewritten for a large leaf**, flags have the mark in bit 7 and their selector in bit 12. -/
theorem getLsbD_enlarged : f.enlarged.bits.getLsbD i =
    (f.bits.getLsbD i || decide (i = 7) || decide (i = 12) && f.bits.getLsbD 7) := by
  have hpat : f.contains pat = f.bits.getLsbD 7 := f.contains_bit (by decide)
  have hite : (if f.bits.getLsbD 7 then f ∪ patLarge else f).bits.getLsbD i =
      (f.bits.getLsbD i || decide (i = 12) && f.bits.getLsbD 7) := by
    cases f.bits.getLsbD 7 with
    | false => simp
    | true =>
      by_cases hi : i = 12
      · subst hi; simp [patLarge]
      · simp [patLarge, hi, Ne.symm hi]
  rw [enlarged, hpat, FlagSet.bits_union, BitVec.getLsbD_or, hite]
  by_cases hi : i = 7
  · subst hi; simp [large]
  · simp [large, hi, Ne.symm hi]

/-- **Rewritten for a 4 KiB leaf**, they have the selector in bit 7 again, and bit 12 clear. -/
theorem getLsbD_reduced : f.reduced.bits.getLsbD i =
    if i = 7 then f.bits.getLsbD 12 else f.bits.getLsbD i && !decide (i = 12) := by
  have hpat : f.contains patLarge = f.bits.getLsbD 12 := f.contains_bit (by decide)
  have hite : (if f.bits.getLsbD 12 then pat else ∅ : EntryFlags).bits.getLsbD i =
      (decide (i = 7) && f.bits.getLsbD 12) := by
    cases f.bits.getLsbD 12 with
    | false => simp
    | true =>
      by_cases hi : i = 7
      · subst hi; rfl
      · simp [pat, hi, Ne.symm hi]
  rw [reduced, hpat, FlagSet.bits_union, BitVec.getLsbD_or, hite]
  by_cases h₇ : i = 7
  · subst h₇; simp [large, patLarge]
  · by_cases h₁₂ : i = 12
    · subst h₁₂; simp [large, patLarge]
    · simpa [large, patLarge, h₇, h₁₂, Ne.symm h₇, Ne.symm h₁₂] using BitVec.lt_of_getLsbD

end EntryFlags

namespace Entry

variable {a : PAddr} {f : EntryFlags} {l : Level} {s : PageSize}

theorem getLsbD_addressMask (i : Nat) :
    addressMask.getLsbD i = (decide (12 ≤ i) && decide (i < 52)) := by
  by_cases h : i < 64
  · have key : ∀ i : Fin 64, addressMask.getLsbD i = (decide (12 ≤ i.val) && decide (i.val < 52)) := by
      decide
    exact key ⟨i, h⟩
  · have h' : ¬ i < 52 := by omega
    rw [BitVec.getLsbD_of_ge _ _ (Nat.le_of_not_lt h)]
    simp [h']

theorem getLsbD_make (a : PAddr) (f : EntryFlags) (i : Nat) :
    (make a f).bits.getLsbD i =
      ((a.bits.getLsbD i && (decide (12 ≤ i) && decide (i < 52))) || f.bits.getLsbD i) := by
  rw [make, BitVec.getLsbD_or, BitVec.getLsbD_and, getLsbD_addressMask]

theorem toNat_and_addressMask (b : BitVec 64) :
    (b &&& addressMask).toNat = b.toNat % 2 ^ 52 / 2 ^ 12 * 2 ^ 12 := by
  apply Nat.eq_of_testBit_eq
  intro i
  rw [BitVec.testBit_toNat, BitVec.getLsbD_and, getLsbD_addressMask, ← BitVec.testBit_toNat,
    Nat.testBit_mul_two_pow, Nat.testBit_div_two_pow, Nat.testBit_mod_two_pow]
  by_cases hi : 12 ≤ i
  · rw [Nat.sub_add_cancel hi, decide_eq_true hi, Bool.true_and, Bool.true_and, Bool.and_comm]
  · simp [hi]

theorem and_addressMask (ha : a.Nameable) : a.bits &&& addressMask = a.bits := by
  obtain ⟨h₁, h₂⟩ := ha
  rw [Address.isAligned_iff] at h₁
  change _ % 2 ^ 12 = 0 at h₁
  apply BitVec.eq_of_toNat_eq
  rw [toNat_and_addressMask]
  omega

theorem bits_target_make (hf : f.bits &&& addressMask = 0) :
    (make a f).target.bits = a.bits &&& addressMask := by
  rw [target, make, BitVec.and_or_distrib_right, BitVec.and_assoc, BitVec.and_self, hf]
  exact BitVec.or_zero

/-- **An entry names the frame it was made for.** -/
theorem target_make (ha : a.Nameable) (hf : f.bits &&& addressMask = 0) :
    (make a f).target = a := by
  ext1
  rw [bits_target_make hf, and_addressMask ha]

theorem bits_targetOfLarge_make (ha : a.isAligned s.bytes = true)
    (hf : f.bits &&& addressMask &&& ~~~(s.bytes - 1) = 0) :
    ((make a f).targetOfLarge s).bits = a.bits &&& addressMask := by
  have hkeep : a.bits &&& addressMask &&& ~~~(s.bytes - 1) = a.bits &&& addressMask := by
    apply BitVec.eq_of_getLsbD_eq
    intro i hi
    rw [BitVec.getLsbD_and, BitVec.getLsbD_and, s.getLsbD_not_bytes_sub_one hi]
    by_cases hs : s.shift ≤ i
    · simp [hs]
    · simp [a.getLsbD_of_isAligned ha (Nat.lt_of_not_le hs)]
  rw [targetOfLarge, make, BitVec.and_or_distrib_right, BitVec.and_or_distrib_right,
    BitVec.and_assoc a.bits, BitVec.and_self, hkeep, hf]
  exact BitVec.or_zero

theorem targetOfLarge_make (ha : a.isAligned s.bytes = true) (hf : f.bits &&& addressMask = 0) :
    (make a f).targetOfLarge s = (make a f).target := by
  ext1
  rw [bits_targetOfLarge_make ha (by rw [hf]; exact BitVec.zero_and), bits_target_make hf]

theorem isPresent_make (a : PAddr) (f : EntryFlags) :
    (make a f).isPresent = f.bits.getLsbD 0 := by
  rw [isPresent_eq, getLsbD_make]; simp

theorem isLarge_make (a : PAddr) (f : EntryFlags) : (make a f).isLarge = f.bits.getLsbD 7 := by
  rw [isLarge_eq, getLsbD_make]; simp

/-! ## Links -/

theorem asLink_eq (f : EntryFlags) : f.asLink = ⟨7⟩ ∨ f.asLink = ⟨0x103⟩ := by
  unfold EntryFlags.asLink
  split
  · exact .inl rfl
  · exact .inr rfl

theorem isPresent_make_asLink (a : PAddr) (f : EntryFlags) :
    (make a f.asLink).isPresent = true := by
  rw [isPresent_make]
  rcases asLink_eq f with h | h <;> rw [h] <;> rfl

theorem isLarge_make_asLink (a : PAddr) (f : EntryFlags) : (make a f.asLink).isLarge = false := by
  rw [isLarge_make]
  rcases asLink_eq f with h | h <;> rw [h] <;> rfl

theorem isLeafAt_make_asLink (a : PAddr) (f : EntryFlags) (hl : l ≠ .pt) :
    (make a f.asLink).isLeafAt l = false := by
  have hL := isLarge_make_asLink a f
  cases l <;> first | rfl | exact hL | exact absurd rfl hl

/-- **An entry made for a table links it**, at every level but the lowest. -/
theorem link?_make_asLink (ha : a.Nameable) (f : EntryFlags) (hl : l ≠ .pt) :
    (make a f.asLink).link? l = some a := by
  have ht : (make a f.asLink).target = a :=
    target_make ha (by rcases asLink_eq f with h | h <;> rw [h] <;> rfl)
  rw [link?, role, isPresent_make_asLink, isLeafAt_make_asLink a f hl, ht]; rfl

/-! ## Leaves -/

theorem isPresent_make_asLeaf (p : PAddr) (f : EntryFlags) :
    (make p f.asLeaf).isPresent = true := by
  rw [isPresent_make]
  simp [EntryFlags.asLeaf, EntryFlags.present]

theorem isLeafAt_make_asLeaf (p : PAddr) (f : EntryFlags) :
    (make p f.asLeaf).isPresent = true ∧ (make p f.asLeaf).isLeafAt .pt = true :=
  ⟨isPresent_make_asLeaf p f, rfl⟩

theorem isLeafAt_make_enlarged (p : PAddr) (f : EntryFlags) :
    (make p f.asLeaf.enlarged).isPresent = true ∧
      (make p f.asLeaf.enlarged).isLeafAt .pd = true := by
  constructor
  · rw [isPresent_make, EntryFlags.getLsbD_enlarged]
    simp [EntryFlags.asLeaf, EntryFlags.present]
  · rw [isLeafAt, isLarge_make, EntryFlags.getLsbD_enlarged]
    simp

/-! ## Attributes read back -/

theorem flags_make (a : PAddr) (hf : f.bits &&& addressMask = 0) :
    (make a f).flags = f.onlyNamed := by
  have hbits : (make a f).bits &&& ~~~addressMask = f.bits := by
    apply BitVec.eq_of_getLsbD_eq
    intro i hi
    have hclear := congrArg (·.getLsbD i) hf
    simp only [BitVec.getLsbD_and, BitVec.ofNat_eq_ofNat, BitVec.getLsbD_zero] at hclear
    rw [BitVec.getLsbD_and, make, BitVec.getLsbD_or, BitVec.getLsbD_and, BitVec.getLsbD_not]
    cases hm : addressMask.getLsbD i <;> simp_all
  rw [flags, hbits]

theorem flagsOfLarge_eq (e : Entry) : e.flagsOfLarge = e.asFlags.onlyNamed := by
  ext1
  show e.bits &&& (~~~addressMask ||| EntryFlags.patLarge.bits) &&& entryFlagKind.named =
    e.bits &&& entryFlagKind.named
  rw [BitVec.and_assoc]
  rfl

/-- The memory-type selector of a large leaf lies among bits that a large frame has clear. -/
theorem flagsOfLarge_make (ha : a.isAligned s.bytes = true) (hs : 12 < s.shift) (f : EntryFlags) :
    (make a f).flagsOfLarge = f.onlyNamed := by
  have hmask : addressMask &&& entryFlagKind.named = BitVec.twoPow 64 12 := by decide
  rw [flagsOfLarge_eq]
  ext1
  show (a.bits &&& addressMask ||| f.bits) &&& entryFlagKind.named = f.bits &&& entryFlagKind.named
  rw [BitVec.and_or_distrib_right, BitVec.and_assoc, hmask, BitVec.and_twoPow,
    a.getLsbD_of_isAligned ha hs]
  exact BitVec.zero_or

end Entry

namespace Attributes

/-- **The attributes that a mapping is seen to have**: of those asked for, the bits with a name,
without the cache bits unless they ask for uncached memory. -/
def readBack (a : Attributes) : Attributes :=
  if a ∩ cacheMask = uncached then a.onlyNamed else a.onlyNamed \ cacheMask

variable (a b : Attributes)

theorem onlyNamed_inter (h : b.onlyNamed = b) : a.onlyNamed ∩ b = a ∩ b := by
  rw [FlagSet.ext_iff, FlagSet.bits_onlyNamed] at h
  ext1
  rw [FlagSet.bits_inter, FlagSet.bits_onlyNamed, FlagSet.bits_inter, BitVec.and_assoc,
    BitVec.and_comm _ b.bits, h]

theorem contains_onlyNamed (h : b.onlyNamed = b) : a.onlyNamed.contains b = a.contains b := by
  rw [Bool.eq_iff_iff, FlagSet.contains_iff, FlagSet.contains_iff, onlyNamed_inter a b h]

theorem encode_onlyNamed : encode a.onlyNamed = a.encode := by
  unfold encode cachePolicy
  rw [contains_onlyNamed a _ rfl, contains_onlyNamed a _ rfl, contains_onlyNamed a _ rfl,
    onlyNamed_inter a _ rfl]

theorem readBack_onlyNamed : readBack a.onlyNamed = a.readBack := by
  have h : a.onlyNamed.onlyNamed = a.onlyNamed := by
    ext1
    rw [FlagSet.bits_onlyNamed, FlagSet.bits_onlyNamed, BitVec.and_assoc, BitVec.and_self]
  unfold readBack
  rw [onlyNamed_inter a _ rfl, h]

theorem exists_onlyNamed_eq : ∃ i : Fin 32, a.onlyNamed = ⟨BitVec.ofNat 32 i⟩ := by
  have hle : (a.bits &&& 31#32).toNat ≤ 31 := by
    rw [BitVec.toNat_and]; exact Nat.and_le_right
  refine ⟨⟨(a.bits &&& 31#32).toNat, by omega⟩, ?_⟩
  ext1
  rw [BitVec.ofNat_toNat, BitVec.setWidth_eq]
  rfl

/-- What holds of flags and of their attributes can be tried on 32 words: only five named bits
count. -/
theorem of_readBack {P : EntryFlags → Attributes → Prop}
    (h : ∀ i : Fin 32, P (encode ⟨BitVec.ofNat 32 i⟩) (readBack ⟨BitVec.ofNat 32 i⟩)) :
    P a.encode a.readBack := by
  obtain ⟨i, hi⟩ := a.exists_onlyNamed_eq
  rw [← encode_onlyNamed, ← readBack_onlyNamed, hi]
  exact h i

/-- **A leaf of a 4 KiB page shows the attributes asked for**, as far as they have a meaning. -/
theorem decode_leaf (p : PAddr) :
    (Entry.make p a.encode.asLeaf).flags.decode = a.readBack ∧
      a.encode.asLeaf.bits &&& Entry.addressMask = 0 := by
  obtain ⟨hflags, hmask⟩ := a.of_readBack
    (P := fun f b => EntryFlags.decode f.asLeaf.onlyNamed = b ∧
      f.asLeaf.bits &&& Entry.addressMask = 0) (by decide +kernel)
  exact ⟨by rw [Entry.flags_make p hmask, hflags], hmask⟩

theorem decode_large {p : PAddr} (hp : p.isAligned PageSize.mib2.bytes = true) :
    (Entry.make p a.encode.asLeaf.enlarged).flagsOfLarge.reduced.decode = a.readBack ∧
      a.encode.asLeaf.enlarged.bits &&& Entry.addressMask = 0 := by
  obtain ⟨hflags, hmask⟩ := a.of_readBack
    (P := fun f b => (EntryFlags.reduced f.asLeaf.enlarged.onlyNamed).decode = b ∧
      f.asLeaf.enlarged.bits &&& Entry.addressMask = 0) (by decide +kernel)
  exact ⟨by rw [Entry.flagsOfLarge_make hp (by decide), hflags], hmask⟩

end Attributes

end VirtualMemory
