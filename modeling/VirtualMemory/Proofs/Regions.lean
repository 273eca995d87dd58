import VirtualMemory.Proofs.Canonical
import VirtualMemory.Proofs.EntryBits

/-!
# Regions

A leaf maps a region of its size, and an entry that is not in use leaves a region of its level
unmapped. Whatever the tables hold, a walk ends alike for all addresses of a region: of an address,
the tables see the bits above the region, up to bit 47, and a leaf passes on the bits below.

* `Address.AgreeFrom`: addresses with the same bits from a position up to bit 47, in numbers
  (`agreeFrom_iff`), and with one trail (`agreeFrom_iff_trail`);
* `Entry.getLsbD_targetOfLarge`, `Entry.toNat_targetOfLarge_add`: the frame of a leaf has no bit in
  common with an offset, so that nothing is carried over;
* **`Memory.walk_region`**: one leaf translates a whole region;
* **`Memory.walk_uniform`**: walks in a region end alike.
-/

namespace VirtualMemory

namespace Address

/-- **The addresses have the same bits** from position `lo` up to bit 47. -/
def AgreeFrom (lo : Nat) (v v' : VAddr) : Prop :=
  ∀ i < 48, lo ≤ i → v.bits.getLsbD i = v'.bits.getLsbD i

variable {lo hi : Nat} {v v' : VAddr} {l : Level} {s : PageSize}

instance : Decidable (v.AgreeFrom lo v') := inferInstanceAs (Decidable (∀ i < 48, _ → _))

theorem add_zero {k : AddressKind} (a : Address k) : a + (0 : BitVec 64) = a :=
  ext (BitVec.add_zero _)

theorem AgreeFrom.refl (lo : Nat) (v : VAddr) : v.AgreeFrom lo v := fun _ _ _ => rfl

theorem AgreeFrom.of_le (h : v.AgreeFrom lo v') (hle : lo ≤ hi) : v.AgreeFrom hi v' :=
  fun i hi hs => h i hi (Nat.le_trans hle hs)

theorem agreeFrom_iff : v.AgreeFrom lo v' ↔
    v.bits.toNat / 2 ^ lo % 2 ^ (48 - lo) = v'.bits.toNat / 2 ^ lo % 2 ^ (48 - lo) := by
  have hfield : ∀ x i : Nat, (x / 2 ^ lo % 2 ^ (48 - lo)).testBit i =
      (decide (i < 48 - lo) && x.testBit (i + lo)) := by
    intro x i
    rw [Nat.testBit_mod_two_pow, Nat.testBit_div_two_pow]
  constructor
  · intro h
    apply Nat.eq_of_testBit_eq
    intro i
    rw [hfield, hfield]
    by_cases hi : i < 48 - lo
    · have hbit := h (i + lo) (by omega) (by omega)
      rw [BitVec.getLsbD, BitVec.getLsbD] at hbit
      rw [hbit]
    · simp [hi]
  · intro h i hi hs
    have hbit := congrArg (·.testBit (i - lo)) h
    rw [BitVec.getLsbD, BitVec.getLsbD]
    simpa [hfield, Nat.sub_add_cancel hs, show i - lo < 48 - lo by omega] using hbit

theorem agreeFrom_iff_alias : v.AgreeFrom l.shift v' ↔ v.Alias l v' := agreeFrom_iff

theorem agreeFrom_iff_trail :
    v.AgreeFrom l.shift v' ↔ v.trail (4 - l.height) = v'.trail (4 - l.height) :=
  agreeFrom_iff_alias.trans alias_iff

theorem getLsbD_remainder (v : VAddr) (s : PageSize) (i : Nat) :
    (v.remainder s.bytes).getLsbD i = (decide (i < s.shift) && v.bits.getLsbD i) := by
  rw [BitVec.getLsbD, remainder, BitVec.toNat_umod, s.toNat_bytes, Nat.one_shiftLeft,
    Nat.testBit_mod_two_pow]
  rfl

theorem toNat_remainder (v : VAddr) (s : PageSize) :
    (v.remainder s.bytes).toNat = v.bits.toNat % 2 ^ s.shift := by
  rw [remainder, BitVec.toNat_umod, s.toNat_bytes, Nat.one_shiftLeft]

theorem remainder_of_isAligned (hv : v.isAligned s.bytes = true) : v.remainder s.bytes = 0 := by
  simpa [isAligned, remainder] using hv

/-- **The addresses of a region** agree above its size, and their offsets are what they say. -/
theorem agreeFrom_add {o : Nat} (hv : v.isAligned s.bytes = true) (ho : o < 2 ^ s.shift) :
    v.AgreeFrom s.shift (v + BitVec.ofNat 64 o) ∧
      (v + BitVec.ofNat 64 o).remainder s.bytes = BitVec.ofNat 64 o := by
  constructor
  · exact agreeFrom_iff.2 (by rw [toNat_add_div_of_aligned hv ho])
  · have hsum := toNat_add_of_aligned hv ho
    have hlt := (v + BitVec.ofNat 64 o).bits.isLt
    rw [isAligned_iff, s.toNat_bytes, Nat.one_shiftLeft] at hv
    apply BitVec.eq_of_toNat_eq
    rw [toNat_remainder, hsum, BitVec.toNat_ofNat]
    cases s <;> simp only [PageSize.shift] at hv ho ⊢ <;> omega

theorem AgreeFrom.remainder_eq (h : v.AgreeFrom 0 v') (s : PageSize) :
    v.remainder s.bytes = v'.remainder s.bytes := by
  have hs : s.shift < 48 := by cases s <;> decide
  apply BitVec.eq_of_getLsbD_eq
  intro i _
  rw [getLsbD_remainder, getLsbD_remainder]
  by_cases hi : i < s.shift
  · rw [h i (Nat.lt_trans hi hs) (Nat.zero_le i)]
  · simp [hi]

end Address

/-! ## Leaves -/

namespace Entry

variable (e : Entry) (s : PageSize) (v : VAddr) (i : Nat)

theorem targetOfLarge_kib4 : e.targetOfLarge .kib4 = e.target := by
  ext1
  change e.bits &&& addressMask &&& ~~~(PageSize.kib4.bytes - 1) = e.bits &&& addressMask
  rw [BitVec.and_assoc]
  rfl

/-- **The frame of a leaf**: the bits of the address field that are not below the size. -/
theorem getLsbD_targetOfLarge : (e.targetOfLarge s).bits.getLsbD i =
    (decide (s.shift ≤ i) && (decide (i < 52) && e.bits.getLsbD i)) := by
  have hshift : 12 ≤ s.shift := by cases s <;> decide
  by_cases hi : i < 64
  · rw [targetOfLarge, BitVec.getLsbD_and, BitVec.getLsbD_and, getLsbD_addressMask,
      s.getLsbD_not_bytes_sub_one hi]
    by_cases hs : s.shift ≤ i
    · simp [hs, Nat.le_trans hshift hs, Bool.and_comm]
    · simp [hs]
  · rw [BitVec.getLsbD_of_ge _ _ (Nat.le_of_not_lt hi)]
    simp [show ¬ i < 52 by omega]

/-- **An offset does not meet the frame it goes to**: the sum takes each bit from one of them. -/
theorem bits_targetOfLarge_add : (e.targetOfLarge s + v.remainder s.bytes).bits =
    (e.targetOfLarge s).bits ||| v.remainder s.bytes := by
  apply BitVec.add_eq_or_of_and_eq_zero
  apply BitVec.eq_of_getLsbD_eq
  intro i hi
  rw [BitVec.getLsbD_and, getLsbD_targetOfLarge, v.getLsbD_remainder]
  by_cases hs : s.shift ≤ i
  · simp [hs, Nat.not_lt_of_le hs]
  · simp [hs]

theorem getLsbD_targetOfLarge_add : (e.targetOfLarge s + v.remainder s.bytes).bits.getLsbD i =
    if i < s.shift then v.bits.getLsbD i else (decide (i < 52) && e.bits.getLsbD i) := by
  rw [bits_targetOfLarge_add, BitVec.getLsbD_or, getLsbD_targetOfLarge, v.getLsbD_remainder]
  by_cases hs : i < s.shift
  · simp [hs, Nat.not_le_of_lt hs]
  · simp [hs, Nat.le_of_not_lt hs]

theorem toNat_targetOfLarge_lt : (e.targetOfLarge s).bits.toNat < 2 ^ 52 := by
  have hle : (e.targetOfLarge s).bits.toNat ≤ (e.bits &&& addressMask).toNat := by
    rw [targetOfLarge, BitVec.toNat_and]
    exact Nat.and_le_left
  rw [toNat_and_addressMask] at hle
  omega

theorem toNat_targetOfLarge_add : (e.targetOfLarge s + v.remainder s.bytes).bits.toNat =
    (e.targetOfLarge s).bits.toNat + v.bits.toNat % 2 ^ s.shift := by
  have hframe := e.toNat_targetOfLarge_lt s
  have hoffset : v.bits.toNat % 2 ^ s.shift < 2 ^ s.shift := Nat.mod_lt _ (Nat.two_pow_pos _)
  have hsize : 2 ^ s.shift ≤ 2 ^ 30 := by cases s <;> decide
  rw [Address.bits_add, BitVec.toNat_add, v.toNat_remainder]
  exact Nat.mod_eq_of_lt (by omega)

end Entry

/-- **A leaf translates an address** by its frame and the offset, with the same attributes
everywhere. -/
theorem Translation.exists_ofLeaf_eq {l : Level} {s : PageSize} (h : l.leafSize? = some s)
    (e : Entry) :
    ∃ a, ∀ v, ofLeaf l e v = mapped (e.targetOfLarge s + v.remainder s.bytes) a l := by
  cases l <;> cases h
  · exact ⟨_, fun v => rfl⟩
  · exact ⟨_, fun v => rfl⟩
  · refine ⟨e.flags.decode, fun v => ?_⟩
    rw [e.targetOfLarge_kib4]
    rfl

namespace Memory

variable {mem : Memory} {root p : PAddr} {v v' : VAddr} {a : Attributes} {l : Level} {e : Entry}

theorem exists_leafSize_of_leaf (he : mem.leaf root (v.trail (4 - l.height)) = some e) :
    ∃ s, l.leafSize? = some s := by
  obtain ⟨t, -, hr⟩ := exists_role_of_leaf he
  cases l with
  | pml4 => exact absurd (Entry.role_eq_leaf_iff.1 hr).2 Bool.false_ne_true
  | pdpt | pd | pt => exact ⟨_, rfl⟩

/-- **One leaf translates a region**: every walk from it reads the leaf, and ends there. -/
theorem walk_region (h : mem.walk root v = .mapped p a l) : ∃ s e t, l.leafSize? = some s ∧
    ∀ v', v.AgreeFrom s.shift v' → ⟨l, t, e⟩ ∈ mem.visits root v' ∧
      mem.walk root v' = .mapped (e.targetOfLarge s + v'.remainder s.bytes) a l := by
  obtain ⟨e, he, hleaf⟩ := walk_eq_mapped_iff.1 h
  obtain ⟨s, hs⟩ := exists_leafSize_of_leaf he
  obtain ⟨b, hb⟩ := Translation.exists_ofLeaf_eq hs e
  obtain rfl : b = a := by
    rw [hb] at hleaf
    injection hleaf
  obtain ⟨t, ht, hte, -⟩ := exists_tableAt_of_slot (v.trail_height l ▸ slot_of_leafIn he)
  refine ⟨s, e, t, hs, fun v' hv' => ?_⟩
  rw [Level.shift_eq_of_leafSize? hs, Address.agreeFrom_iff_trail] at hv'
  constructor
  · have hparts : l.index v :: v.trail (3 - l.height) = l.index v' :: v'.trail (3 - l.height) := by
      rw [← v.trail_height, ← v'.trail_height, hv']
    obtain ⟨hindex, hup⟩ := List.cons.inj hparts
    refine mem_visits_iff.2 ⟨3 - l.height, t, hup ▸ ht, ?_⟩
    rw [visitAt_height, ← hindex, hte]
  · exact walk_eq_mapped_iff.2 ⟨e, hv' ▸ he, hb v'⟩

theorem walk_eq_missing_of_agree {t : PAddr} (h : mem.walk root v = .missing l t)
    (hv : v.AgreeFrom l.shift v') : mem.walk root v' = .missing l t := by
  rw [Address.agreeFrom_iff_trail] at hv
  have hup := Address.trail_eq_of_le hv (show 3 - l.height ≤ 4 - l.height by omega)
  rw [walk_eq_missing_iff] at h ⊢
  rwa [← hv, ← hup]

theorem walk_eq_of_agree (h : v.AgreeFrom 0 v') : mem.walk root v' = mem.walk root v := by
  cases hw : mem.walk root v with
  | mapped p a l =>
    obtain ⟨s, e, t, -, hregion⟩ := walk_region hw
    rw [(hregion v' (h.of_le (Nat.zero_le _))).2, ← h.remainder_eq,
      ← (hregion v (.refl _ v)).2, hw]
  | missing l t => exact walk_eq_missing_of_agree hw (h.of_le (Nat.zero_le _))

/-- **Walks are uniform**: one leaf, or one missing entry, answers for all addresses with the same
bits above its region, and bits 48 to 63 do not matter. -/
theorem walk_uniform (mem : Memory) (root : PAddr) (v v' : VAddr) :
    (∀ p a l, mem.walk root v = .mapped p a l → ∃ s, l.leafSize? = some s ∧
      (v.AgreeFrom s.shift v' → ∃ p' t e, mem.walk root v' = .mapped p' a l ∧
        ⟨l, t, e⟩ ∈ mem.visits root v ∧ ⟨l, t, e⟩ ∈ mem.visits root v' ∧
        (∀ i, s.shift ≤ i → p'.bits.getLsbD i = p.bits.getLsbD i ∧
          p'.bits.getLsbD i = (e.targetOfLarge s).bits.getLsbD i) ∧
        (∀ i < s.shift, p'.bits.getLsbD i = v'.bits.getLsbD i) ∧
        p'.bits.toNat = (e.targetOfLarge s).bits.toNat + v'.bits.toNat % 2 ^ s.shift)) ∧
    (∀ l t, mem.walk root v = .missing l t → v.AgreeFrom l.shift v' →
      mem.walk root v' = .missing l t) ∧
    (v.AgreeFrom 0 v' → mem.walk root v' = mem.walk root v) := by
  refine ⟨fun p a l h => ?_, fun l t => walk_eq_missing_of_agree, walk_eq_of_agree⟩
  obtain ⟨s, e, t, hs, hregion⟩ := walk_region h
  refine ⟨s, hs, fun hv => ?_⟩
  obtain ⟨hvisit, hwalk⟩ := hregion v (.refl _ v)
  obtain ⟨hvisit', hwalk'⟩ := hregion v' hv
  obtain rfl : p = e.targetOfLarge s + v.remainder s.bytes := by
    rw [h] at hwalk
    injection hwalk
  refine ⟨_, t, e, hwalk', hvisit, hvisit', fun i hi => ?_, fun i hi => ?_,
    e.toNat_targetOfLarge_add s v'⟩
  · rw [e.getLsbD_targetOfLarge_add, e.getLsbD_targetOfLarge_add, e.getLsbD_targetOfLarge,
      if_neg (Nat.not_lt_of_le hi), if_neg (Nat.not_lt_of_le hi), decide_eq_true hi]
    exact ⟨rfl, (Bool.true_and _).symm⟩
  · rw [e.getLsbD_targetOfLarge_add, if_pos hi]

/-- A large leaf with all its bits set, below a link of the root's that bears the mark of one. -/
def foreign : Memory :=
  ((blank.set ⟨0x1000⟩ (Level.pml4.index ⟨0⟩) ⟨0x2081⟩).set ⟨0x2000⟩ (Level.pdpt.index ⟨0⟩)
    ⟨0x3001⟩).set ⟨0x3000⟩ (Level.pd.index ⟨0⟩) ⟨BitVec.allOnes 64⟩

theorem walk_uniform_foreign :
    foreign.walk ⟨0x1000⟩ ⟨0⟩ = .mapped ⟨0xfffffffe00000⟩ (.user ∪ .noExecute) .pd ∧
      (⟨0⟩ : VAddr).AgreeFrom 21 ⟨0xabcd0000001fffff⟩ ∧
      ∃ p, foreign.walk ⟨0x1000⟩ ⟨0xabcd0000001fffff⟩ = .mapped p (.user ∪ .noExecute) .pd ∧
        (∀ i, 21 ≤ i → p.bits.getLsbD i = (0xfffffffe00000 : BitVec 64).getLsbD i) ∧
        ∀ i < 21, p.bits.getLsbD i = (0xabcd0000001fffff : BitVec 64).getLsbD i := by
  have hwalk : foreign.walk ⟨0x1000⟩ ⟨0⟩ =
      .mapped ⟨0xfffffffe00000⟩ (.user ∪ .noExecute) .pd := by decide +kernel
  have hagree : (⟨0⟩ : VAddr).AgreeFrom 21 ⟨0xabcd0000001fffff⟩ := by decide
  obtain ⟨s, hs, hregion⟩ := (walk_uniform foreign ⟨0x1000⟩ ⟨0⟩ ⟨0xabcd0000001fffff⟩).1 _ _ _ hwalk
  obtain rfl : PageSize.mib2 = s := Option.some.inj hs
  obtain ⟨p, t, e, hwalk', -, -, habove, hbelow, -⟩ := hregion hagree
  exact ⟨hwalk, hagree, p, hwalk', fun i hi => (habove i hi).1, hbelow⟩

end Memory

end VirtualMemory
