import VirtualMemory.Proofs.Regions

/-!
# Leaves of three sizes

Bit 7 of a leaf marks it as large or selects a memory type, and bit 12 selects a memory type or
belongs to the address. Which of the two it is, the size of the leaf decides, and flags move from one
place to the other when they are rewritten for another size. On the way nothing is lost.

* `EntryFlags.reduced_enlarged`, `EntryFlags.enlarged_reduced`: flags, there and back again;
* `Entry.small_make`, `Entry.large_make`: a leaf of either kind holds its frame and its flags;
* `Entry.getLsbD_remake`: what is left of a leaf that is read and written anew;
* **`Entry.leaves_round_trip`**: flags and frames, at all three sizes and in both directions.
-/

namespace VirtualMemory

/-! ## Flags -/

namespace EntryFlags

variable {f : EntryFlags}

/-- **There and back**: the flags of a 4 KiB leaf survive the way to a large one. -/
theorem reduced_enlarged (h : f.bits.getLsbD 12 = false) : f.enlarged.reduced = f := by
  ext1
  apply BitVec.eq_of_getLsbD_eq
  intro i _
  rw [getLsbD_reduced]
  split
  next hi =>
    rw [getLsbD_enlarged, h, hi]
    rfl
  next h₇ =>
    by_cases h₁₂ : i = 12
    · rw [h₁₂, h]
      exact Bool.and_false _
    · rw [getLsbD_enlarged, decide_eq_false h₇, decide_eq_false h₁₂]
      simp

theorem enlarged_reduced (h : f.bits.getLsbD 7 = true) : f.reduced.enlarged = f := by
  ext1
  apply BitVec.eq_of_getLsbD_eq
  intro i _
  rw [getLsbD_enlarged, getLsbD_reduced, getLsbD_reduced, if_pos rfl]
  split
  next hi =>
    rw [hi, h]
    exact Bool.or_eq_true_iff.2 (.inl (Bool.or_true _))
  next h₇ =>
    by_cases h₁₂ : i = 12
    · simp [h₁₂]
    · simp [h₇, h₁₂]

theorem onlyNamed_enlarged (hf : f.onlyNamed = f) : f.enlarged.onlyNamed = f.enlarged := by
  unfold enlarged
  split
  · rw [FlagSet.onlyNamed_union, FlagSet.onlyNamed_union, hf]
    rfl
  · rw [FlagSet.onlyNamed_union, hf]
    rfl

theorem and_eq_zero_of_named {mask : BitVec 64} (hf : f.onlyNamed = f)
    (hmask : entryFlagKind.named &&& mask = 0) : f.bits &&& mask = 0 := by
  rw [← hf, FlagSet.bits_onlyNamed, BitVec.and_assoc, hmask]
  exact BitVec.and_zero

end EntryFlags

/-! ## Entries -/

theorem Address.isAligned_page_of_isAligned {k : AddressKind} {a : Address k} {s : PageSize}
    (ha : a.isAligned s.bytes = true) : a.isAligned 4096 = true := by
  rw [isAligned_iff, s.toNat_bytes] at ha
  rw [isAligned_page_iff]
  cases s <;> simp only [PageSize.shift, Nat.reduceShiftLeft] at ha <;> omega

namespace Entry

variable {p : PAddr} {f : EntryFlags} {s : PageSize} {e : Entry}

theorem small_make (hp : p.Nameable) (hf : f.onlyNamed = f) (h₁₂ : f.bits.getLsbD 12 = false) :
    (make p f).target = p ∧ (make p f).flags = f := by
  have hmask : entryFlagKind.named &&& addressMask = BitVec.twoPow 64 12 := by decide
  have hclear : f.bits &&& addressMask = 0 := by
    rw [← hf, FlagSet.bits_onlyNamed, BitVec.and_assoc, hmask, BitVec.and_twoPow, h₁₂]
    rfl
  exact ⟨target_make hp hclear, (flags_make p hclear).trans hf⟩

theorem large_make (hs : s ≠ .kib4) (ha : p.isAligned s.bytes = true) (hp : p.Nameable)
    (hf : f.onlyNamed = f) : (make p f).targetOfLarge s = p ∧ (make p f).flagsOfLarge = f := by
  have hfree : entryFlagKind.named &&& (addressMask &&& ~~~(s.bytes - 1)) = 0 := by
    cases s <;> first | exact absurd rfl hs | decide
  have hshift : 12 < s.shift := by cases s <;> first | exact absurd rfl hs | decide
  have hclear : f.bits &&& addressMask &&& ~~~(s.bytes - 1) = 0 := by
    rw [BitVec.and_assoc, EntryFlags.and_eq_zero_of_named hf hfree]
  refine ⟨?_, (flagsOfLarge_make ha hshift f).trans hf⟩
  ext1
  rw [bits_targetOfLarge_make ha hclear, and_addressMask hp]

/-- **A leaf read and written anew** keeps its frame and its named flags, and nothing else. -/
theorem getLsbD_remake (e : Entry) (s : PageSize) (i : Nat) :
    (make (e.targetOfLarge s) e.flagsOfLarge).bits.getLsbD i =
      if (s.shift ≤ i ∧ i < 52) ∨ entryFlagKind.named.getLsbD i = true
      then e.bits.getLsbD i else false := by
  have hshift : 12 ≤ s.shift := by cases s <;> decide
  have hflags : e.flagsOfLarge.bits.getLsbD i =
      (e.bits.getLsbD i && entryFlagKind.named.getLsbD i) := by
    rw [flagsOfLarge_eq, FlagSet.bits_onlyNamed, BitVec.getLsbD_and]
    rfl
  by_cases hframe : s.shift ≤ i ∧ i < 52
  · have hfield : 12 ≤ i := Nat.le_trans hshift hframe.1
    rw [getLsbD_make, getLsbD_targetOfLarge, hflags, if_pos (.inl hframe)]
    cases e.bits.getLsbD i <;> simp [hframe.1, hframe.2, hfield]
  · have hout : (e.targetOfLarge s).bits.getLsbD i = false := by
      rw [getLsbD_targetOfLarge, ← Bool.and_assoc, ← Bool.decide_and, decide_eq_false hframe,
        Bool.false_and]
    rw [getLsbD_make, hout, hflags]
    cases entryFlagKind.named.getLsbD i <;> simp [hframe]

/-- **Leaves of all sizes hold what they are made of**, and entries with the mark of a large leaf
keep what they hold when they are rewritten or made anew. -/
theorem leaves_round_trip :
    (∀ (p : PAddr) (f : EntryFlags), p.bits.toNat < 2 ^ 52 → f.isNamed = true →
      f.contains EntryFlags.patLarge = false →
      (p.isAligned PageSize.kib4.bytes = true →
        (make p f).target = p ∧ (make p f).flags = f ∧
        ∀ v, Translation.ofLeaf .pt (make p f) v =
          .mapped (p + v.remainder PageSize.kib4.bytes) f.decode .pt) ∧
      ∀ l s, l.leafSize? = some s → l ≠ .pt → p.isAligned s.bytes = true →
        (make p f.enlarged).isLarge = true ∧
        (make p f.enlarged).targetOfLarge s = p ∧
        (make p f.enlarged).flagsOfLarge.reduced = f ∧
        ∀ v, Translation.ofLeaf l (make p f.enlarged) v =
          .mapped (p + v.remainder s.bytes) f.decode l) ∧
    ∀ e : Entry, e.isLarge = true →
      e.flagsOfLarge.reduced.enlarged = e.flagsOfLarge ∧
      ∀ (s : PageSize) (i : Nat), (make (e.targetOfLarge s) e.flagsOfLarge).bits.getLsbD i =
        if (s.shift ≤ i ∧ i < 52) ∨ entryFlagKind.named.getLsbD i = true
        then e.bits.getLsbD i else false := by
  constructor
  · intro p f hp hnamed hsel
    have hf : f.onlyNamed = f := f.onlyNamed_eq_self_iff.2 hnamed
    have h₁₂ : f.bits.getLsbD 12 = false := by
      rwa [EntryFlags.patLarge, FlagSet.contains_bit _ (by decide)] at hsel
    refine ⟨fun ha => ?_, fun l s hl hpt ha => ?_⟩
    · obtain ⟨htarget, hflags⟩ := small_make ⟨ha, hp⟩ hf h₁₂
      refine ⟨htarget, hflags, fun v => ?_⟩
      rw [Translation.ofLeaf, htarget, hflags]
      rfl
    · have hs : s ≠ .kib4 := by rintro rfl; cases l <;> first | exact hpt rfl | cases hl
      obtain ⟨htarget, hflags⟩ := large_make hs ha ⟨Address.isAligned_page_of_isAligned ha, hp⟩
        (EntryFlags.onlyNamed_enlarged hf)
      have hback : (make p f.enlarged).flagsOfLarge.reduced = f := by
        rw [hflags, EntryFlags.reduced_enlarged h₁₂]
      refine ⟨?_, htarget, hback, fun v => ?_⟩
      · rw [isLarge_make, EntryFlags.getLsbD_enlarged]
        simp
      · cases l <;> cases hl
        · rw [Translation.ofLeaf, Translation.ofLarge, htarget, hback]
        · rw [Translation.ofLeaf, Translation.ofLarge, htarget, hback]
        · exact absurd rfl hpt
  · intro e he
    refine ⟨EntryFlags.enlarged_reduced ?_, getLsbD_remake e⟩
    rw [isLarge_eq] at he
    rw [flagsOfLarge_eq, FlagSet.bits_onlyNamed, BitVec.getLsbD_and]
    exact Bool.and_eq_true_iff.2 ⟨he, by decide⟩

theorem leaves_round_trip_all_flags :
    let p : PAddr := ⟨0xfffffc0000000⟩
    let f : EntryFlags := ⟨0x80000000000001ff⟩
    let e : Entry := ⟨BitVec.allOnes 64⟩
    (make p f.enlarged).bits = 0x800fffffc00011ff ∧ (make p f.enlarged).targetOfLarge .gib1 = p ∧
      (make p f.enlarged).flagsOfLarge.reduced = f ∧ (make p f).flags = f ∧
      e.flagsOfLarge.reduced.enlarged = e.flagsOfLarge ∧
      (make (e.targetOfLarge .mib2) e.flagsOfLarge).bits.getLsbD 13 = false := by
  intro p f e
  obtain ⟨hsmall, hlarge⟩ := leaves_round_trip.1 p f (by decide) (by decide) (by decide)
  obtain ⟨-, htarget, hflags, -⟩ := hlarge .pdpt .gib1 rfl (by decide) (by decide)
  obtain ⟨hback, hbits⟩ := leaves_round_trip.2 e (by decide)
  exact ⟨by decide, htarget, hflags, (hsmall (by decide)).2.1, hback,
    (hbits .mib2 13).trans (if_neg (by decide))⟩

end Entry

end VirtualMemory
