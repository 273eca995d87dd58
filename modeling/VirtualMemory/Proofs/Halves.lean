import VirtualMemory.Proofs.Validation

/-!
# The halves of the space

The canonical addresses form two halves, and a run of pages stays in the half that it starts in.
The check of a run looks at its last page, in words that may overflow; what it finds out is that
each page of the run may be named, and lies in the half of the first.

* `Half`, `Widths.half?`: the half that an address lies in, if it is canonical
  (`isSome_half?`, `half?_eq_half?_iff`);
* `Widths.finalPage_eq_checked`: the last page of a run, step by step in words;
* `admitsPages_iff_forall`, `admitsFrames_iff_forall`, together **`Widths.runs_checked_by_page`**:
  a run is admitted just if each of its pages is.
-/

namespace VirtualMemory

/-- The two halves of the canonical addresses. -/
inductive Half where
  | lower
  | upper
deriving DecidableEq, Repr

namespace Widths

/-- **The half that an address lies in**, if it is canonical. -/
def half? (w : Widths) (v : VAddr) : Option Half :=
  if v.bits ≤ w.lowEnd then some .lower
  else if w.highStart ≤ v.bits then some .upper
  else none

variable {w : Widths} {v v' : VAddr} {p : PAddr} {n : Nat}

theorem isSome_half? : (w.half? v).isSome = w.isCanonical v := by
  unfold half? isCanonical
  split_ifs with hlow hhigh <;> simp [*]

theorem half?_eq_lower_iff : w.half? v = some .lower ↔ v.bits.toNat < 2 ^ (w.virt - 1) := by
  have hp : 1 ≤ 2 ^ (w.virt - 1) := Nat.one_le_two_pow
  have hlow : v.bits ≤ w.lowEnd ↔ v.bits.toNat < 2 ^ (w.virt - 1) := by
    rw [BitVec.le_def, lowEnd_toNat]
    omega
  unfold half?
  split_ifs with h <;> simpa [hlow] using h

theorem half?_eq_half?_iff (hv : w.isCanonical v = true) (hv' : w.isCanonical v' = true) :
    w.half? v = w.half? v' ↔ w.SameHalf v.bits.toNat v'.bits.toNat := by
  rw [← isSome_half?, Option.isSome_iff_exists] at hv hv'
  obtain ⟨x, hx⟩ := hv
  obtain ⟨y, hy⟩ := hv'
  rw [SameHalf, ← half?_eq_lower_iff, ← half?_eq_lower_iff, hx, hy]
  cases x <;> cases y <;> simp

/-- **The last page of a run, in words**: an overflow of its length or of its end is found out. -/
theorem finalPage_eq_checked (start pages : BitVec 64) : finalPage start pages.toNat =
    if pages = 0 then some start
    else if BitVec.umulOverflow (pages - 1) 4096 then none
    else if BitVec.uaddOverflow start ((pages - 1) * 4096) then none
    else some (start + (pages - 1) * 4096) := by
  have hstart := start.isLt
  by_cases hzero : pages = 0
  · simp [hzero, finalPage, hstart]
  have hpos : 1 ≤ pages.toNat := Nat.one_le_iff_ne_zero.2 fun h => hzero (BitVec.eq_of_toNat_eq h)
  have hlast : (pages - 1).toNat = pages.toNat - 1 := BitVec.toNat_sub_of_le (BitVec.le_def.2 hpos)
  have hover : BitVec.umulOverflow (pages - 1) 4096 =
      decide (2 ^ 64 ≤ (pages.toNat - 1) * 4096) := by
    rw [BitVec.umulOverflow, hlast]
    rfl
  rw [if_neg hzero, hover, finalPage, Nat.one_shiftLeft]
  by_cases hmul : 2 ^ 64 ≤ (pages.toNat - 1) * 4096
  · rw [decide_eq_true hmul, if_pos rfl, if_neg (by omega)]
  · have hlen : ((pages - 1) * 4096).toNat = (pages.toNat - 1) * 4096 := by
      rw [BitVec.toNat_mul, hlast]
      exact Nat.mod_eq_of_lt (Nat.lt_of_not_le hmul)
    rw [decide_eq_false hmul, if_neg Bool.false_ne_true, BitVec.uaddOverflow, hlen]
    by_cases hadd : 2 ^ 64 ≤ start.toNat + (pages.toNat - 1) * 4096
    · rw [decide_eq_true hadd, if_pos rfl, if_neg (Nat.not_lt_of_le hadd)]
    · rw [decide_eq_false hadd, if_neg Bool.false_ne_true, if_pos (Nat.lt_of_not_le hadd)]
      congr 1
      apply BitVec.eq_of_toNat_eq
      rw [BitVec.toNat_ofNat, BitVec.toNat_add, hlen]

/-! ## Runs, page by page -/

theorem admitsPages_iff_forall : w.admitsPages v n = true ↔
    ∀ i < max n 1, v.bits.toNat + i * 4096 < 2 ^ 64 ∧ w.admitsPage (v.addPages i) = true ∧
      w.half? (v.addPages i) = w.half? v := by
  rw [admitsPages_iff_valid]
  constructor
  · intro h i hi
    obtain ⟨hpage, hsame⟩ := h i hi
    have hhalf : 2 ^ (w.virt - 1) ≤ 2 ^ 64 :=
      Nat.pow_le_pow_right (by decide) (Nat.le_trans (Nat.sub_le _ _) w.virt_le)
    have hfit : v.bits.toNat + i * 4096 < 2 ^ 64 :=
      hpage.2.elim (fun hlow => Nat.lt_of_lt_of_le hlow hhalf) And.right
    have hnum := Address.toNat_addPages hfit
    have hadmits : w.admitsPage (v.addPages i) = true := admitsPage_iff.2 (hnum ▸ hpage)
    refine ⟨hfit, hadmits, (half?_eq_half?_iff (isCanonical_of_admitsPage hadmits)
      (isCanonical_of_admitsPage h.admitsPage)).2 (hnum ▸ hsame)⟩
  · intro h i hi
    obtain ⟨-, hfirst, -⟩ := h 0 (by omega)
    rw [Address.addPages_zero] at hfirst
    obtain ⟨hfit, hadmits, hhalf⟩ := h i hi
    have hnum := Address.toNat_addPages hfit
    rw [half?_eq_half?_iff (isCanonical_of_admitsPage hadmits) (isCanonical_of_admitsPage hfirst),
      hnum] at hhalf
    rw [admitsPage_iff, hnum] at hadmits
    exact ⟨hadmits, hhalf⟩

theorem admitsFrames_iff_forall : w.admitsFrames p n = true ↔
    ∀ i < max n 1, p.bits.toNat + i * 4096 < 2 ^ 64 ∧ w.admitsFrame (p.addPages i) = true := by
  have hwidth : 2 ^ w.phys ≤ 2 ^ 64 := Nat.pow_le_pow_right (by decide) w.phys_le
  rw [admitsFrames_iff_valid]
  refine forall₂_congr fun i hi => ?_
  constructor
  · intro h
    have hfit := Nat.lt_of_lt_of_le h.2 hwidth
    exact ⟨hfit, admitsFrame_iff.2 (Address.toNat_addPages hfit ▸ h)⟩
  · rintro ⟨hfit, h⟩
    rwa [admitsFrame_iff, Address.toNat_addPages hfit] at h

/-- **The checks of runs look at every page**, or at the start of a run without pages. -/
theorem runs_checked_by_page (w : Widths) (v : VAddr) (p : PAddr) (n : Nat) :
    (w.admitsPages v n = true ↔ ∀ i < max n 1, v.bits.toNat + i * 4096 < 2 ^ 64 ∧
      w.admitsPage (v.addPages i) = true ∧ w.half? (v.addPages i) = w.half? v) ∧
    (w.admitsFrames p n = true ↔ ∀ i < max n 1, p.bits.toNat + i * 4096 < 2 ^ 64 ∧
      w.admitsFrame (p.addPages i) = true) :=
  ⟨admitsPages_iff_forall, admitsFrames_iff_forall⟩

/-- With 64 bits the halves adjoin: both pages may be named, but a run does not go from one half
over into the other. -/
example : (ofReported 64 64).admitsPage ⟨0x7ffffffffffff000⟩ = true ∧
    (ofReported 64 64).admitsPage ⟨0x8000000000000000⟩ = true ∧
    (ofReported 64 64).admitsPages ⟨0x7ffffffffffff000⟩ 2 = false := by decide

end Widths

end VirtualMemory
