import VirtualMemory.Widths
import VirtualMemory.Proofs.EntryBits
import VirtualMemory.Proofs.Walk

/-!
# Canonical addresses and their trails

Four levels look at 48 bits of an address. When no more are implemented, canonical addresses with
the same trail lie in the same page.

* `Address.SamePage`: addresses in one page of the size that a level maps; `Address.Alias`: those that
  tables take for such;
* **`Widths.trail_eq_iff_samePage`**: a trail determines the page of a canonical address, at each
  level (`Widths.trail_eq_iff` at the lowest);
* `Address.toNat_add_of_aligned`, `Address.toNat_add_div_of_aligned`: the addresses of a region, and
  `Address.trail_add_of_large`, `Address.trail_add_page_of_large`: the trails in a page of 2 MiB;
* `Address.InRun`: the addresses of a run of pages, and **`exists_trail_iff_samePage`**: the larger
  pages that meet it (`exists_trail_iff_inRun` for pages of its own).
-/

namespace VirtualMemory

namespace Address

/-- **Two addresses in one page** of the size that an entry at level `l` maps. -/
def SamePage (l : Level) (v v' : VAddr) : Prop :=
  v.bits.toNat / 2 ^ l.shift = v'.bits.toNat / 2 ^ l.shift

theorem trail_eq_iff_mod_level {l : Level} {v v' : VAddr} :
    v.trail (4 - l.height) = v'.trail (4 - l.height) ↔
      v.bits.toNat / 2 ^ l.shift % 2 ^ (48 - l.shift) =
        v'.bits.toNat / 2 ^ l.shift % 2 ^ (48 - l.shift) := by
  cases l <;>
    simp only [Level.height, Level.shift, Nat.reduceSub, Nat.reduceMul, Nat.reduceAdd,
      Nat.reducePow, trail, Level.ofHeight, Level.index, List.cons.injEq, and_true, Fin.ext_iff,
      index_val, Nat.shiftRight_eq_div_pow] <;> omega

theorem trail_eq_iff_mod {v v' : VAddr} : v.trail 4 = v'.trail 4 ↔
    v.bits.toNat / 4096 % 2 ^ 36 = v'.bits.toNat / 4096 % 2 ^ 36 :=
  trail_eq_iff_mod_level (l := .pt)

/-- **Two addresses in one page** of the size that an entry at level `l` maps, as far as the bits
tell that tables look at. -/
def Alias (l : Level) (v v' : VAddr) : Prop :=
  v.bits.toNat / 2 ^ l.shift % 2 ^ (48 - l.shift) = v'.bits.toNat / 2 ^ l.shift % 2 ^ (48 - l.shift)

instance (l : Level) (v v' : VAddr) : Decidable (v.Alias l v') :=
  inferInstanceAs (Decidable (_ = _))

theorem alias_iff {l : Level} {v v' : VAddr} :
    v.Alias l v' ↔ v.trail (4 - l.height) = v'.trail (4 - l.height) := trail_eq_iff_mod_level.symm

theorem isAligned_page_iff {k : AddressKind} {a : Address k} :
    a.isAligned 4096 = true ↔ a.bits.toNat % 4096 = 0 := isAligned_iff _ _

theorem toNat_addPages_of_lt {k : AddressKind} {a : Address k} {i n : Nat} (hi : i < n)
    (h : a.bits.toNat + (n - 1) * 4096 < 2 ^ 64) :
    (a.addPages i).bits.toNat = a.bits.toNat + i * 4096 := by
  have hle : i * 4096 ≤ (n - 1) * 4096 := Nat.mul_le_mul_right _ (by omega)
  exact toNat_addPages (Nat.lt_of_le_of_lt (Nat.add_le_add_left hle _) h)

theorem toNat_add_of_lt {k : AddressKind} {a : Address k} {o n : Nat}
    (ha : a.isAligned 4096 = true) (h : a.bits.toNat + (n - 1) * 4096 < 2 ^ 64)
    (ho : o < n * 4096) : (a + BitVec.ofNat 64 o).bits.toNat = a.bits.toNat + o := by
  rw [isAligned_page_iff] at ha
  have hlt : a.bits.toNat + o < 2 ^ 64 := by
    generalize a.bits.toNat = b at *
    obtain ⟨q, rfl⟩ : ∃ q, b = 4096 * q := ⟨b / 4096, by omega⟩
    have hq : q + (n - 1) < 2 ^ 52 := by omega
    omega
  rw [bits_add, BitVec.toNat_add, BitVec.toNat_ofNat, Nat.mod_eq_of_lt (Nat.lt_of_le_of_lt
    (Nat.le_add_left o _) hlt), Nat.mod_eq_of_lt hlt]

theorem page_of_offset {k : AddressKind} {a : Address k} {o n : Nat}
    (ha : a.isAligned 4096 = true) (h : a.bits.toNat + (n - 1) * 4096 < 2 ^ 64)
    (ho : o < n * 4096) :
    o / 4096 < n ∧ (a + BitVec.ofNat 64 o).bits.toNat % 4096 = o % 4096 ∧
      (a + BitVec.ofNat 64 o).bits.toNat / 4096 = (a.addPages (o / 4096)).bits.toNat / 4096 := by
  have hi : o / 4096 < n := by omega
  rw [toNat_add_of_lt ha h ho, toNat_addPages_of_lt hi h]
  rw [isAligned_page_iff] at ha
  omega

theorem addPages_add_pageOffset {p : PAddr} {v : VAddr} {o : Nat}
    (hv : v.bits.toNat % 4096 = o % 4096) :
    p.addPages (o / 4096) + v.pageOffset = p + BitVec.ofNat 64 o := by
  have hoff : v.pageOffset = BitVec.ofNat 64 (o % 4096) := by
    apply BitVec.eq_of_toNat_eq
    rw [pageOffset, remainder, BitVec.toNat_umod, BitVec.toNat_ofNat]
    change v.bits.toNat % 4096 = _
    omega
  ext1
  rw [hoff, addPages, bits_add, bits_add, bits_add, BitVec.add_assoc, ← BitVec.ofNat_add,
    Nat.div_add_mod' o 4096]

/-! ## Aligned regions -/

theorem toNat_add_of_aligned {k : AddressKind} {s : PageSize} {a : Address k} {o : Nat}
    (ha : a.isAligned s.bytes = true) (ho : o < 2 ^ s.shift) :
    (a + BitVec.ofNat 64 o).bits.toNat = a.bits.toNat + o := by
  have hlt := a.bits.isLt
  rw [isAligned_iff, s.toNat_bytes, Nat.one_shiftLeft] at ha
  rw [bits_add, BitVec.toNat_add, BitVec.toNat_ofNat]
  cases s <;> simp only [PageSize.shift] at ha ho <;> omega

theorem toNat_add_div_of_aligned {k : AddressKind} {s : PageSize} {a : Address k} {o : Nat}
    (ha : a.isAligned s.bytes = true) (ho : o < 2 ^ s.shift) :
    (a + BitVec.ofNat 64 o).bits.toNat / 2 ^ s.shift = a.bits.toNat / 2 ^ s.shift := by
  rw [toNat_add_of_aligned ha ho]
  rw [isAligned_iff, s.toNat_bytes, Nat.one_shiftLeft] at ha
  obtain ⟨q, hq⟩ := Nat.dvd_of_mod_eq_zero ha
  rw [hq, Nat.mul_add_div (Nat.two_pow_pos _), Nat.div_eq_of_lt ho,
    Nat.mul_div_cancel_left _ (Nat.two_pow_pos _), Nat.add_zero]

theorem trail_add_of_lt {v : VAddr} {o : Nat} (hv : v.isAligned 4096 = true) (ho : o < 4096) :
    (v + BitVec.ofNat 64 o).trail 4 = v.trail 4 :=
  trail_eq_iff_mod.2 (congrArg (· % 2 ^ 36) (toNat_add_div_of_aligned (s := .kib4) hv ho))

/-! ## Large pages -/

theorem isAligned_large_iff {k : AddressKind} {a : Address k} :
    a.isAligned PageSize.mib2.bytes = true ↔ a.bits.toNat % 2 ^ 21 = 0 := isAligned_iff _ _

theorem toNat_add_of_large {k : AddressKind} {a : Address k} {o : Nat}
    (ha : a.isAligned PageSize.mib2.bytes = true) (ho : o < 2 ^ 21) :
    (a + BitVec.ofNat 64 o).bits.toNat = a.bits.toNat + o :=
  toNat_add_of_aligned (s := .mib2) ha ho

theorem trail_add_of_large {v : VAddr} {o : Nat} (hv : v.isAligned PageSize.mib2.bytes = true)
    (ho : o < 2 ^ 21) : (v + BitVec.ofNat 64 o).trail 3 = v.trail 3 :=
  (trail_eq_iff_mod_level (l := .pd)).2
    (congrArg (· % 2 ^ 27) (toNat_add_div_of_aligned (s := .mib2) hv ho))

/-- **Each entry below a large page's place** is on the trail of one of its pages. -/
theorem trail_add_page_of_large {v : VAddr} (hv : v.isAligned PageSize.mib2.bytes = true)
    (j : Index) : (v + BitVec.ofNat 64 (j.val * 4096)).trail 4 = j :: v.trail 3 := by
  have hj := j.isLt
  have ho : j.val * 4096 < 2 ^ 21 := by omega
  rw [trail, trail_add_of_large hv ho]
  congr 1
  rw [Fin.ext_iff, Level.index, index_val, toNat_add_of_large hv ho, Nat.shiftRight_eq_div_pow]
  rw [isAligned_large_iff] at hv
  change _ / 2 ^ 12 % 512 = _
  omega

/-! ## Runs of pages -/

/-- **The addresses of `n` pages** from `v` on. -/
def InRun (v : VAddr) (n : Nat) (v' : VAddr) : Prop :=
  v.bits.toNat ≤ v'.bits.toNat ∧ v'.bits.toNat < v.bits.toNat + n * 4096

instance (v v' : VAddr) (n : Nat) : Decidable (v.InRun n v') :=
  inferInstanceAs (Decidable (_ ∧ _))

end Address

namespace Widths

/-! ## Bounds -/

section Bounds

variable (w : Widths)

theorem toNat_one_shiftLeft_sub_one {n : Nat} (h : n < 64) :
    ((1#64 <<< n) - 1#64).toNat = 2 ^ n - 1 := by
  have hp : 2 ^ n < 2 ^ 64 := Nat.pow_lt_pow_right (by decide) h
  have hs : (1#64 <<< n).toNat = 2 ^ n := by
    rw [BitVec.toNat_shiftLeft, BitVec.toNat_ofNat, Nat.shiftLeft_eq]; omega
  have hle : 1#64 ≤ 1#64 <<< n := by
    rw [BitVec.le_def, hs]; exact Nat.one_le_two_pow
  rw [BitVec.toNat_sub_of_le hle, hs]; rfl

theorem lowEnd_toNat : w.lowEnd.toNat = 2 ^ (w.virt - 1) - 1 := by
  have h := w.virt_pos
  have h' := w.virt_le
  exact toNat_one_shiftLeft_sub_one (by omega)

theorem highStart_toNat : w.highStart.toNat = 2 ^ 64 - 2 ^ (w.virt - 1) := by
  have hp : 1 ≤ 2 ^ (w.virt - 1) := Nat.one_le_two_pow
  rw [highStart, BitVec.toNat_not, lowEnd_toNat]; omega

theorem physEnd_toNat : w.physEnd.toNat = 2 ^ w.phys - 1 := by
  unfold physEnd
  split
  · have : w.phys = 64 := by have := w.phys_le; omega
    rw [BitVec.toNat_allOnes, this]
  · exact toNat_one_shiftLeft_sub_one (by omega)

end Bounds

variable {w : Widths} {v v' : VAddr} {n i : Nat}

theorem isCanonical_iff : w.isCanonical v = true ↔
    v.bits.toNat < 2 ^ (w.virt - 1) ∨ 2 ^ 64 - 2 ^ (w.virt - 1) ≤ v.bits.toNat := by
  have hp : 1 ≤ 2 ^ (w.virt - 1) := Nat.one_le_two_pow
  simp only [isCanonical, Bool.or_eq_true, decide_eq_true_eq, BitVec.le_def, lowEnd_toNat,
    highStart_toNat]
  omega

theorem isCanonical_bounds (hw : w.virt ≤ 48) (h : w.isCanonical v = true) :
    v.bits.toNat < 2 ^ 47 ∨ 2 ^ 64 - 2 ^ 47 ≤ v.bits.toNat := by
  have hp : 2 ^ (w.virt - 1) ≤ 2 ^ 47 := Nat.pow_le_pow_right (by decide) (by omega)
  rw [isCanonical_iff] at h
  omega

/-- **A trail determines the page of a canonical address**, of whichever size. -/
theorem trail_eq_iff_samePage {l : Level} (hw : w.virt ≤ 48) (h : w.isCanonical v = true)
    (h' : w.isCanonical v' = true) :
    v.trail (4 - l.height) = v'.trail (4 - l.height) ↔ v.SamePage l v' := by
  have := isCanonical_bounds hw h
  have := isCanonical_bounds hw h'
  rw [Address.trail_eq_iff_mod_level, Address.SamePage]
  cases l <;> simp only [Level.height, Level.shift] <;> omega

theorem trail_eq_iff (hw : w.virt ≤ 48) (h : w.isCanonical v = true)
    (h' : w.isCanonical v' = true) :
    v.trail 4 = v'.trail 4 ↔ v.bits.toNat / 4096 = v'.bits.toNat / 4096 :=
  trail_eq_iff_samePage (l := .pt) hw h h'

/-! ## Runs -/

theorem isAligned_of_admitsPage (h : w.admitsPage v = true) : v.isAligned 4096 = true :=
  (Bool.and_eq_true_iff.1 h).1

theorem isCanonical_of_admitsPage (h : w.admitsPage v = true) : w.isCanonical v = true :=
  (Bool.and_eq_true_iff.1 h).2

theorem finalPage_eq_some_iff {start last : BitVec 64} :
    finalPage start n = some last ↔
      start.toNat + (n - 1) * 4096 < 2 ^ 64 ∧ last.toNat = start.toNat + (n - 1) * 4096 := by
  simp only [finalPage, Nat.one_shiftLeft]
  split
  · rename_i h
    rw [Option.some.injEq, ← BitVec.toNat_inj, BitVec.toNat_ofNat, Nat.mod_eq_of_lt h]
    exact ⟨fun he => ⟨h, he.symm⟩, fun he => he.2.symm⟩
  · rename_i h
    exact ⟨nofun, fun he => absurd he.1 h⟩

theorem nameable_of_admitsFrame {p : PAddr} (hw : w.phys ≤ 52) (h : w.admitsFrame p = true) :
    p.Nameable := by
  obtain ⟨ha, hb⟩ := Bool.and_eq_true_iff.1 h
  have hle : 2 ^ w.phys ≤ 2 ^ 52 := Nat.pow_le_pow_right (by decide) hw
  have hp : 1 ≤ 2 ^ w.phys := Nat.one_le_two_pow
  rw [decide_eq_true_eq, BitVec.le_def, physEnd_toNat] at hb
  exact ⟨ha, by omega⟩

/-- With at least 13 bits, a page whose start is canonical is canonical as a whole. -/
theorem isCanonical_of_page (hw : 13 ≤ w.virt) (h : w.admitsPage v = true)
    (h' : v'.bits.toNat / 4096 = v.bits.toNat / 4096) : w.isCanonical v' = true := by
  have ha := Address.isAligned_page_iff.1 (isAligned_of_admitsPage h)
  have hc := isCanonical_of_admitsPage h
  have hlt := v'.bits.isLt
  obtain ⟨n, hn⟩ : ∃ n, 2 ^ (w.virt - 1) = 4096 * n := by
    refine ⟨2 ^ (w.virt - 13), ?_⟩
    rw [show w.virt - 1 = 12 + (w.virt - 13) by omega, Nat.pow_add]
  rw [isCanonical_iff, hn] at hc ⊢
  omega

/-- **When a run is admitted**: it does not wrap, and stays in the lower half if it starts there. -/
theorem admitsPages_iff : w.admitsPages v n = true ↔ w.admitsPage v = true ∧
    v.bits.toNat + (n - 1) * 4096 < 2 ^ 64 ∧
    (v.bits.toNat < 2 ^ (w.virt - 1) → v.bits.toNat + (n - 1) * 4096 < 2 ^ (w.virt - 1)) := by
  have hp : 1 ≤ 2 ^ (w.virt - 1) := Nat.one_le_two_pow
  have hlow : ∀ b : BitVec 64, b ≤ w.lowEnd ↔ b.toNat < 2 ^ (w.virt - 1) := by
    intro b
    rw [BitVec.le_def, lowEnd_toNat]
    omega
  rw [admitsPages, Bool.and_eq_true_iff]
  apply and_congr_right
  intro _
  cases hf : finalPage v.bits n with
  | none =>
    simp only [finalPage, Nat.one_shiftLeft, ite_eq_right_iff, reduceCtorEq, imp_false] at hf
    exact ⟨fun h => absurd h Bool.false_ne_true, fun h => absurd h.1 hf⟩
  | some last =>
    obtain ⟨hlt, hlast⟩ := finalPage_eq_some_iff.1 hf
    simp only [hlow, hlast]
    by_cases hv : v.bits.toNat < 2 ^ (w.virt - 1)
    · simp only [if_pos hv, decide_eq_true_eq]
      exact ⟨fun h => ⟨hlt, fun _ => h⟩, fun h => h.2 hv⟩
    · simp only [if_neg hv, true_iff]
      exact ⟨hlt, fun h => absurd h hv⟩

theorem of_admitsPages (h : w.admitsPages v n = true) :
    w.admitsPage v = true ∧ v.bits.toNat + (n - 1) * 4096 < 2 ^ 64 :=
  ⟨(admitsPages_iff.1 h).1, (admitsPages_iff.1 h).2.1⟩

theorem admitsPages_of_le (h : w.admitsPages v n = true) (hi : i ≤ n) :
    w.admitsPages v i = true := by
  rw [admitsPages_iff] at h ⊢
  obtain ⟨hp, hfit, hlow⟩ := h
  have hle : v.bits.toNat + (i - 1) * 4096 ≤ v.bits.toNat + (n - 1) * 4096 := by omega
  exact ⟨hp, Nat.lt_of_le_of_lt hle hfit, fun hv => Nat.lt_of_le_of_lt hle (hlow hv)⟩

theorem admitsPage_of_admitsPages (h : w.admitsPages v n = true) (hi : i < n) :
    w.admitsPage (v.addPages i) = true := by
  obtain ⟨hp, hfit, hlow⟩ := admitsPages_iff.1 h
  have ha := isAligned_of_admitsPage hp
  have hc := isCanonical_of_admitsPage hp
  have hle : v.bits.toNat + i * 4096 ≤ v.bits.toNat + (n - 1) * 4096 := by omega
  rw [Address.isAligned_page_iff] at ha
  rw [isCanonical_iff] at hc
  rw [admitsPage, Bool.and_eq_true_iff, isCanonical_iff, Address.isAligned_page_iff,
    Address.toNat_addPages_of_lt hi hfit]
  refine ⟨by omega, hc.imp (fun hc => Nat.lt_of_le_of_lt hle (hlow hc)) fun hc => ?_⟩
  exact Nat.le_trans hc (Nat.le_add_right _ _)

/-- **The pages of level `l` that meet a run** are those on the trails of its pages. -/
theorem exists_trail_iff_samePage {l : Level} (hw : w.virt ≤ 48) (ha : v.isAligned 4096 = true)
    (hfit : v.bits.toNat + (n - 1) * 4096 < 2 ^ 64)
    (hpages : ∀ i < n, w.isCanonical (v.addPages i) = true) (h' : w.isCanonical v' = true) :
    (∃ i < n, v'.trail (4 - l.height) = (v.addPages i).trail (4 - l.height)) ↔
      ∃ y, v'.SamePage l y ∧ v.InRun n y := by
  rw [Address.isAligned_page_iff] at ha
  constructor
  · rintro ⟨i, hi, he⟩
    rw [trail_eq_iff_samePage hw h' (hpages i hi)] at he
    refine ⟨v.addPages i, he, ?_⟩
    rw [Address.InRun, Address.toNat_addPages_of_lt hi hfit]
    omega
  · rintro ⟨y, he, h₁, h₂⟩
    -- `y` itself need not be canonical, but its page starts at a page of the run
    have hi : y.bits.toNat / 4096 - v.bits.toNat / 4096 < n := by omega
    refine ⟨_, hi, ?_⟩
    rw [trail_eq_iff_samePage hw h' (hpages _ hi), Address.SamePage, he,
      Address.toNat_addPages_of_lt hi hfit]
    cases l <;> simp only [Level.height, Level.shift] <;> omega

/-- **The addresses of a run are those on the trails of its pages.** -/
theorem exists_trail_iff_inRun (hw : w.virt ≤ 48) (ha : v.isAligned 4096 = true)
    (hfit : v.bits.toNat + (n - 1) * 4096 < 2 ^ 64)
    (hpages : ∀ i < n, w.isCanonical (v.addPages i) = true) (h' : w.isCanonical v' = true) :
    (∃ i < n, v'.trail 4 = (v.addPages i).trail 4) ↔ v.InRun n v' := by
  refine (exists_trail_iff_samePage (l := .pt) hw ha hfit hpages h').trans ?_
  rw [Address.isAligned_page_iff] at ha
  constructor
  · rintro ⟨y, he, h₁, h₂⟩
    simp only [Address.SamePage, Level.shift, Level.height] at he
    unfold Address.InRun
    omega
  · exact fun h => ⟨v', rfl, h⟩

end Widths

end VirtualMemory
