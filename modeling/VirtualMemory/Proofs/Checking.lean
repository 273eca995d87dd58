import VirtualMemory.Mapping.Check
import VirtualMemory.Proofs.Regions
import VirtualMemory.Proofs.Unmapping

/-!
# Checking what was mapped

A check walks to an address and compares what it finds with what is expected. The attributes take
two ways that lose some of them, from the call into the leaf and from the leaf back; but what the
first way keeps, the second one does, so that a check tells apart what a leaf can tell apart.

* `Attributes.encode_readBack`, `Attributes.differing_eq`: nothing is lost that a leaf holds, and
  nothing that is compared;
* `Translation.check_mapped`: the answer of a check at a leaf;
* `Machine.Installs`: a call for one page that goes through, and **`Owns.walk_of_installs`**: what
  the addresses of the page map to then;
* **`WellFormed.check_recognises`**: a check finds what was mapped, and names what differs.
-/

namespace VirtualMemory

/-! ## Bits that differ -/

namespace FlagSet

variable {n : Nat} {k : FlagKind n} {s t u : FlagSet k}

theorem isEmpty_xor_iff : (s ^^^ t).isEmpty = true ↔ s = t := by
  rw [isEmpty_iff, FlagSet.ext_iff, FlagSet.ext_iff, bits_xor, bits_empty]
  exact BitVec.xor_eq_zero_iff

theorem xor_inter_of_inter (hs : s ∩ u = s) (ht : t ∩ u = t) : (s ^^^ t) ∩ u = s ^^^ t := by
  ext1
  apply BitVec.eq_of_getLsbD_eq
  intro i _
  have hsi : (s ∩ u).bits.getLsbD i = s.bits.getLsbD i := by rw [hs]
  have hti : (t ∩ u).bits.getLsbD i = t.bits.getLsbD i := by rw [ht]
  rw [bits_inter, BitVec.getLsbD_and] at hsi hti
  rw [bits_inter, bits_xor, BitVec.getLsbD_and, BitVec.getLsbD_xor]
  cases hu : u.bits.getLsbD i <;> simp_all

end FlagSet

namespace Attributes

variable (a b : Attributes)

/-- **The attributes read back** are encoded as those that were asked for. -/
theorem encode_readBack : encode a.readBack = a.encode :=
  a.of_readBack (P := fun f b => encode b = f) (by decide +kernel)

theorem encode_inter_compared : a.encode ∩ EntryFlags.compared = a.encode :=
  a.of_readBack (P := fun f _ => f ∩ EntryFlags.compared = f) (by decide +kernel)

/-- **The bits found to differ** are those in which the two encodings do. -/
theorem differing_eq :
    (b.encode ^^^ encode a.readBack) ∩ EntryFlags.compared = a.encode ^^^ b.encode := by
  rw [encode_readBack,
    FlagSet.xor_inter_of_inter b.encode_inter_compared a.encode_inter_compared]
  ext1
  exact BitVec.xor_comm _ _

end Attributes

namespace Translation

theorem check_mapped (found p : PAddr) (a g : Attributes) (l : Level) :
    (mapped found a.readBack l).check p g =
      if found ≠ p then .error (.otherAddress found)
      else if g.encode = a.encode then .ok ()
      else .error (.otherFlags (a.encode ^^^ g.encode)) := by
  unfold check
  simp only [a.differing_eq g, FlagSet.isEmpty_xor_iff, eq_comm (a := a.encode)]

end Translation

namespace Machine

theorem verify_of_admits {α : Type} {w : Widths} {p : PAddr} {v : VAddr}
    (hv : w.admitsPage v = true) (hp : w.admitsFrame p = true) (root : PAddr) (g : Attributes)
    (m : Machine α) : (m.verify w root p v g).1 = (m.memory.walk root v).check p g := by
  simp only [verify, hv, hp, Bool.not_true, Bool.or_self, Bool.false_eq_true, if_false]
  rfl

/-! ## Pages that were mapped -/

variable {α : Type} [FrameSource α] {used others : Set PAddr} {root p : PAddr} {v : VAddr}
  {w : Widths} {s : PageSize} {a : Attributes} {o : Nat} {m m' : Machine α}

/-- **A call for one page goes through** and takes the machine to `m'`. There are calls for pages of
4 KiB and of 2 MiB. -/
def Installs (w : Widths) (root p : PAddr) (v : VAddr) (a : Attributes) (s : PageSize)
    (m m' : Machine α) : Prop :=
  match s with
  | .kib4 => m.mapPage w root p v a = (.ok (), m')
  | .mib2 => m.mapLarge w root p v a = (.ok (), m')
  | .gib1 => False

theorem Owns.start_of_installs (h : Owns used others root m) (hw : w.phys ≤ 52)
    (hi : Installs w root p v a s m m') : v.isAligned s.bytes = true ∧
      ∃ l, l.leafSize? = some s ∧ m'.memory.walk root v = .mapped p a.readBack l := by
  cases s with
  | kib4 =>
    obtain ⟨hp, hv, -⟩ := mapPage_eq_ok hi
    have hstart := Widths.isAligned_of_admitsPage hv
    obtain ⟨hdecode, hmask⟩ := a.decode_leaf p
    refine ⟨hstart, .pt, rfl, Memory.walk_eq_mapped_iff.2 ⟨_, h.leaf_mapPage hi, ?_⟩⟩
    have hoffset : v.pageOffset = 0 := v.remainder_of_isAligned (s := .kib4) hstart
    have htarget := Entry.target_make (Widths.nameable_of_admitsFrame hw hp) hmask
    rw [Translation.ofLeaf, hdecode, htarget, hoffset]
    rw [Address.add_zero]
  | mib2 =>
    obtain ⟨hp, -, -⟩ := mapLarge_eq_ok hi
    obtain ⟨hframe, hstart⟩ := isAligned_of_mapLarge hi
    obtain ⟨hdecode, hmask⟩ := a.decode_large hframe
    refine ⟨hstart, .pd, rfl, Memory.walk_eq_mapped_iff.2 ⟨_, h.leaf_mapLarge hi, ?_⟩⟩
    have htarget := Entry.target_make (Widths.nameable_of_admitsFrame hw hp) hmask
    rw [Translation.ofLeaf, Translation.ofLarge, hdecode, Entry.targetOfLarge_make hframe hmask,
      htarget, v.remainder_of_isAligned hstart]
    rw [Address.add_zero]
  | gib1 => exact hi.elim

theorem Owns.walk_of_installs (h : Owns used others root m) (hw : w.phys ≤ 52)
    (hi : Installs w root p v a s m m') (ho : o < 2 ^ s.shift) :
    ∃ l, m'.memory.walk root (v + BitVec.ofNat 64 o) =
      .mapped (p + BitVec.ofNat 64 o) a.readBack l := by
  obtain ⟨hv, l, hl, hwalk⟩ := h.start_of_installs hw hi
  obtain ⟨s', e, t, hl', hregion⟩ := Memory.walk_region hwalk
  obtain rfl : s = s' := by simpa [hl] using hl'
  obtain ⟨hagree, hoffset⟩ := v.agreeFrom_add hv ho
  -- the start tells which frame the leaf names
  obtain rfl : p = e.targetOfLarge s := by
    have hstart := (hregion v (.refl _ v)).2
    rw [hwalk, v.remainder_of_isAligned hv, Address.add_zero] at hstart
    injection hstart
  exact ⟨l, by rw [(hregion _ hagree).2, hoffset]⟩

/-- **Checks recognise what was mapped**, at any place in the page, and tell what differs. Where a
walk stops, they tell the level. -/
theorem WellFormed.check_recognises (h : WellFormed used root m) (hw : w.phys ≤ 52)
    (hi : Installs w root p v a s m m') :
    (∀ o < 2 ^ s.shift, w.admitsPage (v + BitVec.ofNat 64 o) = true → ∀ g,
      (w.admitsFrame (p + BitVec.ofNat 64 o) = true →
        ((m'.verify w root (p + BitVec.ofNat 64 o) (v + BitVec.ofNat 64 o) g).1 = .ok () ↔
          g.encode = a.encode) ∧
        (g.encode ≠ a.encode →
          (m'.verify w root (p + BitVec.ofNat 64 o) (v + BitVec.ofNat 64 o) g).1 =
            .error (.otherFlags (a.encode ^^^ g.encode)))) ∧
      ∀ q, w.admitsFrame q = true → q ≠ p + BitVec.ofNat 64 o →
        (m'.verify w root q (v + BitVec.ofNat 64 o) g).1 =
          .error (.otherAddress (p + BitVec.ofNat 64 o))) ∧
    ∀ (m₀ : Machine α) (root₀ : PAddr) (x : VAddr) (q : PAddr) (g : Attributes) (l : Level)
      (t : PAddr), w.admitsPage x = true → w.admitsFrame q = true →
        m₀.memory.walk root₀ x = .missing l t →
          (m₀.verify w root₀ q x g).1 = .error (.notMapped l) := by
  constructor
  · intro o ho hx g
    obtain ⟨l, hwalk⟩ := h.owns.walk_of_installs hw hi ho
    constructor
    · intro hq
      rw [verify_of_admits hx hq, hwalk, Translation.check_mapped, if_neg (not_not.2 rfl)]
      by_cases hg : g.encode = a.encode
      · simp [hg]
      · simp [hg]
    · intro q hq hne
      rw [verify_of_admits hx hq, hwalk, Translation.check_mapped, if_pos hne.symm]
  · intro m₀ root₀ x q g l t hx hq hwalk
    rw [verify_of_admits hx hq, hwalk]
    rfl

theorem check_recognises_large : ∃ m : Machine FramePool,
    mixed.mapLarge .assumed ⟨0x1000⟩ ⟨0xa00000⟩ ⟨0x600000⟩ ⟨0xffffffe7⟩ = (.ok (), m) ∧
    (m.verify .assumed ⟨0x1000⟩ ⟨0xbff000⟩ ⟨0x7ff000⟩ .user).1 = .ok () ∧
    (m.verify .assumed ⟨0x1000⟩ ⟨0xbff000⟩ ⟨0x7ff000⟩ .readOnly).1 = .error (.otherFlags ⟨6⟩) ∧
    (m.verify .assumed ⟨0x1000⟩ ⟨0xa00000⟩ ⟨0x7ff000⟩ .user).1 =
      .error (.otherAddress ⟨0xbff000⟩) ∧
    (mixed.verify .assumed ⟨0x1000⟩ ⟨0xbff000⟩ ⟨0x7ff000⟩ .user).1 = .error (.notMapped .pd) := by
  have hok : (mixed.mapLarge .assumed ⟨0x1000⟩ ⟨0xa00000⟩ ⟨0x600000⟩ ⟨0xffffffe7⟩).1 =
      .ok () := by decide +kernel
  have hlarge := Prod.fst_eq_iff.1 hok
  obtain ⟨hchecks, hstops⟩ :=
    stocked_mixed.1.check_recognises (s := .mib2) (w := .assumed) (by decide) hlarge
  have hlast := hchecks 0x1ff000 (by decide) (by decide)
  obtain ⟨hsame, -⟩ := (hlast .user).1 (by decide)
  obtain ⟨-, hdiffer⟩ := (hlast .readOnly).1 (by decide)
  exact ⟨_, hlarge, hsame.2 (by decide), hdiffer (by decide),
    (hlast .user).2 _ (by decide) (by decide),
    hstops mixed _ _ _ _ .pd ⟨0x3000⟩ (by decide) (by decide) (by decide +kernel)⟩

end Machine

end VirtualMemory
