import VirtualMemory.Proofs.Canonical
import VirtualMemory.Proofs.Spans

/-!
# What the tables can hold

Addresses are checked against the widths that the processor reports, which go up to 64 bits. Four
levels of tables look at 48 bits of an address, and the address field of an entry ends at bit 51. So
the check admits what the tables can hold as long as no more bits than these are implemented.

* `Widths.exists_index_ne_iff`: admitted pages differ in an index, up to 48 bits;
* `Widths.target_make_iff`: entries hold the admitted frames, up to 52 bits;
* `Owns.target?_mapPage_of_ne`: mapping a page leaves the other admitted pages alone;
* **`WellFormed.tables_hold`**: the three of them, and **`Widths.not_exists_index_ne`** beyond.
-/

namespace VirtualMemory

theorem Address.trail_eq_iff_index {v v' : VAddr} :
    v.trail 4 = v'.trail 4 ↔ ∀ l : Level, l.index v = l.index v' := by
  constructor
  · intro h l
    have ht := Address.trail_eq_of_le h (Nat.sub_le 4 l.height)
    rw [v.trail_height, v'.trail_height] at ht
    exact (List.cons.inj ht).1
  · intro h
    simp only [trail, h]

namespace Widths

variable {w : Widths} {v v' : VAddr}

/-- **Admitted pages with the same indices are the same**, up to 48 bits. -/
theorem eq_of_trail (hw : w.virt ≤ 48) (h : w.admitsPage v = true) (h' : w.admitsPage v' = true)
    (ht : v.trail 4 = v'.trail 4) : v = v' := by
  rw [trail_eq_iff hw (isCanonical_of_admitsPage h) (isCanonical_of_admitsPage h')] at ht
  have ha := Address.isAligned_page_iff.1 (isAligned_of_admitsPage h)
  have ha' := Address.isAligned_page_iff.1 (isAligned_of_admitsPage h')
  apply Address.ext
  apply BitVec.eq_of_toNat_eq
  omega

/-! ### Two pages with the same indices -/

/-- The page that differs from the first one in the bits above the root's index. -/
def farPage : VAddr := ⟨0xFFFF000000000000⟩

theorem index_farPage (l : Level) : l.index farPage = l.index ⟨0⟩ := by cases l <;> rfl

theorem admitsPage_zero (w : Widths) : w.admitsPage ⟨0⟩ = true := by
  have hlow : w.isCanonical ⟨0⟩ = true := isCanonical_iff.2 (.inl (Nat.two_pow_pos _))
  rw [admitsPage, hlow]
  rfl

theorem admitsPage_farPage (hw : 49 ≤ w.virt) : w.admitsPage farPage = true := by
  have hle : 2 ^ 48 ≤ 2 ^ (w.virt - 1) := Nat.pow_le_pow_right (by decide) (by omega)
  have hhigh : w.isCanonical farPage = true := by
    rw [isCanonical_iff]
    right
    show _ ≤ 2 ^ 64 - 2 ^ 48
    omega
  rw [admitsPage, hhigh]
  rfl

theorem exists_index_ne_iff (w : Widths) :
    (∀ v v', w.admitsPage v = true → w.admitsPage v' = true → v ≠ v' →
      ∃ l : Level, l.index v ≠ l.index v') ↔ w.virt ≤ 48 := by
  constructor
  · intro h
    by_contra hw
    obtain ⟨l, hl⟩ := h farPage ⟨0⟩ (admitsPage_farPage (by omega)) w.admitsPage_zero (by decide)
    exact hl (index_farPage l)
  · intro hw v v' hv hv' hne
    by_contra hn
    push Not at hn
    exact hne (eq_of_trail hw hv hv' (Address.trail_eq_iff_index.2 hn))

/-- **Where 57 bits are implemented**, the tables cannot tell all admitted pages apart. -/
theorem not_exists_index_ne :
    ¬ ∀ (w : Widths) (v v' : VAddr), w.admitsPage v = true → w.admitsPage v' = true → v ≠ v' →
      ∃ l : Level, l.index v ≠ l.index v' := by
  intro h
  obtain ⟨l, hl⟩ := h (.ofReported 57 52) ⟨0x1000000000000⟩ ⟨0⟩ (by decide) (by decide) (by decide)
  cases l <;> exact hl rfl

theorem target_make_iff (w : Widths) :
    (∀ p, w.admitsFrame p = true → ∀ a : Attributes, (Entry.make p a.encode.asLeaf).target = p) ↔
      w.phys ≤ 52 := by
  constructor
  · intro h
    by_contra hw
    have hle : 2 ^ 53 ≤ 2 ^ w.phys := Nat.pow_le_pow_right (by decide) (by omega)
    have hp : w.admitsFrame ⟨0x10000000000000⟩ = true := by
      rw [admitsFrame, Bool.and_eq_true, decide_eq_true_eq, BitVec.le_def, physEnd_toNat]
      refine ⟨rfl, ?_⟩
      show 2 ^ 52 ≤ _
      omega
    have hlost : (Entry.make ⟨0x10000000000000⟩ (∅ : Attributes).encode.asLeaf).target ≠
        ⟨0x10000000000000⟩ := by decide
    exact hlost (h _ hp ∅)
  · intro hw p hp a
    exact Entry.target_make (nameable_of_admitsFrame hw hp) (a.decode_leaf p).2

end Widths

namespace Machine

variable {α : Type} [FrameSource α] {used others : Set PAddr} {root p : PAddr} {v v' : VAddr}
  {w : Widths} {a : Attributes} {m : Machine α} {o : Nat}

theorem Owns.target?_mapPage_of_ne (h : Owns used others root m) (hw : w.virt ≤ 48)
    (hv : w.admitsPage v' = true) (hne : v' ≠ v) (ho : o < 4096) :
    ((m.mapPage w root p v a).2.memory.walk root (v' + BitVec.ofNat 64 o)).target? =
      (m.memory.walk root (v' + BitVec.ofNat 64 o)).target? := by
  have htrail := Address.trail_add_of_lt (Widths.isAligned_of_admitsPage hv) ho
  apply Memory.target?_walk_congr
  intro k hk
  rcases hrun : m.mapPage w root p v a with ⟨x | _, m'⟩
  · rw [Memory.leaf, (h.mapPage_error hrun).2, Memory.leaf]
  · rw [(h.mapPage_ok hrun).2.2, Function.update_of_ne]
    intro he
    rcases Nat.lt_or_eq_of_le hk with hk | rfl
    · exact Address.trail_ne_trail (by omega) he
    · rw [htrail] at he
      exact hne (Widths.eq_of_trail hw hv (mapPage_eq_ok hrun).2.1 he)

/-- **What the check admits and what the tables can hold.** -/
theorem WellFormed.tables_hold (h : WellFormed used root m) (w : Widths) :
    ((∀ v v', w.admitsPage v = true → w.admitsPage v' = true → v ≠ v' →
      ∃ l : Level, l.index v ≠ l.index v') ↔ w.virt ≤ 48) ∧
    ((∀ p, w.admitsFrame p = true → ∀ a : Attributes,
      (Entry.make p a.encode.asLeaf).target = p) ↔ w.phys ≤ 52) ∧
    (w.virt ≤ 48 → ∀ v v' p a, w.admitsPage v' = true → v' ≠ v → ∀ o < 4096,
      ((m.mapPage w root p v a).2.memory.walk root (v' + BitVec.ofNat 64 o)).target? =
        (m.memory.walk root (v' + BitVec.ofNat 64 o)).target?) :=
  ⟨w.exists_index_ne_iff, w.target_make_iff, fun hw _ _ _ _ hv hne _ ho =>
    h.owns.target?_mapPage_of_ne hw hv hne ho⟩

theorem next_page_unmapped :
    (((unmapped ⟨0x1000⟩ 8).mapPage .assumed ⟨0x1000⟩ ⟨0x9000⟩ ⟨0⟩ ∅).2.memory.walk ⟨0x1000⟩
      ((⟨0x1000⟩ : VAddr) + BitVec.ofNat 64 0x234)).target? = none := by
  have h : Owns _ ∅ ⟨0x1000⟩ (unmapped ⟨0x1000⟩ 8) :=
    owns_unmapped rfl (by decide) (by decide)
  have hkept := (h.wellFormed.tables_hold .assumed).2.2 (by decide) ⟨0⟩ ⟨0x1000⟩ ⟨0x9000⟩ ∅
    (by decide) (by decide) 0x234 (by decide)
  rw [hkept]
  decide +kernel

end Machine

end VirtualMemory
