import VirtualMemory.Proofs.Unwinding

/-!
# What unmapping a run does

Unmapping takes away, whole, each leaf that meets the run, and no other. Where nothing resolved
before pages were mapped, unmapping these pages brings the hierarchy back as it was, because both
leave no leaf and no empty table on the trails of the pages.

* `Stripped.leafIn_eq_some_iff`: the leaves that are left lie off the stripped paths;
* **`WellFormed.unmapPages_effect`**: what addresses map to after a run was unmapped;
* **`Owns.sameHierarchy_unwind_of_slot`**: where nothing was mapped, unwinding brings back what changed
  on the trails of its pages;
* **`Kernel.unmap_after_map`**: unmapping undoes mapping.
-/

namespace VirtualMemory

theorem onTrails_trail_iff {v x : VAddr} {n d : Nat} (hd : 0 < d) :
    OnTrails v n (x.trail d) ↔ ∃ i < n, x.trail d = (v.addPages i).trail d := by
  constructor
  · rintro ⟨i, hi, k, -, he⟩
    obtain rfl : d = k := by
      by_contra hne
      exact Address.trail_ne_trail hne he
    exact ⟨i, hi, he⟩
  · rintro ⟨i, hi, he⟩
    exact ⟨i, hi, d, hd, he⟩

namespace Stripped

variable {root : PAddr} {T : Path → Prop} {s s' : Path → Option Entry} {p : Path} {e : Entry}

theorem leafIn_eq_some_iff (h : Stripped root T s s') :
    leafIn s' p = some e ↔ leafIn s p = some e ∧ ¬ T p := by
  constructor
  · intro he
    refine ⟨leafIn_of_le (fun _ _ => h.slot_of_some) he, fun hp => ?_⟩
    rw [h.leaf p hp] at he
    cases he
  · rintro ⟨he, hp⟩
    rw [leafIn_congr (h.slot_off hp), he]

theorem refl (hl : ∀ p, T p → leafIn s p = none) (hb : ∀ p, ¬ Bare root s p) :
    Stripped root T s s :=
  ⟨fun _ => .inl rfl, hl, fun p _ => hb p⟩

end Stripped

namespace Machine

variable {α : Type} [FrameSource α] {used others : Set PAddr} {root : PAddr} {v x : VAddr}
  {w : Widths} {n : Nat} {m m' : Machine α}

/-! ## The effect on addresses -/

/-- **After a run was unmapped an address maps as before** just if the page of its leaf does not
meet it. -/
theorem Owns.walk_unwind_iff (h : Owns used others root m) (hw : w.virt ≤ 48)
    (hv : w.admitsPages v n = true) (hx : w.isCanonical x = true) {p : PAddr} {a : Attributes}
    {l : Level} : (m.unwind root v n).memory.walk root x = .mapped p a l ↔
      m.memory.walk root x = .mapped p a l ∧ ∀ y, x.SamePage l y → ¬ v.InRun n y := by
  have hl := l.height_le
  have hpages : ∀ i < n, w.isCanonical (v.addPages i) = true := fun i hi =>
    Widths.isCanonical_of_admitsPage (Widths.admitsPage_of_admitsPages hv hi)
  have hmeet : OnTrails v n (x.trail (4 - l.height)) ↔ ∃ y, x.SamePage l y ∧ v.InRun n y := by
    obtain ⟨hp, hfit⟩ := Widths.of_admitsPages hv
    rw [onTrails_trail_iff (by omega)]
    exact Widths.exists_trail_iff_samePage hw (Widths.isAligned_of_admitsPage hp) hfit hpages hx
  simp only [Memory.walk_eq_mapped_iff, Memory.leaf, (h.stripped_unwind v n).leafIn_eq_some_iff,
    hmeet, not_exists, not_and]
  constructor
  · rintro ⟨e, ⟨he, hn⟩, hmap⟩
    exact ⟨⟨e, he, hmap⟩, hn⟩
  · rintro ⟨⟨e, he, hmap⟩, hn⟩
    exact ⟨e, ⟨he, hn⟩, hmap⟩

/-- **The effect of unmapping a run**: what meets it, in leaves of whichever size, maps to nothing,
and all else as before. -/
theorem WellFormed.unmapPages_effect (h : WellFormed used root m) (hw : w.virt ≤ 48) (v : VAddr)
    (n : Nat) :
    (w.admitsPages v n = true →
      (m.unmapPages w root v n).1 = .ok () ∧
      ∀ x, w.isCanonical x = true → ∀ p a l,
        (m.unmapPages w root v n).2.memory.walk root x = .mapped p a l ↔
          m.memory.walk root x = .mapped p a l ∧ ∀ y, x.SamePage l y → ¬ v.InRun n y) ∧
    (w.admitsPages v n = false → m.unmapPages w root v n = (.error .invalidAddress, m)) := by
  constructor
  · intro hv
    rw [unmapPages_eq hv]
    exact ⟨rfl, fun x hx p a l => h.owns.walk_unwind_iff hw hv hx⟩
  · exact fun hv => unmapPages_refused hv m

/-- A machine that has mapped a page of 2 MiB at `0x200000` and one of 4 KiB right after it. -/
def mixed : Machine FramePool :=
  Call.runAll .assumed ⟨0x1000⟩
    [.mapLarge ⟨0x600000⟩ ⟨0x200000⟩ ∅, .mapPage ⟨0x9000⟩ ⟨0x400000⟩ ∅] (unmapped ⟨0x1000⟩ 8)

theorem stocked_mixed :
    WellFormed (FramePool.pinnedSet ⟨0x1000⟩ 1) ⟨0x1000⟩ mixed ∧ Stocked ⟨0x1000⟩ mixed :=
  stocked_runAll_unmapped rfl (by decide) (by decide) _ _

theorem unmapPages_effect_mixed :
    (mixed.unmapPages .assumed ⟨0x1000⟩ ⟨0x3ff000⟩ 1).2.memory.walk ⟨0x1000⟩ ⟨0x400123⟩ =
        .mapped ⟨0x9123⟩ ∅ .pt ∧
      ∀ p a l, (mixed.unmapPages .assumed ⟨0x1000⟩ ⟨0x3ff000⟩ 1).2.memory.walk ⟨0x1000⟩
        ⟨0x200000⟩ ≠ .mapped p a l := by
  have h : Owns _ ∅ ⟨0x1000⟩ (unmapped ⟨0x1000⟩ 8) := owns_unmapped rfl (by decide) (by decide)
  have hwell : WellFormed _ ⟨0x1000⟩ mixed := (h.runAll _ _).owns.wellFormed
  obtain ⟨-, heff⟩ := (hwell.unmapPages_effect (w := .assumed) (by decide) ⟨0x3ff000⟩ 1).1
    (by decide)
  constructor
  · rw [heff _ (by decide)]
    refine ⟨by decide +kernel, fun y hy hin => ?_⟩
    simp only [Address.SamePage, Address.InRun, Level.shift, Level.height,
      BitVec.reduceToNat] at hy hin
    omega
  · intro p a l hwalk
    obtain ⟨hbefore, hmeet⟩ := (heff _ (by decide) _ _ _).1 hwalk
    have hlarge : mixed.memory.walk ⟨0x1000⟩ ⟨0x200000⟩ = .mapped ⟨0x600000⟩ ∅ .pd := by
      decide +kernel
    cases hlarge.symm.trans hbefore
    exact hmeet ⟨0x3ff000⟩ rfl (by decide)

/-! ## Pages that were not mapped -/

theorem Owns.sameHierarchy_unwind_of_slot (h : Owns used others root m)
    (h' : Owns used others root m') (hb : ∀ p, ¬ Bare root (m.memory.slot root) p)
    (hn : ∀ i < n, (m.memory.walk root (v.addPages i)).target? = none)
    (hoff : ∀ p, ¬ OnTrails v n p → m'.memory.slot root p = m.memory.slot root p)
    (hlink : ∀ i p t, tableIn root (m.memory.slot root) (i :: p) = some t →
      m'.memory.slot root (i :: p) = m.memory.slot root (i :: p)) :
    SameHierarchy root m (m'.unwind root v n) := by
  have hleaf : ∀ p, OnTrails v n p → leafIn (m.memory.slot root) p = none := by
    rintro p ⟨i, hi, k, -, rfl⟩
    exact Memory.leaf_trail_of_missing (hn i hi) k
  exact h.sameHierarchy (h'.unwind v n).1.owns
    ((h'.stripped_unwind v n).slot_eq (.refl hleaf hb) not_onTrails_nil hoff hlink)

theorem Owns.sameHierarchy_unwind_mapPrefix {s : Span} {a : Attributes} {left : Nat}
    {o : Option MapError} (h : Owns used others root m)
    (hb : ∀ p, ¬ Bare root (m.memory.slot root) p)
    (hn : ∀ i < n, (m.memory.walk root (s.virt.addPages i)).target? = none)
    (hrun : m.mapPrefix w root s a left 0 = (n, o, m')) :
    SameHierarchy root m (m'.unwind root s.virt n) := by
  obtain ⟨hoff, hlink⟩ := h.slot_mapPrefix hrun
  exact h.sameHierarchy_unwind_of_slot (h.mapPrefix hrun).1.owns hb hn
    (fun p hp => hoff p fun j _ hj k hk he => hp ⟨j, hj, k, hk, he⟩) hlink

end Machine

/-! ## Unmapping undoes mapping -/

namespace Kernel

variable {α : Type} [FrameSource α] {used : Set PAddr} {k k' : Kernel α} {v : VAddr} {p : PAddr}
  {count : Nat} {a : Attributes}

theorem map_eq_ok_mapPrefix (h : Machine.WellFormed used k.currentRoot k.machine)
    (hrun : k.map v p count a = (.ok (), k')) :
    k.widths.admitsPages v count = true ∧ k'.widths = k.widths ∧ k'.currentRoot = k.currentRoot ∧
      ∃ s : Span, s.virt = v ∧
        k.machine.mapPrefix k.widths k.currentRoot s a count 0 = (count, none, k'.machine) := by
  rcases map_eq_ok hrun with ⟨rfl, rfl⟩ | ⟨s, hs, hcall⟩
  · -- an empty map looks at the first page only
    have hv : k'.widths.admitsPage v = true := by
      unfold map at hrun
      split at hrun
      · cases hrun
      · rename_i hr
        simp only [Bool.or_eq_true, not_or, Bool.not_eq_true', Bool.not_eq_false] at hr
        exact hr.2
    refine ⟨Widths.admitsPages_iff.2 ⟨hv, ?_, ?_⟩, rfl, rfl, ⟨v, p, 0⟩, rfl, rfl⟩
    · simpa using v.bits.isLt
    · simp
  · obtain ⟨hm, hwid, hroot⟩ := call_eq h hcall
    obtain ⟨hv, n, hp⟩ := Machine.mapSpan_eq_ok hm
    obtain ⟨-, -, -, -, hn, -⟩ := h.owns.mapPrefix hp
    have hpages := Span.pages_of_ofPages? hs
    obtain ⟨-, rfl⟩ := Span.ofPages?_eq_some_iff.1 hs
    rw [hpages] at hv hp hn
    obtain rfl : n = count := by rw [hn rfl, Nat.zero_add]
    exact ⟨hv, hwid, hroot, _, rfl, hp⟩

theorem unmap_eq (h : Machine.WellFormed used k.currentRoot k.machine)
    (hv : k.widths.admitsPages v count = true) :
    (k.unmap v count).1 = .ok () ∧ (k.unmap v count).2.currentRoot = k.currentRoot ∧
      (k.unmap v count).2.machine = k.machine.unwind k.currentRoot v count := by
  have hrun : k.machine.unmapPages k.widths k.currentRoot v count = _ :=
    Machine.unmapPages_eq hv k.machine
  obtain ⟨hcall, -, hroot⟩ := call_eq h (Prod.fst_eq_iff.1 rfl : k.unmap v count = _)
  rw [Call.run, hrun, Prod.mk.injEq] at hcall
  exact ⟨hcall.1.symm, hroot, hcall.2.symm⟩

/-- **Unmapping undoes mapping**, where none of the pages resolved and no table was empty. -/
theorem unmap_after_map (h : Machine.WellFormed used k.currentRoot k.machine)
    (hs : Machine.Stocked k.currentRoot k.machine)
    (hn : ∀ i < count, (k.machine.memory.walk k.currentRoot (v.addPages i)).target? = none)
    (hrun : k.map v p count a = (.ok (), k')) :
    (k'.unmap v count).1 = .ok () ∧ (k'.unmap v count).2.currentRoot = k.currentRoot ∧
      Machine.SameHierarchy k.currentRoot k.machine (k'.unmap v count).2.machine := by
  obtain ⟨hv, hwid, hroot, s, rfl, hp⟩ := map_eq_ok_mapPrefix h hrun
  have hwell : Machine.WellFormed used k'.currentRoot k'.machine :=
    hroot ▸ (h.owns.mapPrefix hp).1.owns.wellFormed
  obtain ⟨hok, hroot', hm⟩ := unmap_eq hwell (hwid ▸ hv)
  rw [hm, hroot', hroot]
  exact ⟨hok, rfl, h.owns.sameHierarchy_unwind_mapPrefix (Machine.stocked_iff.1 hs) hn hp⟩

/-- A kernel that has mapped the page at `0x201000`. -/
def neighbour : Kernel FramePool where
  machine := Call.runAll .assumed ⟨0x1000⟩ [.mapPage ⟨0x5000⟩ ⟨0x201000⟩ ∅]
    (Machine.unmapped ⟨0x1000⟩ 8)
  widths := .assumed
  root := ⟨0x1000⟩

theorem unmap_after_map_neighbour :
    Machine.SameHierarchy ⟨0x1000⟩ neighbour.machine
      ((neighbour.map ⟨0x1ff000⟩ ⟨0x7000⟩ 2 ∅).2.unmap ⟨0x1ff000⟩ 2).2.machine := by
  have h : Machine.Owns _ ∅ ⟨0x1000⟩ (Machine.unmapped ⟨0x1000⟩ 8) :=
    Machine.owns_unmapped rfl (by decide) (by decide)
  have ho : Machine.Orderly _ ∅ ⟨0x1000⟩ _ neighbour.machine := h.runAll _ _
  have hbalanced : Machine.Balanced ⟨0x1000⟩ (Machine.unmapped ⟨0x1000⟩ 8) :=
    Machine.balanced_unmapped rfl (by decide) (by decide)
  have hstocked : Machine.Stocked ⟨0x1000⟩ neighbour.machine :=
    Machine.stocked_iff.2 fun p hp => hbalanced.not_bare (ho.bare p hp)
  have hroot : neighbour.currentRoot = ⟨0x1000⟩ := by decide +kernel
  have hok : (neighbour.map ⟨0x1ff000⟩ ⟨0x7000⟩ 2 ∅).1 = .ok () := by decide +kernel
  have hback := unmap_after_map (hroot ▸ ho.owns.wellFormed) (hroot ▸ hstocked)
    (by decide +kernel) (Prod.fst_eq_iff.1 hok)
  rw [hroot] at hback
  exact hback.2.2

end Kernel

end VirtualMemory
