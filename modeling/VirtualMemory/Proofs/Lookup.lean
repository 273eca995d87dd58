import VirtualMemory.Kernel
import VirtualMemory.Proofs.Accounting
import VirtualMemory.Proofs.Canonical

/-!
# Looking up what was mapped

A lookup answers what the walk of its address ends in. After pages were mapped it finds them, in
their frames and with their attributes, and everything else as before.

* `Kernel.lookup_eq`: a lookup, read off memory;
* `Owns.mapSpan_ok`, `Owns.leaf_path_mapSpan`: the leaves after a span was mapped, and
  `Owns.target?_mapSpan_ok`: what addresses map to then;
* **`Kernel.lookup_after_map`**: looking up after a map.
-/

namespace VirtualMemory

namespace Span

variable {v : VAddr} {p : PAddr} {count : Nat}

theorem ofPages?_eq_some_iff {s : Span} : ofPages? v p count = some s ↔
    count * 4096 < 2 ^ 64 ∧ s = ⟨v, p, BitVec.ofNat 64 (count * 4096)⟩ := by
  simp only [ofPages?, Nat.one_shiftLeft]
  split
  · rename_i h
    rw [Option.some.injEq]
    exact ⟨fun he => ⟨h, he.symm⟩, fun he => he.2.symm⟩
  · rename_i h
    exact ⟨nofun, fun he => absurd he.1 h⟩

theorem pages_of_ofPages? {s : Span} (h : ofPages? v p count = some s) : s.pages = count := by
  obtain ⟨hlt, rfl⟩ := ofPages?_eq_some_iff.1 h
  have hsize : (BitVec.ofNat 64 (count * 4096)).toNat = count * 4096 := by
    rw [BitVec.toNat_ofNat, Nat.mod_eq_of_lt hlt]
  have hmod : BitVec.ofNat 64 (count * 4096) % 4096 = 0 := by
    apply BitVec.eq_of_toNat_eq
    rw [BitVec.toNat_umod, hsize]
    exact Nat.mul_mod_left count 4096
  rw [pages, if_pos hmod, BitVec.toNat_udiv, hsize]
  exact Nat.mul_div_cancel count (by decide)

end Span

namespace Machine

variable {α : Type} [FrameSource α] {used others : Set PAddr} {root : PAddr} {w : Widths}
  {s : Span} {a : Attributes} {m m' : Machine α} {v : VAddr} {i : Nat}

theorem Owns.mapSpan_ok (h : Owns used others root m)
    (hrun : m.mapSpan w root s a = (.ok (), m')) :
    m'.memory.leaf root = s.overlay a s.pages 0 (m.memory.leaf root) ∧
      (∀ i < s.pages, w.admitsFrame (s.phys.addPages i) = true ∧
        w.admitsPage (s.virt.addPages i) = true) ∧
      s.virt.bits.toNat + (s.pages - 1) * 4096 < 2 ^ 64 := by
  obtain ⟨hv, n, hp⟩ := mapSpan_eq_ok hrun
  obtain ⟨-, -, -, -, hn, hl, had⟩ := h.mapPrefix hp
  obtain rfl : n = s.pages := by rw [hn rfl, Nat.zero_add]
  exact ⟨hl, fun i hi => had i (Nat.zero_le i) hi, (Widths.of_admitsPages hv).2⟩

theorem path_inj {n i j : Nat} (hw : w.virt ≤ 48)
    (hfit : s.virt.bits.toNat + (n - 1) * 4096 < 2 ^ 64)
    (had : ∀ i < n, w.admitsPage (s.virt.addPages i) = true) (hi : i < n) (hj : j < n)
    (h : s.path i = s.path j) : i = j := by
  rw [Span.path, Span.path, Widths.trail_eq_iff hw (Widths.isCanonical_of_admitsPage (had i hi))
    (Widths.isCanonical_of_admitsPage (had j hj)), Address.toNat_addPages_of_lt hi hfit,
    Address.toNat_addPages_of_lt hj hfit] at h
  omega

/-- **Each page of a span that was mapped has its leaf**: no later page was laid over it. -/
theorem Owns.leaf_path_mapSpan (h : Owns used others root m) (hw : w.virt ≤ 48)
    (hrun : m.mapSpan w root s a = (.ok (), m')) (hi : i < s.pages) :
    m'.memory.leaf root (s.path i) = some (s.leaf a i) := by
  obtain ⟨hl, had, hfit⟩ := h.mapSpan_ok hrun
  rw [hl]
  refine s.overlay_path a (Nat.zero_le i) (by omega) fun j hij hj he => ?_
  have := path_inj hw hfit (fun i hi => (had i hi).2) hi (by omega) he
  omega

/-- **What addresses map to after a span was mapped.** -/
theorem Owns.target?_mapSpan_ok (h : Owns used others root m) (hw : w.virt ≤ 48)
    (hw' : w.phys ≤ 52) (hrun : m.mapSpan w root s a = (.ok (), m')) :
    (∀ i < s.pages, v.trail 4 = s.path i → (m'.memory.walk root v).target? =
      some (s.phys.addPages i + v.pageOffset, a.readBack)) ∧
    ((∀ i < s.pages, v.trail 4 ≠ s.path i) →
      (m'.memory.walk root v).target? = (m.memory.walk root v).target?) := by
  obtain ⟨hl, had, -⟩ := h.mapSpan_ok hrun
  constructor
  · intro i hi hv
    have he := hv ▸ h.leaf_path_mapSpan hw hrun hi
    obtain ⟨hd, hm⟩ := a.decode_leaf (s.phys.addPages i)
    have ht := Entry.target_make (Widths.nameable_of_admitsFrame hw' (had i hi).1) hm
    rw [Memory.target?_walk_of_page he, Span.leaf, ht, hd]
  · intro hv
    refine Memory.target?_walk_congr fun k hk => ?_
    rw [hl, s.overlay_of_ne a]
    intro i _ hi he
    by_cases hk3 : k = 3
    · subst hk3
      exact hv i (by omega) he
    · exact Address.trail_ne_trail (by omega) he

end Machine

namespace Kernel

variable {α : Type}

theorem lookup_eq (k : Kernel α) (v : VAddr) : (k.lookup v).1 =
    if k.widths.isCanonical v then
      ((k.machine.memory.walk k.currentRoot v).target?.elim (.error .notMapped) .ok)
    else .error .invalidAddress := by
  unfold lookup
  cases k.widths.isCanonical v
  · rfl
  · simp only [onMachine, Machine.walk, Bool.not_true, Bool.false_eq_true, if_false, if_true]
    cases (k.machine.memory.walk k.currentRoot v).target? <;> rfl

theorem lookup_eq_notMapped_iff {k : Kernel α} {v : VAddr} (hv : k.widths.isCanonical v = true) :
    (k.lookup v).1 = .error .notMapped ↔
      (k.machine.memory.walk k.currentRoot v).target? = none := by
  rw [lookup_eq, if_pos hv]
  cases (k.machine.memory.walk k.currentRoot v).target? <;> simp

theorem lookup_eq_lookup_iff {k k' : Kernel α} {v : VAddr} (hw : k'.widths = k.widths)
    (hv : k.widths.isCanonical v = true) :
    (k'.lookup v).1 = (k.lookup v).1 ↔ (k'.machine.memory.walk k'.currentRoot v).target? =
      (k.machine.memory.walk k.currentRoot v).target? := by
  rw [lookup_eq, lookup_eq, hw, if_pos hv, if_pos hv]
  cases (k.machine.memory.walk k.currentRoot v).target? <;>
    cases (k'.machine.memory.walk k'.currentRoot v).target? <;> simp

variable [FrameSource α] {used : Set PAddr} {k k' : Kernel α} {v v' : VAddr} {p : PAddr}
  {count : Nat} {a : Attributes}

theorem call_eq {root : PAddr} {c : Call} {r : Except MapError Unit}
    (h : Machine.WellFormed used root k.machine) (hrun : k.call root c = (r, k')) :
    c.run k.widths root k.machine = (r, k'.machine) ∧ k'.widths = k.widths ∧
      k'.currentRoot = k.currentRoot := by
  obtain ⟨rfl, rfl⟩ := Prod.mk.injEq .. ▸ hrun
  exact ⟨rfl, rfl, congrArg Registers.cr3 (h.owns.call k.widths c).1.confined.registers⟩

theorem map_cases (k : Kernel α) (v : VAddr) (p : PAddr) (count : Nat) (a : Attributes) :
    (k.map v p count a).2 = k ∨ ∃ s, Span.ofPages? v p count = some s ∧
      k.map v p count a = k.call k.currentRoot (.mapSpan s a) := by
  unfold map
  split
  · exact .inl rfl
  split
  · exact .inl rfl
  split
  · exact .inl rfl
  · rename_i s hs
    exact .inr ⟨s, hs, rfl⟩

theorem map_eq_ok (hrun : k.map v p count a = (.ok (), k')) :
    (k' = k ∧ count = 0) ∨
      ∃ s, Span.ofPages? v p count = some s ∧ k.call k.currentRoot (.mapSpan s a) = (.ok (), k') := by
  unfold map at hrun
  split at hrun
  · cases hrun
  split at hrun
  · rename_i hc
    cases hrun
    exact .inl ⟨rfl, hc⟩
  split at hrun
  · cases hrun
  · rename_i s hs
    exact .inr ⟨s, hs, hrun⟩

/-- **Looking up after a map** finds the addresses of the run in their frames, and all others as
before. -/
theorem lookup_after_map (h : Machine.WellFormed used k.currentRoot k.machine)
    (hw : k.widths.virt ≤ 48) (hw' : k.widths.phys ≤ 52)
    (hrun : k.map v p count a = (.ok (), k')) :
    (∀ o < count * 4096, k.widths.isCanonical (v + BitVec.ofNat 64 o) = true →
      (k'.lookup (v + BitVec.ofNat 64 o)).1 = .ok (p + BitVec.ofNat 64 o, a.readBack)) ∧
    (∀ v', k.widths.isCanonical v' = true → ¬ v.InRun count v' →
      (k'.lookup v').1 = (k.lookup v').1) ∧
    (13 ≤ k.widths.virt → ∀ o < count * 4096,
      k.widths.isCanonical (v + BitVec.ofNat 64 o) = true) := by
  rcases map_eq_ok hrun with ⟨rfl, rfl⟩ | ⟨s, hs, hrun⟩
  · exact ⟨fun o ho => absurd ho (by omega), fun _ _ _ => rfl, fun _ o ho => absurd ho (by omega)⟩
  obtain ⟨hm, hwid, hroot⟩ := call_eq h hrun
  have hpages := Span.pages_of_ofPages? hs
  obtain ⟨-, had, hfit⟩ := h.owns.mapSpan_ok hm
  have hmap := fun v => h.owns.target?_mapSpan_ok (v := v) hw hw' hm
  obtain ⟨-, rfl⟩ := Span.ofPages?_eq_some_iff.1 hs
  rw [hpages] at had hfit hmap
  dsimp only at had hfit hmap
  have hpage : ∀ i < count, k.widths.admitsPage (v.addPages i) = true := fun i hi => (had i hi).2
  have haligned : 0 < count → v.isAligned 4096 = true := fun hc => by
    have := Widths.isAligned_of_admitsPage (hpage 0 hc)
    rwa [Address.addPages_zero] at this
  have hoff := fun o (ho : o < count * 4096) => Address.page_of_offset (haligned (by omega)) hfit ho
  refine ⟨fun o ho hc => ?_, fun v' hv' hn => ?_, fun hw13 o ho => ?_⟩
  · obtain ⟨hi, hmod, hdiv⟩ := hoff o ho
    have hsame := (Widths.trail_eq_iff hw hc (Widths.isCanonical_of_admitsPage (hpage _ hi))).2 hdiv
    have ht := (hmap (v + BitVec.ofNat 64 o)).1 (o / 4096) hi hsame
    rw [Address.addPages_add_pageOffset hmod] at ht
    rw [lookup_eq, hwid, if_pos hc, hroot, ht]
    rfl
  · rw [lookup_eq_lookup_iff hwid hv', hroot]
    refine (hmap v').2 fun i hi he => hn ?_
    exact (Widths.exists_trail_iff_inRun hw (haligned (by omega)) hfit
      (fun i hi => Widths.isCanonical_of_admitsPage (hpage i hi)) hv').1 ⟨i, hi, he⟩
  · obtain ⟨hi, -, hdiv⟩ := hoff o ho
    exact Widths.isCanonical_of_page hw13 (hpage _ hi) hdiv

/-! ### Two kernels on a blank memory -/

def onBlank (w : Widths) (size : Nat) : Kernel FramePool :=
  ⟨.unmapped ⟨0x1000⟩ size, w, ⟨0x1000⟩⟩

theorem wellFormed_onBlank (w : Widths) {size : Nat} (hs : 1 ≤ size) (hf : size < 2 ^ 39) :
    Machine.WellFormed (FramePool.pinnedSet ⟨0x1000⟩ 1) (onBlank w size).currentRoot
      (onBlank w size).machine :=
  (Machine.owns_unmapped rfl hs (by change 4096 + size * 4096 ≤ _; omega)).wellFormed

theorem lookup_after_two_pages :
    (((onBlank .assumed 5).map ⟨0x1ff000⟩ ⟨0x7000⟩ 2 ⟨0x105⟩).2.lookup ⟨0x200234⟩).1 =
        .ok (⟨0x8234⟩, ⟨0x5⟩) ∧
      (((onBlank .assumed 5).map ⟨0x1ff000⟩ ⟨0x7000⟩ 2 ⟨0x105⟩).2.lookup ⟨0x201000⟩).1 =
        .error .notMapped := by
  have hok : ((onBlank .assumed 5).map ⟨0x1ff000⟩ ⟨0x7000⟩ 2 ⟨0x105⟩).1 = .ok () := by
    decide +kernel
  obtain ⟨hin, hout, -⟩ := lookup_after_map (wellFormed_onBlank .assumed (by decide) (by decide))
    (by decide) (by decide) (Prod.fst_eq_iff.1 hok)
  have hfree : ((onBlank .assumed 5).lookup ⟨0x201000⟩).1 = .error .notMapped := by decide +kernel
  exact ⟨hin 0x1234 (by decide) (by decide),
    (hout ⟨0x201000⟩ (by decide) (by decide)).trans hfree⟩

/-- **Where less than a page is canonical**, not every address of a mapped page can be looked up. -/
theorem not_lookup_after_map :
    ¬ ∀ (used : Set PAddr) (k k' : Kernel FramePool) (v : VAddr) (p : PAddr) (count : Nat)
      (a : Attributes), Machine.WellFormed used k.currentRoot k.machine → k.widths.virt ≤ 48 →
      k.widths.phys ≤ 52 → k.map v p count a = (.ok (), k') → ∀ o < count * 4096,
      (k'.lookup (v + BitVec.ofNat 64 o)).1 = .ok (p + BitVec.ofNat 64 o, a.readBack) := by
  intro h
  have hok : ((onBlank (.ofReported 5 48) 4).map ⟨0⟩ ⟨0x5000⟩ 1 ∅).1 = .ok () := by decide +kernel
  have hno : ((((onBlank (.ofReported 5 48) 4).map ⟨0⟩ ⟨0x5000⟩ 1 ∅).2).lookup
      ((⟨0⟩ : VAddr) + BitVec.ofNat 64 100)).1 = .error .invalidAddress := by decide +kernel
  have hyes := h _ _ _ _ _ _ _ (wellFormed_onBlank _ (by decide) (by decide)) (by decide)
    (by decide) (Prod.fst_eq_iff.1 hok) 100 (by decide)
  rw [hno] at hyes
  cases hyes

end Kernel

end VirtualMemory
