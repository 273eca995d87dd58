import VirtualMemory.Proofs.Lookup

/-!
# What is refused

A call checks its arguments before it does anything. Several checks look at one run of pages, in
words that may wrap; together they come to one rule about each page, in numbers that do not.

* `Widths.ValidPages`, `Widths.ValidFrames`: each page of a run may be named, and **the checks of
  runs**: `admitsPages_iff_valid`, `admitsFrames_iff_valid`;
* `Machine.writeLeaf_ne_invalidAddress`: past the checks, no address is found invalid;
* `ChecksFirst`: a call that answers an invalid address exactly for invalid arguments, and then has
  changed nothing;
* **`Kernel.checks_come_first`**: every call on a hierarchy is one.
-/

namespace VirtualMemory

/-! ## Valid runs -/

namespace Widths

variable (w : Widths)

/-- **A page may start at `x`**: at a multiple of 4096, in the lower half or in the upper one. -/
def PageAt (x : Nat) : Prop :=
  x % 4096 = 0 ∧ (x < 2 ^ (w.virt - 1) ∨ 2 ^ 64 - 2 ^ (w.virt - 1) ≤ x ∧ x < 2 ^ 64)

/-- **A frame may start at `x`.** -/
def FrameAt (x : Nat) : Prop := x % 4096 = 0 ∧ x < 2 ^ w.phys

/-- The two numbers lie on the same side of the lower half's end. -/
def SameHalf (x y : Nat) : Prop := x < 2 ^ (w.virt - 1) ↔ y < 2 ^ (w.virt - 1)

/-- **Each page of a run may be named**, in the half that the run starts in. An empty run has a
start, too. -/
def ValidPages (v : VAddr) (n : Nat) : Prop :=
  ∀ i < max n 1, w.PageAt (v.bits.toNat + i * 4096) ∧
    w.SameHalf (v.bits.toNat + i * 4096) v.bits.toNat

/-- **Each frame of a run may be named.** -/
def ValidFrames (p : PAddr) (n : Nat) : Prop := ∀ i < max n 1, w.FrameAt (p.bits.toNat + i * 4096)

instance (x : Nat) : Decidable (w.PageAt x) := inferInstanceAs (Decidable (_ ∧ _))

instance (x : Nat) : Decidable (w.FrameAt x) := inferInstanceAs (Decidable (_ ∧ _))

instance (x y : Nat) : Decidable (w.SameHalf x y) := inferInstanceAs (Decidable (_ ↔ _))

instance (v : VAddr) (n : Nat) : Decidable (w.ValidPages v n) :=
  inferInstanceAs (Decidable (∀ i < max n 1, _))

instance (p : PAddr) (n : Nat) : Decidable (w.ValidFrames p n) :=
  inferInstanceAs (Decidable (∀ i < max n 1, _))

variable {w} {v : VAddr} {p : PAddr} {n i : Nat}

theorem admitsPage_iff : w.admitsPage v = true ↔ w.PageAt v.bits.toNat := by
  have hlt := v.bits.isLt
  rw [admitsPage, Bool.and_eq_true_iff, Address.isAligned_page_iff, isCanonical_iff, PageAt]
  simp only [hlt, and_true]

theorem admitsFrame_iff : w.admitsFrame p = true ↔ w.FrameAt p.bits.toNat := by
  have hp : 1 ≤ 2 ^ w.phys := Nat.one_le_two_pow
  rw [admitsFrame, Bool.and_eq_true_iff, Address.isAligned_page_iff, decide_eq_true_eq,
    BitVec.le_def, physEnd_toNat, FrameAt]
  exact and_congr_right fun _ => by omega

theorem admitsFrames_iff : w.admitsFrames p n = true ↔
    w.admitsFrame p = true ∧ p.bits.toNat + (n - 1) * 4096 < 2 ^ w.phys := by
  have hp : 1 ≤ 2 ^ w.phys := Nat.one_le_two_pow
  have hle : 2 ^ w.phys ≤ 2 ^ 64 := Nat.pow_le_pow_right (by decide) w.phys_le
  rw [admitsFrames, Bool.and_eq_true_iff]
  apply and_congr_right
  intro _
  cases hf : finalPage p.bits n with
  | none =>
    simp only [finalPage, Nat.one_shiftLeft, ite_eq_right_iff, reduceCtorEq, imp_false] at hf
    exact ⟨fun h => absurd h Bool.false_ne_true, fun h => absurd (Nat.lt_of_lt_of_le h hle) hf⟩
  | some last =>
    obtain ⟨-, hlast⟩ := finalPage_eq_some_iff.1 hf
    rw [decide_eq_true_eq, BitVec.le_def, physEnd_toNat, hlast]
    omega

/-- **The check of a run of pages is the rule about each of them.** -/
theorem admitsPages_iff_valid : w.admitsPages v n = true ↔ w.ValidPages v n := by
  rw [admitsPages_iff, admitsPage_iff]
  constructor
  · rintro ⟨⟨ha, hc⟩, hfit, hlow⟩ i hi
    have hle : v.bits.toNat + i * 4096 ≤ v.bits.toNat + (n - 1) * 4096 := by omega
    refine ⟨⟨by omega, hc.imp (fun h => ?_) fun h => ?_⟩, fun h => ?_, fun h => ?_⟩
    · exact Nat.lt_of_le_of_lt hle (hlow h)
    · exact ⟨Nat.le_trans h.1 (Nat.le_add_right _ _), Nat.lt_of_le_of_lt hle hfit⟩
    · exact Nat.lt_of_le_of_lt (Nat.le_add_right _ _) h
    · exact Nat.lt_of_le_of_lt hle (hlow h)
  · intro h
    obtain ⟨hfirst, -⟩ := h 0 (by omega)
    obtain ⟨⟨-, hlast⟩, hhalf⟩ := h (n - 1) (by omega)
    rw [Nat.zero_mul, Nat.add_zero] at hfirst
    have hle : 2 ^ (w.virt - 1) ≤ 2 ^ 64 :=
      Nat.pow_le_pow_right (by decide) (Nat.le_trans (Nat.sub_le _ _) w.virt_le)
    exact ⟨hfirst, hlast.elim (fun h => Nat.lt_of_lt_of_le h hle) And.right, hhalf.2⟩

theorem admitsFrames_iff_valid : w.admitsFrames p n = true ↔ w.ValidFrames p n := by
  rw [admitsFrames_iff, admitsFrame_iff]
  constructor
  · rintro ⟨⟨ha, -⟩, hfit⟩ i hi
    have hle : p.bits.toNat + i * 4096 ≤ p.bits.toNat + (n - 1) * 4096 := by omega
    exact ⟨by omega, Nat.lt_of_le_of_lt hle hfit⟩
  · intro h
    have hfirst := h 0 (by omega)
    rw [Nat.zero_mul, Nat.add_zero] at hfirst
    exact ⟨hfirst, (h (n - 1) (by omega)).2⟩

theorem ValidPages.admitsPage (h : w.ValidPages v n) : w.admitsPage v = true :=
  (admitsPages_iff.1 (admitsPages_iff_valid.2 h)).1

theorem ValidFrames.admitsFrame (h : w.ValidFrames p n) : w.admitsFrame p = true :=
  (admitsFrames_iff.1 (admitsFrames_iff_valid.2 h)).1

theorem ValidFrames.admitsFrame_addPages (h : w.ValidFrames p n) (hi : i < n) :
    w.admitsFrame (p.addPages i) = true := by
  have hle : 2 ^ w.phys ≤ 2 ^ 64 := Nat.pow_le_pow_right (by decide) w.phys_le
  have hlast := (admitsFrames_iff.1 (admitsFrames_iff_valid.2 h)).2
  rw [admitsFrame_iff, Address.toNat_addPages_of_lt hi (Nat.lt_of_lt_of_le hlast hle)]
  exact h i (by omega)

/-- **The length of a valid run in bytes is a word**: the run lies in a half of the space. -/
theorem ValidPages.length_lt (h : w.ValidPages v n) : n * 4096 < 2 ^ 64 := by
  have hhalf : 2 ^ (w.virt - 1) ≤ 2 ^ 63 :=
    Nat.pow_le_pow_right (by decide) (Nat.sub_le_of_le_add w.virt_le)
  obtain ⟨hpage, hsame⟩ := h (n - 1) (by omega)
  have hfirst := (h 0 (by omega)).1
  simp only [PageAt, SameHalf, Nat.zero_mul, Nat.add_zero] at hpage hsame hfirst
  omega

end Widths

namespace Span

theorem pages_eq (s : Span) : s.pages = (s.size.toNat + 4095) / 4096 := by
  have hlt := s.size.isLt
  have hmod : s.size % 4096 = 0 ↔ s.size.toNat % 4096 = 0 := by
    rw [← BitVec.toNat_inj, BitVec.toNat_umod]; rfl
  unfold pages
  simp only [hmod]
  split
  · rw [BitVec.toNat_udiv]
    change s.size.toNat / 4096 = _
    omega
  · rw [BitVec.toNat_add, BitVec.toNat_udiv]
    change (s.size.toNat / 4096 + 1) % 2 ^ 64 = _
    omega

end Span

/-! ## Past the checks -/

namespace Machine

variable {α : Type} [FrameSource α] {w : Widths} {root p : PAddr} {v : VAddr} {s : Span}
  {a : Attributes} {m : Machine α} {i left : Nat}

theorem makePath_ne_invalidAddress (v : VAddr) (link : EntryFlags) (leaf : Level) (n : Nat)
    (table : PAddr) (made : List NewTable) (m : Machine α) :
    (m.makePath v link leaf n table made).1 ≠ .error .invalidAddress := by
  induction n generalizing table made m with
  | zero => simp [makePath]
  | succ n ih =>
    simp only [makePath]
    generalize Entry.role _ _ = r
    cases r with
    | leaf => simp
    | link child => exact ih child made m
    | absent =>
      rcases m.allocate with ⟨_ | child, m'⟩
      · simp
      · exact ih _ _ _

theorem writeLeaf_ne_invalidAddress (root p : PAddr) (v : VAddr) (leaf : Level) (f : EntryFlags)
    (m : Machine α) : (m.writeLeaf root p v leaf f).1 ≠ .error .invalidAddress := by
  have hpath := makePath_ne_invalidAddress v f.asLink leaf (3 - leaf.height) root [] m
  unfold writeLeaf
  split
  · rename_i e made m' hp
    rw [hp] at hpath
    simpa using hpath
  · dsimp only
    split <;> exact nofun

theorem mapPage_ne_invalidAddress (hp : w.admitsFrame p = true) (hv : w.admitsPage v = true)
    (m : Machine α) : (m.mapPage w root p v a).1 ≠ .error .invalidAddress := by
  simp only [mapPage, hp, hv, Bool.not_true, Bool.or_self, Bool.false_eq_true, if_false]
  exact writeLeaf_ne_invalidAddress _ _ _ _ _ _

/-- **No page of an admitted run is found invalid.** -/
theorem mapSpanFrom_ne_invalidAddress
    (h : ∀ j < i + left, w.admitsFrame (s.phys.addPages j) = true ∧
      w.admitsPage (s.virt.addPages j) = true) (m : Machine α) :
    (m.mapSpanFrom w root s a left i).1 ≠ .error .invalidAddress := by
  induction left generalizing i m with
  | zero => exact nofun
  | succ left ih =>
    have hpage : (m.mapPage w root (s.phys.addPages i) (s.virt.addPages i) a).1 ≠ _ :=
      mapPage_ne_invalidAddress (h i (by omega)).1 (h i (by omega)).2 m
    rw [mapSpanFrom]
    split
    · exact ih (fun j hj => h j (by omega)) _
    · rename_i e m' hm
      rw [hm] at hpage
      simpa using hpage

end Machine

/-! ## Calls -/

/-- **A call that starts with its checks**: run from `s`, it answers an invalid address exactly when
its arguments are not valid, and then it has changed nothing. -/
structure ChecksFirst {σ : Type} (valid : Prop) (s : σ) (r : Except MapError Unit × σ) : Prop where
  refused_iff : r.1 = .error .invalidAddress ↔ ¬ valid
  unchanged : r.1 = .error .invalidAddress → r.2 = s

namespace ChecksFirst

variable {σ : Type} {valid : Prop} {s : σ} {r : Except MapError Unit × σ}

theorem refused (h : ¬ valid) : ChecksFirst valid s (.error .invalidAddress, s) :=
  ⟨⟨fun _ => h, fun _ => rfl⟩, fun _ => rfl⟩

theorem accepted (h : valid) (hr : r.1 ≠ .error .invalidAddress) : ChecksFirst valid s r :=
  ⟨⟨fun he => absurd he hr, fun hn => absurd h hn⟩, fun he => absurd he hr⟩

/-- **A guard in front of a call**: valid arguments pass it, and the others are refused. -/
theorem guard {b : Bool} (hb : b = true → ¬ valid) (hr : b = false → ChecksFirst valid s r) :
    ChecksFirst valid s (if b then (.error .invalidAddress, s) else r) := by
  cases b with
  | true => exact refused (hb rfl)
  | false => exact hr rfl

theorem onMachine {α : Type} {k : Kernel α} {step : Machine α → Except MapError Unit × Machine α}
    (h : ChecksFirst valid k.machine (step k.machine)) : ChecksFirst valid k (k.onMachine step) where
  refused_iff := h.refused_iff
  unchanged he := by rw [Kernel.onMachine, h.unchanged he]

end ChecksFirst

namespace Machine

variable {α : Type} [FrameSource α] (w : Widths) (root p : PAddr) (v : VAddr) (s : Span)
  (a : Attributes) (count : Nat) (m : Machine α)

theorem mapPage_checksFirst : ChecksFirst (w.FrameAt p.bits.toNat ∧ w.PageAt v.bits.toNat) m
    (m.mapPage w root p v a) := by
  rw [← Widths.admitsFrame_iff, ← Widths.admitsPage_iff]
  refine .guard (fun hb => ?_) fun hb => ?_
  · simpa [imp_iff_not_or] using hb
  · simp only [Bool.or_eq_false_iff, Bool.not_eq_false'] at hb
    exact .accepted hb (writeLeaf_ne_invalidAddress _ _ _ _ _ _)

theorem mapLarge_checksFirst : ChecksFirst ((w.FrameAt p.bits.toNat ∧ w.PageAt v.bits.toNat) ∧
    p.bits.toNat % 2 ^ 21 = 0 ∧ v.bits.toNat % 2 ^ 21 = 0) m (m.mapLarge w root p v a) := by
  have hp := p.isAligned_iff PageSize.mib2.bytes
  have hv := v.isAligned_iff PageSize.mib2.bytes
  rw [← Widths.admitsFrame_iff, ← Widths.admitsPage_iff,
    show 2 ^ 21 = PageSize.mib2.bytes.toNat from rfl, ← hp, ← hv]
  refine .guard (fun hb hn => ?_) fun hb => ?_
  · simp [hn.1.1, hn.1.2, hn.2.1, hn.2.2] at hb
  · simp only [Bool.or_eq_false_iff, Bool.not_eq_false'] at hb
    exact .accepted ⟨hb.1.1, hb.1.2, hb.2⟩ (writeLeaf_ne_invalidAddress _ _ _ _ _ _)

theorem mapSpan_checksFirst : ChecksFirst
    (w.ValidPages s.virt s.pages ∧ w.ValidFrames s.phys s.pages) m (m.mapSpan w root s a) := by
  refine .guard (fun hb hn => ?_) fun hb => ?_
  · rw [Widths.admitsPages_iff_valid.2 hn.1, Widths.admitsFrames_iff_valid.2 hn.2] at hb
    cases hb
  · simp only [Bool.or_eq_false_iff, Bool.not_eq_false'] at hb
    have hf := Widths.admitsFrames_iff_valid.1 hb.2
    refine .accepted ⟨Widths.admitsPages_iff_valid.1 hb.1, hf⟩
      (mapSpanFrom_ne_invalidAddress (fun j hj => ?_) m)
    rw [Nat.zero_add] at hj
    exact ⟨hf.admitsFrame_addPages hj, Widths.admitsPage_of_admitsPages hb.1 hj⟩

theorem unmapPages_checksFirst :
    ChecksFirst (w.ValidPages v count) m (m.unmapPages w root v count) := by
  rw [← Widths.admitsPages_iff_valid]
  refine .guard (fun hb => ?_) fun hb => ?_
  · simpa using hb
  · exact .accepted (by simpa using hb) nofun

end Machine

namespace Kernel

variable {α : Type} [FrameSource α]

theorem unmap_checksFirst (k : Kernel α) (v : VAddr) (count : Nat) :
    ChecksFirst (k.widths.ValidPages v count) k (k.unmap v count) :=
  .onMachine (k.machine.unmapPages_checksFirst k.widths k.currentRoot v count)

theorem map_checksFirst (k : Kernel α) (v : VAddr) (p : PAddr) (count : Nat) (a : Attributes) :
    ChecksFirst (k.widths.ValidPages v count ∧ k.widths.ValidFrames p count) k
      (k.map v p count a) := by
  refine .guard (fun hb hn => ?_) fun hb => ?_
  · rw [hn.1.admitsPage, hn.2.admitsFrame] at hb
    cases hb
  simp only [Bool.or_eq_false_iff, Bool.not_eq_false'] at hb
  rw [Widths.admitsFrame_iff, Widths.admitsPage_iff] at hb
  split
  · -- an empty run is its start, which has been looked at
    rename_i hc
    subst hc
    refine .accepted ⟨fun i hi => ?_, fun i hi => ?_⟩ nofun
    · obtain rfl : i = 0 := by omega
      simpa [Widths.SameHalf] using hb.2
    · obtain rfl : i = 0 := by omega
      simpa using hb.1
  · split
    · rename_i hnone
      refine .refused fun hn => ?_
      rw [Span.ofPages?, if_pos (by rw [Nat.one_shiftLeft]; exact hn.1.length_lt)] at hnone
      cases hnone
    · rename_i s hs
      have hm := k.machine.mapSpan_checksFirst k.widths k.currentRoot s a
      rw [Span.pages_of_ofPages? hs] at hm
      obtain ⟨-, rfl⟩ := Span.ofPages?_eq_some_iff.1 hs
      exact .onMachine hm

/-- **Checks come first, and are complete**: a call refuses what may not be named before it changes
anything, and nothing else as an invalid address. -/
theorem checks_come_first (k : Kernel α) (w : Widths) (root p : PAddr) (v : VAddr) (s : Span)
    (a : Attributes) (count : Nat) (m : Machine α) :
    ChecksFirst (k.widths.ValidPages v count ∧ k.widths.ValidFrames p count) k
      (k.map v p count a) ∧
    ChecksFirst (k.widths.ValidPages v count) k (k.unmap v count) ∧
    (s.pages = (s.size.toNat + 4095) / 4096 ∧
      ChecksFirst (w.ValidPages s.virt s.pages ∧ w.ValidFrames s.phys s.pages) m
        (m.mapSpan w root s a) ∧
      (w.ValidPages s.virt s.pages → w.ValidFrames s.phys s.pages → ∀ i < s.pages,
        ∀ m' : Machine α, (m'.mapPage w root (s.phys.addPages i) (s.virt.addPages i) a).1 ≠
          .error .invalidAddress)) ∧
    ChecksFirst (w.ValidPages v count) m (m.unmapPages w root v count) ∧
    ChecksFirst (w.FrameAt p.bits.toNat ∧ w.PageAt v.bits.toNat) m (m.mapPage w root p v a) ∧
    ChecksFirst ((w.FrameAt p.bits.toNat ∧ w.PageAt v.bits.toNat) ∧
      p.bits.toNat % 2 ^ 21 = 0 ∧ v.bits.toNat % 2 ^ 21 = 0) m (m.mapLarge w root p v a) ∧
    (w.ValidPages v count → (Span.ofPages? v p count).isSome) := by
  refine ⟨k.map_checksFirst v p count a, k.unmap_checksFirst v count, ?_,
    m.unmapPages_checksFirst w root v count, m.mapPage_checksFirst w root p v a,
    m.mapLarge_checksFirst w root p v a, fun hv => ?_⟩
  · refine ⟨s.pages_eq, m.mapSpan_checksFirst w root s a, fun hv hp i hi m' => ?_⟩
    exact Machine.mapPage_ne_invalidAddress (hp.admitsFrame_addPages hi)
      (Widths.admitsPage_of_admitsPages (Widths.admitsPages_iff_valid.2 hv) hi) m'
  · exact Option.isSome_iff_exists.2 ⟨_, Span.ofPages?_eq_some_iff.2 ⟨hv.length_lt, rfl⟩⟩

theorem refused_beyond_the_lower_half :
    ((onBlank .assumed 5).map ⟨0x7ffffffff000⟩ ⟨0x8000⟩ 2 ∅).1 = .error .invalidAddress ∧
      ((onBlank .assumed 5).map ⟨0x7ffffffff000⟩ ⟨0x8000⟩ 2 ∅).2 = onBlank .assumed 5 ∧
      ((onBlank .assumed 5).map ⟨0x7ffffffff000⟩ ⟨0x8000⟩ 1 ∅).1 ≠ .error .invalidAddress ∧
      (Span.ofPages? ⟨0x7ffffffff000⟩ ⟨0x8000⟩ 1).isSome ∧
      ∀ m : Machine FramePool, (m.mapPage .assumed ⟨0x1000⟩ ⟨0x8000⟩ ⟨0x7ffffffff000⟩ ∅).1 ≠
        .error .invalidAddress := by
  have checks := fun count => checks_come_first (onBlank .assumed 5) .assumed ⟨0x1000⟩ ⟨0x8000⟩
    ⟨0x7ffffffff000⟩ ⟨⟨0x7fffffffe000⟩, ⟨0x7000⟩, 5000⟩ ∅ count (onBlank .assumed 5).machine
  obtain ⟨hmap, -, ⟨-, -, hpage⟩, -, -, -, hsize⟩ := checks 1
  have hno := (checks 2).1.refused_iff.2 (by decide)
  exact ⟨hno, (checks 2).1.unchanged hno, fun he => hmap.refused_iff.1 he (by decide),
    hsize (by decide), hpage (by decide) (by decide) 1 (by decide)⟩

end Kernel

end VirtualMemory
