import VirtualMemory.Proofs.Lookup

/-!
# What a failed call leaves behind

A call that maps a span and fails has unmapped the pages it mapped before. It does not know what
they mapped to before the call, so earlier mappings of these pages are lost, and nothing else is.

* `Machine.pagesMapped`: the number of pages mapped before the one that failed;
* **`Owns.mapSpan_error`**: the leaves after a failure;
* **`Kernel.failed_map_removes`**: the pages mapped before resolve no more, all other addresses do
  as before.
-/

namespace VirtualMemory

namespace Machine

variable {α : Type} [FrameSource α] {used others : Set PAddr} {root : PAddr} {w : Widths}
  {s : Span} {a : Attributes} {x : MapError} {m m' : Machine α} {v : VAddr} {i : Nat}

/-- **The number of pages that a span maps** before the first that fails. It is zero if the span is
refused as a whole. -/
def pagesMapped (w : Widths) (root : PAddr) (s : Span) (a : Attributes) (m : Machine α) : Nat :=
  if !w.admitsPages s.virt s.pages || !w.admitsFrames s.phys s.pages then 0
  else (m.mapPrefix w root s a s.pages 0).1

theorem mapSpan_eq_error (hrun : m.mapSpan w root s a = (.error x, m')) :
    (m' = m ∧ m.pagesMapped w root s a = 0) ∨
      ∃ m₁, m.mapPrefix w root s a s.pages 0 = (m.pagesMapped w root s a, some x, m₁) ∧
        m' = (m₁.note (.runFailed s.pages s.virt (m.pagesMapped w root s a) x)).unwind root s.virt
          (m.pagesMapped w root s a) := by
  unfold Machine.mapSpan at hrun
  split at hrun
  · rename_i hv
    cases hrun
    exact .inl ⟨rfl, if_pos hv⟩
  · rename_i hv
    rw [pagesMapped, if_neg hv]
    rw [mapSpanFrom_eq] at hrun
    split at hrun
    · cases hrun
    · rename_i n e m₁ hp
      cases hrun
      exact .inr ⟨m₁, by rw [hp], by rw [hp]⟩

theorem Owns.leaf_trail_mapPrefix {n i : Nat} {o : Option MapError} (h : Owns used others root m)
    (hp : m.mapPrefix w root s a s.pages 0 = (n, o, m')) (hi : i < n) {k : Nat} (hk : k ≠ 4) :
    m'.memory.leaf root ((s.virt.addPages i).trail k) = none ∧
      m.memory.leaf root ((s.virt.addPages i).trail k) = none := by
  obtain ⟨-, -, -, -, -, hl, -⟩ := h.mapPrefix hp
  rw [Nat.sub_zero] at hl
  have hne : m'.memory.leaf root (s.path i) ≠ none := by
    rw [hl]
    exact (s.overlay_ne_none_iff a).2 (.inr ⟨i, Nat.zero_le i, by omega, rfl⟩)
  obtain ⟨e, he⟩ := Option.ne_none_iff_exists'.1 hne
  have hnone := Memory.leaf_trail_of_page he hk
  refine ⟨hnone, ?_⟩
  rw [← hnone, hl, s.overlay_of_ne a]
  exact fun j _ _ => Address.trail_ne_trail hk

/-- **The leaves after a failure**: the pages mapped until then have none, the others stay. -/
theorem Owns.mapSpan_error (h : Owns used others root m)
    (hrun : m.mapSpan w root s a = (.error x, m')) :
    (∀ p, m'.memory.leaf root p =
      if ∃ i < m.pagesMapped w root s a, p = s.path i then none else m.memory.leaf root p) ∧
    ∀ i < m.pagesMapped w root s a, w.admitsPage (s.virt.addPages i) = true ∧
      ∀ k, k ≠ 4 → m.memory.leaf root ((s.virt.addPages i).trail k) = none := by
  rcases mapSpan_eq_error hrun with ⟨rfl, hn⟩ | ⟨m₁, hp, rfl⟩
  · rw [hn]
    exact ⟨fun p => (if_neg (by rintro ⟨i, hi, -⟩; exact absurd hi (Nat.not_lt_zero i))).symm,
      fun i hi => absurd hi (Nat.not_lt_zero i)⟩
  · generalize m.pagesMapped w root s a = n at hp ⊢
    obtain ⟨ho, -, -, -, -, hl, had⟩ := h.mapPrefix hp
    rw [Nat.sub_zero] at hl
    obtain ⟨-, -, hu⟩ := (ho.owns.congr (memory_note m₁ (.runFailed s.pages s.virt n x))
      (frames_note _ _)).unwind s.virt n
    rw [memory_note] at hu
    refine ⟨fun p => ?_, fun i hi => ⟨(had i (Nat.zero_le i) hi).2, fun k hk =>
      (h.leaf_trail_mapPrefix hp hi hk).2⟩⟩
    -- unwinding removes whole leaves, so it matters that none of them is a large page
    rw [hu fun i hi k hk => (h.leaf_trail_mapPrefix hp hi hk).1]
    by_cases hp : ∃ i < n, p = s.path i
    · rw [if_pos hp]
      exact if_pos hp
    · rw [if_neg hp]
      refine (if_neg hp).trans ?_
      rw [hl, s.overlay_of_ne a]
      exact fun i _ hi he => hp ⟨i, by omega, he⟩

theorem Owns.target?_mapSpan_error (h : Owns used others root m)
    (hrun : m.mapSpan w root s a = (.error x, m')) (v : VAddr) :
    (m'.memory.walk root v).target? =
      if ∃ i < m.pagesMapped w root s a, v.trail 4 = s.path i then none
      else (m.memory.walk root v).target? := by
  obtain ⟨hl, hn⟩ := h.mapSpan_error hrun
  have hk : ∀ k ≤ 3, k ≠ 3 → m'.memory.leaf root (v.trail (k + 1)) =
      m.memory.leaf root (v.trail (k + 1)) := fun k hk hk3 => by
    rw [hl, if_neg]
    rintro ⟨i, -, he⟩
    exact Address.trail_ne_trail (by omega) he
  split
  · rename_i hi
    rw [Memory.target?_walk_eq_none_iff]
    intro k hk3
    by_cases hk' : k = 3
    · subst hk'
      rw [hl, if_pos hi]
    · obtain ⟨i, hi, he⟩ := hi
      rw [hk k hk3 hk', Address.trail_eq_of_le he (by omega)]
      exact (hn i hi).2 (k + 1) (by omega)
  · rename_i hi
    refine Memory.target?_walk_congr fun k hk3 => ?_
    by_cases hk' : k = 3
    · subst hk'
      rw [hl, if_neg hi]
    · exact hk k hk3 hk'

theorem Owns.inRun_pagesMapped (h : Owns used others root m) (hw : w.virt ≤ 48)
    (hrun : m.mapSpan w root s a = (.error x, m')) (hv : w.isCanonical v = true) :
    (∃ i < m.pagesMapped w root s a, v.trail 4 = s.path i) ↔
      s.virt.InRun (m.pagesMapped w root s a) v := by
  have had := (h.mapSpan_error hrun).2
  by_cases hr : (!w.admitsPages s.virt s.pages || !w.admitsFrames s.phys s.pages) = true
  · have hn : m.pagesMapped w root s a = 0 := if_pos hr
    rw [hn]
    refine ⟨fun ⟨i, hi, _⟩ => absurd hi (Nat.not_lt_zero i), fun ⟨h₁, h₂⟩ => ?_⟩
    omega
  · have hle : m.pagesMapped w root s a ≤ s.pages := by
      rw [pagesMapped, if_neg hr]
      obtain ⟨-, -, -, hle, -⟩ := h.mapPrefix (Prod.fst_eq_iff.1 rfl)
      rwa [Nat.zero_add] at hle
    obtain ⟨hp, hfit⟩ := Widths.of_admitsPages (w := w) (v := s.virt) (n := s.pages)
      (by simp only [Bool.or_eq_true, not_or, Bool.not_eq_true'] at hr; simpa using hr.1)
    have hfit' : s.virt.bits.toNat + (m.pagesMapped w root s a - 1) * 4096 < 2 ^ 64 :=
      Nat.lt_of_le_of_lt (Nat.add_le_add_left (Nat.mul_le_mul_right _ (by omega)) _) hfit
    exact Widths.exists_trail_iff_inRun hw (Widths.isAligned_of_admitsPage hp) hfit'
      (fun i hi => Widths.isCanonical_of_admitsPage (had i hi).1) hv

theorem WellFormed.mapSpan_error (h : WellFormed used root m) (hw : w.virt ≤ 48)
    (hrun : m.mapSpan w root s a = (.error x, m')) :
    (∀ v, w.isCanonical v = true → (m'.memory.walk root v).target? =
      if s.virt.InRun (m.pagesMapped w root s a) v then none
      else (m.memory.walk root v).target?) ∧
    ((∀ v, w.isCanonical v = true →
        (m'.memory.walk root v).target? = (m.memory.walk root v).target?) ↔
      ∀ i < m.pagesMapped w root s a,
        (m.memory.walk root (s.virt.addPages i)).target? = none) := by
  have ho := h.owns
  have heff : ∀ v, w.isCanonical v = true → (m'.memory.walk root v).target? =
      if s.virt.InRun (m.pagesMapped w root s a) v then none
      else (m.memory.walk root v).target? := fun v hv => by
    rw [ho.target?_mapSpan_error hrun]
    by_cases hi : s.virt.InRun (m.pagesMapped w root s a) v
    · rw [if_pos hi, if_pos ((ho.inRun_pagesMapped hw hrun hv).2 hi)]
    · rw [if_neg hi, if_neg fun he => hi ((ho.inRun_pagesMapped hw hrun hv).1 he)]
  refine ⟨heff, fun hsame i hi => ?_, fun hnone v hv => ?_⟩
  · have hc := Widths.isCanonical_of_admitsPage ((ho.mapSpan_error hrun).2 i hi).1
    rw [← hsame _ hc, ho.target?_mapSpan_error hrun, if_pos ⟨i, hi, rfl⟩]
  · rw [ho.target?_mapSpan_error hrun]
    split
    · rename_i hi
      obtain ⟨i, hi, he⟩ := hi
      exact (Memory.target?_walk_eq_none_of_trail he (hnone i hi)).symm
    · rfl

end Machine

namespace Kernel

variable {α : Type}

variable [FrameSource α] {used : Set PAddr} {k k' : Kernel α} {v v' : VAddr} {p : PAddr}
  {count : Nat} {a : Attributes} {x : MapError}

/-- **The number of pages that the kernel maps** before the first that fails. -/
def pagesMapped (k : Kernel α) (v : VAddr) (p : PAddr) (count : Nat) (a : Attributes) : Nat :=
  match Span.ofPages? v p count with
  | none => 0
  | some s => k.machine.pagesMapped k.widths k.currentRoot s a

theorem map_eq_error (hrun : k.map v p count a = (.error x, k')) :
    (k' = k ∧ k.pagesMapped v p count a = 0) ∨
      ∃ s, Span.ofPages? v p count = some s ∧ k.call k.currentRoot (.mapSpan s a) = (.error x, k') := by
  unfold map at hrun
  split at hrun
  · rename_i hr
    cases hrun
    refine .inl ⟨rfl, ?_⟩
    unfold pagesMapped
    split
    · rfl
    · rename_i s hs
      obtain ⟨-, rfl⟩ := Span.ofPages?_eq_some_iff.1 hs
      refine if_pos ?_
      simp only [Bool.or_eq_true, Bool.not_eq_true'] at hr ⊢
      refine hr.symm.imp (fun hr => ?_) fun hr => ?_
      · rw [Widths.admitsPages, hr, Bool.false_and]
      · rw [Widths.admitsFrames, hr, Bool.false_and]
  split at hrun
  · cases hrun
  split at hrun
  · rename_i hs
    cases hrun
    exact .inl ⟨rfl, by rw [pagesMapped, hs]⟩
  · rename_i s hs
    exact .inr ⟨s, hs, hrun⟩

theorem map_error (h : Machine.WellFormed used k.currentRoot k.machine) (hw : k.widths.virt ≤ 48)
    (hrun : k.map v p count a = (.error x, k')) :
    (∀ v', k.widths.isCanonical v' = true → (k'.lookup v').1 =
      if v.InRun (k.pagesMapped v p count a) v' then .error .notMapped else (k.lookup v').1) ∧
    ((∀ v', k.widths.isCanonical v' = true → (k'.lookup v').1 = (k.lookup v').1) ↔
      ∀ i < k.pagesMapped v p count a, (k.lookup (v.addPages i)).1 = .error .notMapped) := by
  rcases map_eq_error hrun with ⟨rfl, hn⟩ | ⟨s, hs, hrun⟩
  · rw [hn]
    refine ⟨fun v' _ => (if_neg fun ⟨h₁, h₂⟩ => ?_).symm,
      fun _ i hi => absurd hi (Nat.not_lt_zero i), fun _ _ _ => rfl⟩
    omega
  · obtain ⟨hm, hwid, hroot⟩ := call_eq h hrun
    obtain ⟨heff, hiff⟩ := h.mapSpan_error hw hm
    have had := (h.owns.mapSpan_error hm).2
    have hn : k.pagesMapped v p count a =
        k.machine.pagesMapped k.widths k.currentRoot s a := by simp only [pagesMapped, hs]
    obtain ⟨-, rfl⟩ := Span.ofPages?_eq_some_iff.1 hs
    rw [← hn] at heff hiff had
    refine ⟨fun v' hv' => ?_, ?_⟩
    · have he := heff v' hv'
      split at he
      · rename_i hi
        rw [if_pos hi, lookup_eq_notMapped_iff (hwid ▸ hv'), hroot, he]
      · rename_i hi
        rw [if_neg hi, lookup_eq_lookup_iff hwid hv', hroot, he]
    · refine Iff.trans (forall_congr' fun v' => forall_congr' fun hv' => ?_) (hiff.trans
        (forall_congr' fun i => forall_congr' fun hi => ?_))
      · rw [lookup_eq_lookup_iff hwid hv', hroot]
      · exact (lookup_eq_notMapped_iff (Widths.isCanonical_of_admitsPage (had i hi).1)).symm

/-- **A failed call removes the pages it has mapped**, and changes nothing else. -/
theorem failed_map_removes (hw : k.widths.virt ≤ 48) :
    (∀ root s, Machine.WellFormed used root k.machine →
      k.call root (.mapSpan s a) = (.error x, k') →
      let n := k.machine.pagesMapped k.widths root s a
      (∀ v, k.widths.isCanonical v = true → (k'.machine.memory.walk root v).target? =
        if s.virt.InRun n v then none else (k.machine.memory.walk root v).target?) ∧
      ((∀ v, k.widths.isCanonical v = true →
          (k'.machine.memory.walk root v).target? = (k.machine.memory.walk root v).target?) ↔
        ∀ i < n, (k.machine.memory.walk root (s.virt.addPages i)).target? = none)) ∧
    (∀ v p count, Machine.WellFormed used k.currentRoot k.machine →
      k.map v p count a = (.error x, k') →
      let n := k.pagesMapped v p count a
      (∀ v', k.widths.isCanonical v' = true → (k'.lookup v').1 =
        if v.InRun n v' then .error .notMapped else (k.lookup v').1) ∧
      ((∀ v', k.widths.isCanonical v' = true → (k'.lookup v').1 = (k.lookup v').1) ↔
        ∀ i < n, (k.lookup (v.addPages i)).1 = .error .notMapped)) :=
  ⟨fun _ _ h hrun => h.mapSpan_error hw (call_eq h hrun).1,
    fun _ _ _ h hrun => map_error h hw hrun⟩

/-! ### A kernel without frames -/

/-- A kernel that has mapped the page at `0x1ff000` and has no frame left. -/
def full : Kernel FramePool where
  machine := ((Machine.unmapped ⟨0x1000⟩ 4).mapPage .assumed ⟨0x1000⟩ ⟨0x5000⟩ ⟨0x1ff000⟩ ∅).2
  widths := .assumed
  root := ⟨0x1000⟩

def twoPages : Span := ⟨⟨0x1ff000⟩, ⟨0x7000⟩, 0x2000⟩

theorem wellFormed_full :
    Machine.WellFormed (FramePool.pinnedSet ⟨0x1000⟩ 1) ⟨0x1000⟩ full.machine := by
  have h : Machine.Owns _ ∅ ⟨0x1000⟩ (Machine.unmapped ⟨0x1000⟩ 4) :=
    Machine.owns_unmapped rfl (by decide) (by decide)
  have hok : ((Machine.unmapped ⟨0x1000⟩ 4).mapPage .assumed ⟨0x1000⟩ ⟨0x5000⟩ ⟨0x1ff000⟩ ∅).1 =
      .ok () := by decide +kernel
  dsimp only [full]
  exact (h.mapPage_ok (Prod.fst_eq_iff.1 hok)).1.owns.wellFormed

theorem call_full :
    full.call ⟨0x1000⟩ (.mapSpan twoPages ∅) =
      (.error .outOfFrames, (full.call ⟨0x1000⟩ (.mapSpan twoPages ∅)).2) :=
  Prod.fst_eq_iff.1 (by decide +kernel)

theorem map_full :
    full.map ⟨0x1ff000⟩ ⟨0x7000⟩ 2 ∅ =
      (.error .outOfFrames, (full.map ⟨0x1ff000⟩ ⟨0x7000⟩ 2 ∅).2) :=
  Prod.fst_eq_iff.1 (by decide +kernel)

theorem full_loses_page :
    (full.lookup ⟨0x1ff000⟩).1 = .ok (⟨0x5000⟩, ∅) ∧
      ((full.map ⟨0x1ff000⟩ ⟨0x7000⟩ 2 ∅).2.lookup ⟨0x1ff000⟩).1 = .error .notMapped ∧
      ((full.call ⟨0x1000⟩ (.mapSpan twoPages ∅)).2.machine.memory.walk ⟨0x1000⟩
        ⟨0x1ff000⟩).target? = none := by
  have hw : full.widths.virt ≤ 48 := by decide
  have hv : full.widths.isCanonical ⟨0x1ff000⟩ = true := by decide
  have hn : full.machine.pagesMapped full.widths ⟨0x1000⟩ twoPages ∅ = 1 := by decide +kernel
  have hn' : full.pagesMapped ⟨0x1ff000⟩ ⟨0x7000⟩ 2 ∅ = 1 := by decide +kernel
  have hroot : full.currentRoot = ⟨0x1000⟩ := by decide +kernel
  refine ⟨by decide +kernel, ?_, ?_⟩
  · have h := ((failed_map_removes hw).2 _ _ _ (hroot ▸ wellFormed_full) map_full).1 _ hv
    rw [h, hn']
    decide
  · have h := ((failed_map_removes hw).1 _ _ wellFormed_full call_full).1 _ hv
    rw [h, hn]
    decide

/-- **A failed call does not always restore** what its pages mapped to before. -/
theorem not_failed_map_restores :
    ¬ ∀ (used : Set PAddr) (root : PAddr) (s : Span) (a : Attributes) (x : MapError)
      (k k' : Kernel FramePool), k.widths.virt ≤ 48 → k.widths.phys ≤ 52 →
      Machine.WellFormed used root k.machine → k.call root (.mapSpan s a) = (.error x, k') →
      ∀ v, k.widths.isCanonical v = true →
        (k'.machine.memory.walk root v).target? = (k.machine.memory.walk root v).target? := by
  intro h
  have hs := h _ _ _ _ _ _ _ (by decide) (by decide) wellFormed_full call_full ⟨0x1ff000⟩
    (by decide)
  have hn : full.machine.pagesMapped full.widths ⟨0x1000⟩ twoPages ∅ = 1 := by decide +kernel
  have he := (wellFormed_full.mapSpan_error (by decide) (call_eq wellFormed_full call_full).1).1
    ⟨0x1ff000⟩ (by decide)
  rw [hn, if_pos (by decide)] at he
  have hb : (full.machine.memory.walk ⟨0x1000⟩ ⟨0x1ff000⟩).target? = some (⟨0x5000⟩, ∅) := by
    decide +kernel
  rw [he, hb] at hs
  cases hs

end Kernel

end VirtualMemory
