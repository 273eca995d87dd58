import VirtualMemory.Proofs.Sharing

/-!
# What a new root sees

A new root shows the kernel's image as the kernel's own root does, and nothing else. The walks from
the kernel's root stay as they were, and those from every root whose tables are given out. A root
that an earlier call has left with a link to a frame gone back sees the new root's table there.

* `Kernel.newRoot_cases`: the two answers;
* `Kernel.MadeRoot`: all there is to say of a new root (**`newRoot_sees_image`**);
* `Family.InOrder.newRoot_keeps_walks`: the roots of a family in order keep their walks;
* **`Kernel.MadeRoot.keeps_walks_iff`**: when a root whose image has gone back keeps its walks;
* **`Family.not_newRoot_keeps_walks`**: a root that does not.
-/

namespace VirtualMemory

namespace Memory

variable {mem : Memory} {root root' : PAddr} {v : VAddr}

theorem walk_of_entry_eq
    (h : mem.entry root (Level.pml4.index v) = mem.entry root' (Level.pml4.index v)) :
    mem.walk root v = if mem.walk root' v = .missing .pml4 root' then .missing .pml4 root
      else mem.walk root' v := by
  split
  next hw => rw [walk_eq_missing_pml4_iff, h, walk_eq_missing_pml4_iff.1 hw]
  next hw =>
    have hrole := congrArg (·.role .pml4) h
    cases hr : (mem.entry root' (Level.pml4.index v)).role .pml4 with
    | absent => exact absurd (walkFrom_of_absent (n := 3) hr) hw
    | leaf =>
      have hleaf := walkFrom_of_leaf (n := 3) (hrole.trans hr)
      exact hleaf.trans ((congrArg (Translation.ofLeaf .pml4 · v) h).trans
        (walkFrom_of_leaf (n := 3) hr).symm)
    | link c =>
      exact (walkFrom_of_link (n := 2) (hrole.trans hr)).trans (walkFrom_of_link (n := 2) hr).symm

end Memory

namespace Machine

variable {α : Type} [FrameSource α] {used : Set PAddr} {root r other : PAddr} {v : VAddr}
  {m m₁ m' : Machine α}

section NewRoot

variable (h : WellFormed used root m) (ha : m.allocate = (some r, m₁))
  (hm : m'.memory =
    (m₁.memory.setTable r .empty).set r imageSlot ((m₁.zero r).entry root imageSlot))

include h ha hm

theorem WellFormed.entry_newRoot (t : PAddr) (i : Index) : m'.memory.entry t i =
    if t = r then (if i = imageSlot then m.memory.entry root i else .empty)
    else m.memory.entry t i := by
  have hf := Forest.singleton h
  have hroot : root ∈ [root] := List.mem_singleton_self _
  have hne : root ≠ r := fun he => hf.tableAt_ne_granted ha hroot [] (he ▸ rfl)
  split
  next ht =>
    rw [ht, hf.entry_newRoot hroot ha hm, Memory.entry, hf.table_newRoot ha hm hroot hne]
    exact if_congr eq_comm rfl rfl
  next ht => rw [Memory.entry, Memory.entry, hf.table_newRoot ha hm hroot ht]

theorem WellFormed.walk_newRoot_of_apart (hd : ∀ d, m.memory.tableAt other (v.trail d) ≠ some r) :
    m'.memory.walk other v = m.memory.walk other v := by
  refine Memory.walk_of_table fun d t ht => ?_
  have hne : t ≠ r := fun he => hd d (he ▸ ht)
  exact (Forest.singleton h).table_newRoot ha hm (List.mem_singleton_self _) hne

end NewRoot

end Machine

namespace Kernel

variable {α : Type} [FrameSource α] {used : Set PAddr} {k k' : Kernel α} {r other : PAddr}

theorem newRoot_cases (k : Kernel α) :
    (∃ r m, k.machine.allocate = (some r, m) ∧ k.newRoot = (.ok r, { k with machine :=
      ((m.zero r).write r imageSlot ((m.zero r).entry k.root imageSlot)).note (.madeRoot r) })) ∨
    ∃ m, k.machine.allocate = (none, m) ∧
      k.newRoot = (.error .outOfFrames, { k with machine := m }) := by
  unfold newRoot onMachine
  rcases ha : k.machine.allocate with ⟨_ | r, m⟩
  · exact .inr ⟨m, rfl, by simp only [ha]⟩
  · exact .inl ⟨r, m, rfl, by simp only [ha]⟩

/-- **A new root**: what it sees, and what is left as it was. -/
structure MadeRoot (used : Set PAddr) (k : Kernel α) (r : PAddr) (k' : Kernel α) : Prop where
  root : k'.root = k.root
  registers : k'.machine.registers = k.machine.registers
  fresh : ¬ k.machine.Holds r
  holds_iff : ∀ t, k'.machine.Holds t ↔ t = r ∨ k.machine.Holds t
  entry : ∀ t i, k'.machine.memory.entry t i =
    if t = r then (if i = imageSlot then k.machine.memory.entry k.root i else .empty)
    else k.machine.memory.entry t i
  image : ∀ v, Level.pml4.index v = imageSlot → k'.machine.memory.walk r v =
    if k.machine.memory.walk k.root v = .missing .pml4 k.root then .missing .pml4 r
    else k.machine.memory.walk k.root v
  rest : ∀ v, Level.pml4.index v ≠ imageSlot → k'.machine.memory.walk r v = .missing .pml4 r
  kernel : ∀ v, k'.machine.memory.walk k.root v = k.machine.memory.walk k.root v
  apart : ∀ other v, (∀ d, k.machine.memory.tableAt other (v.trail d) ≠ some r) →
    k'.machine.memory.walk other v = k.machine.memory.walk other v
  wellFormed : ∀ other, Machine.WellFormed used other k.machine → ∀ v,
    k'.machine.memory.walk other v = k.machine.memory.walk other v

theorem MadeRoot.of_allocate {m : Machine α} (h : Machine.WellFormed used k.root k.machine)
    (ha : k.machine.allocate = (some r, m)) : MadeRoot used k r { k with machine :=
      ((m.zero r).write r imageSlot ((m.zero r).entry k.root imageSlot)).note (.madeRoot r) } := by
  obtain ⟨hn, -, -, hh, hs, -⟩ := Machine.allocate_some h.honest ha
  have hr : r ∉ used := ((hh r).2 (.inl rfl)).notMem hs
  have hne : k.root ≠ r := fun he => (h.owns.fresh hn hr).1 [] (he ▸ rfl)
  have hconf := Machine.confined_newRoot h.honest ha ((m.zero r).entry k.root imageSlot)
  generalize hm : ((m.zero r).write r imageSlot ((m.zero r).entry k.root imageSlot)).note
    (.madeRoot r) = m' at hconf ⊢
  have hmemory : m'.memory = (m.memory.setTable r .empty).set r imageSlot
      ((m.zero r).entry k.root imageSlot) := hm ▸ Machine.memory_note _ _
  have hframes : m'.frames = m.frames := hm ▸ Machine.frames_note _ _
  have hentry := h.entry_newRoot ha hmemory
  have hwell : ∀ other, Machine.WellFormed used other k.machine → ∀ v,
      m'.memory.walk other v = k.machine.memory.walk other v := fun other hw v =>
    h.walk_newRoot_of_apart ha hmemory fun d => (hw.owns.fresh hn hr).1 (v.trail d)
  refine ⟨rfl, hconf.registers, hn, fun t => (Machine.holds_congr hframes).trans (hh t), hentry,
    fun v hv => ?_, fun v hv => ?_, hwell k.root h,
    fun other v => h.walk_newRoot_of_apart ha hmemory, hwell⟩
  · rw [← hwell k.root h v]
    refine Memory.walk_of_entry_eq ?_
    rw [hentry, hentry, if_pos rfl, if_pos hv, if_neg hne]
  · rw [Memory.walk_eq_missing_pml4_iff, hentry, if_pos rfl, if_neg hv, Entry.isPresent_empty]

theorem MadeRoot.of_newRoot (h : Machine.WellFormed used k.root k.machine)
    (hmade : k.newRoot = (.ok r, k')) : MadeRoot used k r k' := by
  rcases k.newRoot_cases with ⟨r', m, ha, hnew⟩ | ⟨m, -, hnew⟩ <;> rw [hnew] at hmade <;>
    cases hmade
  exact .of_allocate h ha

/-- **A new root sees the kernel's image and nothing else**, and every root in order walks as
before. -/
theorem newRoot_sees_image (h : Machine.WellFormed used k.root k.machine) :
    (∀ r k', k.newRoot = (.ok r, k') → MadeRoot used k r k') ∧
    ∀ e k', k.newRoot = (.error e, k') → e = .outOfFrames ∧
      k'.machine.memory = k.machine.memory ∧ (∀ t, k'.machine.Holds t ↔ k.machine.Holds t) ∧
      ∀ root v, k'.machine.memory.walk root v = k.machine.memory.walk root v := by
  refine ⟨fun r k' => .of_newRoot h, fun e k' hrun => ?_⟩
  rcases k.newRoot_cases with ⟨r, m, -, hnew⟩ | ⟨m, ha, hnew⟩ <;> rw [hnew] at hrun <;> cases hrun
  obtain ⟨hh, -, frames, rfl⟩ := Machine.allocate_none h.honest ha
  exact ⟨rfl, rfl, hh, fun _ _ => rfl⟩

theorem newRoot_sees_image_page :
    MadeRoot (FramePool.pinnedSet ⟨0x1000⟩ 1) Family.onePage ⟨0x5000⟩ Family.onePage.newRoot.2 ∧
      (Family.onePage.newRoot.2.machine.memory.walk ⟨0x5000⟩ ⟨0xffffff8000000123⟩).target? =
        some (⟨0x9123⟩, ∅) ∧
      (onBlank .assumed 1).newRoot.2.machine.memory = (onBlank .assumed 1).machine.memory := by
  have hmade : Family.onePage.newRoot.1 = .ok ⟨0x5000⟩ := by decide +kernel
  have hnone : (onBlank .assumed 1).newRoot.1 = .error .outOfFrames := by decide +kernel
  exact ⟨(newRoot_sees_image Family.onePage_spec.1.wellFormed).1 _ _ (Prod.fst_eq_iff.1 hmade),
    by decide +kernel, ((newRoot_sees_image (wellFormed_onBlank .assumed (by decide)
      (by decide))).2 _ _ (Prod.fst_eq_iff.1 hnone)).2.1⟩

/-- The first address that image entries lead to in the root's table and in the one below. -/
def imageTop : VAddr := ⟨0xffffffffc0000000⟩

/-- **A root whose image is the new root's table** keeps its walks if the kernel has no image. -/
theorem MadeRoot.keeps_walks_iff (h : MadeRoot used k r k')
    (hi : k.machine.image other = some r) (hv : (k.machine.memory.table r).isVacant = true) :
    (∀ v, k'.machine.memory.walk other v = k.machine.memory.walk other v) ↔
      (k.machine.entry k.root imageSlot).isPresent = false := by
  have hvacant : ∀ i, (k.machine.memory.entry r i).isPresent = false := (Table.isVacant_iff _).1 hv
  constructor
  · intro hsame
    have hstop : k.machine.memory.walk other imageTop = .missing .pdpt r := by
      refine Memory.walk_eq_missing_iff.2 ⟨hi, ?_⟩
      exact (Memory.slot_cons hi).trans (Entry.inUse?_eq_none_iff.2 (hvacant _))
    have habsent := Memory.role_of_missing ((hsame imageTop).trans hstop)
    rw [Entry.role_eq_absent_iff, h.entry, if_pos rfl] at habsent
    exact habsent
  · intro himage v
    refine Memory.walk_of_slot (Memory.tableAt_slot_eq_of_inUse fun p t _ i => ?_).2 v
    rw [h.entry]
    split
    next ht =>
      rw [ht, Entry.inUse?_eq_none_iff.2 (hvacant i)]
      split
      next hi => exact Entry.inUse?_eq_none_iff.2 (hi ▸ himage)
      next => rfl
    next => rfl

end Kernel

/-! ## A root left with a dangling image -/

theorem Table.isVacant_eq_all (t : Table) :
    t.isVacant = t.entries.toList.all (!·.isPresent) := by
  rw [Table.isVacant, Vector.all_toList]

namespace Machine

variable {α : Type} [FrameSource α] {m m' m'' : Machine α}

theorem removeFrom_of_vacant {v : VAddr} {n : Nat} {t c : PAddr}
    (hr : (m.entry t ((Level.ofHeight (n + 1)).index v)).role (.ofHeight (n + 1)) = .link c)
    (hm : m.removeFrom v n c = m') (hc : (m'.memory.table c).isVacant = true) :
    m.removeFrom v (n + 1) t = ((m'.disable t ((Level.ofHeight (n + 1)).index v)).note
      (.reclaimed v (.ofHeight n) c)).release c := by
  rw [removeFrom_of_link hr, hm, if_pos hc]

theorem unmapPage_of_large_alone (root t c : PAddr) (v : VAddr) (m : Machine α)
    (ht : (m.entry root (Level.pml4.index v)).role .pml4 = .link t)
    (hc : (m.entry t (Level.pdpt.index v)).role .pdpt = .link c)
    (hl : (m.entry c (Level.pd.index v)).role .pd = .leaf)
    (hm : (m.disable c (Level.pd.index v)).flush v = m')
    (hvc : (m'.memory.table c).isVacant = true)
    (hm' : ((m'.disable t (Level.pdpt.index v)).note (.reclaimed v .pd c)).release c = m'')
    (hvt : (m''.memory.table t).isVacant = true) :
    m.unmapPage root v =
      ((m''.disable root (Level.pml4.index v)).note (.reclaimed v .pdpt t)).release t := by
  have hleaf : m.removeFrom v 1 c = m' := (removeFrom_of_leaf (n := 1) hl).trans hm
  have htable : m.removeFrom v 2 t = m'' := by
    rw [removeFrom_of_vacant (n := 1) hc hleaf hvc]
    exact hm'
  exact removeFrom_of_vacant (n := 2) ht htable hvt

end Machine

namespace Family

variable {α : Type} [FrameSource α] {used : Set PAddr} {f : Family α} {k k₁ : Kernel α}
  {root r c : PAddr}

theorem step_newRoot_of_eq (h : f.kernel.newRoot = (.ok r, k)) :
    f.step .newRoot = ⟨k, r :: f.roots⟩ := by
  simp only [step, h]

theorem InOrder.newRoot_keeps_walks (h : InOrder used f) (hmade : f.kernel.newRoot = (.ok r, k))
    {other : PAddr} (ho : other ∈ f.roots) (v : VAddr) :
    k.machine.memory.walk other v = f.machine.memory.walk other v :=
  (Kernel.MadeRoot.of_newRoot (h.forest.wellFormed _ h.root_mem) hmade).wellFormed other
    (h.forest.wellFormed other ho) v

theorem run_calls (hr : root ∈ f.roots) (calls : List Call) :
    f.run (calls.map (.call root)) =
      ⟨{ f.kernel with machine := Call.runAll f.kernel.widths root calls f.machine }, f.roots⟩ := by
  induction calls generalizing f with
  | nil => rfl
  | cons c calls ih =>
    show (f.step (.call root c)).run (calls.map (.call root)) = _
    rw [step_call hr]
    exact ih (f := ⟨(f.kernel.call root c).2, f.roots⟩) hr

/-- **The image goes back, and its frame comes out again as a root**, while a root made before links
it. -/
theorem newRoot_moves_walk {calls : List Call} {m : Machine α}
    (h : InOrder used (ofKernel k)) (hmade : k.newRoot = (.ok r, k₁))
    (hm : Call.runAll k₁.widths k.root calls k₁.machine = m) (ha : m.allocate.1 = some c)
    (hi : m.image r = some c) (hv : (m.memory.table c).isVacant = true)
    (himage : (m.entry k.root imageSlot).isPresent = true) :
    ∃ f, (ofKernel k).run (.newRoot :: calls.map (.call k.root)) = f ∧ r ∈ f.roots ∧
      Machine.WellFormed used f.kernel.root f.machine ∧ ∃ r' k', f.kernel.newRoot = (.ok r', k') ∧
        ¬ ∀ v, k'.machine.memory.walk r v = f.machine.memory.walk r v := by
  have hstep : (ofKernel k).step .newRoot = ⟨k₁, [r, k.root]⟩ := step_newRoot_of_eq hmade
  have hmem : k.root ∈ [r, k.root] := List.mem_cons_of_mem r (List.mem_singleton_self _)
  have hin := h.step (keepsImages_ofKernel k .newRoot)
  rw [hstep] at hin
  have hroot : k₁.root = k.root :=
    (Kernel.MadeRoot.of_newRoot (h.forest.wellFormed k.root h.root_mem) hmade).root
  have hrun : (ofKernel k).run (.newRoot :: calls.map (.call k.root)) =
      ⟨{ k₁ with machine := m }, [r, k.root]⟩ := by
    show ((ofKernel k).step .newRoot).run (calls.map (.call k.root)) = _
    rw [hstep, run_calls hmem, ← hm]
  have hwell : Machine.WellFormed used k.root m :=
    hm ▸ ((hin.forest.wellFormed k.root hmem).owns.runAll k₁.widths calls).owns.wellFormed
  rw [← hroot] at hwell himage
  refine ⟨_, hrun, List.mem_cons_self, hwell, ?_⟩
  rcases Kernel.newRoot_cases { k₁ with machine := m } with ⟨r', m', ha', hnew⟩ | ⟨m', ha', -⟩
  · obtain rfl : r' = c := Option.some.inj ((congrArg Prod.fst ha').symm.trans ha)
    refine ⟨r', _, hnew, fun hsame => ?_⟩
    have hthere := Kernel.MadeRoot.of_newRoot (k := { k₁ with machine := m }) hwell hnew
    have hnone := (hthere.keeps_walks_iff hi hv).1 hsame
    rw [himage] at hnone
    cases hnone
  · rw [ha'] at ha
    cases ha

/-- A kernel with two large pages, one of them its image. -/
def twoPages : Kernel FramePool where
  machine := Call.runAll .assumed ⟨0x1000⟩
    [.mapLarge ⟨0x200000⟩ ⟨0⟩ ∅, .mapLarge ⟨0x400000⟩ imagePage ∅] (.unmapped ⟨0x1000⟩ 16)
  widths := .assumed
  root := ⟨0x1000⟩

theorem owns_twoPages :
    Machine.Owns (FramePool.pinnedSet ⟨0x1000⟩ 1) ∅ ⟨0x1000⟩ twoPages.machine := by
  dsimp only [twoPages]
  exact ((Machine.owns_unmapped rfl (by decide) (by decide)).runAll _ _).owns

/-- **A root made before does not keep its walks**: its image's frame has gone back, and is the next
root. -/
theorem not_newRoot_keeps_walks :
    ¬ ∀ (used : Set PAddr) (k : Kernel FramePool), Machine.WellFormed used k.root k.machine →
      k.currentRoot = k.root → ∀ moves f, (ofKernel k).run moves = f →
      Machine.WellFormed used f.kernel.root f.machine → ∀ r k', f.kernel.newRoot = (.ok r, k') →
      ∀ other ∈ f.roots, ∀ v, k'.machine.memory.walk other v = f.machine.memory.walk other v := by
  intro hall
  have hcurrent : twoPages.currentRoot = twoPages.root := by decide +kernel
  have hin : InOrder _ (ofKernel twoPages) := .ofKernel owns_twoPages.wellFormed hcurrent
  have hok : twoPages.newRoot.1 = .ok ⟨0x6000⟩ := by decide +kernel
  have hmade : twoPages.newRoot = (.ok ⟨0x6000⟩, twoPages.newRoot.2) := Prod.fst_eq_iff.1 hok
  have hvacant : ∀ t : Table, t.entries.toList.all (!·.isPresent) = true → t.isVacant = true :=
    fun t => t.isVacant_eq_all.trans
  have himage := Machine.unmapPage_of_large_alone ⟨0x1000⟩ ⟨0x4000⟩ ⟨0x5000⟩ imagePage
    twoPages.newRoot.2.machine (by decide +kernel) (by decide +kernel) (by decide +kernel) rfl
    (hvacant _ (by decide +kernel)) rfl (hvacant _ (by decide +kernel))
  have hother := Machine.unmapPage_of_large_alone ⟨0x1000⟩ ⟨0x2000⟩ ⟨0x3000⟩ ⟨0⟩
    (twoPages.newRoot.2.machine.unmapPage ⟨0x1000⟩ imagePage) (by rw [himage]; decide +kernel)
    (by rw [himage]; decide +kernel) (by rw [himage]; decide +kernel) rfl
    (hvacant _ (by rw [himage]; decide +kernel)) rfl (hvacant _ (by rw [himage]; decide +kernel))
  have hcalls : ∀ (w : Widths) (m : Machine FramePool), Call.runAll w ⟨0x1000⟩
      [.unmapPage imagePage, .unmapPage ⟨0⟩, .mapLarge ⟨0x400000⟩ imagePage ∅] m =
        (((m.unmapPage ⟨0x1000⟩ imagePage).unmapPage ⟨0x1000⟩ ⟨0⟩).mapLarge w ⟨0x1000⟩
          ⟨0x400000⟩ imagePage ∅).2 := fun _ _ => rfl
  -- the machine is named by the calls, and evaluated with the two removals spelled out
  have hmoves := newRoot_moves_walk (c := ⟨0x4000⟩) hin hmade (hcalls _ _)
  rw [hother, himage] at hmoves
  obtain ⟨f, hrun, hr, hwell, r', k', hnew, hne⟩ := hmoves (by decide +kernel) (by decide +kernel)
    (hvacant _ (by decide +kernel)) (by decide +kernel)
  exact hne (hall _ twoPages owns_twoPages.wellFormed hcurrent _ f hrun hwell r' k' hnew _ hr)

end Family

end VirtualMemory
