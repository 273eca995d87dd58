import VirtualMemory.Proofs.Forest
import VirtualMemory.Proofs.Lookup

/-!
# Runs on several roots

A kernel and the roots it has made, with calls on any of them. Roots made from the kernel's share its
image, but a call on one root looks at the links of that root only. When it empties the shared
image, the other roots keep a link to a frame that has gone back.

* `Family`: a kernel and its roots; `Move`, `Family.step`, `Family.run`;
* `Family.Dangles`: a root leads to a frame that is not given out;
* `Family.KeepsImages`: a move leaves shared images linked;
* **`Family.never_dangles_iff`**: a run is free of dangling links just if each of its moves leaves
  shared images linked;
* **`Family.not_never_dangles`**: a run that is not.
-/

namespace VirtualMemory

/-- **What may happen to a kernel with several roots.** -/
inductive Move where
  | newRoot
  | load (root : PAddr)
  | call (root : PAddr) (c : Call)
  | map (v : VAddr) (p : PAddr) (count : Nat) (a : Attributes)
  | unmap (v : VAddr) (count : Nat)

/-- **A kernel and its roots**: its own and those it has made. -/
structure Family (α : Type) where
  kernel : Kernel α
  roots : List PAddr

theorem Machine.confined_newRoot {α : Type} [FrameSource α] {used : Set PAddr} {m m₁ : Machine α}
    {r : PAddr} (hs : FrameSource.Honest used m.frames) (ha : m.allocate = (some r, m₁)) (e : Entry) :
    Confined ∅ m (((m₁.zero r).write r imageSlot e).note (.madeRoot r)) :=
  (Confined.allocate_some hs ha id).trans
    ((Confined.zero id).trans ((Confined.write e id).trans (.note _)))

namespace Family

variable {α : Type} [FrameSource α]

def ofKernel (k : Kernel α) : Family α := ⟨k, [k.root]⟩

abbrev machine (f : Family α) : Machine α := f.kernel.machine

/-- **One move.** Nothing happens if it names no root of the family. -/
def step (f : Family α) : Move → Family α
  | .newRoot =>
    match f.kernel.newRoot with
    | (.ok root, k) => ⟨k, root :: f.roots⟩
    | (.error _, k) => ⟨k, f.roots⟩
  | .load root =>
    if root ∈ f.roots then { f with kernel.machine := f.machine.setCr3 root } else f
  | .call root c => if root ∈ f.roots then { f with kernel := (f.kernel.call root c).2 } else f
  | .map v p count a => { f with kernel := (f.kernel.map v p count a).2 }
  | .unmap v count => { f with kernel := (f.kernel.unmap v count).2 }

/-- **Moves one after the other.** -/
def run (f : Family α) (moves : List Move) : Family α := moves.foldl step f

/-- **A root leads to a frame that has gone back.** -/
def Dangles (f : Family α) : Prop :=
  ∃ root ∈ f.roots, ∃ p t, p ≠ [] ∧ f.machine.memory.tableAt root p = some t ∧ ¬ f.machine.Holds t

/-- **A move unlinks no image that two roots share.** -/
def KeepsImages (f : Family α) (mv : Move) : Prop :=
  ∀ root ∈ f.roots, ∀ other ∈ f.roots, other ≠ root → ∀ c, f.machine.image root = some c →
    f.machine.image other = some c → (f.step mv).machine.image root = some c

/-- **A family in order**: its hierarchies form a forest, and the kernel uses its own. -/
structure InOrder (used : Set PAddr) (f : Family α) : Prop where
  forest : Machine.Forest used f.roots f.machine
  root_mem : f.kernel.root ∈ f.roots
  current_mem : f.kernel.currentRoot ∈ f.roots

variable {f : Family α} {root r : PAddr}

theorem step_newRoot {m₁ : Machine α} (ha : f.machine.allocate = (some r, m₁)) :
    f.step .newRoot = ⟨{ f.kernel with machine := ((m₁.zero r).write r imageSlot
      ((m₁.zero r).entry f.kernel.root imageSlot)).note (.madeRoot r) }, r :: f.roots⟩ := by
  simp only [step, Kernel.newRoot, Kernel.onMachine, ha]

theorem step_call (hr : root ∈ f.roots) (c : Call) :
    f.step (.call root c) = ⟨(f.kernel.call root c).2, f.roots⟩ := if_pos hr

theorem keepsImages_ofKernel (k : Kernel α) (mv : Move) : (ofKernel k).KeepsImages mv := by
  intro root hr other ho hne
  exact absurd ((List.mem_singleton.1 ho).trans (List.mem_singleton.1 hr).symm) hne

namespace InOrder

variable {used : Set PAddr} {mv : Move}

theorem ofKernel {k : Kernel α} (h : Machine.WellFormed used k.root k.machine)
    (hc : k.currentRoot = k.root) : InOrder used (ofKernel k) :=
  ⟨.singleton h, List.mem_singleton_self _, List.mem_singleton.2 hc⟩

theorem not_dangles (h : InOrder used f) : ¬ f.Dangles := by
  rintro ⟨root, hr, p, t, hp, ht, hn⟩
  exact hn (h.forest.holds hr hp ht)

theorem step_cases (h : InOrder used f) (mv : Move) :
    (∃ k, f.step mv = ⟨k, f.roots⟩ ∧ k.root = f.kernel.root ∧ k.currentRoot ∈ f.roots ∧
      k.machine.memory = f.machine.memory ∧ (∀ t, k.machine.Holds t ↔ f.machine.Holds t) ∧
      FrameSource.Honest used k.machine.frames) ∨
    (∃ root ∈ f.roots, ∃ c, f.step mv = ⟨(f.kernel.call root c).2, f.roots⟩) ∨
    (∃ r m₁, f.machine.allocate = (some r, m₁) ∧ f.step mv =
      ⟨{ f.kernel with machine := ((m₁.zero r).write r imageSlot
        ((m₁.zero r).entry f.kernel.root imageSlot)).note (.madeRoot r) }, r :: f.roots⟩) := by
  have hs := (h.forest.wellFormed _ h.root_mem).honest
  have idle : f.step mv = f → ∃ k, f.step mv = ⟨k, f.roots⟩ ∧ k.root = f.kernel.root ∧
      k.currentRoot ∈ f.roots ∧ k.machine.memory = f.machine.memory ∧
      (∀ t, k.machine.Holds t ↔ f.machine.Holds t) ∧
      FrameSource.Honest used k.machine.frames := fun he =>
    ⟨f.kernel, he, rfl, h.current_mem, rfl, fun _ => Iff.rfl, hs⟩
  cases mv with
  | newRoot =>
    rcases ha : f.machine.allocate with ⟨_ | r, m₁⟩
    · obtain ⟨hh, hs', frames, rfl⟩ := Machine.allocate_none hs ha
      refine .inl ⟨{ f.kernel with machine := { f.machine with frames }.record .refused }, ?_, rfl,
        h.current_mem, rfl, hh, hs'⟩
      simp only [step, Kernel.newRoot, Kernel.onMachine, ha]
    · exact .inr (.inr ⟨r, m₁, rfl, step_newRoot ha⟩)
  | load root =>
    by_cases hr : root ∈ f.roots
    · exact .inl ⟨_, if_pos hr, rfl, hr, rfl, fun _ => Iff.rfl, hs⟩
    · exact .inl (idle (if_neg hr))
  | call root c =>
    by_cases hr : root ∈ f.roots
    · exact .inr (.inl ⟨root, hr, c, step_call hr c⟩)
    · exact .inl (idle (if_neg hr))
  | map v p count a =>
    rcases f.kernel.map_cases v p count a with he | ⟨s, -, he⟩
    · exact .inl (idle (by rw [step, he]))
    · exact .inr (.inl ⟨_, h.current_mem, .mapSpan s a, by rw [step, he]⟩)
  | unmap v count => exact .inr (.inl ⟨_, h.current_mem, .unmapPages v count, rfl⟩)

/-- **A move that leaves shared images linked keeps the order.** -/
theorem step (h : InOrder used f) (hk : f.KeepsImages mv) : InOrder used (f.step mv) := by
  rcases h.step_cases mv with ⟨k, he, hr, hc, hm, hh, hs⟩ | ⟨root, hr, c, he⟩ | ⟨r, m₁, ha, he⟩
  · rw [he]
    exact ⟨h.forest.congr hm hh hs, hr ▸ h.root_mem, hc⟩
  · obtain ⟨ho, -⟩ := (h.forest.wellFormed root hr).owns.call f.kernel.widths c
    have hcur := (Kernel.call_eq (c := c) (h.forest.wellFormed root hr) rfl).2.2
    rw [KeepsImages, he] at hk
    rw [he]
    exact ⟨h.forest.call hr ho (hk root hr), h.root_mem, hcur ▸ h.current_mem⟩
  · rw [he]
    have hs := (h.forest.wellFormed _ h.root_mem).honest
    have hconf := Machine.confined_newRoot hs ha ((m₁.zero r).entry f.kernel.root imageSlot)
    refine ⟨h.forest.insert_root h.root_mem ha (Machine.memory_note _ _) (Machine.frames_note _ _),
      List.mem_cons_of_mem r h.root_mem, List.mem_cons_of_mem r ?_⟩
    rw [Kernel.currentRoot, hconf.registers]
    exact h.current_mem

/-- **A move that unlinks a shared image leaves a link dangling.** -/
theorem step_dangles (h : InOrder used f) (hk : ¬ f.KeepsImages mv) : (f.step mv).Dangles := by
  simp only [KeepsImages, not_forall] at hk
  obtain ⟨root, hr, other, ho, hne, c, hc, hc', hdrop⟩ := hk
  rcases h.step_cases mv with ⟨k, he, -, -, hm, -⟩ | ⟨root', hr', call, he⟩ | ⟨r, m₁, ha, he⟩
  · rw [he, machine, Machine.image, hm] at hdrop
    exact absurd hc hdrop
  · rw [he] at hdrop ⊢
    -- a call drops links of its own root only
    obtain ⟨hcall, hpeak⟩ := (h.forest.wellFormed root' hr').owns.call f.kernel.widths call
    by_cases hroot : root = root'
    · subst hroot
      obtain ⟨hlink, hfree⟩ :=
        h.forest.not_holds_image hr hcall hpeak ho hne hc hc' hdrop
      exact ⟨other, ho, [imageSlot], c, List.cons_ne_nil _ _, hlink, hfree⟩
    · exact absurd ((h.forest.image_other hr' hcall hr hroot).trans hc) hdrop
  · have hm : (f.step mv).machine.memory = (m₁.memory.setTable r .empty).set r imageSlot
        ((m₁.zero r).entry f.kernel.root imageSlot) := by
      rw [he]
      exact Machine.memory_note _ _
    rw [Machine.image, (h.forest.tableAt_slot_newRoot ha hm hr).1] at hdrop
    exact absurd hc hdrop

theorem dangles_of_unmap_only {k : Kernel α} {m₁ : Machine α} {c : PAddr} {v : VAddr}
    (h : InOrder used (Family.ofKernel k)) (ha : k.machine.allocate = (some r, m₁))
    (hc : k.machine.image k.root = some c)
    (hb : ∀ p, ¬ Bare k.root (k.machine.memory.slot k.root) p)
    (hl : ∀ p, p ≠ v.trail 4 → k.machine.memory.leaf k.root p = none) :
    ((Family.ofKernel k).run [.newRoot, .call k.root (.unmapPage v)]).Dangles := by
  have hmem : k.root ∈ (Family.ofKernel k).roots := List.mem_singleton_self _
  have hmade := step_newRoot (f := Family.ofKernel k) ha
  have hroots : ((Family.ofKernel k).step .newRoot).roots = [r, k.root] := by rw [hmade]; rfl
  have hmemory : ((Family.ofKernel k).step .newRoot).machine.memory =
      (m₁.memory.setTable r .empty).set r imageSlot ((m₁.zero r).entry k.root imageSlot) := by
    rw [hmade]
    exact Machine.memory_note _ _
  obtain ⟨htable, hslot⟩ := h.forest.tableAt_slot_newRoot ha hmemory hmem
  have hold : ((Family.ofKernel k).step .newRoot).machine.image k.root = some c := by
    rw [Machine.image, htable]
    exact hc
  have hnew := h.forest.image_newRoot hmem ha hmemory
  have hin := h.step (keepsImages_ofKernel k .newRoot)
  have hr : k.root ∈ ((Family.ofKernel k).step .newRoot).roots := by
    rw [hroots]
    exact List.mem_cons_of_mem r (List.mem_singleton_self _)
  show (((Family.ofKernel k).step .newRoot).step (.call k.root (.unmapPage v))).Dangles
  refine hin.step_dangles fun hk => ?_
  have hne : r ≠ k.root := fun he => h.forest.tableAt_ne_granted ha hmem [] (he ▸ rfl)
  have hkept := hk k.root hr r (hroots ▸ List.mem_cons_self) hne c hold (hnew.trans hold)
  rw [step_call hr] at hkept
  refine (hin.forest.wellFormed k.root hr).owns.tableAt_unmapPage_of_only ?_ ?_
    (List.cons_ne_nil _ _) hkept
  · rw [hslot]
    exact hb
  · rw [Memory.leaf, hslot]
    exact hl

theorem run_iff (h : InOrder used f) (moves : List Move) :
    (∀ ms, ms <+: moves → ¬ (f.run ms).Dangles) ↔
      ∀ ms mv, ms ++ [mv] <+: moves → (f.run ms).KeepsImages mv := by
  have safe : ∀ f : Family α, InOrder used f → ¬ f.Dangles := fun f hf => hf.not_dangles
  refine forall_prefix_iff safe (fun f mv hf hk => hf.step hk) (fun f mv hf hsafe => ?_) h moves
  by_contra hk
  exact hsafe (hf.step_dangles hk)

end InOrder

/-- **A run is free of dangling links just if each of its moves leaves shared images linked.** -/
theorem never_dangles_iff {used : Set PAddr} {k : Kernel α}
    (h : Machine.WellFormed used k.root k.machine) (hc : k.currentRoot = k.root)
    (moves : List Move) :
    (∀ ms, ms <+: moves → ¬ ((ofKernel k).run ms).Dangles) ↔
      ∀ ms mv, ms ++ [mv] <+: moves → ((ofKernel k).run ms).KeepsImages mv :=
  (InOrder.ofKernel h hc).run_iff moves

/-! ## An image of one page -/

def imagePage : VAddr := ⟨0xffffff8000000000⟩

/-- A kernel whose image is that page, and nothing else is mapped. -/
def onePage : Kernel FramePool where
  machine := ((Machine.unmapped ⟨0x1000⟩ 8).mapPage .assumed ⟨0x1000⟩ ⟨0x9000⟩ imagePage ∅).2
  widths := .assumed
  root := ⟨0x1000⟩

theorem onePage_spec :
    Machine.Owns (FramePool.pinnedSet ⟨0x1000⟩ 1) ∅ ⟨0x1000⟩ onePage.machine ∧
      (∀ p, ¬ Bare ⟨0x1000⟩ (onePage.machine.memory.slot ⟨0x1000⟩) p) ∧
      ∀ p, p ≠ imagePage.trail 4 → onePage.machine.memory.leaf ⟨0x1000⟩ p = none := by
  have h : Machine.Owns _ ∅ ⟨0x1000⟩ (Machine.unmapped ⟨0x1000⟩ 8) :=
    Machine.owns_unmapped rfl (by decide) (by decide)
  have hb : Machine.Balanced ⟨0x1000⟩ (Machine.unmapped ⟨0x1000⟩ 8) :=
    Machine.balanced_unmapped rfl (by decide) (by decide)
  have hok : ((Machine.unmapped ⟨0x1000⟩ 8).mapPage .assumed ⟨0x1000⟩ ⟨0x9000⟩ imagePage ∅).1 =
      .ok () := by decide +kernel
  obtain ⟨ho, -, hl⟩ := h.mapPage_ok (Prod.fst_eq_iff.1 hok)
  dsimp only [onePage]
  refine ⟨ho.owns, fun p hp => hb.not_bare (ho.bare p hp), fun p hp => ?_⟩
  rw [hl, Function.update_of_ne hp, Machine.leaf_unmapped]

theorem allocate_onePage :
    onePage.machine.allocate = (some ⟨0x5000⟩, onePage.machine.allocate.2) :=
  Prod.fst_eq_iff.1 (by decide +kernel)

theorem image_onePage : onePage.machine.image ⟨0x1000⟩ = some ⟨0x2000⟩ := by decide +kernel

theorem inOrder_onePage : InOrder (FramePool.pinnedSet ⟨0x1000⟩ 1) (ofKernel onePage) :=
  .ofKernel onePage_spec.1.wellFormed (by decide +kernel)

theorem not_dangles_after_newRoot : ¬ ((ofKernel onePage).run [.newRoot]).Dangles := by
  refine (never_dangles_iff onePage_spec.1.wellFormed (by decide +kernel) [.newRoot]).2
    (fun ms mv hms => ?_) _ (List.prefix_refl _)
  obtain rfl : ms = [] := List.eq_nil_of_length_eq_zero (by simpa using hms.length_le)
  exact keepsImages_ofKernel onePage mv

/-- **Unmapping the page leaves the other root with a dangling link.** -/
theorem not_never_dangles :
    ¬ ∀ (used : Set PAddr) (k : Kernel FramePool), Machine.WellFormed used k.root k.machine →
      k.currentRoot = k.root → ∀ moves, ¬ ((ofKernel k).run moves).Dangles := by
  intro hall
  obtain ⟨ho, hb, hl⟩ := onePage_spec
  refine hall _ onePage ho.wellFormed (by decide +kernel)
    [.newRoot, .call ⟨0x1000⟩ (.unmapPage imagePage)] ?_
  exact inOrder_onePage.dangles_of_unmap_only allocate_onePage image_onePage hb hl

end Family

end VirtualMemory
