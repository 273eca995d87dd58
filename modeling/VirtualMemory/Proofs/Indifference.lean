import VirtualMemory.Proofs.Correspondence
import VirtualMemory.Proofs.Lookup

/-!
# Indifference to frames

Which frames tables lie in, what frames held before and what entries not in use hold makes no
difference: on machines with corresponding hierarchies, the same requests get the same answers and
have the same effects.

* `Kernel.Request`, `Kernel.Answer`: calls, checks and lookups as data; `Kernel.ask`,
  `Kernel.askAll`;
* **`Kernel.ask_inStep`**: one request, and by induction
  **`Kernel.indifferent_to_frames`**: any number of them;
* **`Corresponds.of_vacant`**: hierarchies to begin with.
-/

namespace VirtualMemory

namespace Machine

variable {α : Type} {m : Machine α} {keep : Set PAddr}

theorem Confined.notices (ns : List Notice) : Confined keep m (ns.foldl Machine.note m) := by
  induction ns generalizing m with
  | nil => exact .refl m
  | cons n ns ih => exact (Confined.note n).trans ih

theorem confined_walk (m : Machine α) (keep : Set PAddr) (root : PAddr) (v : VAddr) :
    Confined keep m (m.walk root v).2 := by
  have hn : Confined keep m (((m.memory.visits root v).map fun s =>
      Notice.read v s.level s.entry).foldl note m) := .notices _
  rwa [List.foldl_map] at hn

end Machine

namespace Kernel

/-! ## Requests -/

/-- **What a kernel is asked**: a call on a hierarchy, a check of one of its mappings, or a lookup in
the current one. -/
inductive Request where
  | call (c : Call)
  | verify (p : PAddr) (v : VAddr) (a : Attributes)
  | lookup (v : VAddr)
deriving DecidableEq

inductive Answer where
  | called (result : Except MapError Unit)
  | verified (result : Except MappingFault Unit)
  | found (result : Except MapError (PAddr × Attributes))
deriving DecidableEq

section Asking

variable {α : Type} [FrameSource α] (k : Kernel α)

/-- **The answer to a request** about the hierarchy of a root, and the kernel after it. -/
def ask (root : PAddr) : Request → Answer × Kernel α
  | .call c => (k.call root c).map .called id
  | .verify p v a => (k.onMachine (Machine.verify k.widths root p v a)).map .verified id
  | .lookup v => (k.lookup v).map .found id

/-- The answers to requests, one after the other. -/
def askAll (k : Kernel α) : List (PAddr × Request) → List Answer × Kernel α
  | [] => ([], k)
  | (root, q) :: rest =>
    let r := k.ask root q
    let s := r.2.askAll rest
    (r.1 :: s.1, s.2)

end Asking

variable {α β : Type} [FrameSource α] [FrameSource β] {used used' : Set PAddr}
  {roots : List (PAddr × PAddr)} {ρ : Renaming} {height : PAddr → Nat} {k : Kernel α}
  {k' : Kernel β} {r r' : PAddr} {q : Request}

theorem ask_settings (h : Machine.WellFormed used r k.machine) (q : Request) :
    (k.ask r q).2.widths = k.widths ∧ (k.ask r q).2.currentRoot = k.currentRoot := by
  cases q with
  | call c => exact (call_eq h rfl).2
  | verify p v a =>
    refine ⟨rfl, congrArg Registers.cr3 ?_⟩
    change (k.machine.verify k.widths r p v a).2.registers = k.machine.registers
    unfold Machine.verify
    split
    · rfl
    · exact (Machine.confined_walk k.machine ∅ r v).registers
  | lookup v =>
    have hregisters := (k.machine.confined_walk ∅ k.currentRoot v).registers
    change (k.lookup v).2.widths = k.widths ∧ (k.lookup v).2.currentRoot = k.currentRoot
    unfold lookup
    split
    · exact ⟨rfl, rfl⟩
    · refine ⟨rfl, congrArg Registers.cr3 (Eq.trans ?_ hregisters)⟩
      unfold onMachine
      dsimp only
      split <;> rfl

/-- **A request is answered alike by twins**, and leaves twins. -/
theorem ask_inStep (hw : k'.widths = k.widths)
    (h : Pair.Twins used used' roots ⟨k.machine, k'.machine, ρ, height⟩) (hr : (r, r') ∈ roots)
    (hq : ∀ v, q = .lookup v → (r, r') = (k.currentRoot, k'.currentRoot)) :
    (k.ask r q).1 = (k'.ask r' q).1 ∧ ∃ names height', Pair.Leads used used' roots
      ⟨k.machine, k'.machine, ρ, height⟩
      ⟨(k.ask r q).2.machine, (k'.ask r' q).2.machine, names, height'⟩ := by
  cases q with
  | call c =>
    obtain ⟨hres, hleads⟩ := h.call hr k.widths c
    simp only [ask, call, onMachine, Prod.map, id, hw]
    exact ⟨congrArg Answer.called hres, hleads⟩
  | verify p v a =>
    obtain ⟨⟨-, hcheck⟩, hleads⟩ := h.walk hr v
    simp only [ask, onMachine, Machine.verify, Prod.map, id, hw]
    split
    · exact ⟨rfl, _, _, .refl h⟩
    · exact ⟨congrArg Answer.verified (hcheck p a).symm, _, _, hleads⟩
  | lookup v =>
    obtain ⟨rfl, rfl⟩ := Prod.mk.inj (hq v rfl)
    obtain ⟨⟨htarget, -⟩, hleads⟩ := h.walk hr v
    simp only [ask, lookup, onMachine, Prod.map, id, hw, htarget]
    split
    · exact ⟨rfl, _, _, .refl h⟩
    · cases ((k.machine.walk k.currentRoot v).1).target? <;> exact ⟨rfl, _, _, hleads⟩

theorem askAll_inStep {qs : List ((PAddr × PAddr) × Request)} (hw : k'.widths = k.widths)
    (h : Pair.Twins used used' roots ⟨k.machine, k'.machine, ρ, height⟩)
    (hroots : ∀ q ∈ qs, q.1 ∈ roots)
    (hcurrent : ∀ pair v, (pair, .lookup v) ∈ qs → pair = (k.currentRoot, k'.currentRoot)) :
    (k.askAll (qs.map fun q => (q.1.1, q.2))).1 = (k'.askAll (qs.map fun q => (q.1.2, q.2))).1 ∧
      ∃ names height', Pair.Leads used used' roots ⟨k.machine, k'.machine, ρ, height⟩
        ⟨(k.askAll (qs.map fun q => (q.1.1, q.2))).2.machine,
          (k'.askAll (qs.map fun q => (q.1.2, q.2))).2.machine, names, height'⟩ := by
  induction qs generalizing k k' ρ height with
  | nil => exact ⟨rfl, ρ, height, .refl h⟩
  | cons q qs ih =>
    obtain ⟨⟨r, r'⟩, q⟩ := q
    obtain ⟨hr, hroots⟩ := List.forall_mem_cons.1 hroots
    obtain ⟨hw₁, hc₁⟩ := ask_settings (h.grove_left.wellFormed r ⟨r', hr⟩) q
    obtain ⟨hw₁', hc₁'⟩ := ask_settings (h.grove_right.wellFormed r' ⟨r, hr⟩) q
    obtain ⟨hanswer, names, height₁, hleads⟩ := ask_inStep hw h hr
      fun v hv => hcurrent (r, r') v (hv ▸ List.mem_cons_self)
    obtain ⟨hanswers, names', height₂, hleads'⟩ := ih (by rw [hw₁, hw₁', hw]) hleads.twins hroots
      fun pair v hm => by rw [hc₁, hc₁']; exact hcurrent pair v (List.mem_cons_of_mem _ hm)
    exact ⟨congrArg₂ List.cons hanswer hanswers, names', height₂, hleads.trans hleads'⟩

/-- **Frames make no difference**: corresponding kernels answer alike, their events agree up to the
names of frames, and in the end they correspond again. -/
theorem indifferent_to_frames {qs : List ((PAddr × PAddr) × Request)} (hw : k'.widths = k.widths)
    (h : Corresponds used used' roots ρ k.machine k'.machine)
    (hp : FrameSource.InPace ρ k.machine.frames k'.machine.frames)
    (hroots : ∀ q ∈ qs, q.1 ∈ roots)
    (hcurrent : ∀ pair v, (pair, .lookup v) ∈ qs → pair = (k.currentRoot, k'.currentRoot)) :
    let after := k.askAll (qs.map fun q => (q.1.1, q.2))
    let after' := k'.askAll (qs.map fun q => (q.1.2, q.2))
    after.1 = after'.1 ∧ ∃ ρ' es es', after.2.machine.history = k.machine.history ++ es ∧
      after'.2.machine.history = k'.machine.history ++ es' ∧ InStep ρ es es' ρ' ∧
      Corresponds used used' roots ρ' after.2.machine after'.2.machine ∧
      FrameSource.InPace ρ' after.2.machine.frames after'.2.machine.frames := by
  intro after after'
  cases qs with
  | nil =>
    exact ⟨rfl, ρ, [], [], (List.append_nil _).symm, (List.append_nil _).symm, .done ρ, h, hp⟩
  | cons q qs =>
    obtain ⟨hr, -⟩ := List.forall_mem_cons.1 hroots
    obtain ⟨height, htwins⟩ := h.exists_twins hp (h.left.wellFormed q.1.1 ⟨_, hr⟩).honest
      (h.right.wellFormed q.1.2 ⟨_, hr⟩).honest
    obtain ⟨hanswers, ρ', height', hleads⟩ := askAll_inStep hw htwins hroots hcurrent
    obtain ⟨es, es', hes, hes', hstep⟩ := hleads.history
    exact ⟨hanswers, ρ', es, es', hes, hes', hstep, hleads.twins.corresponds,
      hleads.twins.inPace⟩

end Kernel

/-! ## Two kernels to begin with -/

/-- **Machines with nothing mapped are twins**, whatever memory holds besides. -/
theorem Pair.Twins.of_vacant {α β : Type} [FrameSource α] [FrameSource β] {used used' : Set PAddr}
    {m : Machine α} {m' : Machine β} {r r' : PAddr} (hs : FrameSource.Honest used m.frames)
    (hs' : FrameSource.Honest used' m'.frames) (hr : m.Holds r ∨ r ∈ used)
    (hr' : m'.Holds r' ∨ r' ∈ used') (hv : ∀ i, (m.entry r i).isPresent = false)
    (hv' : ∀ i, (m'.entry r' i).isPresent = false)
    (hp : FrameSource.InPace (.single r r') m.frames m'.frames) :
    Twins used used' [(r, r')] ⟨m, m', .single r r', fun _ => 3⟩ := by
  have hlinks : ∀ t i c, ¬ Links (⟨m, m', .single r r', fun _ => 3⟩ : Pair α β) t i c := by
    rintro t i c ⟨⟨t', ht⟩, hl⟩
    obtain ⟨rfl, rfl⟩ := Renaming.single_eq_some_iff.1 ht
    simp [(Entry.role_eq_absent_iff _ _).2 (hv i)] at hl
  constructor <;> constructor
  case honest => exact hs
  case honest' => exact hs'
  case inPace => exact hp
  case root_iff => simp [Renaming.single_eq_some_iff]
  case rooted => simpa using ⟨hr, hr'⟩
  case height_le => exact fun _ _ _ => le_rfl
  case held => exact fun _ _ _ hlt => absurd hlt (Nat.lt_irrefl 3)
  case oneToOne => exact Renaming.oneToOne_single
  case agree =>
    intro t t' ht i
    obtain ⟨rfl, rfl⟩ := Renaming.single_eq_some_iff.1 ht
    exact .of_not_isPresent (hv i) (hv' i)
  case down => exact fun t i c hl => absurd hl (hlinks t i c)
  case once => exact fun t u i j c hl => absurd hl (hlinks t i c)
  case linked => exact fun _ _ _ hlt => absurd hlt (Nat.lt_irrefl 3)

namespace Kernel

/-- **A kernel on a littered memory.** Its root holds words with all bits set but the lowest, and of
its frames, which lie elsewhere, two have been given out and back. -/
def onLitter : Kernel FramePool where
  machine :=
    { memory := ⟨[(⟨0x40000⟩, .filled ⟨0xfffffffffffffffe⟩)]⟩
      frames :=
        { base := ⟨0x40000⟩, size := 6, pinned := 1, used := 3
          returned := [.containing ⟨0x42000⟩, .containing ⟨0x41000⟩] }
      registers := ⟨∅, ⟨0x40000⟩, ∅, ∅⟩
      cpuid := fun _ _ => {}
      logLimit := .trace }
  widths := .assumed
  root := ⟨0x40000⟩

theorem sound_onLitter : FramePool.Sound ⟨0x40000⟩ 6 1 onLitter.machine.frames where
  base_eq := rfl
  size_eq := rfl
  aligned := rfl
  fits := by decide
  pinned_le := by decide
  used_le := by decide
  known f hf := by
    have hmem : f = .containing ⟨0x42000⟩ ∨ f = .containing ⟨0x41000⟩ := by
      simpa [onLitter] using hf
    rcases hmem with rfl | rfl
    · exact ⟨2, by decide, by decide, by decide⟩
    · exact ⟨1, by decide, by decide, by decide⟩
  nodup := by decide

theorem twins_onLitter : Pair.Twins (FramePool.pinnedSet ⟨0x1000⟩ 1)
    (FramePool.pinnedSet ⟨0x40000⟩ 1) [(⟨0x1000⟩, ⟨0x40000⟩)]
    ⟨(onBlank .assumed 6).machine, onLitter.machine,
      .single ⟨0x1000⟩ ⟨0x40000⟩, fun _ => 3⟩ := by
  have hpinned : ∀ base, base ∈ FramePool.pinnedSet base 1 := fun base =>
    ⟨0, Nat.one_pos, base.addPages_zero.symm⟩
  refine .of_vacant (wellFormed_onBlank .assumed (by decide) (by decide)).honest
    (FramePool.honest sound_onLitter) (.inr (hpinned _)) (.inr (hpinned _))
    (Machine.vacant_unmapped _ _) (fun i => ?_) (FramePool.inPace (by decide) (by decide) _)
  exact (congrArg Entry.isPresent (Table.get_filled _ i)).trans (by decide)

/-- A page mapped, checked and looked up, a second one for which the frames run out, and the first one
unmapped again. -/
def asked : List ((PAddr × PAddr) × Request) :=
  let roots : PAddr × PAddr := (⟨0x1000⟩, ⟨0x40000⟩)
  [(roots, .call (.mapPage ⟨0x9000⟩ ⟨0x1ff000⟩ ∅)), (roots, .verify ⟨0x9000⟩ ⟨0x1ff000⟩ ∅),
    (roots, .call (.mapPage ⟨0xa000⟩ ⟨0x8000000000⟩ ∅)), (roots, .lookup ⟨0x1ff123⟩),
    (roots, .call (.unmapPage ⟨0x1ff000⟩))]

theorem answers_on_litter :
    (onLitter.askAll (asked.map fun q => (q.1.2, q.2))).1 =
        [.called (.ok ()), .verified (.ok ()), .called (.error .outOfFrames),
          .found (.ok (⟨0x9123⟩, ∅)), .called (.ok ())] ∧
      ∃ ρ, Corresponds (FramePool.pinnedSet ⟨0x1000⟩ 1) (FramePool.pinnedSet ⟨0x40000⟩ 1)
        [(⟨0x1000⟩, ⟨0x40000⟩)] ρ
        ((onBlank .assumed 6).askAll (asked.map fun q => (q.1.1, q.2))).2.machine
        (onLitter.askAll (asked.map fun q => (q.1.2, q.2))).2.machine := by
  have hroots : ∀ q ∈ asked, q.1 ∈ [((⟨0x1000⟩, ⟨0x40000⟩) : PAddr × PAddr)] := by
    simp [asked]
  have hcurrent : ∀ pair v, (pair, Request.lookup v) ∈ asked →
      pair = ((onBlank .assumed 6).currentRoot, onLitter.currentRoot) := fun pair v hm =>
    List.mem_singleton.1 (hroots _ hm)
  have hwidths : onLitter.widths = (onBlank .assumed 6).widths := rfl
  obtain ⟨hsame, ρ, -, -, -, -, -, hcorr, -⟩ := indifferent_to_frames hwidths
    twins_onLitter.corresponds twins_onLitter.inPace hroots hcurrent
  refine ⟨hsame.symm.trans ?_, ρ, hcorr⟩
  decide +kernel

end Kernel

end VirtualMemory
