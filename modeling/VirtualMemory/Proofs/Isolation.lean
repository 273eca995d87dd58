import VirtualMemory.Proofs.Sharing
import VirtualMemory.Proofs.Unwinding

/-!
# Roots are isolated

A call changes entries on the trails of the addresses that it touches, and no others. As long as no
call touches the kernel's image, a call on one root shows under no other root: the tables of the
other root are elsewhere, or they are shared tables of the image.

* `Call.Touches`, `Move.Touches`: the addresses that a call or a move maps or unmaps;
* **`Owns.slot_call_of_untouched`**: entries off their trails stay as they are;
* **`Forest.slot_other`**: so do all entries of another root, if the call keeps off the image;
* `Family.Apart`: moves that keep off the image, which keep a family in order;
* **`Family.roots_are_isolated`**: in a run of such moves, each shows under its own root only.
-/

namespace VirtualMemory

/-! ## The addresses that a call touches -/

/-- **The address `x` is touched by a call**: the call maps or unmaps the page there. A call that
refuses its arguments touches nothing. -/
def Call.Touches (w : Widths) (x : VAddr) : Call → Prop
  | mapPage p v _ => w.admitsFrame p = true ∧ w.admitsPage v = true ∧ x = v
  | mapLarge p v _ => w.admitsFrame p = true ∧ w.admitsPage v = true ∧ x = v
  | mapSpan s _ => w.admitsPages s.virt s.pages = true ∧ w.admitsFrames s.phys s.pages = true ∧
      ∃ i < s.pages, x = s.virt.addPages i
  | unmapPage v => x = v
  | unmapPages v count => w.admitsPages v count = true ∧ ∃ i < count, x = v.addPages i

/-- The address `x` is touched by a move. -/
def Move.Touches (w : Widths) (x : VAddr) : Move → Prop
  | newRoot | load _ => False
  | call _ c => c.Touches w x
  | map v p count a => ∃ s, Span.ofPages? v p count = some s ∧ (Call.mapSpan s a).Touches w x
  | unmap v count => (Call.unmapPages v count).Touches w x

namespace Machine

variable {α : Type} [FrameSource α] {used others : Set PAddr} {root : PAddr} {w : Widths}
  {p : Path} {m : Machine α}

theorem Owns.slot_call_of_untouched (h : Owns used others root m) {c : Call}
    (hp : ∀ x, c.Touches w x → ∀ k, 0 < k → p ≠ x.trail k) :
    (c.run w root m).2.memory.slot root p = m.memory.slot root p := by
  cases c with
  | mapPage pa v a =>
    rcases hrun : m.mapPage w root pa v a with ⟨_ | _, m'⟩
    · rw [Call.run, hrun, (h.mapPage_error hrun).2]
    · obtain ⟨hf, hv, -⟩ := mapPage_eq_ok hrun
      rw [Call.run, hrun]
      exact (h.laid_mapPage hrun).slot_off (hp v ⟨hf, hv, rfl⟩)
  | mapLarge pa v a =>
    rcases hrun : m.mapLarge w root pa v a with ⟨_ | _, m'⟩
    · rw [Call.run, hrun, (h.mapLarge_error hrun).2]
    · obtain ⟨hf, hv, -⟩ := mapLarge_eq_ok hrun
      rw [Call.run, hrun]
      exact (h.laid_mapLarge hrun).slot_off (hp v ⟨hf, hv, rfl⟩)
  | mapSpan s a =>
    rw [Call.run, Machine.mapSpan]
    split
    · rfl
    · rename_i hadm
      simp only [Bool.or_eq_true, not_or, Bool.not_eq_true', Bool.not_eq_false] at hadm
      have hpage : ∀ i < s.pages, ∀ k, 0 < k → p ≠ (s.virt.addPages i).trail k := fun i hi =>
        hp _ ⟨hadm.1, hadm.2, i, hi, rfl⟩
      rw [mapSpanFrom_eq]
      split
      · rename_i n m₁ hrun
        obtain ⟨-, -, -, hn, -⟩ := h.mapPrefix hrun
        exact (h.slot_mapPrefix hrun).1 p fun j _ hj => hpage j (by omega)
      · rename_i n e m₁ hrun
        obtain ⟨ho, -, -, hn, -⟩ := h.mapPrefix hrun
        -- what is unwound lies on the trails of pages of the span, too
        have hoff : ¬ OnTrails s.virt n p := by
          rintro ⟨i, hi, k, hk, he⟩
          exact hpage i (by omega) k hk he
        have ho₁ := ho.owns.congr (memory_note m₁ (.runFailed s.pages s.virt n e)) (frames_note _ _)
        rw [(ho₁.stripped_unwind s.virt n).slot_off hoff, memory_note]
        exact (h.slot_mapPrefix hrun).1 p fun j _ hj => hpage j (by omega)
  | unmapPage v =>
    refine ((h.unmapPage v).2.slot p).resolve_right ?_
    rintro ⟨-, k, hk, he⟩
    exact hp v rfl k hk he
  | unmapPages v count =>
    rw [Call.run]
    cases hadm : w.admitsPages v count with
    | false => rw [unmapPages_refused hadm]
    | true =>
      rw [unmapPages_eq hadm]
      refine (h.stripped_unwind v count).slot_off ?_
      rintro ⟨i, hi, k, hk, he⟩
      exact hp _ ⟨hadm, i, hi, rfl⟩ k hk he

/-- **A call that touches no address of the image changes no entry there.** -/
theorem Owns.slot_call_inImage (h : Owns used others root m) {c : Call}
    (hc : ∀ x, c.Touches w x → Level.pml4.index x ≠ imageSlot) (hp : InImage p) :
    (c.run w root m).2.memory.slot root p = m.memory.slot root p := by
  refine h.slot_call_of_untouched fun x hx k hk he => hc x hx ?_
  have himage : [imageSlot] = x.trail 1 := Address.eq_trail_of_suffix (he ▸ hp)
  exact (List.cons.inj himage).1.symm

variable {roots : List PAddr} {other : PAddr} {m' : Machine α}

omit [FrameSource α] in
theorem image_congr (h : ∀ p, InImage p → m'.memory.slot root p = m.memory.slot root p) :
    m'.image root = m.image root := by
  rw [image, image, Memory.tableAt_eq_tableIn, Memory.tableAt_eq_tableIn m.memory]
  exact tableIn_congr (h _ (List.suffix_refl _))

/-- **A call on one root shows under no other root** if it changes no entry in the image. -/
theorem Forest.slot_other (h : Forest used roots m) (hroot : root ∈ roots)
    (hcall : Orderly used (strangers root m) root m m')
    (hsame : ∀ p, InImage p → m'.memory.slot root p = m.memory.slot root p)
    (hr : other ∈ roots) (hne : other ≠ root) : m'.memory.slot other = m.memory.slot other := by
  have himage := image_congr hsame
  have hother := h.image_other hroot hcall hr hne
  funext p
  cases p with
  | nil => rfl
  | cons i p =>
    by_cases hp : InImage p ∧ m.image root = m.image other
    · -- a shared table of the image: seen from the root of the call
      have heq : m'.image other = m'.image root := by rw [hother, himage, hp.2]
      have hs := hsame (i :: p) (hp.1.trans (List.suffix_cons i p))
      rw [Memory.slot, Memory.slot] at hs ⊢
      rwa [tableAt_of_image_eq heq hp.1, tableAt_of_image_eq hp.2.symm hp.1]
    · rw [Memory.slot, Memory.slot, h.tableAt_other hroot hcall hr hne hp]
      refine Option.bind_congr fun t ht => ?_
      rw [Memory.entry, Memory.entry,
        hcall.confined.table t (h.mem_elsewhere hroot hr hne hp ht)]

end Machine

/-! ## Runs -/

namespace Family

variable {α : Type} [FrameSource α] {used : Set PAddr} {f : Family α} {mv : Move}

/-- The root whose hierarchy a move may change. -/
def target? (f : Family α) : Move → Option PAddr
  | .newRoot | .load _ => none
  | .call root _ => some root
  | .map .. | .unmap .. => some f.kernel.currentRoot

/-- **A move keeps off the image**: it touches no address there. -/
def Apart (f : Family α) (mv : Move) : Prop :=
  ∀ x, mv.Touches f.kernel.widths x → Level.pml4.index x ≠ imageSlot

theorem widths_step (f : Family α) (mv : Move) :
    (f.step mv).kernel.widths = f.kernel.widths := by
  cases mv with
  | newRoot =>
    rcases ha : f.machine.allocate with ⟨_ | r, m₁⟩ <;>
      simp only [step, Kernel.newRoot, Kernel.onMachine, ha]
  | load root => rw [step]; split <;> rfl
  | call root c => rw [step]; split <;> rfl
  | map v p count a =>
    rcases f.kernel.map_cases v p count a with he | ⟨s, -, he⟩
    · rw [step, he]
    · rw [step, he]; rfl
  | unmap v count => rfl

namespace InOrder

variable {root other : PAddr}

theorem slot_call (h : InOrder used f) (hr : root ∈ f.roots) (ho : other ∈ f.roots) {c : Call}
    (hc : ∀ x, c.Touches f.kernel.widths x → Level.pml4.index x ≠ imageSlot) :
    (∀ p, Machine.InImage p → (f.kernel.call root c).2.machine.memory.slot other p =
      f.machine.memory.slot other p) ∧
    (root ≠ other → (f.kernel.call root c).2.machine.memory.slot other =
      f.machine.memory.slot other) := by
  have hown := (h.forest.wellFormed root hr).owns
  have himage := fun p => hown.slot_call_inImage (p := p) hc
  have hsame : root ≠ other → (f.kernel.call root c).2.machine.memory.slot other =
      f.machine.memory.slot other := fun hne =>
    h.forest.slot_other hr (hown.call f.kernel.widths c).1 himage ho hne.symm
  refine ⟨fun p hp => ?_, hsame⟩
  by_cases hne : root = other
  · exact hne ▸ himage p hp
  · rw [hsame hne]

theorem slot_step (h : InOrder used f) (ha : f.Apart mv) (ho : other ∈ f.roots) :
    (∀ p, Machine.InImage p →
      (f.step mv).machine.memory.slot other p = f.machine.memory.slot other p) ∧
    (f.target? mv ≠ some other →
      (f.step mv).machine.memory.slot other = f.machine.memory.slot other) := by
  -- moves that touch no entry in use below the other root
  have hidle : (f.step mv).machine.memory.slot other = f.machine.memory.slot other →
      (∀ p, Machine.InImage p →
        (f.step mv).machine.memory.slot other p = f.machine.memory.slot other p) ∧
      (f.target? mv ≠ some other →
        (f.step mv).machine.memory.slot other = f.machine.memory.slot other) := fun he =>
    ⟨fun p _ => congrFun he p, fun _ => he⟩
  cases mv with
  | newRoot =>
    apply hidle
    have hs := (h.forest.wellFormed _ ho).honest
    rcases hal : f.machine.allocate with ⟨_ | r, m₁⟩
    · obtain ⟨-, -, frames, rfl⟩ := Machine.allocate_none hs hal
      simp only [Family.step, Kernel.newRoot, Kernel.onMachine, hal]
      rfl
    · rw [step_newRoot hal]
      exact (h.forest.tableAt_slot_newRoot hal (Machine.memory_note _ _) ho).2
  | load root =>
    apply hidle
    rw [Family.step]
    split <;> rfl
  | call root c =>
    by_cases hr : root ∈ f.roots
    · rw [step_call hr]
      obtain ⟨himage, hsame⟩ := h.slot_call hr ho ha
      exact ⟨himage, fun hne => hsame fun he => hne (congrArg some he)⟩
    · exact hidle (by rw [Family.step, if_neg hr])
  | map v p count a =>
    rcases f.kernel.map_cases v p count a with he | ⟨s, hs, he⟩
    · exact hidle (by rw [Family.step, he])
    · rw [Family.step, he]
      obtain ⟨himage, hsame⟩ := h.slot_call h.current_mem ho fun x hx => ha x ⟨s, hs, hx⟩
      exact ⟨himage, fun hne => hsame fun he => hne (congrArg some he)⟩
  | unmap v count =>
    obtain ⟨himage, hsame⟩ := h.slot_call (c := .unmapPages v count) h.current_mem ho ha
    exact ⟨himage, fun hne => hsame fun he => hne (congrArg some he)⟩

theorem keepsImages_of_apart (h : InOrder used f) (ha : f.Apart mv) : f.KeepsImages mv := by
  intro root hr other _ _ c hc _
  exact (Machine.image_congr (h.slot_step ha hr).1).trans hc

theorem run_apart (h : InOrder used f) {moves : List Move}
    (ha : ∀ mv ∈ moves, f.Apart mv) :
    InOrder used (f.run moves) ∧ (f.run moves).kernel.widths = f.kernel.widths := by
  induction moves using List.reverseRecOn with
  | nil => exact ⟨h, rfl⟩
  | append_singleton moves mv ih =>
    obtain ⟨hin, hw⟩ := ih fun mv hmv => ha mv (List.mem_append_left _ hmv)
    have hlast : (f.run moves).Apart mv := fun x hx =>
      ha mv (List.mem_append_right _ (List.mem_singleton_self mv)) x (hw ▸ hx)
    rw [run, List.foldl_append]
    exact ⟨hin.step (hin.keepsImages_of_apart hlast), (widths_step _ mv).trans hw⟩

end InOrder

/-- **Roots are isolated**: as long as no move touches an address of the image, a move on one root
leaves the walks under all others as they were, and roots share tables of one image at most. -/
theorem roots_are_isolated {k : Kernel α} (h : Machine.WellFormed used k.root k.machine)
    (hc : k.currentRoot = k.root) {moves : List Move}
    (hoff : ∀ mv ∈ moves, ∀ x, mv.Touches k.widths x → Level.pml4.index x ≠ imageSlot) :
    (∀ ms mv, ms ++ [mv] <+: moves → let f := (ofKernel k).run ms
      ∀ other ∈ f.roots, f.target? mv ≠ some other → ∀ v,
        (f.step mv).machine.memory.walk other v = f.machine.memory.walk other v) ∧
    ∀ ms, ms <+: moves → let f := (ofKernel k).run ms
      ∀ r ∈ f.roots, ∀ r' ∈ f.roots, r ≠ r' → ∀ p p' t,
        f.machine.memory.tableAt r p = some t → f.machine.memory.tableAt r' p' = some t →
        Machine.InImage p ∧ Machine.InImage p' ∧ f.machine.image r = f.machine.image r' := by
  have hrun : ∀ ms, ms <+: moves → InOrder used ((ofKernel k).run ms) ∧
      ((ofKernel k).run ms).kernel.widths = k.widths := fun ms hms =>
    (InOrder.ofKernel h hc).run_apart fun mv hmv => hoff mv (hms.subset hmv)
  constructor
  · intro ms mv hms f other ho htarget v
    obtain ⟨hin, hw⟩ := hrun ms ((List.prefix_append ms [mv]).trans hms)
    have hmv : mv ∈ moves := hms.subset (List.mem_append_right _ (List.mem_singleton_self mv))
    have ha : f.Apart mv := fun x hx => hoff mv hmv x (hw ▸ hx)
    exact Memory.walk_of_slot ((hin.slot_step ha ho).2 htarget) v
  · intro ms hms f r hr r' hr' hne p p' t hp hp'
    exact ((hrun ms hms).1.forest.shared r hr r' hr' p p' t hp hp').resolve_left hne

theorem onePage_isolated :
    let made := (ofKernel onePage).run [.newRoot, .load ⟨0x5000⟩]
    let mapped := made.step (.map ⟨0x1ff000⟩ ⟨0xa000⟩ 1 ∅)
    mapped.machine.memory.walk ⟨0x5000⟩ ⟨0x1ff000⟩ = .mapped ⟨0xa000⟩ ∅ .pt ∧
      ∀ v, mapped.machine.memory.walk ⟨0x1000⟩ v = made.machine.memory.walk ⟨0x1000⟩ v := by
  have hoff : ∀ mv ∈ [Move.newRoot, .load ⟨0x5000⟩, .map ⟨0x1ff000⟩ ⟨0xa000⟩ 1 ∅], ∀ x,
      mv.Touches onePage.widths x → Level.pml4.index x ≠ imageSlot := by
    simp only [List.forall_mem_cons, List.not_mem_nil, false_imp_iff, implies_true, and_true]
    refine ⟨fun x hx => hx.elim, fun x hx => hx.elim, ?_⟩
    rintro x ⟨s, hs, -, -, i, hi, rfl⟩
    cases hs
    obtain rfl : i = 0 := by
      have hpages : (⟨⟨0x1ff000⟩, ⟨0xa000⟩, 0x1000⟩ : Span).pages = 1 := by decide
      exact Nat.lt_one_iff.1 (hpages ▸ hi)
    decide
  have hcurrent : onePage.currentRoot = onePage.root := by decide +kernel
  refine ⟨by decide +kernel, ?_⟩
  exact (roots_are_isolated onePage_spec.1.wellFormed hcurrent hoff).1
    [.newRoot, .load ⟨0x5000⟩] (.map ⟨0x1ff000⟩ ⟨0xa000⟩ 1 ∅) (List.prefix_refl _) ⟨0x1000⟩
    (by decide +kernel) (by decide +kernel)

end Family

end VirtualMemory
