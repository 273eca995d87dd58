import VirtualMemory.Mapping.Call
import VirtualMemory.Proofs.Spans
import Mathlib.Data.List.Induction

/-!
# Accounting for frames

Whatever calls are carried out on a hierarchy, and however they end, the frames that are out remain
the tables of the hierarchy below its root.

* **`Owns.call`**: a call keeps a hierarchy in order, and never has more tables than one tree;
* `Machine.Stocked`: no table below the root is empty (`stocked_iff`);
* `Machine.Balanced`: the frames given out are the tables below the root, and none of them is empty;
* **`runAll_balanced`**: runs of calls keep the balance.
-/

namespace VirtualMemory

namespace Machine

variable {α : Type} [FrameSource α] {used others : Set PAddr} {root : PAddr} {v : VAddr}
  {w : Widths} {s : Span} {a : Attributes} {m m' m'' : Machine α}

/-! ## Calls -/

/-- **The tables before and after, all of them in one tree**: a call makes its tables before it
drops any. -/
def Peaks (root : PAddr) (m m' : Machine α) : Prop :=
  ∃ peak : Memory, peak.Tree root ∧ m.memory.Extends root peak ∧ m'.memory.Extends root peak

theorem Owns.peaks_of_extends (h : Owns used others root m')
    (hx : m.memory.Extends root m'.memory) : Peaks root m m' :=
  ⟨m'.memory, h.tree, hx, .refl _⟩

theorem Owns.peaks_of_slot (h : Owns used others root m)
    (hs : m'.memory.slot root = m.memory.slot root) : Peaks root m m' :=
  ⟨m.memory, h.tree, .refl _, Memory.extends_of_slot hs.symm⟩

theorem Owns.mapSpan (h : Owns used others root m) (w : Widths) (s : Span) (a : Attributes) :
    Orderly used others root m (m.mapSpan w root s a).2 ∧
      Peaks root m (m.mapSpan w root s a).2 := by
  unfold Machine.mapSpan
  split
  · exact ⟨.refl h, h.peaks_of_slot rfl⟩
  · rw [mapSpanFrom_eq]
    split
    · rename_i n m₁ hp
      obtain ⟨ho, hx, -⟩ := h.mapPrefix hp
      exact ⟨ho, ho.owns.peaks_of_extends hx⟩
    · rename_i n e m₁ hp
      obtain ⟨ho, hx, -⟩ := h.mapPrefix hp
      have ho₁ : Orderly used others root m₁ (m₁.note (.runFailed s.pages s.virt n e)) :=
        ⟨ho.owns.congr (memory_note _ _) (frames_note _ _), .note _,
          fun p hp => by rwa [memory_note] at hp⟩
      obtain ⟨ho₂, hx₂, -⟩ := ho₁.owns.unwind s.virt n
      rw [memory_note] at hx₂
      exact ⟨ho.trans (ho₁.trans ho₂), m₁.memory, ho.owns.tree, hx, hx₂⟩

theorem Owns.unmapPages (h : Owns used others root m) (w : Widths) (v : VAddr) (count : Nat) :
    Orderly used others root m (m.unmapPages w root v count).2 ∧
      (m.unmapPages w root v count).2.memory.Extends root m.memory := by
  cases hv : w.admitsPages v count with
  | false =>
    rw [unmapPages_refused hv]
    exact ⟨.refl h, .refl _⟩
  | true =>
    obtain ⟨ho, hx, -⟩ := h.unwind v count
    rw [unmapPages_eq hv]
    exact ⟨ho, hx⟩

/-- **Every call keeps a hierarchy in order**, whatever its answer. -/
theorem Owns.call (h : Owns used others root m) (w : Widths) (c : Call) :
    Orderly used others root m (c.run w root m).2 ∧ Peaks root m (c.run w root m).2 := by
  cases c with
  | mapPage p v a =>
    rcases hrun : m.mapPage w root p v a with ⟨_ | _, m'⟩
    · obtain ⟨ho, hs⟩ := h.mapPage_error hrun
      rw [Call.run, hrun]
      exact ⟨ho, h.peaks_of_slot hs⟩
    · obtain ⟨ho, hx, -⟩ := h.mapPage_ok hrun
      rw [Call.run, hrun]
      exact ⟨ho, ho.owns.peaks_of_extends hx⟩
  | mapLarge p v a =>
    rcases hrun : m.mapLarge w root p v a with ⟨_ | _, m'⟩
    · obtain ⟨ho, hs⟩ := h.mapLarge_error hrun
      rw [Call.run, hrun]
      exact ⟨ho, h.peaks_of_slot hs⟩
    · obtain ⟨ho, hx, -⟩ := h.mapLarge_ok hrun
      rw [Call.run, hrun]
      exact ⟨ho, ho.owns.peaks_of_extends hx⟩
  | mapSpan s a => exact h.mapSpan w s a
  | unmapPage v =>
    obtain ⟨ho, hx⟩ := h.unmapPage_extends v
    exact ⟨ho, m.memory, h.tree, .refl _, hx⟩
  | unmapPages v count =>
    obtain ⟨ho, hx⟩ := h.unmapPages w v count
    exact ⟨ho, m.memory, h.tree, .refl _, hx⟩

theorem Owns.runAll (h : Owns used others root m) (w : Widths) (calls : List Call) :
    Orderly used others root m (Call.runAll w root calls m) := by
  induction calls generalizing m with
  | nil => exact .refl h
  | cons c calls ih =>
    have ho := (h.call w c).1
    exact ho.trans (ih ho.owns)

/-! ## Balance -/

/-- **No table below the root is empty.** -/
def Stocked (root : PAddr) (m : Machine α) : Prop :=
  ∀ p t, p ≠ [] → m.memory.tableAt root p = some t → ∃ i, (m.entry t i).isPresent = true

omit [FrameSource α] in
theorem stocked_iff : Stocked root m ↔ ∀ p, ¬ Bare root (m.memory.slot root) p := by
  constructor
  · rintro h p ⟨hp, ⟨t, ht⟩, hb⟩
    rw [← Memory.tableAt_eq_tableIn] at ht
    obtain ⟨i, hi⟩ := h p t hp ht
    have := (Memory.slot_cons_eq_none_iff ht).1 hb i
    rw [show m.memory.entry t i = m.entry t i from rfl, hi] at this
    cases this
  · intro hb p t hp ht
    by_contra hn
    refine hb p ⟨hp, ⟨t, Memory.tableAt_eq_tableIn m.memory root ▸ ht⟩, ?_⟩
    rw [Memory.slot_cons_eq_none_iff ht]
    intro i
    by_contra hi
    exact hn ⟨i, Bool.not_eq_false _ ▸ hi⟩

/-- **A hierarchy in balance with the source of frames**: its tables form a tree, the frames given
out are those below the root, and each of these has an entry in use. -/
structure Balanced (root : PAddr) (m : Machine α) : Prop where
  tree : m.memory.Tree root
  holds_iff : ∀ t, m.Holds t ↔ ∃ p, p ≠ [] ∧ m.memory.tableAt root p = some t
  stocked : ∀ p t, p ≠ [] → m.memory.tableAt root p = some t →
    ∃ i, (m.entry t i).isPresent = true

theorem Balanced.owns (h : Balanced root m) (hs : FrameSource.Honest used m.frames)
    (hr : root ∈ used) : Owns used ∅ root m where
  honest := hs
  tree := h.tree
  holds_iff t := by rw [h.holds_iff]; exact ⟨.inr, fun h => h.resolve_left id⟩
  apart _ _ _ _ := id
  rooted := .inr hr

theorem Balanced.not_bare (h : Balanced root m) {p : Path} :
    ¬ Bare root (m.memory.slot root) p := stocked_iff.1 h.stocked p

theorem Owns.balanced (h : Owns used ∅ root m) (hb : ∀ p, ¬ Bare root (m.memory.slot root) p) :
    Balanced root m where
  tree := h.tree
  holds_iff t := by rw [h.holds_iff]; exact ⟨fun h => h.resolve_left id, .inr⟩
  stocked := stocked_iff.2 hb

theorem balanced_unmapped {base : PAddr} {size : Nat} (ha : base.isAligned 4096 = true)
    (hs : 1 ≤ size) (hf : base.bits.toNat + size * 4096 ≤ 2 ^ 52) :
    Balanced base (unmapped base size) := by
  have h := owns_unmapped ha hs hf
  refine h.balanced fun p hp => ?_
  obtain ⟨hne, ⟨t, ht⟩, -⟩ := hp
  rw [← Memory.tableAt_eq_tableIn] at ht
  obtain ⟨f, hf, -⟩ := h.holds hne ht
  cases hf

theorem stocked_runAll_unmapped {base : PAddr} {size : Nat} (ha : base.isAligned 4096 = true)
    (hs : 1 ≤ size) (hf : base.bits.toNat + size * 4096 ≤ 2 ^ 52) (w : Widths)
    (calls : List Call) :
    WellFormed (FramePool.pinnedSet base 1) base (Call.runAll w base calls (unmapped base size)) ∧
      Stocked base (Call.runAll w base calls (unmapped base size)) := by
  have ho := (owns_unmapped ha hs hf).runAll w calls
  have hb := balanced_unmapped ha hs hf
  exact ⟨ho.owns.wellFormed, stocked_iff.2 fun p hp => hb.not_bare (ho.bare p hp)⟩

/-- **Runs of calls keep the balance**, and give back only frames that are out at that moment. -/
theorem runAll_balanced (hs : FrameSource.Honest used m.frames) (hr : root ∈ used)
    (hb : Balanced root m) (w : Widths) (calls : List Call) :
    Balanced root (Call.runAll w root calls m) ∧
      ∃ es, (Call.runAll w root calls m).events = es ++ m.events ∧
        ∀ frame held, .released frame held ∈ es → held = true := by
  have ho := (hb.owns hs hr).runAll w calls
  exact ⟨ho.owns.balanced fun p hp => hb.not_bare (ho.bare p hp), ho.confined.released⟩

theorem balanced_after_three_calls :
    Balanced ⟨0x1000⟩ (Call.runAll .assumed ⟨0x1000⟩
      [.mapSpan ⟨⟨0x1ff000⟩, ⟨0x7000⟩, 0x2000⟩ ∅, .mapPage ⟨0x5000⟩ ⟨0x1ff000⟩ ∅,
        .unmapPages ⟨0x1ff000⟩ 2] (unmapped ⟨0x1000⟩ 4)) := by
  have h : Owns _ ∅ ⟨0x1000⟩ (unmapped ⟨0x1000⟩ 4) := owns_unmapped rfl (by decide) (by decide)
  exact (runAll_balanced h.honest (h.rooted.resolve_left id)
    (balanced_unmapped rfl (by decide) (by decide)) _ _).1

end Machine

/-! ## All states of a run -/

/-- **A property of all states of a run** that an invariant gives, and each forbidden step breaks,
holds throughout just if every step may be taken. -/
theorem forall_prefix_iff {σ ι : Type} {step : σ → ι → σ} {Inv Good : σ → Prop}
    {May : σ → ι → Prop} (good : ∀ s, Inv s → Good s)
    (keep : ∀ s x, Inv s → May s x → Inv (step s x))
    (may : ∀ s x, Inv s → Good (step s x) → May s x) {s : σ} (h : Inv s) (xs : List ι) :
    (∀ ys, ys <+: xs → Good (ys.foldl step s)) ↔
      ∀ ys x, ys ++ [x] <+: xs → May (ys.foldl step s) x := by
  have inv : (∀ ys x, ys ++ [x] <+: xs → Inv (ys.foldl step s) → May (ys.foldl step s) x) →
      ∀ ys, ys <+: xs → Inv (ys.foldl step s) := by
    intro hmay ys
    induction ys using List.reverseRecOn with
    | nil => exact fun _ => h
    | append_singleton ys x ih =>
      intro hys
      have hinv := ih ((List.prefix_append ys [x]).trans hys)
      rw [List.foldl_append]
      exact keep _ x hinv (hmay ys x hys hinv)
  constructor
  · intro hgood
    have hmay : ∀ ys x, ys ++ [x] <+: xs → Inv (ys.foldl step s) → May (ys.foldl step s) x := by
      intro ys x hys hinv
      have hnext := hgood _ hys
      rw [List.foldl_append] at hnext
      exact may _ x hinv hnext
    exact fun ys x hys => hmay ys x hys (inv hmay ys ((List.prefix_append ys [x]).trans hys))
  · exact fun hmay ys hys => good _ (inv (fun ys x hys _ => hmay ys x hys) ys hys)

end VirtualMemory
