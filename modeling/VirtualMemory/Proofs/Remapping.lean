import VirtualMemory.Proofs.Prediction
import VirtualMemory.Proofs.Reclaiming
import VirtualMemory.Proofs.Rights
import VirtualMemory.Proofs.Rollback

/-!
# Mapping again what is mapped

A call that maps pages finds them mapped when it is made a second time: every table is in its place,
and every leaf is the one to be written. So it writes what is there, and flushes page after page.

* `Call.mappedPages`: the pages that a call maps;
* `Overwrites`: a machine wrote what its memory held, and flushed some pages;
* `overwrites_writeLeaf`: a leaf written again, and `overwrites_mapSpanFrom`: the leaves of a span;
* **`WellFormed.repeat_overwrites`**: a call made again, with frames left or without.
-/

namespace VirtualMemory

namespace Memory

variable {mem mem' : Memory}

/-- **The entries determine the hierarchy.** -/
theorem slot_of_entry (h : ∀ t i, mem'.entry t i = mem.entry t i) (root : PAddr) :
    mem'.slot root = mem.slot root := by
  have htable : ∀ p, mem'.tableAt root p = mem.tableAt root p := by
    intro p
    induction p with
    | nil => rfl
    | cons i p ih => simp only [tableAt, ih, h]
  funext p
  cases p with
  | nil => rfl
  | cons i p => simp only [slot, htable, h]

end Memory

/-- **The pages that a call maps**, by their first addresses. -/
def Call.mappedPages : Call → List VAddr
  | mapPage _ v _ | mapLarge _ v _ => [v]
  | mapSpan s _ => (List.range s.pages).map s.virt.addPages
  | unmapPage _ | unmapPages .. => []

namespace Machine

variable {α : Type}

/-- **The machine wrote what its memory held already**, and made the processor forget the pages at
`vs`, one after the other. It did nothing else. -/
structure Overwrites (vs : List VAddr) (m m' : Machine α) : Prop where
  entry : ∀ t i, m'.entry t i = m.entry t i
  frames : m'.frames = m.frames
  /-- No frame was asked for or given back, and interrupts were not shut out. -/
  history : ∃ es, m'.history = m.history ++ es ∧
    (∀ e ∈ es, (∃ t i, e = .wrote t i (m.entry t i)) ∨ ∃ v, e = .flushed v) ∧
    es.filterMap Event.flushed? = vs

namespace Overwrites

variable {vs vs' : List VAddr} {m m₁ m' : Machine α}

theorem refl (m : Machine α) : Overwrites [] m m :=
  ⟨fun _ _ => rfl, rfl, [], (List.append_nil _).symm, nofun, rfl⟩

theorem trans (h : Overwrites vs m m₁) (h' : Overwrites vs' m₁ m') :
    Overwrites (vs ++ vs') m m' := by
  obtain ⟨es, hes, hall, hvs⟩ := h.history
  obtain ⟨es', hes', hall', hvs'⟩ := h'.history
  refine ⟨fun t i => (h'.entry t i).trans (h.entry t i), h'.frames.trans h.frames, es ++ es', ?_,
    List.forall_mem_append.2 ⟨hall, fun e he => ?_⟩, ?_⟩
  · rw [hes', hes, List.append_assoc]
  · -- what the later writes find is what the machine held at first
    refine (hall' e he).imp_left ?_
    rintro ⟨t, i, rfl⟩
    exact ⟨t, i, by rw [h.entry]⟩
  · rw [List.filterMap_append, hvs, hvs']

theorem flush_write (m : Machine α) (t : PAddr) (i : Index) (v : VAddr) :
    Overwrites [v] m ((m.write t i (m.entry t i)).flush v) where
  entry u j := by
    change (m.memory.set t i (m.memory.entry t i)).entry u j = m.memory.entry u j
    rw [Memory.entry_set]
    split
    · rename_i he
      rw [he.1, he.2]
    · rfl
  frames := rfl
  history := by
    refine ⟨[.wrote t i (m.entry t i), .flushed v], ?_, ?_, rfl⟩
    · rw [Machine.flush, history_record, history_write, List.append_assoc]
      rfl
    · simp

end Overwrites

variable [FrameSource α] {used others : Set PAddr} {root p : PAddr} {v : VAddr} {w : Widths}
  {s : Span} {a : Attributes} {c : Call} {leaf : Level} {f : EntryFlags} {left i : Nat}
  {m m' : Machine α}

/-! ## One page -/

/-- **A leaf written again** meets no table to make, and itself in its place. -/
theorem overwrites_writeLeaf
    (he : m.memory.leaf root (v.trail (4 - leaf.height)) = some (.make p f)) :
    ∃ m', m.writeLeaf root p v leaf f = (.ok (), m') ∧ Overwrites [v] m m' := by
  obtain ⟨t, ht, hr⟩ := Memory.exists_role_of_leaf he
  obtain ⟨u, hu, hentry, -⟩ :=
    Memory.exists_tableAt_of_slot (v.trail_height leaf ▸ slot_of_leafIn he)
  obtain rfl : t = u := Option.some.inj (ht.symm.trans hu)
  have hr : (m.entry t (leaf.index v)).role leaf = .leaf := hr
  refine ⟨(m.write t (leaf.index v) (.make p f)).flush v, ?_, ?_⟩
  · simp only [writeLeaf, makePath_eq_ok ht, hr]
  · rw [← hentry]
    exact .flush_write m t (leaf.index v) v

theorem overwrites_mapPage (hp : w.admitsFrame p = true) (hv : w.admitsPage v = true)
    (he : m.memory.leaf root (v.trail 4) = some (.make p a.encode.asLeaf)) :
    ∃ m', m.mapPage w root p v a = (.ok (), m') ∧ Overwrites [v] m m' := by
  rw [mapPage, if_neg (by simp [hp, hv])]
  exact overwrites_writeLeaf he

theorem overwrites_mapLarge (hp : w.admitsFrame p = true) (hv : w.admitsPage v = true)
    (hp' : p.isAligned PageSize.mib2.bytes = true) (hv' : v.isAligned PageSize.mib2.bytes = true)
    (he : m.memory.leaf root (v.trail 3) = some (.make p a.encode.asLeaf.enlarged)) :
    ∃ m', m.mapLarge w root p v a = (.ok (), m') ∧ Overwrites [v] m m' := by
  rw [mapLarge, if_neg (by simp [hp, hv, hp', hv'])]
  exact overwrites_writeLeaf he

/-! ## Page after page -/

theorem overwrites_mapSpanFrom
    (had : ∀ j, i ≤ j → j < i + left → w.admitsFrame (s.phys.addPages j) = true ∧
      w.admitsPage (s.virt.addPages j) = true)
    (he : ∀ j, i ≤ j → j < i + left → m.memory.leaf root (s.path j) = some (s.leaf a j)) :
    ∃ m', m.mapSpanFrom w root s a left i = (.ok (), m') ∧
      Overwrites ((List.range' i left).map s.virt.addPages) m m' := by
  induction left generalizing i m with
  | zero => exact ⟨m, rfl, .refl m⟩
  | succ left ih =>
    obtain ⟨hp, hv⟩ := had i (Nat.le_refl i) (by omega)
    obtain ⟨m₁, hpage, hover⟩ := overwrites_mapPage hp hv (he i (Nat.le_refl i) (by omega))
    have hsame : m₁.memory.leaf root = m.memory.leaf root :=
      congrArg leafIn (Memory.slot_of_entry hover.entry root)
    obtain ⟨m', hrest, hover'⟩ := ih (i := i + 1) (fun j hj hj' => had j (by omega) (by omega))
      fun j hj hj' => hsame ▸ he j (by omega) (by omega)
    refine ⟨m', ?_, ?_⟩
    · simp only [mapSpanFrom, hpage, hrest]
    · exact hover.trans hover'

theorem overwrites_mapSpan {β : Type} [FrameSource β] {m₁ : Machine β}
    (h : Owns used others root m) (hw : w.virt ≤ 48) (hrun : m.mapSpan w root s a = (.ok (), m'))
    (hsame : m₁.memory.slot root = m'.memory.slot root) :
    ∃ m₂, m₁.mapSpan w root s a = (.ok (), m₂) ∧
      Overwrites ((List.range s.pages).map s.virt.addPages) m₁ m₂ := by
  obtain ⟨-, had, -⟩ := h.mapSpan_ok hrun
  have hpages : ∃ m₂, m₁.mapSpanFrom w root s a s.pages 0 = (.ok (), m₂) ∧
      Overwrites ((List.range' 0 s.pages).map s.virt.addPages) m₁ m₂ := by
    refine overwrites_mapSpanFrom (fun j _ hj => had j (by omega)) fun j _ hj => ?_
    rw [Memory.leaf, hsame]
    exact h.leaf_path_mapSpan hw hrun (by omega)
  rw [List.range_eq_range']
  unfold mapSpan at hrun ⊢
  split at hrun
  · cases hrun
  · rename_i hvalid
    rwa [if_neg hvalid]

/-! ## A call made again -/

theorem Owns.pairwise_mappedPages (h : Owns used others root m)
    (hrun : c.run w root m = (.ok (), m')) :
    c.mappedPages.Pairwise (·.bits.toNat < ·.bits.toNat) := by
  cases c with
  | mapPage | mapLarge => exact List.pairwise_singleton _ _
  | unmapPage | unmapPages => exact .nil
  | mapSpan s a =>
    obtain ⟨-, -, hfit⟩ := h.mapSpan_ok hrun
    refine List.pairwise_map.2 (List.pairwise_lt_range.imp_of_mem fun {i j} hi hj hij => ?_)
    rw [Address.toNat_addPages_of_lt (List.mem_range.1 hi) hfit,
      Address.toNat_addPages_of_lt (List.mem_range.1 hj) hfit]
    exact Nat.add_lt_add_left (Nat.mul_lt_mul_of_pos_right hij (by decide)) _

/-- **A call that has mapped its pages can be made again**, without frames: it writes what is there,
and flushes each of its pages once. -/
theorem WellFormed.repeat_overwrites (h : WellFormed used root m) (hw : w.virt ≤ 48)
    (hc : c.maps = true) (hrun : c.run w root m = (.ok (), m')) :
    c.mappedPages.Pairwise (·.bits.toNat < ·.bits.toNat) ∧
      ∀ {β : Type} [FrameSource β] (m₁ : Machine β), (∀ t i, m₁.entry t i = m'.entry t i) →
        ∃ m₂, c.run w root m₁ = (.ok (), m₂) ∧ Overwrites c.mappedPages m₁ m₂ := by
  refine ⟨h.owns.pairwise_mappedPages hrun, fun {β} _ m₁ hm => ?_⟩
  have hsame := Memory.slot_of_entry hm root
  have hleaf : m₁.memory.leaf root = m'.memory.leaf root := congrArg leafIn hsame
  cases c with
  | mapPage p v a =>
    obtain ⟨hp, hv, -⟩ := mapPage_eq_ok hrun
    exact overwrites_mapPage hp hv (hleaf ▸ h.owns.leaf_mapPage hrun)
  | mapLarge p v a =>
    obtain ⟨hp, hv, -⟩ := mapLarge_eq_ok hrun
    obtain ⟨hp', hv'⟩ := isAligned_of_mapLarge hrun
    exact overwrites_mapLarge hp hv hp' hv' (hleaf ▸ h.owns.leaf_mapLarge hrun)
  | mapSpan s a => exact overwrites_mapSpan h.owns hw hrun hsame
  | unmapPage v => cases hc
  | unmapPages v count => cases hc

theorem repeat_overwrites_two_pages :
    let c : Call := .mapSpan Kernel.twoPages ∅
    let m := (c.run .assumed ⟨0x1000⟩ (unmapped ⟨0x1000⟩ 5)).2
    m.allocate.1 = none ∧ ∃ m', c.run .assumed ⟨0x1000⟩ m = (.ok (), m') ∧
      Overwrites [⟨0x1ff000⟩, ⟨0x200000⟩] m m' := by
  intro c m
  have hok : (c.run .assumed ⟨0x1000⟩ (unmapped ⟨0x1000⟩ 5)).1 = .ok () := by decide +kernel
  refine ⟨by decide +kernel, ?_⟩
  have h : Owns _ ∅ ⟨0x1000⟩ (unmapped ⟨0x1000⟩ 5) := owns_unmapped rfl (by decide) (by decide)
  exact (h.wellFormed.repeat_overwrites (by decide) rfl (Prod.fst_eq_iff.1 hok)).2 m
    fun _ _ => rfl

end Machine

end VirtualMemory
