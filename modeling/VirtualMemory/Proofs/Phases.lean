import VirtualMemory.Proofs.Edits

/-!
# Calls add before they drop

A call puts entries to use first, and takes entries out of use only when it puts no more to use.
When it fails it may do both, when it goes through it does one of the two. At each leaf in use that
is written over or taken out of use, the processor is made to forget a page of the call.

* `Machine.Adds`, `Machine.Drops`, `Machine.Phased`: the two halves of a call, and both;
* **`Owns.phased_mapPrefix`**, **`Owns.drops_unwind`**: the halves of the calls on many pages;
* `Owns.adds_step`, `Owns.drops_step`: what an edit of each half leaves as it is.
-/

namespace VirtualMemory

namespace Machine

variable {α : Type} [FrameSource α] {used others : Set PAddr} {root p : PAddr} {v : VAddr}
  {V : Set VAddr} {w : Widths} {s : Span} {a : Attributes} {e : MapError} {o : Option MapError}
  {f : EntryFlags} {leaf : Level} {i n left : Nat} {x : Edit} {m m' m₁ : Machine α}

/-! ## The two halves -/

/-- The machine carries out edits that put entries to use. -/
def Adds (V : Set VAddr) (root : PAddr) (m m' : Machine α) : Prop :=
  ∃ xs, Synced V root xs m m' ∧ ∀ x ∈ xs, x.adds = true

/-- The machine carries out edits that take entries out of use. -/
def Drops (V : Set VAddr) (root : PAddr) (m m' : Machine α) : Prop :=
  ∃ xs, Synced V root xs m m' ∧ ∀ x ∈ xs, x.adds = false

/-- **First entries are put to use, then entries are taken out of use.** -/
def Phased (V : Set VAddr) (root : PAddr) (m m' : Machine α) : Prop :=
  ∃ m₁, Adds V root m m₁ ∧ Drops V root m₁ m'

theorem Adds.trans (h : Adds V root m m₁) (h' : Adds V root m₁ m') : Adds V root m m' := by
  obtain ⟨xs, hx, ha⟩ := h
  obtain ⟨ys, hy, ha'⟩ := h'
  exact ⟨xs ++ ys, hx.append hy, fun x hx => (List.mem_append.1 hx).elim (ha x) (ha' x)⟩

theorem Drops.trans (h : Drops V root m m₁) (h' : Drops V root m₁ m') : Drops V root m m' := by
  obtain ⟨xs, hx, ha⟩ := h
  obtain ⟨ys, hy, ha'⟩ := h'
  exact ⟨xs ++ ys, hx.append hy, fun x hx => (List.mem_append.1 hx).elim (ha x) (ha' x)⟩

theorem Drops.ofSilent (h : Silent m m') : Drops V root m m' := ⟨[], .ofSilent h, nofun⟩

namespace Phased

theorem ofAdds (h : Adds V root m m') : Phased V root m m' := ⟨m', h, [], .refl m', nofun⟩

theorem ofDrops (h : Drops V root m m') : Phased V root m m' := ⟨m, ⟨[], .refl m, nofun⟩, h⟩

theorem refl (m : Machine α) : Phased V root m m := .ofDrops ⟨[], .refl m, nofun⟩

theorem after (h : Adds V root m m₁) : Phased V root m₁ m' → Phased V root m m'
  | ⟨m₂, ha, hd⟩ => ⟨m₂, h.trans ha, hd⟩

theorem then_drops (h : Drops V root m₁ m') : Phased V root m m₁ → Phased V root m m'
  | ⟨m₂, ha, hd⟩ => ⟨m₂, ha, hd.trans h⟩

end Phased

/-! ## Calls -/

theorem Owns.adds_writeLeaf (h : Owns used others root m) (hv : v ∈ V)
    (hf : (Entry.make p f).isPresent = true ∧ (Entry.make p f).isLeafAt leaf = true)
    (hrun : m.writeLeaf root p v leaf f = (.ok (), m')) : Adds V root m m' := by
  obtain ⟨xs, m₁, m₂, hx, hl, -, -, hput⟩ := h.synced_writeLeaf_ok hv hf hrun
  refine ⟨_, hx.append hput, fun x hx => ?_⟩
  rcases List.mem_append.1 hx with hx | hx
  · exact (hl x hx).adds
  · rw [List.mem_singleton.1 hx]
    rfl

theorem Owns.phased_writeLeaf (h : Owns used others root m)
    (hrun : m.writeLeaf root p v leaf f = (.error e, m')) : Phased V root m m' := by
  obtain ⟨xs, ys, m₁, hx, hl, hy, hu⟩ := h.synced_writeLeaf_error hrun
  exact ⟨m₁, ⟨xs, hx, fun x hx => (hl x hx).adds⟩, ys, hy, fun y hy => (hu y hy).adds⟩

theorem Owns.adds_mapPage (h : Owns used others root m) (hV : ∀ v, w.admitsPage v = true → v ∈ V)
    (hrun : m.mapPage w root p v a = (.ok (), m')) : Adds V root m m' := by
  obtain ⟨-, hv, hw⟩ := mapPage_eq_ok hrun
  exact h.adds_writeLeaf (hV v hv) (Entry.isLeafAt_make_asLeaf p _) hw

theorem Owns.phased_mapPage (h : Owns used others root m)
    (hrun : m.mapPage w root p v a = (.error e, m')) : Phased V root m m' := by
  rcases mapPage_eq_error hrun with rfl | hw
  · exact .refl m'
  · exact h.phased_writeLeaf hw

theorem Owns.phased_mapLarge (h : Owns used others root m)
    (hV : ∀ v, w.admitsPage v = true → v ∈ V) :
    Phased V root m (m.mapLarge w root p v a).2 := by
  rcases hrun : m.mapLarge w root p v a with ⟨_ | _, m'⟩
  · rcases mapLarge_eq_error hrun with rfl | hw
    · exact .refl m'
    · exact h.phased_writeLeaf hw
  · obtain ⟨-, hv, hw⟩ := mapLarge_eq_ok hrun
    exact .ofAdds (h.adds_writeLeaf (hV v hv) (Entry.isLeafAt_make_enlarged p _) hw)

/-- **Mapping pages until one fails** adds, until the page that fails drops what it has added. -/
theorem Owns.phased_mapPrefix (h : Owns used others root m)
    (hV : ∀ v, w.admitsPage v = true → v ∈ V)
    (hrun : m.mapPrefix w root s a left i = (n, o, m')) : Phased V root m m' := by
  induction left generalizing i m with
  | zero =>
    cases hrun
    exact .refl _
  | succ left ih =>
    rw [Machine.mapPrefix] at hrun
    split at hrun
    · rename_i m₁ hp
      exact (ih (h.mapPage_ok hp).1.owns hrun).after (h.adds_mapPage hV hp)
    · rename_i e m₁ hp
      cases hrun
      exact h.phased_mapPage hp

theorem Owns.drops_unmapPage (h : Owns used others root m) (hv : v ∈ V) :
    Drops V root m (m.unmapPage root v) := by
  obtain ⟨xs, ys, hx, hclear, hu⟩ := h.synced_unmapPage hv
  refine ⟨_, hx, fun x hx => ?_⟩
  rcases List.mem_append.1 hx with hx | hx
  · rcases hclear with rfl | ⟨q, i, rfl⟩
    · cases hx
    · rw [List.mem_singleton.1 hx]
      rfl
  · exact (hu x hx).adds

/-- **Unwinding only drops.** -/
theorem Owns.drops_unwind (h : Owns used others root m) (hv : ∀ i < n, v.addPages i ∈ V) :
    Drops V root m (m.unwind root v n) := by
  induction n with
  | zero => exact ⟨[], .refl m, nofun⟩
  | succ n ih =>
    rw [unwind_succ]
    have hn := (h.unwind v n).1.owns.drops_unmapPage (hv n (Nat.lt_succ_self n))
    exact (ih fun i hi => hv i (by omega)).trans hn

/-! ## What an edit leaves as it is -/

/-- **An edit that adds** keeps every table, and every leaf or another in its place. -/
theorem Owns.adds_step (h : Owns used others root m) (hx : Step root x m m')
    (ha : x.adds = true) : m.memory.Extends root m'.memory ∧
      ∀ p, m.memory.leaf root p ≠ none → m'.memory.leaf root p ≠ none := by
  have hx' := hx
  cases hx with
  | @link _ m₁ q i t c f parent above vacant request =>
    obtain ⟨-, -, ht, -⟩ := h.link parent above vacant request f
      (memory_write (m₁.zero c) t i (.make c f.asLink)) rfl
    refine ⟨fun p u hu => ?_, fun p hp => by rwa [h.leaf_step hx' rfl]⟩
    rw [ht, Function.update_of_ne, hu]
    rintro rfl
    rw [Memory.tableAt_eq_tableIn, tableIn, vacant] at hu
    cases hu
  | @put _ q i t e parent free leaf =>
    obtain ⟨-, hs, ht⟩ := h.put parent free (Entry.link?_of_isLeafAt leaf.2)
      (memory_write m t i e) rfl
    refine ⟨fun p u hu => by rwa [ht], fun p hp => ?_⟩
    rw [Entry.inUse?_of_isPresent leaf.1] at hs
    rw [Memory.leaf, hs, leafIn_update_of_leaf leaf.2]
    by_cases hpq : p = i :: q
    · rw [hpq, Function.update_self]
      exact Option.some_ne_none e
    · rwa [Function.update_of_ne hpq]
  | clear => cases ha
  | unlink => cases ha

/-- **An edit that drops** makes no table. -/
theorem Owns.drops_step (h : Owns used others root m) (hx : Step root x m m')
    (ha : x.adds = false) : m'.memory.Extends root m.memory := by
  cases hx with
  | link => cases ha
  | put => cases ha
  | clear parent leaf =>
    obtain ⟨-, -, ht⟩ := h.clear parent leaf
    exact fun p u hu => ht ▸ hu
  | unlink notices parent child empty =>
    obtain ⟨hm, hf⟩ := notices_eq notices (m.disable _ _)
    obtain ⟨-, -, ht, -⟩ := h.unlink parent child empty hm hf
    exact fun p u hu => ((Memory.tableAt_of_update ht hu).resolve_left nofun).2

end Machine

end VirtualMemory
