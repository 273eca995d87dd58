import VirtualMemory.FramePool
import VirtualMemory.Machine
import Mathlib.Algebra.Group.Nat.Defs
import Mathlib.Data.Set.Defs

/-!
# The contract of a frame source

A source gives out frames below `2 ^ 52` that nobody uses: neither frames it has given out already
nor those in use elsewhere. Frames given back are its own again. It may refuse at any time.

* `FrameSource.Keeps`, **`FrameSource.Honest`**: the contract, now and for all that follows;
* `Machine.Holds`: the frames given out, and what asking and giving back do to them
  (`allocate_some`, `allocate_none`, `holds_release`);
* **`FramePool.honest`**: a pool of frames honours the contract.
-/

namespace VirtualMemory

/-! ## The contract -/

namespace FrameSource

variable {α : Type} [FrameSource α] {used : Set PAddr} {s s' : α} {f g : Frame .kib4}

/-- What a source in the state `s` owes, if the property `I` is to last: the frames in `used` are in
use elsewhere. -/
structure Keeps (used : Set PAddr) (I : α → Prop) (s : α) : Prop where
  apart : ∀ f ∈ held s, f.start ∉ used
  grant : ∀ f contents s', allocate s = (some (f, contents), s') →
    f ∉ held s ∧ f.start.bits.toNat < 2 ^ 52 ∧ (∀ g, g ∈ held s' ↔ g = f ∨ g ∈ held s) ∧ I s'
  refuse : ∀ s', allocate s = (none, s') → (∀ g, g ∈ held s' ↔ g ∈ held s) ∧ I s'
  takeBack : ∀ f ∈ held s, (∀ g, g ∈ held (release f s) ↔ g ∈ held s ∧ g ≠ f) ∧ I (release f s)

/-- **A source that honours its contract** from the state `s` on, whatever is asked of it. -/
def Honest (used : Set PAddr) (s : α) : Prop :=
  ∃ I : α → Prop, I s ∧ ∀ s, I s → Keeps used I s

theorem Honest.apart (h : Honest used s) (hf : f ∈ held s) : f.start ∉ used := by
  obtain ⟨I, hI, hk⟩ := h
  exact (hk s hI).apart f hf

theorem Honest.grant (h : Honest used s) {contents : Table}
    (ha : allocate s = (some (f, contents), s')) :
    f ∉ held s ∧ f.start.bits.toNat < 2 ^ 52 ∧ (∀ g, g ∈ held s' ↔ g = f ∨ g ∈ held s) ∧
      Honest used s' := by
  obtain ⟨I, hI, hk⟩ := h
  obtain ⟨h₁, h₂, h₃, hI'⟩ := (hk s hI).grant f contents s' ha
  exact ⟨h₁, h₂, h₃, I, hI', hk⟩

theorem Honest.refuse (h : Honest used s) (ha : allocate s = (none, s')) :
    (∀ g, g ∈ held s' ↔ g ∈ held s) ∧ Honest used s' := by
  obtain ⟨I, hI, hk⟩ := h
  obtain ⟨h₁, hI'⟩ := (hk s hI).refuse s' ha
  exact ⟨h₁, I, hI', hk⟩

theorem Honest.takeBack (h : Honest used s) (hf : f ∈ held s) :
    (∀ g, g ∈ held (release f s) ↔ g ∈ held s ∧ g ≠ f) ∧ Honest used (release f s) := by
  obtain ⟨I, hI, hk⟩ := h
  obtain ⟨h₁, hI'⟩ := (hk s hI).takeBack f hf
  exact ⟨h₁, I, hI', hk⟩

end FrameSource

/-! ## Frames given out to a machine -/

namespace Machine

open FrameSource

variable {α : Type} [FrameSource α] {used : Set PAddr} {m m' : Machine α} {c t u : PAddr}

/-- **The frame at `t` is given out.** -/
def Holds (m : Machine α) (t : PAddr) : Prop := ∃ f ∈ m.held, f.start = t

theorem holds_congr (h : m'.frames = m.frames) : m'.Holds t ↔ m.Holds t := by
  simp only [Holds, held, h]

/-- **What a granted frame changes.** It was not given out before and may hold anything. -/
theorem allocate_some (hs : Honest used m.frames) (ha : m.allocate = (some c, m')) :
    ¬ m.Holds c ∧ c.isAligned 4096 = true ∧ c.bits.toNat < 2 ^ 52 ∧
      (∀ t, m'.Holds t ↔ t = c ∨ m.Holds t) ∧ Honest used m'.frames ∧
      ∃ frames contents, m' = { m with
        frames, memory := m.memory.setTable c contents }.record (.granted c contents) := by
  unfold allocate at ha
  split at ha
  · cases ha
  · rename_i f contents frames hf
    cases ha
    obtain ⟨hn, hb, hg, hs'⟩ := hs.grant hf
    refine ⟨?_, f.aligned, hb, fun t => ?_, hs', frames, contents, rfl⟩
    · rintro ⟨g, hg, he⟩
      exact hn (Block.ext he ▸ hg)
    · change (∃ g ∈ FrameSource.held frames, g.start = t) ↔ _
      constructor
      · rintro ⟨g, hm, rfl⟩
        rcases (hg g).1 hm with rfl | hm
        · exact .inl rfl
        · exact .inr ⟨g, hm, rfl⟩
      · rintro (rfl | ⟨g, hm, rfl⟩)
        · exact ⟨f, (hg f).2 (.inl rfl), rfl⟩
        · exact ⟨g, (hg g).2 (.inr hm), rfl⟩

/-- The entries after a table was made. What its frame was granted with is gone, since it is
zeroed. -/
theorem entry_of_made {i : Index} {e : Entry} (hs : Honest used m.frames)
    (ha : m.allocate = (some c, m')) (u : PAddr) (j : Index) :
    ((m'.zero c).write t i e).entry u j =
      if t = u ∧ i = j then e else if c = u then .empty else m.entry u j := by
  obtain ⟨-, -, -, -, -, frames, contents, rfl⟩ := allocate_some hs ha
  simp only [entry, memory_write, memory_zero, memory_record, Memory.entry_set,
    Memory.entry_setTable, Table.get_empty]
  split
  · rfl
  · split <;> rfl

theorem allocate_none (hs : Honest used m.frames) (ha : m.allocate = (none, m')) :
    (∀ t, m'.Holds t ↔ m.Holds t) ∧ Honest used m'.frames ∧
      ∃ frames, m' = { m with frames }.record .refused := by
  unfold allocate at ha
  split at ha
  · rename_i frames hf
    cases ha
    obtain ⟨hg, hs'⟩ := hs.refuse hf
    refine ⟨fun t => ?_, hs', frames, rfl⟩
    change (∃ g ∈ FrameSource.held frames, g.start = t) ↔ _
    simp only [hg]; rfl
  · cases ha

/-- **What giving a frame back changes.** -/
theorem holds_release (hs : Honest used m.frames) (ht : m.Holds t) :
    (∀ u, (m.release t).Holds u ↔ m.Holds u ∧ u ≠ t) ∧ Honest used (m.release t).frames ∧
      (m.release t).events = .released t true :: m.events := by
  obtain ⟨f, hf, rfl⟩ := ht
  have hc : Block.containing f.start = f := f.containing_start
  obtain ⟨hg, hs'⟩ := hs.takeBack hf
  rw [frames_release, hc]
  refine ⟨fun u => ?_, hs', ?_⟩
  · change (∃ g ∈ FrameSource.held (FrameSource.release (Block.containing f.start) m.frames), _) ↔ _
    rw [hc]
    constructor
    · rintro ⟨g, hm, rfl⟩
      obtain ⟨hm, hne⟩ := (hg g).1 hm
      exact ⟨⟨g, hm, rfl⟩, fun he => hne (Block.ext he)⟩
    · rintro ⟨⟨g, hm, rfl⟩, hne⟩
      exact ⟨g, (hg g).2 ⟨hm, fun he => hne (he ▸ rfl)⟩, rfl⟩
  · have hm : m.held.contains f = true := List.contains_iff_mem.2 hf
    change Event.released (Block.containing f.start).start
      (m.held.contains (Block.containing f.start)) :: m.events = _
    rw [hc, hm]

theorem history_release (hs : Honest used m.frames) (ht : m.Holds t) :
    (m.release t).history = m.history ++ [.released t true] := by
  rw [history, (holds_release hs ht).2.2, List.reverse_cons, history]

theorem Holds.notMem (h : m.Holds t) (hs : Honest used m.frames) : t ∉ used := by
  obtain ⟨f, hf, rfl⟩ := h
  exact hs.apart hf

end Machine

/-! ## Pools -/

namespace FramePool

variable {pool : FramePool} {base : PAddr} {size pinned i j : Nat} {f : Frame .kib4}

def pinnedSet (base : PAddr) (pinned : Nat) : Set PAddr := fun a => ∃ i < pinned, a = base.addPages i

/-- **A pool in order**: its frames lie below `2 ^ 52`, and each frame that is out or was given back
is there once, a frame of the pool that is not pinned. -/
structure Sound (base : PAddr) (size pinned : Nat) (pool : FramePool) : Prop where
  base_eq : pool.base = base
  size_eq : pool.size = size
  aligned : base.isAligned 4096 = true
  fits : base.bits.toNat + size * 4096 ≤ 2 ^ 52
  pinned_le : pinned ≤ pool.used
  used_le : pool.used ≤ size
  known : ∀ f ∈ pool.held ++ pool.returned, ∃ i, pinned ≤ i ∧ i < pool.used ∧ f = pool.frame i
  nodup : (pool.held ++ pool.returned).Nodup

namespace Sound

theorem start_frame (h : Sound base size pinned pool) (hi : i < size) :
    (pool.frame i).start = base.addPages i := by
  have hb := h.fits
  have ha := h.aligned
  rw [frame, h.base_eq]
  refine Address.alignDown_of_isAligned ?_
  rw [Address.isAligned_iff] at ha ⊢
  rw [Address.toNat_addPages (by omega)]
  simp only [PageSize.toNat_bytes, PageSize.shift, BitVec.reduceToNat, Nat.reduceShiftLeft] at ha ⊢
  omega

theorem toNat_frame (h : Sound base size pinned pool) (hi : i < size) :
    (pool.frame i).start.bits.toNat = base.bits.toNat + i * 4096 := by
  have hb := h.fits
  rw [h.start_frame hi, Address.toNat_addPages (by omega)]

theorem toNat_frame_lt (h : Sound base size pinned pool) (hi : i < size) :
    (pool.frame i).start.bits.toNat < 2 ^ 52 := by
  have hb := h.fits
  rw [h.toNat_frame hi]
  omega

theorem frame_inj (h : Sound base size pinned pool) (hi : i < size) (hj : j < size)
    (he : (pool.frame i).start = (pool.frame j).start) : i = j := by
  have h₁ := h.toNat_frame hi
  have h₂ := h.toNat_frame hj
  rw [he] at h₁
  omega

theorem frame_used_notMem (h : Sound base size pinned pool) (hu : pool.used < size) :
    pool.frame pool.used ∉ pool.held ++ pool.returned := by
  intro hm
  obtain ⟨i, -, hi, he⟩ := h.known _ hm
  have := h.frame_inj hu (by omega) (congrArg Block.start he)
  omega

theorem notMem_pinnedSet (h : Sound base size pinned pool) (hf : f ∈ pool.held) :
    f.start ∉ pinnedSet base pinned := by
  obtain ⟨i, hi, hu, rfl⟩ := h.known f (List.mem_append_left _ hf)
  have hb := h.fits
  have hs := h.used_le
  rintro ⟨j, hj, he⟩
  have he := congrArg (·.bits.toNat) he
  simp only [h.toNat_frame (Nat.lt_of_lt_of_le hu hs),
    Address.toNat_addPages (a := base) (i := j) (by omega)] at he
  omega

theorem give (h : Sound base size pinned pool) (hi : pinned ≤ i) (hu : i < pool.used)
    (hn : pool.frame i ∉ pool.held ++ pool.returned) :
    Sound base size pinned (pool.give (pool.frame i)).2 where
  base_eq := h.base_eq
  size_eq := h.size_eq
  aligned := h.aligned
  fits := h.fits
  pinned_le := h.pinned_le
  used_le := h.used_le
  known g hg := by
    rcases List.mem_cons.1 hg with rfl | hg
    · exact ⟨i, hi, hu, rfl⟩
    · exact h.known g hg
  nodup := List.nodup_cons.2 ⟨hn, h.nodup⟩

theorem allocate_some {contents : Table} {pool' : FramePool} (h : Sound base size pinned pool)
    (ha : pool.allocate = (some (f, contents), pool')) :
    f ∉ pool.held ∧ f.start.bits.toNat < 2 ^ 52 ∧
      (∀ g, g ∈ pool'.held ↔ g = f ∨ g ∈ pool.held) ∧ Sound base size pinned pool' := by
  have hp := h.pinned_le
  have hs := h.used_le
  unfold allocate at ha
  split at ha
  · cases ha
  split at ha
  · rename_i f rest hr
    cases ha
    -- the frame given back last goes out again
    have hd := h.nodup
    rw [hr, List.perm_middle.nodup_iff, List.nodup_cons] at hd
    obtain ⟨i, hi, hu, rfl⟩ := h.known f (by simp [hr])
    have h' : Sound base size pinned { pool with returned := rest } :=
      { h with
        known := fun g hg => h.known g (by
          rw [hr]
          exact ((List.sublist_cons_self _ rest).append_left pool.held).subset hg)
        nodup := hd.2 }
    exact ⟨fun hm => hd.1 (List.mem_append_left _ hm), h.toNat_frame_lt (by omega),
      fun g => List.mem_cons, h'.give hi hu hd.1⟩
  · split at ha
    · rename_i hlt
      cases ha
      -- a frame goes out for the first time
      rw [h.size_eq] at hlt
      have hn := h.frame_used_notMem hlt
      have h' : Sound base size pinned { pool with used := pool.used + 1 } :=
        { h with
          pinned_le := Nat.le_succ_of_le hp
          used_le := hlt
          known := fun g hg =>
            (h.known g hg).imp fun i hi => ⟨hi.1, Nat.lt_succ_of_lt hi.2.1, hi.2.2⟩ }
      exact ⟨fun hm => hn (List.mem_append_left _ hm), h.toNat_frame_lt hlt,
        fun g => List.mem_cons, h'.give hp (Nat.lt_succ_self _) hn⟩
    · cases ha

theorem allocate_none {pool' : FramePool} (ha : pool.allocate = (none, pool')) : pool' = pool := by
  unfold allocate at ha
  split at ha
  · cases ha; rfl
  split at ha
  · cases ha
  · split at ha <;> cases ha
    rfl

theorem release (h : Sound base size pinned pool) (hf : f ∈ pool.held) :
    (∀ g, g ∈ (pool.release f).held ↔ g ∈ pool.held ∧ g ≠ f) ∧
      Sound base size pinned (pool.release f) := by
  have hr : pool.release f =
      { pool with held := pool.held.erase f, returned := f :: pool.returned } :=
    if_pos (List.contains_iff_mem.2 hf)
  have hperm : (pool.held.erase f ++ f :: pool.returned).Perm (pool.held ++ pool.returned) :=
    List.perm_middle.trans (((List.perm_cons_erase hf).symm).append_right _)
  rw [hr]
  refine ⟨fun g => ((List.nodup_append.1 h.nodup).1.mem_erase_iff).trans and_comm, ?_⟩
  exact { h with
    known := fun g hg => h.known g (hperm.mem_iff.1 hg)
    nodup := hperm.nodup_iff.2 h.nodup }

end Sound

/-- **A pool in order honours the contract**; its pinned frames are in use elsewhere. -/
theorem honest (h : Sound base size pinned pool) :
    FrameSource.Honest (pinnedSet base pinned) pool :=
  ⟨Sound base size pinned, h, fun _ h =>
    { apart := fun _ => h.notMem_pinnedSet
      grant := fun _ _ _ => h.allocate_some
      refuse := fun _ ha => by cases Sound.allocate_none ha; exact ⟨fun _ => Iff.rfl, h⟩
      takeBack := fun _ => h.release }⟩

end FramePool

end VirtualMemory
