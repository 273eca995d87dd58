import VirtualMemory.Proofs.EntryBits
import VirtualMemory.Proofs.Source

/-!
# Who owns the frames

The frames that a source has given out are the tables of one hierarchy, apart from its root, and
frames in use elsewhere. Each step of a call keeps it so, and leaves the frames elsewhere alone.

* `Machine.Confined`: what a step may not touch, and that it gives back only frames that are out;
* **`Machine.Owns`**: the frames given out, split between a hierarchy and the rest;
* the three steps on a hierarchy: **`Owns.link`**, **`Owns.unlink`**, **`Owns.put`**;
* `Machine.WellFormed`: a hierarchy whose tables are owned (`WellFormed.owns`);
* `Machine.unmapped`: a machine to begin with (`owns_unmapped`);
* `Machine.Orderly`: what a whole call keeps.
-/

namespace VirtualMemory

namespace Machine

variable {α : Type} {m m' m'' : Machine α} {keep : Set PAddr} {t a : PAddr} {i : Index}

/-! ## Confined steps -/

/-- **A step that leaves the frames in `keep` and the settings of the machine alone**, and gives back
only frames that are given out. -/
structure Confined (keep : Set PAddr) (m m' : Machine α) : Prop where
  registers : m'.registers = m.registers
  cpuid : m'.cpuid = m.cpuid
  logLimit : m'.logLimit = m.logLimit
  table : ∀ a ∈ keep, m'.memory.table a = m.memory.table a
  released : ∃ es, m'.events = es ++ m.events ∧ ∀ frame held, .released frame held ∈ es → held = true

namespace Confined

theorem refl (m : Machine α) : Confined keep m m :=
  ⟨rfl, rfl, rfl, fun _ _ => rfl, [], rfl, by simp⟩

theorem trans (h : Confined keep m m') (h' : Confined keep m' m'') : Confined keep m m'' := by
  obtain ⟨es, he, hr⟩ := h.released
  obtain ⟨es', he', hr'⟩ := h'.released
  refine ⟨h'.registers.trans h.registers, h'.cpuid.trans h.cpuid, h'.logLimit.trans h.logLimit,
    fun a ha => (h'.table a ha).trans (h.table a ha), es' ++ es, ?_, fun f b hm => ?_⟩
  · rw [he', he, List.append_assoc]
  · rcases List.mem_append.1 hm with hm | hm
    · exact hr' f b hm
    · exact hr f b hm

theorem of_event {e : Event} {memory : Memory} {frames : α}
    (ht : ∀ a ∈ keep, memory.table a = m.memory.table a)
    (he : ∀ frame held, e = .released frame held → held = true) :
    Confined keep m ({ m with memory, frames }.record e) :=
  ⟨rfl, rfl, rfl, ht, [e], rfl, fun f b hm => he f b (List.mem_singleton.1 hm).symm⟩

theorem note (n : Notice) : Confined keep m (m.note n) := by
  unfold Machine.note
  split
  · exact of_event (fun _ _ => rfl) (by simp)
  · exact refl m

theorem flush (v : VAddr) : Confined keep m (m.flush v) := of_event (fun _ _ => rfl) (by simp)

theorem write (e : Entry) (ht : t ∉ keep) : Confined keep m (m.write t i e) :=
  of_event (fun _ ha => Memory.table_setTable_of_ne _ (ne_of_mem_of_not_mem ha ht).symm _) (by simp)

theorem zero (ht : t ∉ keep) : Confined keep m (m.zero t) :=
  of_event (fun _ ha => Memory.table_setTable_of_ne _ (ne_of_mem_of_not_mem ha ht).symm _) (by simp)

theorem disable (ht : t ∉ keep) : Confined keep m (m.disable t i) :=
  (of_event (e := .interruptsOff) (fun _ _ => rfl) (by simp)).trans
    ((write _ ht).trans (of_event (e := .interruptsOn) (fun _ _ => rfl) (by simp)))

variable [FrameSource α] {used : Set PAddr}

theorem release (hs : FrameSource.Honest used m.frames) (ht : m.Holds t) :
    Confined keep m (m.release t) := by
  have he := (holds_release hs ht).2.2
  refine ⟨rfl, rfl, rfl, fun _ _ => rfl, [.released t true], he, fun f b hm => ?_⟩
  cases List.mem_singleton.1 hm
  rfl

theorem allocate_some (hs : FrameSource.Honest used m.frames) (ha : m.allocate = (some t, m'))
    (ht : t ∉ keep) : Confined keep m m' := by
  obtain ⟨-, -, -, -, -, frames, contents, rfl⟩ := Machine.allocate_some hs ha
  exact of_event (fun _ ha => Memory.table_setTable_of_ne _ (ne_of_mem_of_not_mem ha ht).symm _) (by simp)

theorem allocate_none (hs : FrameSource.Honest used m.frames) (ha : m.allocate = (none, m')) :
    Confined keep m m' := by
  obtain ⟨-, -, frames, rfl⟩ := Machine.allocate_none hs ha
  exact of_event (fun _ _ => rfl) (by simp)

end Confined

/-! ## Ownership -/

variable [FrameSource α] {used others : Set PAddr} {root c u : PAddr} {p q : Path} {j : Index}
  {e : Entry}

/-- **The frames given out are the tables below the root, and the frames in `others`.** The frames
in `used` are no business of the source. -/
structure Owns (used others : Set PAddr) (root : PAddr) (m : Machine α) : Prop where
  honest : FrameSource.Honest used m.frames
  tree : m.memory.Tree root
  holds_iff : ∀ t, m.Holds t ↔ t ∈ others ∨ ∃ p, p ≠ [] ∧ m.memory.tableAt root p = some t
  apart : ∀ p t, p ≠ [] → m.memory.tableAt root p = some t → t ∉ others
  rooted : root ∈ others ∨ root ∈ used

/-- The frames in use outside the hierarchy. -/
def elsewhere (used others : Set PAddr) (root : PAddr) : Set PAddr :=
  fun a => (a ∈ others ∨ a ∈ used) ∧ a ≠ root

namespace Owns

variable (h : Owns used others root m)

include h

theorem holds (hp : p ≠ []) (ht : m.memory.tableAt root p = some t) : m.Holds t :=
  (h.holds_iff t).2 (.inr ⟨p, hp, ht⟩)

theorem notMem_elsewhere (ht : m.memory.tableAt root p = some t) :
    t ∉ elsewhere used others root := by
  rintro ⟨ho | hu, hne⟩
  · refine h.apart p t ?_ ht ho
    rintro rfl
    exact hne (Option.some.inj ht).symm
  · refine (h.holds ?_ ht).notMem h.honest hu
    rintro rfl
    exact hne (Option.some.inj ht).symm

/-- **A frame that is not out is no table and not in use elsewhere.** -/
theorem fresh (hc : ¬ m.Holds c) (hu : c ∉ used) :
    (∀ p, m.memory.tableAt root p ≠ some c) ∧ c ∉ elsewhere used others root := by
  have ho : c ∉ others := fun ho => hc ((h.holds_iff c).2 (.inl ho))
  constructor
  · intro p hp
    rcases eq_or_ne p [] with rfl | hne
    · cases hp
      exact h.rooted.elim ho hu
    · exact hc (h.holds hne hp)
  · rintro ⟨h' | h', -⟩
    · exact ho h'
    · exact hu h'

theorem congr (hm : m'.memory = m.memory) (hf : m'.frames = m.frames) :
    Owns used others root m' where
  honest := hf ▸ h.honest
  tree := hm ▸ h.tree
  holds_iff t := by rw [holds_congr hf, hm]; exact h.holds_iff t
  apart := hm ▸ h.apart
  rooted := h.rooted

theorem refused (ha : m.allocate = (none, m')) :
    Owns used others root m' ∧ m'.memory = m.memory ∧ Confined keep m m' := by
  have hk : Confined keep m m' := .allocate_none h.honest ha
  obtain ⟨hh, hs, frames, rfl⟩ := allocate_none h.honest ha
  refine ⟨⟨hs, h.tree, fun t => ?_, h.apart, h.rooted⟩, rfl, hk⟩
  rw [hh]
  exact h.holds_iff t

/-- **A leaf is written or taken out of use**: the tables stay as they are. -/
theorem put (hq : m.memory.tableAt root q = some t) (hi : m.memory.tableAt root (i :: q) = none)
    (he : e.link? (Path.level q) = none) (hm : m'.memory = m.memory.set t i e)
    (hf : m'.frames = m.frames) :
    Owns used others root m' ∧
      m'.memory.slot root = Function.update (m.memory.slot root) (i :: q) e.inUse? ∧
      m'.memory.tableAt root = m.memory.tableAt root := by
  have same : ∀ p u j, m.memory.tableAt root p = some u → ¬ (u = t ∧ j = i) →
      m'.memory.entry u j = m.memory.entry u j := fun p u j _ hne => by
    rw [hm, Memory.entry_set_of_ne _ _ hne]
  have hq' := Memory.tableAt_of_write h.tree hq same
  have hti : m'.memory.entry t i = e := by rw [hm, Memory.entry_set_self]
  have hi' : m'.memory.tableAt root (i :: q) = none := by
    rw [Memory.tableAt_cons hq', hti, he]
  have hs : m'.memory.slot root = Function.update (m.memory.slot root) (i :: q) e.inUse? := by
    have := Memory.slot_eq_update h.tree hq same (Memory.slot_cons_of_tableAt_eq_none hi)
      (Memory.slot_cons_of_tableAt_eq_none hi')
    rwa [hti] at this
  have ht : m'.memory.tableAt root = m.memory.tableAt root := by
    have hl : e.inUse?.bind (Entry.link? (Path.level q)) = none := by
      rw [← Entry.link?_eq_bind, he]
    rw [Memory.tableAt_of_slot_update hs, hl, ← hi, Function.update_eq_self]
  refine ⟨⟨hf ▸ h.honest, ?_, fun u => ?_, ?_, h.rooted⟩, hs, ht⟩
  · exact h.tree.of_le fun p t hp => by rwa [ht] at hp
  · rw [holds_congr hf, h.holds_iff, ht]
  · rw [ht]; exact h.apart

/-- **One more table and one more frame given out.** -/
theorem insert (hs : FrameSource.Honest used m'.frames)
    (hh : ∀ u, m'.Holds u ↔ u = c ∨ m.Holds u) (hn : ¬ m.Holds c)
    (hfresh : ∀ p, m.memory.tableAt root p ≠ some c) (hq : q ≠ [])
    (hnone : m.memory.tableAt root q = none)
    (ht : m'.memory.tableAt root = Function.update (m.memory.tableAt root) q (some c)) :
    Owns used others root m' where
  honest := hs
  tree := h.tree.of_update hfresh ht
  holds_iff u := by
    rw [hh, h.holds_iff]
    constructor
    · rintro (rfl | ho | ⟨p, hp, hu⟩)
      · exact .inr ⟨q, hq, by rw [ht, Function.update_self]⟩
      · exact .inl ho
      · refine .inr ⟨p, hp, ?_⟩
        rw [ht, Function.update_of_ne, hu]
        rintro rfl
        rw [hnone] at hu
        cases hu
    · rintro (ho | ⟨p, hp, hu⟩)
      · exact .inr (.inl ho)
      · rcases Memory.tableAt_of_update ht hu with ⟨-, hcu⟩ | ⟨-, hu⟩
        · exact .inl (Option.some.inj hcu).symm
        · exact .inr (.inr ⟨p, hp, hu⟩)
  apart p u hp hu := by
    rcases Memory.tableAt_of_update ht hu with ⟨-, hcu⟩ | ⟨-, hu⟩
    · cases hcu
      exact fun ho => hn ((h.holds_iff c).2 (.inl ho))
    · exact h.apart p u hp hu
  rooted := h.rooted

/-- **One table less, and its frame given back.** -/
theorem erase (hs : FrameSource.Honest used m'.frames)
    (hh : ∀ u, m'.Holds u ↔ m.Holds u ∧ u ≠ c) (hq : q ≠ [])
    (hc : m.memory.tableAt root q = some c)
    (ht : m'.memory.tableAt root = Function.update (m.memory.tableAt root) q none) :
    Owns used others root m' := by
  have hle : ∀ p u, m'.memory.tableAt root p = some u →
      p ≠ q ∧ m.memory.tableAt root p = some u := fun p u hu =>
    (Memory.tableAt_of_update ht hu).resolve_left nofun
  refine ⟨hs, h.tree.of_le fun p u hu => (hle p u hu).2, fun u => ?_,
    fun p u hp hu => h.apart p u hp (hle p u hu).2, h.rooted⟩
  rw [hh, h.holds_iff]
  constructor
  · rintro ⟨ho | ⟨p, hp, hu⟩, hne⟩
    · exact .inl ho
    · refine .inr ⟨p, hp, ?_⟩
      rw [ht, Function.update_of_ne, hu]
      rintro rfl
      rw [hc] at hu
      exact hne (Option.some.inj hu).symm
  · rintro (ho | ⟨p, hp, hu⟩)
    · exact ⟨.inl ho, fun e => h.apart q c hq hc (e ▸ ho)⟩
    · obtain ⟨hne, hu⟩ := hle p u hu
      exact ⟨.inr ⟨p, hp, hu⟩, fun e => hne (h.tree p q u hu (e ▸ hc))⟩

/-- **A new table is linked**: it is empty, and nothing else changes. -/
theorem link (hq : m.memory.tableAt root q = some t)
    (hl : Path.level q ≠ .pt) (hi : m.memory.slot root (i :: q) = none) {m₁ : Machine α}
    (ha : m.allocate = (some c, m₁)) (f : EntryFlags)
    (hm : m'.memory = (m₁.memory.setTable c .empty).set t i (.make c f.asLink))
    (hf : m'.frames = m₁.frames) :
    Owns used others root m' ∧
      m'.memory.slot root =
        Function.update (m.memory.slot root) (i :: q) (some (.make c f.asLink)) ∧
      m'.memory.tableAt root = Function.update (m.memory.tableAt root) (i :: q) (some c) ∧
      c ∉ elsewhere used others root := by
  obtain ⟨hn, hal, hb, hh, hs₁, frames, contents, rfl⟩ := allocate_some h.honest ha
  have hc : Address.Nameable c := ⟨hal, hb⟩
  obtain ⟨hfresh, helse⟩ := h.fresh hn (((hh c).2 (.inl rfl)).notMem hs₁)
  have hct : c ≠ t := fun e => hfresh q (e ▸ hq)
  -- the frame may hold anything when it is granted, but it is zeroed before it is linked
  have hent : ∀ u j, m'.memory.entry u j = if t = u ∧ i = j then .make c f.asLink
      else if c = u then .empty else m.memory.entry u j := fun u j => by
    rw [hm, Memory.entry_set, Memory.entry_setTable, Table.get_empty, memory_record,
      Memory.entry_setTable]
    split
    · rfl
    · split <;> rfl
  have same : ∀ p u j, m.memory.tableAt root p = some u → ¬ (u = t ∧ j = i) →
      m'.memory.entry u j = m.memory.entry u j := fun p u j hu hne => by
    rw [hent, if_neg fun h => hne ⟨h.1.symm, h.2.symm⟩,
      if_neg (fun hcu : c = u => hfresh p (hcu ▸ hu))]
  have hti : m'.memory.entry t i = .make c f.asLink := by rw [hent, if_pos ⟨rfl, rfl⟩]
  have hi' : m'.memory.tableAt root (i :: q) = some c := by
    rw [Memory.tableAt_cons (Memory.tableAt_of_write h.tree hq same), hti,
      Entry.link?_make_asLink hc f hl]
  have below' : ∀ j, m'.memory.slot root (j :: i :: q) = none := fun j => by
    rw [Memory.slot_cons hi', hent, if_neg fun h => hct h.1.symm, if_pos rfl]; rfl
  have hs := Memory.slot_eq_update h.tree hq same (Memory.slot_cons_of_slot_eq_none hi) below'
  rw [hti, Entry.inUse?_of_isPresent (Entry.isPresent_make_asLink c f)] at hs
  have ht := Memory.tableAt_of_slot_update hs
  rw [Option.bind_some, Entry.link?_make_asLink hc f hl] at ht
  have hnone : m.memory.tableAt root (i :: q) = none := by
    rw [Memory.tableAt_eq_tableIn, tableIn, hi]; rfl
  exact ⟨h.insert (hf ▸ hs₁) (fun u => by rw [holds_congr hf, hh]) hn hfresh
    (List.cons_ne_nil i q) hnone ht, hs, ht, helse⟩

/-- **An empty table is unlinked and given back**: its path leads nowhere any more. -/
theorem unlink (hq : m.memory.tableAt root q = some t)
    (hc : m.memory.tableAt root (i :: q) = some c)
    (hb : ∀ j, m.memory.slot root (j :: i :: q) = none)
    (hm : m'.memory = m.memory.set t i (m.memory.entry t i).disabled)
    (hf : m'.frames = m.frames) :
    Owns used others root (m'.release c) ∧
      (m'.release c).memory.slot root = Function.update (m.memory.slot root) (i :: q) none ∧
      (m'.release c).memory.tableAt root =
        Function.update (m.memory.tableAt root) (i :: q) none ∧
      Confined (elsewhere used others root) m' (m'.release c) := by
  have hd : (m.memory.entry t i).disabled.inUse? = none :=
    Entry.inUse?_of_not_isPresent (Entry.isPresent_disabled _)
  have same : ∀ p u j, m.memory.tableAt root p = some u → ¬ (u = t ∧ j = i) →
      m'.memory.entry u j = m.memory.entry u j := fun p u j _ hne => by
    rw [hm, Memory.entry_set_of_ne _ _ hne]
  have hti : m'.memory.entry t i = (m.memory.entry t i).disabled := by
    rw [hm, Memory.entry_set_self]
  have hi' : m'.memory.tableAt root (i :: q) = none := by
    rw [Memory.tableAt_cons (Memory.tableAt_of_write h.tree hq same), hti, Entry.link?_eq_bind, hd]
    rfl
  have hs := Memory.slot_eq_update h.tree hq same hb (Memory.slot_cons_of_tableAt_eq_none hi')
  rw [hti, hd] at hs
  have ht := Memory.tableAt_of_slot_update hs
  rw [Option.bind_none] at ht
  have hold : m'.Holds c := (holds_congr hf).2 (h.holds (List.cons_ne_nil _ _) hc)
  have hs' : FrameSource.Honest used m'.frames := hf ▸ h.honest
  obtain ⟨hh, hr, -⟩ := holds_release hs' hold
  exact ⟨h.erase hr (fun u => by rw [hh, holds_congr hf]) (List.cons_ne_nil i q) hc ht, hs, ht,
    .release hs' hold⟩

end Owns

/-! ## Well-formed hierarchies -/

/-- **A hierarchy as calls may find it**: its tables form a tree, and those below the root are given
out. Other frames may be given out too. -/
structure WellFormed (used : Set PAddr) (root : PAddr) (m : Machine α) : Prop where
  honest : FrameSource.Honest used m.frames
  tree : m.memory.Tree root
  held : ∀ p t, p ≠ [] → m.memory.tableAt root p = some t → m.Holds t
  rooted : m.Holds root ∨ root ∈ used

/-- The frames given out that are no tables below the root. -/
def strangers (root : PAddr) (m : Machine α) : Set PAddr :=
  fun t => m.Holds t ∧ ∀ p, p ≠ [] → m.memory.tableAt root p ≠ some t

theorem WellFormed.owns (h : WellFormed used root m) :
    Owns used (strangers root m) root m where
  honest := h.honest
  tree := h.tree
  holds_iff t := by
    constructor
    · intro ht
      by_cases hp : ∃ p, p ≠ [] ∧ m.memory.tableAt root p = some t
      · exact .inr hp
      · exact .inl ⟨ht, fun p hne he => hp ⟨p, hne, he⟩⟩
    · rintro (ht | ⟨p, hp, ht⟩)
      · exact ht.1
      · exact h.held p t hp ht
  apart p t hp ht hs := hs.2 p hp ht
  rooted := h.rooted.imp_left fun hr =>
    ⟨hr, fun p hp he => hp (h.tree p [] root he Memory.tableAt_nil)⟩

theorem Owns.wellFormed (h : Owns used others root m) : WellFormed used root m where
  honest := h.honest
  tree := h.tree
  held _ _ := h.holds
  rooted := h.rooted.imp_left fun hr => (h.holds_iff root).2 (.inl hr)

/-! ## The machine to begin with -/

/-- **Below an empty root there is nothing to own**, if no frame is out. -/
theorem owns_of_vacant (hs : FrameSource.Honest used m.frames) (hr : root ∈ used)
    (hv : ∀ i, (m.entry root i).isPresent = false) (hn : ∀ t, ¬ m.Holds t) :
    Owns used ∅ root m := by
  have hnil : ∀ p t, m.memory.tableAt root p = some t → p = [] := by
    intro p t ht
    by_contra hp
    rw [Memory.tableAt_eq_none_of_vacant hv hp] at ht
    cases ht
  refine ⟨hs, fun p q t hp hq => by rw [hnil p t hp, hnil q t hq], fun t => ?_,
    fun p t hp ht => absurd (hnil p t ht) hp, .inr hr⟩
  refine ⟨fun ht => absurd ht (hn t), ?_⟩
  rintro (ht | ⟨p, hp, ht⟩)
  · cases ht
  · exact absurd (hnil p t ht) hp

/-- **A machine on which nothing is mapped**: its memory is blank, and its root is the first of
`size` frames from `base` on. -/
def unmapped (base : PAddr) (size : Nat) : Machine FramePool where
  memory := .blank
  frames := { base, size, pinned := 1 }
  registers := ⟨∅, base, ∅, ∅⟩
  cpuid := fun _ _ => {}
  logLimit := .fatal

theorem vacant_unmapped (base : PAddr) (size : Nat) (i : Index) :
    ((unmapped base size).entry base i).isPresent = false :=
  congrArg Entry.isPresent (Table.get_empty i)

theorem owns_unmapped {base : PAddr} {size : Nat} (ha : base.isAligned 4096 = true)
    (hs : 1 ≤ size) (hf : base.bits.toNat + size * 4096 ≤ 2 ^ 52) :
    Owns (FramePool.pinnedSet base 1) ∅ base (unmapped base size) := by
  have hsound : FramePool.Sound base size 1 (unmapped base size).frames :=
    ⟨rfl, rfl, ha, hf, Nat.le_refl _, hs, nofun, .nil⟩
  refine owns_of_vacant (FramePool.honest hsound) ⟨0, Nat.one_pos, base.addPages_zero.symm⟩
    (vacant_unmapped base size) ?_
  rintro t ⟨f, hf, -⟩
  cases hf

theorem leaf_unmapped {base : PAddr} {size : Nat} (p : Path) :
    (unmapped base size).memory.leaf base p = none := by
  refine leafIn_eq_none_of_slot ?_
  cases p with
  | nil => rfl
  | cons i p => exact Option.bind_eq_none_iff.2 fun t _ => congrArg Entry.inUse? (Table.get_empty i)

/-! ## Orderly steps -/

/-- **A step that keeps a hierarchy in order**: its frames stay owned, frames elsewhere stay as they
are, and no table is left bare that was not. -/
structure Orderly (used others : Set PAddr) (root : PAddr) (m m' : Machine α) : Prop where
  owns : Owns used others root m'
  confined : Confined (elsewhere used others root) m m'
  bare : ∀ p, Bare root (m'.memory.slot root) p → Bare root (m.memory.slot root) p

namespace Orderly

theorem refl (h : Owns used others root m) : Orderly used others root m m :=
  ⟨h, .refl m, fun _ hp => hp⟩

theorem trans (h : Orderly used others root m m') (h' : Orderly used others root m' m'') :
    Orderly used others root m m'' :=
  ⟨h'.owns, h.confined.trans h'.confined, fun p hp => h.bare p (h'.bare p hp)⟩

end Orderly

end Machine

end VirtualMemory
