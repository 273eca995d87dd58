import VirtualMemory.Mapping.Remove
import VirtualMemory.Proofs.Ownership
import VirtualMemory.Proofs.Walk

/-!
# What removing a page does

Removal goes down the trail of its address and takes entries out of use on the way back, so nothing
changes off the trail, and no leaf is left on it.

* `Cleared`: what becomes of the entries in use, from a depth of the trail on;
* **`Owns.removeFrom_induction`**, along the way back up, and with it `Owns.removeFrom`,
  `Owns.not_bare_removeFrom`;
* **`Owns.unmapPage`**, with its consequences for tables (`Cleared.tableIn`) and leaves
  (`Cleared.leafIn_eq`, `Cleared.leafIn_eq_update`).
-/

namespace VirtualMemory

/-- **The entries in use after a trail was cleared** below depth `d`: entries on it may be gone, the
others are as before, and no leaf is on it. -/
structure Cleared (v : VAddr) (d : Nat) (s s' : Path → Option Entry) : Prop where
  slot : ∀ p, s' p = s p ∨ s' p = none ∧ ∃ k, d < k ∧ p = v.trail k
  leaf : ∀ k, d < k → leafIn s' (v.trail k) = none

namespace Cleared

variable {root t : PAddr} {v v' : VAddr} {d k : Nat} {s s' : Path → Option Entry} {p : Path}

theorem slot_trail (h : Cleared v d s s') (hk : k ≤ d) : s' (v.trail k) = s (v.trail k) := by
  rcases h.slot (v.trail k) with he | ⟨-, k', hk', he⟩
  · exact he
  · exact absurd he (Address.trail_ne_trail (by omega))

theorem slot_of_some {e : Entry} (h : Cleared v d s s') (he : s' p = some e) : s p = some e := by
  rcases h.slot p with hs | ⟨hs, -⟩
  · rw [← hs, he]
  · rw [hs] at he; cases he

theorem tableIn (h : Cleared v d s s') (ht : tableIn root s' p = some t) :
    tableIn root s p = some t := by
  cases p with
  | nil => exact ht
  | cons i p =>
    rcases h.slot (i :: p) with he | ⟨he, -⟩
    · rwa [VirtualMemory.tableIn, he] at ht
    · rw [VirtualMemory.tableIn, he] at ht; cases ht

theorem leafIn_eq (h : Cleared v 0 s s') (hp : ∀ k, p ≠ v.trail k) : leafIn s' p = leafIn s p := by
  cases p with
  | nil => rfl
  | cons i p =>
    rcases h.slot (i :: p) with he | ⟨-, k, -, he⟩
    · rw [leafIn, leafIn, he]
    · exact absurd he (hp k)

theorem leafIn_eq_update (h : Cleared v 0 s s')
    (hs : ∀ j, j ≠ k → leafIn s (v.trail j) = none) :
    leafIn s' = Function.update (leafIn s) (v.trail k) none := by
  funext p
  by_cases hp : ∃ j, p = v.trail j
  · obtain ⟨j, rfl⟩ := hp
    have hn : leafIn s' (v.trail j) = none := by
      rcases Nat.eq_zero_or_pos j with rfl | hj
      · rfl
      · exact h.leaf j hj
    by_cases hj : j = k
    · subst hj; rw [hn, Function.update_self]
    · rw [hn, Function.update_of_ne (Address.trail_ne_trail hj), hs j hj]
  · have hne : ∀ j, p ≠ v.trail j := fun j hj => hp ⟨j, hj⟩
    rw [h.leafIn_eq hne, Function.update_of_ne (hne k)]

end Cleared

namespace Memory

variable {mem : Memory} {root : PAddr} {p : Path} {v : VAddr} {d k : Nat}

theorem tableAt_trail_eq_none (h : mem.tableAt root (v.trail d) = none) (hk : d ≤ k) :
    mem.tableAt root (v.trail k) = none := by
  rw [Option.eq_none_iff_forall_ne_some]
  intro t ht
  obtain ⟨u, hu⟩ := exists_tableAt_of_suffix (v.trail_suffix hk) ht
  rw [h] at hu
  cases hu

theorem tableAt_trail_four : mem.tableAt root (v.trail 4) = none := by
  rw [Option.eq_none_iff_forall_ne_some]
  intro t ht
  have := length_le_of_tableAt ht
  rw [Address.length_trail] at this
  omega

theorem leaf_trail_eq_none (h : mem.tableAt root (v.trail d) = none) (hk : d < k) :
    mem.leaf root (v.trail k) = none := by
  obtain ⟨k, rfl⟩ : ∃ k', k = k' + 1 := ⟨k - 1, by omega⟩
  exact leafIn_eq_none_of_slot
    (slot_cons_of_tableAt_eq_none (tableAt_trail_eq_none h (Nat.le_of_lt_succ hk)) _)

theorem leaf_trail_of_missing (h : (mem.walk root v).target? = none) (k : Nat) :
    mem.leaf root (v.trail k) = none := by
  rw [target?_walk_eq_none_iff] at h
  rcases Nat.lt_or_ge 4 k with hk | hk
  · exact leaf_trail_eq_none tableAt_trail_four hk
  · cases k with
    | zero => rfl
    | succ k => exact h k (by omega)

theorem not_bare_trail (h : mem.slot root (v.trail (d + 1)) = none) (hk : d < k) :
    ¬ Bare root (mem.slot root) (v.trail k) := by
  rintro ⟨-, ⟨t, ht⟩, -⟩
  have hn : mem.tableAt root (v.trail (d + 1)) = none := by
    rw [tableAt_eq_tableIn, Address.trail, tableIn, ← Address.trail, h]; rfl
  rw [← tableAt_eq_tableIn, tableAt_trail_eq_none hn hk] at ht
  cases ht

end Memory

namespace Machine

variable {α : Type} [FrameSource α] {used others : Set PAddr} {root t c : PAddr} {v : VAddr}
  {d n : Nat} {m m' : Machine α}

theorem Owns.clear {q : Path} {i : Index} (h : Owns used others root m)
    (hq : m.memory.tableAt root q = some t) (hr : (m.entry t i).role (Path.level q) = .leaf) :
    Owns used others root (m.disable t i) ∧
      (m.disable t i).memory.slot root = Function.update (m.memory.slot root) (i :: q) none ∧
      (m.disable t i).memory.tableAt root = m.memory.tableAt root := by
  have hi : m.memory.tableAt root (i :: q) = none := by
    rw [Memory.tableAt_cons hq]
    exact Entry.link?_of_isLeafAt (Entry.role_eq_leaf_iff.1 hr).2
  have hdis : (m.entry t i).disabled.inUse? = none :=
    Entry.inUse?_of_not_isPresent (Entry.isPresent_disabled _)
  have hl : (m.entry t i).disabled.link? (Path.level q) = none := by
    rw [Entry.link?_eq_bind, hdis]; rfl
  rw [← hdis]
  exact h.put hq hi hl (memory_disable m t i) (frames_disable m t i)

/-- **A step that clears the trail** of `v` below depth `d`, where it may leave one table bare. -/
structure Clears (used others : Set PAddr) (root : PAddr) (v : VAddr) (d : Nat)
    (m m' : Machine α) : Prop where
  owns : Owns used others root m'
  confined : Confined (elsewhere used others root) m m'
  cleared : Cleared v d (m.memory.slot root) (m'.memory.slot root)
  bare : ∀ p, Bare root (m'.memory.slot root) p →
    p = v.trail d ∨ Bare root (m.memory.slot root) p

namespace Clears

theorem refl (h : Owns used others root m) (hn : m.memory.slot root (v.trail (d + 1)) = none) :
    Clears used others root v d m m where
  owns := h
  confined := .refl m
  cleared := by
    refine ⟨fun _ => .inl rfl, fun k hk => ?_⟩
    rcases Nat.lt_or_eq_of_le (Nat.succ_le_of_lt hk) with hk | rfl
    · refine Memory.leaf_trail_eq_none ?_ hk
      rw [Memory.tableAt_eq_tableIn, Address.trail, tableIn, ← Address.trail, hn]; rfl
    · exact leafIn_eq_none_of_slot hn
  bare := fun _ hp => .inr hp

theorem disable (h : Owns used others root m) (hd : d + n = 3)
    (ht : m.memory.tableAt root (v.trail d) = some t)
    (hr : (m.entry t ((Level.ofHeight n).index v)).role (.ofHeight n) = .leaf) :
    Clears used others root v d m ((m.disable t ((Level.ofHeight n).index v)).flush v) := by
  obtain ⟨ho, hs, hta⟩ := h.clear ht (by rwa [v.level_trail_of hd])
  have hi : m.memory.tableAt root ((Level.ofHeight n).index v :: v.trail d) = none := by
    rw [Memory.tableAt_cons ht, v.level_trail_of hd]
    exact Entry.link?_of_isLeafAt (Entry.role_eq_leaf_iff.1 hr).2
  rw [← memory_flush _ v] at hs hta
  refine ⟨ho.congr (memory_flush _ v) (frames_flush _ v),
    (Confined.disable (h.notMem_elsewhere ht)).trans (.flush v), ⟨fun p => ?_, ?_⟩,
    fun p hp => (hs ▸ hp).of_update_none.2⟩
  · by_cases hp : p = v.trail (d + 1)
    · subst hp
      refine .inr ⟨?_, d + 1, Nat.lt_succ_self d, rfl⟩
      rw [hs, v.trail_succ hd, Function.update_self]
    · rw [v.trail_succ hd] at hp
      exact .inl (by rw [hs, Function.update_of_ne hp])
  · intro k hk
    rcases Nat.lt_or_eq_of_le (Nat.succ_le_of_lt hk) with hk | rfl
    · exact Memory.leaf_trail_eq_none (by rw [hta, v.trail_succ hd, hi]) hk
    · refine leafIn_eq_none_of_slot ?_
      rw [hs, v.trail_succ hd, Function.update_self]

variable (h : Clears used others root v (d + 1) m m')

include h

theorem tableAt_trail {k : Nat} (hk : k ≤ d + 1) :
    m'.memory.tableAt root (v.trail k) = m.memory.tableAt root (v.trail k) := by
  rw [Memory.tableAt_eq_tableIn, Memory.tableAt_eq_tableIn m.memory]
  cases k with
  | zero => rfl
  | succ k => rw [Address.trail, tableIn, tableIn, ← Address.trail, h.cleared.slot_trail hk]

theorem keep (hc : m.memory.tableAt root (v.trail (d + 1)) = some c)
    (hb : ¬ ∀ j, m'.memory.slot root (j :: v.trail (d + 1)) = none) :
    Clears used others root v d m m' where
  owns := h.owns
  confined := h.confined
  cleared := by
    refine ⟨fun p => ?_, fun k hk => ?_⟩
    · exact (h.cleared.slot p).imp_right fun ⟨hn, k, hk, hp⟩ => ⟨hn, k, by omega, hp⟩
    · rcases Nat.lt_or_eq_of_le (Nat.succ_le_of_lt hk) with hk | rfl
      · exact h.cleared.leaf k hk
      · rw [← h.tableAt_trail (Nat.le_refl _), Memory.tableAt_eq_tableIn] at hc
        exact leafIn_eq_none_of_tableIn hc
  bare := fun p hp => by
    rcases h.bare p hp with rfl | hp
    · exact absurd hp.2.2 hb
    · exact .inr hp

/-- **On the way back up, a bare table goes.** -/
theorem unlink (hd : d + (n + 1) = 3) (ht : m.memory.tableAt root (v.trail d) = some t)
    (hc : m.memory.tableAt root (v.trail (d + 1)) = some c)
    (hb : ∀ j, m'.memory.slot root (j :: v.trail (d + 1)) = none) (x : Notice) :
    Clears used others root v d m
      (((m'.disable t ((Level.ofHeight (n + 1)).index v)).note x).release c) := by
  have ht' := (h.tableAt_trail (Nat.le_succ d)).trans ht
  have hc' := (h.tableAt_trail (Nat.le_refl _)).trans hc
  rw [v.trail_succ hd] at hc' hb
  obtain ⟨ho, hs, hta, hk⟩ := h.owns.unlink ht' hc' hb
    (memory_note (m'.disable t ((Level.ofHeight (n + 1)).index v)) x) (frames_note _ _)
  rw [← v.trail_succ hd] at hs hta
  refine ⟨ho, h.confined.trans ((Confined.disable (h.owns.notMem_elsewhere ht')).trans
    ((Confined.note x).trans hk)), ⟨fun p => ?_, fun k hk => ?_⟩, fun p hp => ?_⟩
  · rw [hs]
    by_cases hp : p = v.trail (d + 1)
    · subst hp
      exact .inr ⟨Function.update_self .., d + 1, Nat.lt_succ_self d, rfl⟩
    · rw [Function.update_of_ne hp]
      exact (h.cleared.slot p).imp_right fun ⟨hn, k, hk, hp⟩ => ⟨hn, k, by omega, hp⟩
  · rcases Nat.lt_or_eq_of_le (Nat.succ_le_of_lt hk) with hk | rfl
    · exact Memory.leaf_trail_eq_none (by rw [hta, Function.update_self]) hk
    · exact leafIn_eq_none_of_slot (by rw [hs, Function.update_self])
  · rw [hs, v.trail_succ hd] at hp
    obtain ⟨hne, rfl | hp⟩ := hp.of_update_none
    · exact .inl rfl
    · rw [← v.trail_succ hd] at hne
      exact .inr ((h.bare p hp).resolve_left hne)

end Clears

/-- **Induction along a removal**, from where the trail ends back up, with the trail clear further
down. -/
theorem Owns.removeFrom_induction {motive : Nat → Machine α → Prop} (h : Owns used others root m)
    (absent : ∀ d, m.memory.slot root (v.trail (d + 1)) = none → motive d m)
    (leaf : ∀ d n t, d + n = 3 → m.memory.tableAt root (v.trail d) = some t →
      (m.entry t ((Level.ofHeight n).index v)).role (.ofHeight n) = .leaf →
      motive d ((m.disable t ((Level.ofHeight n).index v)).flush v))
    (keep : ∀ d m', Clears used others root v (d + 1) m m' → motive (d + 1) m' →
      (¬ ∀ j, m'.memory.slot root (j :: v.trail (d + 1)) = none) → motive d m')
    (unlink : ∀ d n t c m' x, d + (n + 1) = 3 → Clears used others root v (d + 1) m m' →
      motive (d + 1) m' → m'.memory.tableAt root (v.trail d) = some t →
      m'.memory.tableAt root (v.trail (d + 1)) = some c →
      (∀ j, m'.memory.slot root (j :: v.trail (d + 1)) = none) →
      motive d (((m'.disable t ((Level.ofHeight (n + 1)).index v)).note x).release c))
    (hd : d + n = 3) (ht : m.memory.tableAt root (v.trail d) = some t) :
    Clears used others root v d m (m.removeFrom v n t) ∧ motive d (m.removeFrom v n t) := by
  have hs : m.memory.slot root (v.trail (d + 1)) =
      (m.entry t ((Level.ofHeight n).index v)).inUse? := by
    rw [v.trail_succ hd, Memory.slot_cons ht]; rfl
  -- on the levels below the table; what is carried up is `Clears` one step further down
  induction n generalizing d t with
  | zero =>
    cases hr : (m.entry t ((Level.ofHeight 0).index v)).role (.ofHeight 0) with
    | absent =>
      rw [removeFrom_of_absent hr]
      rw [Entry.inUse?_of_not_isPresent ((Entry.role_eq_absent_iff _ _).1 hr)] at hs
      exact ⟨.refl h hs, absent d hs⟩
    | leaf =>
      rw [removeFrom_of_leaf hr]
      exact ⟨.disable h hd ht hr, leaf d 0 t hd ht hr⟩
    | link c => exact absurd hr (Entry.role_pt_ne_link _ _)
  | succ n ih =>
    cases hr : (m.entry t ((Level.ofHeight (n + 1)).index v)).role (.ofHeight (n + 1)) with
    | absent =>
      rw [removeFrom_of_absent hr]
      rw [Entry.inUse?_of_not_isPresent ((Entry.role_eq_absent_iff _ _).1 hr)] at hs
      exact ⟨.refl h hs, absent d hs⟩
    | leaf =>
      rw [removeFrom_of_leaf hr]
      exact ⟨.disable h hd ht hr, leaf d (n + 1) t hd ht hr⟩
    | link c =>
      have hd' : d + 1 + n = 3 := by omega
      have hc : m.memory.tableAt root (v.trail (d + 1)) = some c :=
        (Memory.tableAt_trail_succ_iff hd ht c).2 hr
      have hs' : m.memory.slot root (v.trail (d + 1 + 1)) =
          (m.entry c ((Level.ofHeight n).index v)).inUse? := by
        rw [v.trail_succ hd', Memory.slot_cons hc]; rfl
      obtain ⟨hm, hmot⟩ := ih hd' hc hs'
      have ht' := (hm.tableAt_trail (Nat.le_succ d)).trans ht
      have hc' := (hm.tableAt_trail (Nat.le_refl _)).trans hc
      have hb : ((m.removeFrom v n c).memory.table c).isVacant = true ↔
          ∀ j, (m.removeFrom v n c).memory.slot root (j :: v.trail (d + 1)) = none := by
        rw [Memory.slot_cons_eq_none_iff hc', Table.isVacant_iff]; rfl
      rw [removeFrom_of_link hr]
      split
      · rename_i hv
        exact ⟨hm.unlink hd ht hc (hb.1 hv) _, unlink d n t c _ _ hd hm hmot ht' hc' (hb.1 hv)⟩
      · rename_i hv
        have hn := fun hn => hv (hb.2 hn)
        exact ⟨hm.keep hc hn, keep d _ hm hmot hn⟩

/-- **Removal from a table** clears the rest of the trail. -/
theorem Owns.removeFrom (h : Owns used others root m) (hd : d + n = 3)
    (ht : m.memory.tableAt root (v.trail d) = some t) :
    Clears used others root v d m (m.removeFrom v n t) :=
  (h.removeFrom_induction (motive := fun _ _ => True) (fun _ _ => trivial)
    (fun _ _ _ _ _ _ => trivial) (fun _ _ _ _ _ => trivial)
    (fun _ _ _ _ _ _ _ _ _ _ _ _ => trivial) hd ht).1

theorem Owns.not_bare_removeFrom (h : Owns used others root m) (hd : d + n = 3)
    (ht : m.memory.tableAt root (v.trail d) = some t) :
    ∀ k, d < k → ¬ Bare root ((m.removeFrom v n t).memory.slot root) (v.trail k) := by
  refine (h.removeFrom_induction
    (motive := fun d m' => ∀ k, d < k → ¬ Bare root (m'.memory.slot root) (v.trail k))
    (fun d hs k hk => Memory.not_bare_trail hs hk) (fun d n t hd ht hr k hk => ?_)
    (fun d m' _ ih hn k hk => ?_) (fun d n t c m' x hd hm ih ht hc hb k hk => ?_) hd ht).2
  · obtain ⟨-, hs, -⟩ := h.clear ht (by rwa [v.level_trail_of hd])
    exact Memory.not_bare_trail (by rw [memory_flush, hs, v.trail_succ hd, Function.update_self]) hk
  · rcases Nat.lt_or_eq_of_le (Nat.succ_le_of_lt hk) with hk | rfl
    · exact ih k hk
    · exact fun hp => hn hp.2.2
  · rw [v.trail_succ hd] at hc hb
    obtain ⟨-, hs, -⟩ := hm.owns.unlink ht hc hb
      (memory_note (m'.disable t ((Level.ofHeight (n + 1)).index v)) x) (frames_note _ _)
    rcases Nat.lt_or_eq_of_le (Nat.succ_le_of_lt hk) with hk | rfl
    · intro hp
      rw [hs] at hp
      refine (hp.of_update_none.2.resolve_left ?_ |> ih k hk)
      exact Address.trail_ne_trail (by omega)
    · refine Memory.not_bare_trail (d := d) ?_ (Nat.lt_succ_self d)
      rw [hs, v.trail_succ hd, Function.update_self]

/-- **Removing a page keeps the hierarchy in order** and clears the page's trail. -/
theorem Owns.unmapPage (h : Owns used others root m) (v : VAddr) :
    Orderly used others root m (m.unmapPage root v) ∧
      Cleared v 0 (m.memory.slot root) ((m.unmapPage root v).memory.slot root) := by
  have hc := h.removeFrom (v := v) (d := 0) (n := 3) rfl Memory.tableAt_nil
  exact ⟨⟨hc.owns, hc.confined, fun p hp => (hc.bare p hp).resolve_left hp.1⟩, hc.cleared⟩

theorem Owns.not_bare_unmapPage (h : Owns used others root m) (v : VAddr) {k : Nat} (hk : 0 < k) :
    ¬ Bare root ((m.unmapPage root v).memory.slot root) (v.trail k) :=
  h.not_bare_removeFrom (d := 0) (n := 3) rfl Memory.tableAt_nil k hk

/-- **Removing the only page of a hierarchy leaves no table** below the root. -/
theorem Owns.tableAt_unmapPage_of_only (h : Owns used others root m)
    (hb : ∀ p, ¬ Bare root (m.memory.slot root) p)
    (hl : ∀ p, p ≠ v.trail 4 → m.memory.leaf root p = none) {p : Path} (hp : p ≠ []) :
    (m.unmapPage root v).memory.tableAt root p ≠ some t := by
  obtain ⟨ho, hc⟩ := h.unmapPage v
  intro ht
  obtain ⟨q, -, hq⟩ := Memory.exists_leaf_of_not_bare (fun p hp => hb p (ho.bare p hp)) hp ht
  refine hq ?_
  have hs : ∀ k, k ≠ 4 → leafIn (m.memory.slot root) (v.trail k) = none := fun k hk =>
    hl _ (Address.trail_ne_trail hk)
  rw [Memory.leaf, hc.leafIn_eq_update hs]
  by_cases hq' : q = v.trail 4
  · rw [hq', Function.update_self]
  · rw [Function.update_of_ne hq']
    exact hl q hq'

end Machine

end VirtualMemory
