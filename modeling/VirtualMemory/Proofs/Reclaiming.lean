import VirtualMemory.Proofs.Instants
import VirtualMemory.Proofs.Sharing
import VirtualMemory.Proofs.TakingBack
import VirtualMemory.Proofs.Unmapping

/-!
# What removing a page gives back

Removal goes down the way of its address's walk, and decides on the way back up which tables to give
back: those left without an entry in use. Nothing is assumed about the tables before, so empty ones
that lie on the way go, too.

* `Unlinks`: frames go back only after the entries that link them were cleared;
* `Removal`: the record of a removal from a table, and **`Owns.removal`**, along the way back up;
* `Owns.mapped_unmapPage_iff`, `Owns.leaf_unmapPage_of_missing`: what a trail without its leaf means
  for translations;
* **`WellFormed.unmapPage_exactly`**: the effect of removing one page on translations, on frames and
  on the processor.
-/

namespace VirtualMemory

namespace Event

/-- The address whose page an event makes the processor forget. -/
def flushed? : Event → Option VAddr
  | flushed v => some v
  | _ => none

end Event

/-! ## Unlinking before giving back -/

/-- **Each frame that goes back was out, and the entry that links it has been cleared before.** The
entries that link frames are those in `visits`, on the trail of `v`. -/
def Unlinks (v : VAddr) (visits : List Visit) (es : List Event) : Prop :=
  ∀ before c held after, es = before ++ .released c held :: after →
    held = true ∧ ∃ s ∈ visits, s.entry.role s.level = .link c ∧
      .wrote s.table (s.level.index v) s.entry.disabled ∈ before

namespace Unlinks

variable {v : VAddr} {visits visits' : List Visit} {es es' : List Event} {s : Visit} {c : PAddr}

theorem iff_forall_place : Unlinks v visits es ↔ ∀ before x after, es = before ++ x :: after →
    ∀ c held, x = .released c held → held = true ∧ ∃ s ∈ visits, s.entry.role s.level = .link c ∧
      .wrote s.table (s.level.index v) s.entry.disabled ∈ before := by
  constructor
  · rintro h before _ after he c held rfl
    exact h before c held after he
  · exact fun h before c held after he => h before _ after he c held rfl

theorem of_quiet (hq : es.filterMap Event.released? = []) : Unlinks v visits es := by
  rintro before c held after rfl
  simp [Event.released?] at hq

theorem mono (h : Unlinks v visits es) (hs : visits ⊆ visits') : Unlinks v visits' es := by
  intro before c held after he
  obtain ⟨hheld, s, hm, hrest⟩ := h before c held after he
  exact ⟨hheld, s, hs hm, hrest⟩

theorem append (h : Unlinks v visits es) (hq : es'.filterMap Event.released? = []) :
    Unlinks v visits (es ++ es') := by
  refine iff_forall_place.2 (forall_place_append.2
    ⟨fun before x after he => iff_forall_place.1 h before x after he, ?_⟩)
  rintro before _ after rfl c held rfl
  simp [Event.released?] at hq

/-- **A frame goes back** once the entry that links it is cleared. -/
theorem concat (h : Unlinks v visits es) (hs : s ∈ visits) (hr : s.entry.role s.level = .link c)
    (hw : .wrote s.table (s.level.index v) s.entry.disabled ∈ es) :
    Unlinks v visits (es ++ [.released c true]) := by
  refine iff_forall_place.2 (forall_place_append.2
    ⟨fun before x after he => iff_forall_place.1 h before x after he, ?_⟩)
  rw [forall_place_cons]
  refine ⟨?_, by simp⟩
  rintro _ _ ⟨⟩
  exact ⟨rfl, s, hs, hr, by rwa [List.append_nil]⟩

end Unlinks

namespace Memory

variable {mem : Memory} {root t c : PAddr} {v : VAddr} {n d : Nat}

theorem exists_visitsFrom_eq (mem : Memory) (v : VAddr) (n : Nat) (t : PAddr) :
    ∃ s rest, mem.visitsFrom v n t = s :: rest ∧ s.table = t := by
  rw [visitsFrom.eq_def]
  exact ⟨_, _, rfl, rfl⟩

/-- **The tables that a walk comes by after the table `t`**, the deepest first. -/
def tablesAfter (mem : Memory) (v : VAddr) (n : Nat) (t : PAddr) : List PAddr :=
  ((mem.visitsFrom v n t).tail.map Visit.table).reverse

theorem tablesAfter_of_not_link
    (h : ∀ c, (mem.entry t ((Level.ofHeight n).index v)).role (.ofHeight n) ≠ .link c) :
    mem.tablesAfter v n t = [] := by
  rw [tablesAfter, visitsFrom_of_not_link h]
  rfl

theorem tablesAfter_of_link
    (h : (mem.entry t ((Level.ofHeight (n + 1)).index v)).role (.ofHeight (n + 1)) = .link c) :
    mem.tablesAfter v (n + 1) t = mem.tablesAfter v n c ++ [c] := by
  obtain ⟨s, rest, hvisits, rfl⟩ := mem.exists_visitsFrom_eq v n c
  rw [tablesAfter, tablesAfter, visitsFrom_of_link h, hvisits]
  simp

theorem tableAt_of_mem_tablesAfter (hd : d + n = 3) (ht : mem.tableAt root (v.trail d) = some t)
    (hc : c ∈ mem.tablesAfter v n t) : ∃ k, d < k ∧ mem.tableAt root (v.trail k) = some c := by
  induction n generalizing d t with
  | zero =>
    rw [tablesAfter_of_not_link (n := 0) fun c => Entry.role_pt_ne_link _ c] at hc
    cases hc
  | succ n ih =>
    by_cases hr : ∃ u, (mem.entry t ((Level.ofHeight (n + 1)).index v)).role (.ofHeight (n + 1)) =
        .link u
    · obtain ⟨u, hr⟩ := hr
      have hu := (tableAt_trail_succ_iff hd ht u).2 hr
      rw [tablesAfter_of_link hr, List.mem_append, List.mem_singleton] at hc
      rcases hc with hc | rfl
      · obtain ⟨k, hk, hc⟩ := ih (by omega) hu hc
        exact ⟨k, by omega, hc⟩
      · exact ⟨d + 1, Nat.lt_succ_self d, hu⟩
    · rw [tablesAfter_of_not_link (not_exists.1 hr)] at hc
      cases hc

theorem nodup_tablesAfter (h : mem.Tree root) (hd : d + n = 3)
    (ht : mem.tableAt root (v.trail d) = some t) : (mem.tablesAfter v n t).Nodup := by
  induction n generalizing d t with
  | zero =>
    rw [tablesAfter_of_not_link (n := 0) fun c => Entry.role_pt_ne_link _ c]
    exact List.nodup_nil
  | succ n ih =>
    by_cases hr : ∃ u, (mem.entry t ((Level.ofHeight (n + 1)).index v)).role (.ofHeight (n + 1)) =
        .link u
    · obtain ⟨u, hr⟩ := hr
      have hu := (tableAt_trail_succ_iff hd ht u).2 hr
      rw [tablesAfter_of_link hr, List.nodup_append]
      refine ⟨ih (by omega) hu, List.pairwise_singleton _ u, fun a hm b hb he => ?_⟩
      obtain rfl := he.trans (List.mem_singleton.1 hb)
      obtain ⟨k, hk, hc⟩ := tableAt_of_mem_tablesAfter (by omega) hu hm
      exact absurd (h _ _ _ hu hc) (Address.trail_ne_trail (by omega))
    · rw [tablesAfter_of_not_link (not_exists.1 hr)]
      exact List.nodup_nil

end Memory

namespace Machine

variable {α : Type} [FrameSource α] {used others : Set PAddr} {root t c : PAddr} {v x : VAddr}
  {d n : Nat} {m m' : Machine α} {es : List Event}

/-! ## The record of a removal -/

/-- **The record of a removal** from the table `t`, with `n` levels below it. -/
structure Removal (root : PAddr) (v : VAddr) (n : Nat) (t : PAddr) (m m' : Machine α)
    (es : List Event) : Prop where
  history : m'.history = m.history ++ es
  flushed : es.filterMap Event.flushed? =
    if (m.memory.walk root v).target?.isSome then [v] else []
  released : es.filterMap Event.released? =
    (m.memory.tablesAfter v n t).filter fun c => (m'.memory.table c).isVacant
  unlinks : Unlinks v (m.memory.visitsFrom v n t) es
  holds : ∀ c, m'.Holds c ↔ m.Holds c ∧ c ∉ es.filterMap Event.released?
  idle : (m.memory.walk root v).target? = none →
    (∀ p, ¬ Bare root (m.memory.slot root) p) → m' = m

omit [FrameSource α] in
theorem history_cut (m : Machine α) (t : PAddr) (i : Index) (x : Notice) :
    ∃ es, ((m.disable t i).note x).history = m.history ++ es ∧
      .wrote t i (m.entry t i).disabled ∈ es ∧
      es.filterMap Event.released? = [] ∧ es.filterMap Event.flushed? = [] := by
  obtain ⟨logs, hlogs, hlogged⟩ := history_notices [x] (m.disable t i)
  have hquiet : ∀ e ∈ [.interruptsOff, .wrote t i (m.entry t i).disabled, .interruptsOn] ++ logs,
      e.released? = none ∧ e.flushed? = none := by
    intro e he
    rcases List.mem_append.1 he with he | he
    · simp only [List.mem_cons, List.not_mem_nil, or_false] at he
      rcases he with rfl | rfl | rfl <;> exact ⟨rfl, rfl⟩
    · obtain ⟨n, rfl⟩ := hlogged e he
      exact ⟨rfl, rfl⟩
  rw [history_disable, List.append_assoc] at hlogs
  exact ⟨_, hlogs, List.mem_append_left logs (List.mem_cons_of_mem _ List.mem_cons_self),
    List.filterMap_eq_nil_iff.2 fun e he => (hquiet e he).1,
    List.filterMap_eq_nil_iff.2 fun e he => (hquiet e he).2⟩

namespace Removal

theorem absent (hd : d + n = 3) (ht : m.memory.tableAt root (v.trail d) = some t)
    (hs : m.memory.slot root (v.trail (d + 1)) = none) : Removal root v n t m m [] where
  history := (List.append_nil _).symm
  flushed := by rw [Memory.walk_eq_missing hd ht hs]; rfl
  released := by
    rw [Memory.tablesAfter_of_not_link]
    · rfl
    · intro c hr
      rw [v.trail_succ hd, Memory.slot_cons ht, Entry.inUse?_eq_none_iff,
        ← Entry.role_eq_absent_iff (Level.ofHeight n)] at hs
      exact Role.noConfusion (hr.symm.trans hs)
  unlinks := .of_quiet rfl
  holds c := by simp
  idle _ _ := rfl

theorem leaf (hd : d + n = 3) (ht : m.memory.tableAt root (v.trail d) = some t)
    (hr : (m.entry t ((Level.ofHeight n).index v)).role (.ofHeight n) = .leaf) :
    Removal root v n t m ((m.disable t ((Level.ofHeight n).index v)).flush v)
      [.interruptsOff, .wrote t ((Level.ofHeight n).index v)
        (m.entry t ((Level.ofHeight n).index v)).disabled, .interruptsOn, .flushed v] := by
  have hwalk : (m.memory.walk root v).target? ≠ none := by
    rw [Memory.walk_eq_walkFrom hd ht, Memory.walkFrom_of_leaf hr]
    exact Translation.target?_ofLeaf_ne_none _ _ _
  refine ⟨?_, ?_, ?_, .of_quiet rfl, fun c => ?_, fun hn => absurd hn hwalk⟩
  · rw [Machine.flush, history_record, history_disable, List.append_assoc]
    rfl
  · rw [if_pos (Option.isSome_iff_ne_none.2 hwalk)]
    rfl
  · rw [Memory.tablesAfter_of_not_link fun c hc => Role.noConfusion (hc.symm.trans hr)]
    rfl
  · rw [holds_congr (m := m) (by simp)]
    exact ⟨fun hc => ⟨hc, List.not_mem_nil⟩, And.left⟩

variable (h : Removal root v n c m m' es)
  (hr : (m.entry t ((Level.ofHeight (n + 1)).index v)).role (.ofHeight (n + 1)) = .link c)

include h hr

theorem keep (hc : (m'.memory.table c).isVacant = false) : Removal root v (n + 1) t m m' es where
  history := h.history
  flushed := h.flushed
  released := by
    rw [h.released, Memory.tablesAfter_of_link hr, List.filter_append,
      List.filter_cons_of_neg (by simp [hc]), List.filter_nil, List.append_nil]
  unlinks := h.unlinks.mono (Memory.visitsFrom_of_link hr ▸ List.subset_cons_self _ _)
  holds := h.holds
  idle := h.idle

/-- **A table without an entry in use is unlinked and goes back**, after those below it. -/
theorem unlink {i : Index} (hi : (Level.ofHeight (n + 1)).index v = i)
    (hs : FrameSource.Honest used m'.frames) (hc : m'.Holds c)
    (he : m'.entry t i = m.entry t i) (hv : (m'.memory.table c).isVacant = true)
    (ht : t ∉ m.memory.tablesAfter v (n + 1) t)
    (hne : (∀ p, ¬ Bare root (m.memory.slot root) p) → m' ≠ m) (x : Notice) :
    ∃ es', Removal root v (n + 1) t m (((m'.disable t i).note x).release c) es' := by
  subst hi
  set i := (Level.ofHeight (n + 1)).index v
  obtain ⟨cut, hcut, hwrote, hquiet, hkept⟩ := m'.history_cut t i x
  have hframes : ((m'.disable t i).note x).frames = m'.frames := frames_note _ _
  have hc' : ((m'.disable t i).note x).Holds c := (holds_congr hframes).2 hc
  obtain ⟨hh, -, -⟩ := holds_release (hframes.symm ▸ hs) hc'
  have hreleased : (es ++ cut ++ [Event.released c true]).filterMap Event.released? =
      es.filterMap Event.released? ++ [c] := by
    rw [List.filterMap_append, List.filterMap_append, hquiet, List.append_nil]
    rfl
  refine ⟨es ++ cut ++ [.released c true], ?_, ?_, ?_, ?_, fun u => ?_,
    fun hn hb => absurd (h.idle hn hb) (hne hb)⟩
  · rw [history_release (hframes.symm ▸ hs) hc', hcut, h.history, List.append_assoc,
      List.append_assoc, List.append_assoc]
  · rw [List.filterMap_append, List.filterMap_append, hkept, h.flushed, List.append_nil]
    exact List.append_nil _
  · -- the tables that go back are not written any more
    have hsame : ∀ u ∈ m.memory.tablesAfter v (n + 1) t,
        ((((m'.disable t i).note x).release c).memory.table u).isVacant =
          (m'.memory.table u).isVacant := by
      intro u hu
      have hne : t ≠ u := fun he => ht (he ▸ hu)
      rw [memory_release, memory_note, memory_disable, Memory.set,
        Memory.table_setTable_of_ne _ hne]
    have hlast : [c].filter (fun u => (m'.memory.table u).isVacant) = [c] :=
      List.filter_cons_of_pos hv
    rw [hreleased, h.released, List.filter_congr hsame, Memory.tablesAfter_of_link hr,
      List.filter_append, hlast]
  · have hvisits := Memory.visitsFrom_of_link hr
    refine Unlinks.concat (s := ⟨.ofHeight (n + 1), t, m.entry t i⟩) ?_ ?_ hr ?_
    · refine (h.unlinks.mono ?_).append hquiet
      exact hvisits ▸ List.subset_cons_self _ _
    · exact hvisits ▸ List.mem_cons_self
    · exact List.mem_append_right es (he ▸ hwrote)
  · rw [hh, hreleased, holds_congr hframes, h.holds, List.mem_append, List.mem_singleton, not_or,
      and_assoc]

end Removal

/-- **Every removal has its record.** -/
theorem Owns.removal (h : Owns used others root m) (hd : d + n = 3)
    (ht : m.memory.tableAt root (v.trail d) = some t) :
    ∃ es, Removal root v n t m (m.removeFrom v n t) es := by
  refine (h.removeFrom_induction (motive := fun d m' => ∀ n t, d + n = 3 →
      m.memory.tableAt root (v.trail d) = some t → ∃ es, Removal root v n t m m' es)
    (fun d hs n t hd ht => ⟨[], .absent hd ht hs⟩) (fun d n t hd ht hr n' t' hd' ht' => ?_)
    (fun d m' hm ih hn n t hd ht => ?_) (fun d n t c m' x hd hm ih ht hc hb n' t' hd' ht' => ?_)
    hd ht).2 n t hd ht
  · obtain rfl : n' = n := by omega
    obtain rfl := Option.some.inj (ht'.symm.trans ht)
    exact ⟨_, .leaf hd ht hr⟩
  · push Not at hn
    obtain ⟨j, hj⟩ := hn
    obtain ⟨e, hj⟩ := Option.ne_none_iff_exists'.1 hj
    obtain ⟨c, hc', rfl, hp⟩ := Memory.exists_tableAt_of_slot hj
    have hc := (hm.tableAt_trail (Nat.le_refl _)).symm.trans hc'
    have hlen := Memory.length_le_of_tableAt hc
    rw [Address.length_trail] at hlen
    obtain ⟨n, rfl⟩ : ∃ k, n = k + 1 := ⟨n - 1, by omega⟩
    obtain ⟨es, hes⟩ := ih n c (by omega) hc
    refine ⟨es, hes.keep ((Memory.tableAt_trail_succ_iff hd ht c).1 hc) ?_⟩
    rw [Bool.eq_false_iff, Ne, Table.isVacant_iff]
    intro hvac
    exact Bool.noConfusion ((hvac j).symm.trans hp)
  · obtain rfl : n' = n + 1 := by omega
    have htm := (hm.tableAt_trail (Nat.le_succ d)).symm.trans ht
    have hcm := (hm.tableAt_trail (Nat.le_refl _)).symm.trans hc
    obtain rfl := Option.some.inj (ht'.symm.trans htm)
    obtain ⟨es, hes⟩ := ih n c (by omega) hcm
    have hr := (Memory.tableAt_trail_succ_iff hd htm c).1 hcm
    refine hes.unlink hr rfl hm.owns.honest (hm.owns.holds (List.cons_ne_nil _ _) hc) ?_ ?_ ?_
      (fun hbare he => ?_) x
    · -- the entry that links the table has not been touched on the way
      have hslot := hm.cleared.slot_trail (Nat.le_refl (d + 1))
      rw [v.trail_succ hd, Memory.slot_cons ht, Memory.slot_cons htm] at hslot
      exact (Entry.eq_of_inUse? (hslot.trans (Entry.inUse?_of_isPresent
        (Entry.isPresent_of_link? (Entry.link?_eq_some_iff.2 hr))))).1
    · rw [Table.isVacant_iff]
      exact (Memory.slot_cons_eq_none_iff hc).1 hb
    · intro hmem
      obtain ⟨k, hk, hu⟩ := Memory.tableAt_of_mem_tablesAfter hd htm hmem
      exact absurd (h.tree _ _ _ htm hu) (Address.trail_ne_trail (by omega))
    · subst he
      exact hbare _ ⟨List.cons_ne_nil _ _, ⟨c, by rwa [← Memory.tableAt_eq_tableIn]⟩, hb⟩

/-! ## Translations -/

theorem Owns.leaf_unmapPage {p : PAddr} {a : Attributes} {l : Level}
    (h : Owns used others root m) (hv : m.memory.walk root v = .mapped p a l) :
    (m.unmapPage root v).memory.leaf root =
      Function.update (m.memory.leaf root) (v.trail (4 - l.height)) none := by
  obtain ⟨e, he, -⟩ := Memory.walk_eq_mapped_iff.1 hv
  refine (h.unmapPage v).2.leafIn_eq_update fun j hj => ?_
  by_contra hne
  obtain ⟨e', he'⟩ := Option.ne_none_iff_exists'.1 hne
  exact hj (Memory.length_eq_of_leaf_trail he' he)

theorem Owns.leaf_unmapPage_of_missing (h : Owns used others root m)
    (hv : (m.memory.walk root v).target? = none) :
    (m.unmapPage root v).memory.leaf root = m.memory.leaf root := by
  have hleaf := Memory.leaf_trail_of_missing hv
  refine ((h.unmapPage v).2.leafIn_eq_update (k := 0) fun j _ => hleaf j).trans ?_
  exact Function.update_eq_self_iff.2 (hleaf 0).symm

/-- **What maps after a page was removed**: what did before, except for the page of the removed
leaf. -/
theorem Owns.mapped_unmapPage_iff {p p' : PAddr} {a a' : Attributes} {l l' : Level}
    (h : Owns used others root m) (hv : m.memory.walk root v = .mapped p a l) :
    (m.unmapPage root v).memory.walk root x = .mapped p' a' l' ↔
      m.memory.walk root x = .mapped p' a' l' ∧ ¬ v.Alias l x := by
  obtain ⟨e, he, -⟩ := Memory.walk_eq_mapped_iff.1 hv
  have hl := l.height_le
  have hl' := l'.height_le
  rw [Memory.walk_eq_mapped_iff, Memory.walk_eq_mapped_iff, h.leaf_unmapPage hv]
  by_cases htrail : x.trail (4 - l'.height) = v.trail (4 - l.height)
  · -- the leaf of `x` is the one removed
    have hlen := congrArg List.length htrail
    rw [Address.length_trail, Address.length_trail] at hlen
    obtain rfl : l' = l := by
      rw [← Level.ofHeight_height l', ← Level.ofHeight_height l, show l'.height = l.height by omega]
    rw [htrail, Function.update_self]
    exact ⟨nofun, fun hx => absurd (Address.alias_iff.2 htrail.symm) hx.2⟩
  · rw [Function.update_of_ne htrail]
    refine ⟨fun hx => ⟨hx, fun hal => htrail ?_⟩, And.left⟩
    obtain ⟨e', he', -⟩ := hx
    rw [Address.alias_iff] at hal
    rw [hal] at he
    rw [hal, Memory.length_eq_of_leaf_trail he' he]

/-! ## One page removed -/

/-- **The exact effect of removing one page**: its translations go and are forgotten, the tables on
the way that have become empty go back, the deepest first, and nothing else changes. -/
theorem WellFormed.unmapPage_exactly (h : WellFormed used root m) (v : VAddr) :
    ∃ es, (m.unmapPage root v).history = m.history ++ es ∧
      (∀ p a l, m.memory.walk root v = .mapped p a l → es.filterMap Event.flushed? = [v] ∧
        (∀ x, v.Alias l x → ((m.unmapPage root v).memory.walk root x).target? = none) ∧
        ∀ x, ¬ v.Alias l x → ∀ p' a' l',
          (m.unmapPage root v).memory.walk root x = .mapped p' a' l' ↔
            m.memory.walk root x = .mapped p' a' l') ∧
      (∀ l t, m.memory.walk root v = .missing l t → es.filterMap Event.flushed? = [] ∧
        (∀ x p' a' l', (m.unmapPage root v).memory.walk root x = .mapped p' a' l' ↔
          m.memory.walk root x = .mapped p' a' l') ∧
        (Stocked root m → m.unmapPage root v = m)) ∧
      es.filterMap Event.released? =
        (((m.memory.visits root v).tail.map Visit.table).reverse.filter fun t =>
          ((m.unmapPage root v).memory.table t).isVacant) ∧
      (es.filterMap Event.released?).Nodup ∧ root ∉ es.filterMap Event.released? ∧
      Unlinks v (m.memory.visits root v) es ∧
      ∀ t, (m.unmapPage root v).Holds t ↔ m.Holds t ∧ t ∉ es.filterMap Event.released? := by
  obtain ⟨es, hes⟩ := h.owns.removal (v := v) (d := 0) (n := 3) rfl Memory.tableAt_nil
  have hafter : ∀ t ∈ es.filterMap Event.released?, t ∈ m.memory.tablesAfter v 3 root := by
    rw [hes.released]
    exact fun t ht => (List.mem_filter.1 ht).1
  refine ⟨es, hes.history, fun p a l hv => ?_, fun l t hv => ?_, hes.released, ?_, fun hroot => ?_,
    hes.unlinks, hes.holds⟩
  · refine ⟨by rw [hes.flushed, hv]; rfl, fun x hx => ?_, fun x hx p' a' l' => ?_⟩
    · cases hwalk : (m.unmapPage root v).memory.walk root x with
      | missing l' t => rfl
      | mapped p' a' l' => exact absurd hx ((h.owns.mapped_unmapPage_iff hv).1 hwalk).2
    · exact (h.owns.mapped_unmapPage_iff hv).trans (and_iff_left hx)
  · have hnone : (m.memory.walk root v).target? = none := by rw [hv]; rfl
    refine ⟨by rw [hes.flushed, hv]; rfl, fun x p' a' l' => ?_, fun hs => ?_⟩
    · rw [Memory.walk_eq_mapped_iff, Memory.walk_eq_mapped_iff,
        h.owns.leaf_unmapPage_of_missing hnone]
    · exact hes.idle hnone (stocked_iff.1 hs)
  · rw [hes.released]
    exact (Memory.nodup_tablesAfter h.tree (d := 0) rfl Memory.tableAt_nil).filter _
  · obtain ⟨k, hk, ht⟩ := Memory.tableAt_of_mem_tablesAfter (d := 0) rfl Memory.tableAt_nil
      (hafter root hroot)
    have := congrArg List.length (h.tree _ [] _ ht Memory.tableAt_nil)
    rw [Address.length_trail] at this
    exact absurd this (by simpa using Nat.ne_of_gt hk)

theorem three_pages_removed :
    (∃ es, (Family.onePage.machine.unmapPage ⟨0x1000⟩ Family.imagePage).history =
        Family.onePage.machine.history ++ es ∧
      es.filterMap Event.flushed? = [Family.imagePage] ∧
      es.filterMap Event.released? = [⟨0x4000⟩, ⟨0x3000⟩, ⟨0x2000⟩]) ∧
    ((mixed.unmapPage ⟨0x1000⟩ ⟨0x200123⟩).memory.walk ⟨0x1000⟩ ⟨0x3ff000⟩).target? = none ∧
    (mixed.unmapPage ⟨0x1000⟩ ⟨0x200123⟩).memory.walk ⟨0x1000⟩ ⟨0x400123⟩ =
      .mapped ⟨0x9123⟩ ∅ .pt ∧
    mixed.unmapPage ⟨0x1000⟩ ⟨0x600000⟩ = mixed := by
  obtain ⟨hmixed, hstocked⟩ := stocked_mixed
  constructor
  · obtain ⟨ho, hb, hl⟩ := Family.onePage_spec
    obtain ⟨es, hes, hmapped, -, hreleased, -, -, -, hholds⟩ :=
      ho.wellFormed.unmapPage_exactly Family.imagePage
    have hwalk : Family.onePage.machine.memory.walk ⟨0x1000⟩ Family.imagePage =
        .mapped ⟨0x9000⟩ ∅ .pt := by decide +kernel
    have htables : ((Family.onePage.machine.memory.visits ⟨0x1000⟩ Family.imagePage).tail.map
        Visit.table).reverse = [⟨0x4000⟩, ⟨0x3000⟩, ⟨0x2000⟩] := by decide +kernel
    -- no table is left, so each of the three was given back
    have hnone : ∀ t, ¬ (Family.onePage.machine.unmapPage ⟨0x1000⟩ Family.imagePage).Holds t := by
      intro t ht
      rcases ((ho.unmapPage Family.imagePage).1.owns.holds_iff t).1 ht with ht | ⟨p, hp, ht⟩
      · exact ht
      · exact ho.tableAt_unmapPage_of_only hb hl hp ht
    have hheld : ∀ t ∈ [(⟨0x4000⟩ : PAddr), ⟨0x3000⟩, ⟨0x2000⟩],
        Family.onePage.machine.Holds t := by
      simp only [Holds]
      decide +kernel
    refine ⟨es, hes, (hmapped _ _ _ hwalk).1, ?_⟩
    rw [htables] at hreleased
    rw [hreleased, List.filter_eq_self]
    intro t ht
    have hback : t ∈ es.filterMap Event.released? := by
      by_contra hne
      exact hnone t ((hholds t).2 ⟨hheld t ht, hne⟩)
    rw [hreleased] at hback
    exact (List.mem_filter.1 hback).2
  · obtain ⟨_, -, hmapped, -⟩ := hmixed.unmapPage_exactly ⟨0x200123⟩
    obtain ⟨_, -, -, hmissing, -⟩ := hmixed.unmapPage_exactly ⟨0x600000⟩
    have hlarge : mixed.memory.walk ⟨0x1000⟩ ⟨0x200123⟩ = .mapped ⟨0x600123⟩ ∅ .pd := by
      decide +kernel
    have habsent : mixed.memory.walk ⟨0x1000⟩ ⟨0x600000⟩ = .missing .pd ⟨0x3000⟩ := by
      decide +kernel
    obtain ⟨-, hgone, hstay⟩ := hmapped _ _ _ hlarge
    exact ⟨hgone _ (by decide), (hstay _ (by decide) _ _ _).2 (by decide +kernel),
      (hmissing _ _ habsent).2.2 hstocked⟩

end Machine

end VirtualMemory
