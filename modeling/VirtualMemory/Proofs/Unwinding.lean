import VirtualMemory.Proofs.Instants
import VirtualMemory.Proofs.Phases
import VirtualMemory.Proofs.Rollback

/-!
# A failed call leaves what unmapping its prefix leaves

A call that maps pages and fails has made tables, written leaves and unwound them. Unmapping the same
pages at the start goes another way: tables fall empty at other moments, and none are made. The two
ways meet, because both leave the trails of the pages without leaves and without empty tables, and
there is only one such hierarchy over the entries off these trails.

* `OnTrails`: the paths that belong to the first pages of a run;
* `Stripped`: entries in use without leaves and empty tables on some paths;
* **`Stripped.slot_eq`**: there is one such hierarchy at most;
* **`Owns.stripped_unwind`**, **`Owns.slot_mapPrefix`**: what the two ways have in common;
* `Owns.mapPrefix_induct`: what each page keeps, all pages keep;
* **`WellFormed.mapSpan_error_eq_unmapPages`**: they end in the same hierarchy.
-/

namespace VirtualMemory

/-- **The paths on the trails of the first `n` pages** from `v` on, below the root. -/
def OnTrails (v : VAddr) (n : Nat) (p : Path) : Prop :=
  ∃ i < n, ∃ k, 0 < k ∧ p = (v.addPages i).trail k

theorem OnTrails.mono {v : VAddr} {n n' : Nat} {p : Path} (h : OnTrails v n p) (hn : n ≤ n') :
    OnTrails v n' p := by
  obtain ⟨i, hi, h⟩ := h
  exact ⟨i, by omega, h⟩

theorem not_onTrails_nil {v : VAddr} {n : Nat} : ¬ OnTrails v n [] := by
  rintro ⟨i, -, k, hk, he⟩
  have hne : v.trail 0 ≠ (v.addPages i).trail k := Address.trail_ne_trail (Nat.ne_of_lt hk)
  exact hne he

/-! ## Stripped hierarchies -/

/-- **What is left of the entries in use `s`** when the paths in `T` are stripped: there, entries may
be gone, and neither a leaf nor an empty table is left. -/
structure Stripped (root : PAddr) (T : Path → Prop) (s s' : Path → Option Entry) : Prop where
  slot : ∀ p, s' p = s p ∨ s' p = none ∧ T p
  leaf : ∀ p, T p → leafIn s' p = none
  bare : ∀ p, T p → ¬ Bare root s' p

namespace Stripped

variable {root t : PAddr} {T : Path → Prop} {s s' s₁ s₂ : Path → Option Entry} {p : Path}
  {mem mem₁ mem₂ : Memory} {e : Entry}

theorem slot_of_some (h : Stripped root T s s') (he : s' p = some e) : s p = some e := by
  rcases h.slot p with hs | ⟨hs, -⟩
  · rw [← hs, he]
  · rw [hs] at he; cases he

theorem slot_off (h : Stripped root T s s') (hp : ¬ T p) : s' p = s p :=
  (h.slot p).resolve_right fun hn => hp hn.2

theorem exists_below (h : Stripped root T s (mem.slot root)) (hp : T p)
    (hs : mem.slot root p ≠ none) : p.length ≤ 3 ∧ ∃ i, mem.slot root (i :: p) ≠ none := by
  cases p with
  | nil => exact absurd rfl hs
  | cons j p =>
    obtain ⟨e, he⟩ := Option.ne_none_iff_exists'.1 hs
    have hleaf : e.isLeafAt (Path.level p) = false := by
      have hn := h.leaf _ hp
      rw [leafIn, he, Option.filter_eq_none_iff] at hn
      exact Bool.eq_false_iff.2 (hn e rfl)
    obtain ⟨t, ht, -, hpres⟩ := Memory.exists_tableAt_of_slot he
    obtain ⟨c, hc⟩ := Entry.exists_link?_of_not_isLeafAt hpres hleaf
    have htable : mem.tableAt root (j :: p) = some c := by
      rw [Memory.tableAt_eq_tableIn, tableIn, he]
      exact hc
    refine ⟨Memory.length_le_of_tableAt htable, ?_⟩
    by_contra hn
    push Not at hn
    exact h.bare _ hp ⟨List.cons_ne_nil j p, ⟨c, Memory.tableAt_eq_tableIn mem root ▸ htable⟩, hn⟩

/-- **Below a table that is left there is an entry off the stripped paths.** -/
theorem exists_off (h : Stripped root T s (mem.slot root)) (hp : T p)
    (hs : mem.slot root p ≠ none) :
    ∃ i q, p <:+ q ∧ ¬ T (i :: q) ∧ mem.slot root (i :: q) ≠ none := by
  obtain ⟨n, hn⟩ : ∃ n, n = 4 - p.length := ⟨_, rfl⟩
  -- down from the table, as long as the entries met are on the paths
  induction n generalizing p with
  | zero =>
    have := (h.exists_below hp hs).1
    omega
  | succ n ih =>
    obtain ⟨-, i, hi⟩ := h.exists_below hp hs
    by_cases hT : T (i :: p)
    · obtain ⟨j, q, hq, hoff⟩ := ih hT hi (by simp only [List.length_cons]; omega)
      exact ⟨j, q, (List.suffix_cons i p).trans hq, hoff⟩
    · exact ⟨i, p, List.suffix_refl p, hT, hi⟩

theorem link_of_slot (h₁ : Stripped root T s₁ (mem₁.slot root))
    (h₂ : Stripped root T s₂ (mem₂.slot root)) (hoff : ∀ p, ¬ T p → s₁ p = s₂ p) (hp : T p)
    (hs : mem₁.slot root p ≠ none) : ∃ t, mem₂.tableAt root p = some t := by
  obtain ⟨i, q, hq, hT, hi⟩ := h₁.exists_off hp hs
  rw [h₁.slot_off hT, hoff _ hT, ← h₂.slot_off hT] at hi
  obtain ⟨e, he⟩ := Option.ne_none_iff_exists'.1 hi
  obtain ⟨t, ht, -⟩ := Memory.exists_tableAt_of_slot he
  exact Memory.exists_tableAt_of_suffix hq ht

/-- **There is one stripped hierarchy at most**, over entries that differ on the stripped paths
only. -/
theorem slot_eq (h₁ : Stripped root T s₁ (mem₁.slot root))
    (h₂ : Stripped root T s₂ (mem₂.slot root)) (hT : ¬ T []) (hoff : ∀ p, ¬ T p → s₁ p = s₂ p)
    (hlink : ∀ i p t, tableIn root s₂ (i :: p) = some t → s₁ (i :: p) = s₂ (i :: p)) :
    mem₁.slot root = mem₂.slot root := by
  funext p
  by_cases hp : T p
  · cases p with
    | nil => exact absurd hp hT
    | cons i p =>
      cases h : mem₂.slot root (i :: p) with
      | none =>
        by_contra hne
        obtain ⟨t, ht⟩ := h₁.link_of_slot h₂ hoff hp hne
        rw [Memory.tableAt_eq_tableIn, tableIn, h] at ht
        cases ht
      | some e =>
        have hne : mem₂.slot root (i :: p) ≠ none := by simp [h]
        obtain ⟨t, ht⟩ := h₂.link_of_slot h₁ (fun p hp => (hoff p hp).symm) hp hne
        obtain ⟨t', ht'⟩ := h₂.link_of_slot h₂ (fun _ _ => rfl) hp hne
        rw [Memory.tableAt_eq_tableIn] at ht ht'
        obtain ⟨e', he', -⟩ := Option.bind_eq_some_iff.1 ht
        have hs₂ : tableIn root s₂ (i :: p) = some t' := by
          rw [tableIn, h, ← h₂.slot_of_some h] at ht'
          exact ht'
        rw [he', ← h₁.slot_of_some he', hlink i p t' hs₂, h₂.slot_of_some h]
  · rw [h₁.slot_off hp, h₂.slot_off hp, hoff p hp]

end Stripped

namespace Machine

variable {α : Type} [FrameSource α] {used others : Set PAddr} {root c : PAddr} {v : VAddr}
  {w : Widths} {s : Span} {a : Attributes} {x : MapError} {xs ys : List Edit} {n i left : Nat}
  {o : Option MapError} {p : Path} {m m' m₁ : Machine α}

/-! ## The two ways -/

/-- **Unwinding strips the trails of its pages.** -/
theorem Owns.stripped_unwind (h : Owns used others root m) (v : VAddr) (n : Nat) :
    Stripped root (OnTrails v n) (m.memory.slot root) ((m.unwind root v n).memory.slot root) := by
  induction n with
  | zero =>
    have hnone : ∀ p, ¬ OnTrails v 0 p := fun p ⟨i, hi, _⟩ => absurd hi (Nat.not_lt_zero i)
    exact ⟨fun _ => .inl rfl, fun p hp => absurd hp (hnone p), fun p hp => absurd hp (hnone p)⟩
  | succ n ih =>
    have ho := (h.unwind v n).1.owns
    obtain ⟨ho', hc⟩ := ho.unmapPage (v.addPages n)
    rw [unwind_succ]
    refine ⟨fun p => ?_, fun p hp => ?_, fun p hp => ?_⟩
    · rcases hc.slot p with he | ⟨he, k, hk, hp⟩
      · rw [he]
        exact (ih.slot p).imp_right fun hn => ⟨hn.1, hn.2.mono (Nat.le_succ n)⟩
      · exact .inr ⟨he, n, Nat.lt_succ_self n, k, hk, hp⟩
    · obtain ⟨i, hi, k, hk, rfl⟩ := hp
      rcases Nat.lt_or_eq_of_le (Nat.le_of_lt_succ hi) with hi | rfl
      · have hn := ih.leaf _ ⟨i, hi, k, hk, rfl⟩
        rw [Option.eq_none_iff_forall_ne_some] at hn ⊢
        exact fun e he => hn e (leafIn_of_le (fun _ _ => hc.slot_of_some) he)
      · exact hc.leaf k hk
    · obtain ⟨i, hi, k, hk, rfl⟩ := hp
      rcases Nat.lt_or_eq_of_le (Nat.le_of_lt_succ hi) with hi | rfl
      · exact fun hb => ih.bare _ ⟨i, hi, k, hk, rfl⟩ (ho'.bare _ hb)
      · exact ho.not_bare_unmapPage _ hk

/-- **What each page of a prefix keeps, the prefix keeps.** -/
theorem Owns.mapPrefix_induct {P : Memory → Prop} (h : Owns used others root m)
    (hrun : m.mapPrefix w root s a left i = (n, o, m'))
    (page : ∀ j (m₁ m₂ : Machine α), i ≤ j → j < n →
      Laid root (s.virt.addPages j) 3 a.encode.asLeaf (s.phys.addPages j) (m₁.memory.slot root)
        (m₂.memory.slot root) → P m₁.memory → P m₂.memory)
    (failed : ∀ m₁ m₂ : Machine α, m₂.memory.slot root = m₁.memory.slot root →
      P m₁.memory → P m₂.memory)
    (hP : P m.memory) : P m'.memory := by
  induction left generalizing i m with
  | zero =>
    cases hrun
    exact hP
  | succ left ih =>
    rw [Machine.mapPrefix] at hrun
    split at hrun
    · rename_i m₁ hp
      have ho := (h.mapPage_ok hp).1.owns
      have hn : i < n := (ho.mapPrefix hrun).2.2.1
      exact ih ho hrun (fun j m₁ m₂ hj => page j m₁ m₂ (Nat.le_of_lt hj))
        (page i m m₁ (Nat.le_refl i) hn (h.laid_mapPage hp) hP)
    · rename_i e m₁ hp
      cases hrun
      exact failed m m' (h.mapPage_error hp).2 hP

theorem Owns.slot_mapPrefix (h : Owns used others root m)
    (hrun : m.mapPrefix w root s a left i = (n, o, m')) :
    (∀ p, (∀ j, i ≤ j → j < n → ∀ k, 0 < k → p ≠ (s.virt.addPages j).trail k) →
      m'.memory.slot root p = m.memory.slot root p) ∧
    ∀ j p t, tableIn root (m.memory.slot root) (j :: p) = some t →
      m'.memory.slot root (j :: p) = m.memory.slot root (j :: p) := by
  refine h.mapPrefix_induct (P := fun mem =>
    (∀ p, (∀ j, i ≤ j → j < n → ∀ k, 0 < k → p ≠ (s.virt.addPages j).trail k) →
      mem.slot root p = m.memory.slot root p) ∧
    ∀ j p t, tableIn root (m.memory.slot root) (j :: p) = some t →
      mem.slot root (j :: p) = m.memory.slot root (j :: p)) hrun ?_ (fun m₁ m₂ hs hm => hs ▸ hm)
    ⟨fun _ _ => rfl, fun _ _ _ _ => rfl⟩
  rintro j m₁ m₂ hj hj' hlaid ⟨hoff, hlink⟩
  refine ⟨fun p hp => ?_, fun k p t ht => ?_⟩
  · rw [← hoff p hp]
    exact hlaid.slot_off (hp j hj hj')
  · have hs := hlink k p t ht
    rw [hlaid.link ((tableIn_congr hs).trans ht), hs]

/-! ## Frames that a failed call was granted -/

theorem Owns.holds_step {x : Edit} (h : Owns used others root m) (hx : Step root x m m')
    (hn : ¬ x.Unlinks) : (∀ t, m.Holds t → m'.Holds t) ∧
      ∀ q i c f, x = .link q i c f → ¬ m.Holds c := by
  cases hx with
  | link f parent above vacant request =>
    obtain ⟨hfresh, -, -, hh, -⟩ := allocate_some h.honest request
    refine ⟨fun t ht => (hh t).2 (.inr ht), fun q i c f he => ?_⟩
    cases he
    exact hfresh
  | put parent free leaf => exact ⟨fun t ht => ht, nofun⟩
  | clear parent leaf => exact ⟨fun t ht => ht, nofun⟩
  | unlink notices parent child empty => exact absurd ⟨_, _, _, rfl⟩ hn

theorem Owns.holds_steps (h : Owns used others root m) (hx : Steps root xs m m')
    (hn : ∀ x ∈ xs, ¬ x.Unlinks) : (∀ t, m.Holds t → m'.Holds t) ∧
      ∀ q i c f, .link q i c f ∈ xs → ¬ m.Holds c := by
  induction hx with
  | refl => exact ⟨fun t ht => ht, nofun⟩
  | @quiet xs m m₁ m' first rest ih =>
    obtain ⟨ho, hm⟩ := h.quiet first
    have hh : ∀ t, m₁.Holds t ↔ m.Holds t := by
      intro t
      rw [ho.holds_iff, h.holds_iff, hm]
    obtain ⟨hkeep, hnew⟩ := ih ho hn
    exact ⟨fun t ht => hkeep t ((hh t).2 ht),
      fun q i c f hl ht => hnew q i c f hl ((hh c).2 ht)⟩
  | edit first rest ih =>
    obtain ⟨hn₁, hn⟩ := List.forall_mem_cons.1 hn
    obtain ⟨hkeep₁, hnew₁⟩ := h.holds_step first hn₁
    obtain ⟨hkeep, hnew⟩ := ih (h.step first).1 hn
    refine ⟨fun t ht => hkeep t (hkeep₁ t ht), fun q i c f hl ht => ?_⟩
    rcases List.mem_cons.1 hl with hl | hl
    · exact hnew₁ q i c f hl.symm ht
    · exact hnew q i c f hl (hkeep₁ c ht)

theorem Owns.granted_of_phased {V : Set VAddr} (h : Owns used others root m)
    (hp : Phased V root m m') :
    ∃ es, m'.history = m.history ++ es ∧ ∀ c t, .granted c t ∈ es → ¬ m.Holds c := by
  obtain ⟨m₁, ⟨xs, hx, hadds⟩, ys, hy, hdrops⟩ := hp
  obtain ⟨es, htrace⟩ := h.exists_trace hx.steps
  obtain ⟨es', htrace'⟩ := (h.steps hx.steps).1.exists_trace hy.steps
  refine ⟨es ++ es', (htrace.append htrace').history, fun c t hc => ?_⟩
  rcases List.mem_append.1 hc with hc | hc
  · obtain ⟨q, i, f, hl⟩ := htrace.granted c t hc
    refine (h.holds_steps hx.steps fun x hx hu => ?_).2 q i c f hl
    cases (hadds x hx).symm.trans hu.adds
  · obtain ⟨q, i, f, hl⟩ := htrace'.granted c t hc
    cases hdrops _ hl

/-! ## The hierarchies that they end in -/

/-- **Two machines with the same hierarchy**: the same entries in use in the same tables, so the same
outcome of each walk, and the same frames out. -/
structure SameHierarchy (root : PAddr) (m m' : Machine α) : Prop where
  tableAt : m'.memory.tableAt root = m.memory.tableAt root
  slot : m'.memory.slot root = m.memory.slot root
  walk : ∀ v, m'.memory.walk root v = m.memory.walk root v
  holds : ∀ t, m'.Holds t ↔ m.Holds t

theorem Owns.sameHierarchy (h : Owns used others root m) (h' : Owns used others root m')
    (hs : m'.memory.slot root = m.memory.slot root) : SameHierarchy root m m' := by
  have ht := Memory.tableAt_of_slot hs
  refine ⟨ht, hs, Memory.walk_of_slot hs, fun t => ?_⟩
  rw [h'.holds_iff, h.holds_iff, ht]

theorem Owns.holds_of_extends {t : PAddr} (h : Owns used others root m)
    (h' : Owns used others root m') (hx : m'.memory.Extends root m.memory) (ht : m'.Holds t) :
    m.Holds t := by
  rw [h'.holds_iff] at ht
  rw [h.holds_iff]
  exact ht.imp id fun ⟨p, hp, ht⟩ => ⟨p, hp, hx p t ht⟩

theorem lt_of_mapPrefix (hrun : m.mapPrefix w root s a left i = (n, some x, m')) :
    n < i + left := by
  induction left generalizing i m with
  | zero => cases hrun
  | succ left ih =>
    rw [Machine.mapPrefix] at hrun
    split at hrun
    · have := ih hrun
      omega
    · cases hrun
      omega

theorem Owns.sameHierarchy_unwind (h : Owns used others root m)
    (hrun : m.mapPrefix w root s a left 0 = (n, o, m₁)) (hm : m'.memory = m₁.memory)
    (hf : m'.frames = m₁.frames) :
    SameHierarchy root (m.unwind root s.virt n) (m'.unwind root s.virt n) := by
  have ho := (h.mapPrefix hrun).1.owns.congr hm hf
  obtain ⟨hoff, hlink⟩ := h.slot_mapPrefix hrun
  have h₁ := ho.stripped_unwind s.virt n
  have h₂ := h.stripped_unwind s.virt n
  refine (h.unwind s.virt n).1.owns.sameHierarchy (ho.unwind s.virt n).1.owns ?_
  rw [hm] at h₁
  exact h₁.slot_eq h₂ not_onTrails_nil
    (fun p hp => hoff p fun j _ hj k hk he => hp ⟨j, hj, k, hk, he⟩) hlink

theorem Owns.granted_of_mapPrefix (h : Owns used others root m)
    (hmap : m.mapPrefix w root s a left 0 = (n, some x, m₁)) (failed : Notice) :
    ∃ es, ((m₁.note failed).unwind root s.virt n).history = m.history ++ es ∧
      ∀ c t, .granted c t ∈ es → ¬ m.Holds c := by
  have ho₁ := (h.mapPrefix hmap).1.owns.congr (memory_note m₁ failed) (frames_note _ _)
  have hmapped : Phased .univ root m m₁ := h.phased_mapPrefix (fun v _ => Set.mem_univ v) hmap
  have hnote : Drops .univ root m₁ (m₁.note failed) := .ofSilent (.note _ _)
  exact h.granted_of_phased (hmapped.then_drops (hnote.trans (ho₁.drops_unwind fun _ _ =>
    Set.mem_univ _)))

theorem Owns.target?_of_not_mapped (h : Owns used others root m) (hw : w.virt ≤ 48)
    (hv : w.admitsPages s.virt s.pages = true) (hrun : m.mapSpan w root s a = (.error x, m'))
    {j b : Nat} (hj : m.pagesMapped w root s a ≤ j) (hjs : j < s.pages) (hb : b < 4096) :
    (m'.memory.walk root (s.virt.addPages j + BitVec.ofNat 64 b)).target? =
      (m.memory.walk root (s.virt.addPages j + BitVec.ofNat 64 b)).target? := by
  have hpage : ∀ k < s.pages, w.admitsPage (s.virt.addPages k) = true := fun k hk =>
    Widths.admitsPage_of_admitsPages hv hk
  have htrail := Address.trail_add_of_lt (Widths.isAligned_of_admitsPage (hpage j hjs)) hb
  rw [h.target?_mapSpan_error hrun, if_neg]
  rintro ⟨k, hk, he⟩
  have hkj : k < j := Nat.lt_of_lt_of_le hk hj
  have := path_inj hw (Widths.of_admitsPages hv).2 hpage hjs (hkj.trans hjs) (htrail.symm.trans he)
  omega

/-- **A call that fails at page `i` does what unmapping the first `i` pages of its span does.** -/
theorem WellFormed.mapSpan_error_eq_unmapPages (h : WellFormed used root m) (hw : w.virt ≤ 48)
    (hv : w.admitsPages s.virt s.pages = true) (hp : w.admitsFrames s.phys s.pages = true)
    (hrun : m.mapSpan w root s a = (.error x, m')) :
    ∃ i < s.pages, (∃ m₁, m.mapPrefix w root s a s.pages 0 = (i, some x, m₁)) ∧
      (m.unmapPages w root s.virt i).1 = .ok () ∧
      SameHierarchy root (m.unmapPages w root s.virt i).2 m' ∧
      (∃ es, m'.history = m.history ++ es ∧ ∀ c t, .granted c t ∈ es → ¬ m'.Holds c) ∧
      ∀ j, i ≤ j → j < s.pages → ∀ o < 4096,
        (m'.memory.walk root (s.virt.addPages j + BitVec.ofNat 64 o)).target? =
          (m.memory.walk root (s.virt.addPages j + BitVec.ofNat 64 o)).target? := by
  have ho := h.owns
  have hadmit : ¬ (!w.admitsPages s.virt s.pages || !w.admitsFrames s.phys s.pages) = true := by
    simp [hv, hp]
  have hlater : ∀ j, m.pagesMapped w root s a ≤ j → j < s.pages → ∀ o < 4096, _ :=
    fun j hj hjs o hlt => ho.target?_of_not_mapped hw hv hrun hj hjs hlt
  rw [pagesMapped, if_neg hadmit] at hlater
  rw [Machine.mapSpan, if_neg hadmit, mapSpanFrom_eq] at hrun
  split at hrun
  · cases hrun
  · rename_i i e m₁ hmap
    cases hrun
    rw [hmap] at hlater
    have hi : i < s.pages := Nat.zero_add s.pages ▸ lt_of_mapPrefix hmap
    have hunmap : m.unmapPages w root s.virt i = _ :=
      unmapPages_eq (Widths.admitsPages_of_le hv hi.le) m
    have hsame := ho.sameHierarchy_unwind hmap
      (memory_note m₁ (.runFailed s.pages s.virt i x)) (frames_note _ _)
    obtain ⟨hu, hx, -⟩ := ho.unwind s.virt i
    obtain ⟨es, hes, hnew⟩ := ho.granted_of_mapPrefix hmap (.runFailed s.pages s.virt i x)
    refine ⟨i, hi, ⟨m₁, hmap⟩, by rw [hunmap], by rw [hunmap]; exact hsame, ⟨es, hes, ?_⟩, hlater⟩
    intro c t hc hheld
    exact hnew c t hc (ho.holds_of_extends hu.owns hx ((hsame.holds c).1 hheld))

theorem sameHierarchy_full :
    SameHierarchy ⟨0x1000⟩
      (Kernel.full.machine.unmapPages Kernel.full.widths ⟨0x1000⟩ Kernel.twoPages.virt 1).2
      (Kernel.full.machine.mapSpan Kernel.full.widths ⟨0x1000⟩ Kernel.twoPages ∅).2 := by
  have hrun : Kernel.full.machine.mapSpan Kernel.full.widths ⟨0x1000⟩ Kernel.twoPages ∅ =
      (.error .outOfFrames, _) := Prod.fst_eq_iff.1 (by decide +kernel)
  obtain ⟨i, -, ⟨m₁, hmap⟩, -, hsame, -⟩ :=
    Kernel.wellFormed_full.mapSpan_error_eq_unmapPages (by decide) (by decide) (by decide) hrun
  have hi : (Kernel.full.machine.mapPrefix Kernel.full.widths ⟨0x1000⟩ Kernel.twoPages ∅
      Kernel.twoPages.pages 0).1 = 1 := by decide +kernel
  rw [hmap] at hi
  obtain rfl : i = 1 := hi
  exact hsame

end Machine

end VirtualMemory
