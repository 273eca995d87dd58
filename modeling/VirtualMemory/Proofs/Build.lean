import VirtualMemory.Mapping.Build
import VirtualMemory.Proofs.Ownership
import VirtualMemory.Proofs.Walk

/-!
# What mapping a page does

A call goes down the trail of its address and links the tables that are missing. Linking a table
moves no leaf, so a call that takes back its tables has changed nothing, and one that goes through
has changed one leaf.

* `Chain`: the tables made so far, and the entries in use before and after;
* `Machine.Descent`: how far a call has come, kept by each step down (`Descent.makePath`);
* **`Owns.takeBack`**: taking tables back restores every entry in use;
* `writeLeaf_eq_ok`, `writeLeaf_eq_error`: the two outcomes of a call, and
  **`Owns.writeLeaf_ok`**, **`Owns.writeLeaf_error`**: what they do to the hierarchy.
-/

namespace VirtualMemory

/-! ## Tables made one after the other -/

/-- **The tables made**, newest first, on the way from the entries in use `s₀` to others. -/
inductive Chain (root : PAddr) (s₀ : Path → Option Entry) :
    List NewTable → (Path → Option Entry) → Prop where
  | nil : Chain root s₀ [] s₀
  | cons {made : List NewTable} {s : Path → Option Entry} {q : Path} {i : Index} {t c : PAddr}
      {e : Entry} (rest : Chain root s₀ made s) (parent : tableIn root s q = some t)
      (vacant : s (i :: q) = none) (below : ∀ j, s (j :: i :: q) = none)
      (link : e.link? (Path.level q) = some c) :
      Chain root s₀ (⟨t, i, c⟩ :: made) (Function.update s (i :: q) (some e))

namespace Chain

variable {root t : PAddr} {s₀ s : Path → Option Entry} {made : List NewTable} {p : Path}

theorem leafIn_eq (h : Chain root s₀ made s) : leafIn s = leafIn s₀ := by
  induction h with
  | nil => rfl
  | cons _ _ vacant _ link ih => rw [leafIn_update_of_link vacant link, ih]

theorem tableIn_of_tableIn (h : Chain root s₀ made s) (ht : tableIn root s₀ p = some t) :
    tableIn root s p = some t := by
  induction h with
  | nil => exact ht
  | @cons _ _ q i _ _ _ _ _ vacant _ _ ih =>
    rw [tableIn_update, Function.update_of_ne, ih]
    rintro rfl
    rw [tableIn, vacant] at ih
    cases ih

end Chain

namespace Machine

variable {α : Type} [FrameSource α] {used others : Set PAddr} {root t u p : PAddr}
  {v : VAddr} {d k n : Nat} {made made' : List NewTable} {m₀ m m' : Machine α}

theorem Owns.takeBack_newest {s₀ : Path → Option Entry} {new : NewTable}
    (h : Owns used others root m) (hc : Chain root s₀ (new :: made) (m.memory.slot root)) :
    let m' := (m.disable new.parent new.index).release new.table
    Owns used others root m' ∧ Chain root s₀ made (m'.memory.slot root) ∧
      Confined (elsewhere used others root) m m' := by
  generalize hs : m.memory.slot root = s at hc
  cases hc with
  | @cons _ s q i t c e rest parent vacant below link =>
    have hq : m.memory.tableAt root q = some t := by
      rw [Memory.tableAt_eq_tableIn, hs, tableIn_update,
        Function.update_of_ne (List.cons_ne_self i q).symm, parent]
    have hc : m.memory.tableAt root (i :: q) = some c := by
      rw [Memory.tableAt_eq_tableIn, hs, tableIn_update, Function.update_self]
      exact link
    have hb : ∀ j, m.memory.slot root (j :: i :: q) = none := fun j => by
      rw [hs, Function.update_of_ne (List.cons_ne_self j (i :: q)), below]
    obtain ⟨h', hs', -, hk⟩ := h.unlink hq hc hb
      (show (m.disable t i).memory = _ from rfl) rfl
    rw [hs, Function.update_idem, ← vacant, Function.update_eq_self] at hs'
    exact ⟨h', hs' ▸ rest, (Confined.disable (h.notMem_elsewhere hq)).trans hk⟩

theorem Owns.takeBack_foldl {s₀ : Path → Option Entry} (h : Owns used others root m)
    (hc : Chain root s₀ made (m.memory.slot root)) :
    let m' := made.foldl (fun m t => (m.disable t.parent t.index).release t.table) m
    Owns used others root m' ∧ m'.memory.slot root = s₀ ∧
      Confined (elsewhere used others root) m m' := by
  induction made generalizing m with
  | nil =>
    have hs : m.memory.slot root = s₀ := by
      generalize m.memory.slot root = s at hc
      cases hc; rfl
    exact ⟨h, hs, .refl m⟩
  | cons new made ih =>
    obtain ⟨h', hc', hk⟩ := h.takeBack_newest hc
    obtain ⟨ho, hs, hk'⟩ := ih h' hc'
    exact ⟨ho, hs, hk.trans hk'⟩

/-- **Taking back the tables of a chain** restores the entries that were in use before it. -/
theorem Owns.takeBack {s₀ : Path → Option Entry} (h : Owns used others root m)
    (hc : Chain root s₀ made (m.memory.slot root)) :
    Owns used others root (m.takeBack made) ∧ (m.takeBack made).memory.slot root = s₀ ∧
      Confined (elsewhere used others root) m (m.takeBack made) := by
  unfold Machine.takeBack
  split
  · rename_i hm
    obtain rfl := List.isEmpty_iff.1 hm
    exact h.takeBack_foldl hc
  · obtain ⟨ho, hs, hk⟩ := (h.congr (memory_note m (.takingBack made.length))
      (frames_note _ _)).takeBack_foldl (by rwa [memory_note])
    exact ⟨ho, hs, (Confined.note _).trans hk⟩

/-! ## The way down -/

/-- **How far a call has come** since `m₀`: it stands at the table `t`, `d` steps down the trail of
`v`, and has made the tables `made`. The last of them may be bare. -/
structure Descent (used others : Set PAddr) (root : PAddr) (v : VAddr) (m₀ : Machine α) (d : Nat)
    (t : PAddr) (made : List NewTable) (m : Machine α) : Prop where
  owns : Owns used others root m
  confined : Confined (elsewhere used others root) m₀ m
  chain : Chain root (m₀.memory.slot root) made (m.memory.slot root)
  here : m.memory.tableAt root (v.trail d) = some t
  bare : ∀ p, Bare root (m.memory.slot root) p →
    p = v.trail d ∨ Bare root (m₀.memory.slot root) p
  vacant : made ≠ [] → ∀ j, m.memory.slot root (j :: v.trail d) = none

namespace Descent

theorem start (h : Owns used others root m) : Descent used others root v m 0 root [] m :=
  ⟨h, .refl m, .nil, rfl, fun _ hp => .inr hp, fun hn => absurd rfl hn⟩

variable (h : Descent used others root v m₀ d t made m) (hd : d + k = 3)

include h hd

theorem inUse?_eq : (if made.isEmpty then m.entry t ((Level.ofHeight k).index v)
      else Entry.empty).inUse? = m.memory.slot root (v.trail (d + 1)) := by
  rw [v.trail_succ hd]
  split
  · rw [Memory.slot_cons h.here]; rfl
  · rename_i hm
    rw [h.vacant (by rintro rfl; exact hm rfl)]; rfl

theorem follow {e : Entry} (he : e.inUse? = m.memory.slot root (v.trail (d + 1)))
    (hl : e.link? (.ofHeight k) = some u) : Descent used others root v m₀ (d + 1) u made m := by
  have hs : m.memory.slot root (v.trail (d + 1)) = some e := by
    rw [← he, Entry.inUse?_of_isPresent (Entry.isPresent_of_link? hl)]
  rw [v.trail_succ hd] at hs
  refine ⟨h.owns, h.confined, h.chain, ?_, fun p hp => ?_, fun hm => ?_⟩
  · rw [Memory.tableAt_eq_tableIn, v.trail_succ hd, tableIn, hs, v.level_trail_of hd]
    exact hl
  · rcases h.bare p hp with rfl | hp₀
    · rw [hp.2.2] at hs; cases hs
    · exact .inr hp₀
  · rw [h.vacant hm] at hs; cases hs

theorem make (hk : k ≠ 0) (hs : m.memory.slot root (v.trail (d + 1)) = none) {m₁ : Machine α}
    (ha : m.allocate = (some u, m₁)) (f : EntryFlags) (n : Notice) :
    Descent used others root v m₀ (d + 1) u
      (⟨t, (Level.ofHeight k).index v, u⟩ :: made)
      (((m₁.zero u).write t ((Level.ofHeight k).index v) (.make u f.asLink)).note n) := by
  have hl := v.level_trail_of hd
  have hne := v.level_trail_ne_pt (show d < 3 by omega)
  rw [v.trail_succ hd] at hs
  obtain ⟨ho, hs', ht', hu⟩ := h.owns.link h.here hne hs ha f
    (memory_note ((m₁.zero u).write t ((Level.ofHeight k).index v) (.make u f.asLink)) n)
    (frames_note _ _)
  have hlink : (Entry.make u f.asLink).link? (Path.level (v.trail d)) = some u := by
    have := congrFun ht' ((Level.ofHeight k).index v :: v.trail d)
    rwa [Function.update_self, Memory.tableAt_eq_tableIn, tableIn, hs', Function.update_self] at this
  have below := Memory.slot_cons_of_slot_eq_none hs
  refine ⟨ho, ?_, ?_, ?_, fun p hp => ?_, fun _ j => ?_⟩
  · exact h.confined.trans ((Confined.allocate_some h.owns.honest ha hu).trans
      ((Confined.zero hu).trans ((Confined.write _ (h.owns.notMem_elsewhere h.here)).trans
        (.note n))))
  · rw [hs']
    exact .cons h.chain (by rw [← Memory.tableAt_eq_tableIn, h.here]) hs below hlink
  · rw [ht', v.trail_succ hd, Function.update_self]
  · rw [hs'] at hp
    obtain ⟨hpd, rfl | hp⟩ := hp.of_update_some
    · exact .inl (v.trail_succ hd).symm
    · exact (h.bare p hp).imp (absurd · hpd) id
  · rw [hs', v.trail_succ hd, Function.update_of_ne (List.cons_ne_self j _), below]

end Descent

/-- **A call that goes down** to the leaf's table arrives there, or can take back its tables. -/
theorem Descent.makePath {leaf : Level} {f : EntryFlags} {r : Except MapError PAddr}
    (h : Descent used others root v m₀ d t made m) (hd : d + (leaf.height + n) = 3)
    (hrun : m.makePath v f.asLink leaf n t made = (r, made', m')) :
    (∀ u, r = .ok u → Descent used others root v m₀ (3 - leaf.height) u made' m') ∧
      Owns used others root m' ∧ Chain root (m₀.memory.slot root) made' (m'.memory.slot root) ∧
      Confined (elsewhere used others root) m₀ m' := by
  -- on the levels still to go; each step down keeps the `Descent`
  induction n generalizing d t made m with
  | zero =>
    cases hrun
    obtain rfl : d = 3 - leaf.height := by omega
    exact ⟨fun u hu => by cases hu; exact h, h.owns, h.chain, h.confined⟩
  | succ n ih =>
    have hd' : d + (leaf.height + n + 1) = 3 := by omega
    have he := h.inUse?_eq hd'
    rw [Machine.makePath] at hrun
    generalize (if made.isEmpty then m.entry t ((Level.ofHeight (leaf.height + n + 1)).index v)
      else Entry.empty) = e at he hrun
    simp only at hrun
    split at hrun
    · cases hrun
      exact ⟨nofun, h.owns, h.chain, h.confined⟩
    · rename_i child hr
      exact ih (h.follow hd' he (Entry.link?_eq_some_iff.2 hr)) (by omega) hrun
    · rename_i hr
      have hs : m.memory.slot root (v.trail (d + 1)) = none := by
        rw [← he, Entry.inUse?_of_not_isPresent ((Entry.role_eq_absent_iff _ _).1 hr)]
      split at hrun
      · rename_i m₁ ha
        cases hrun
        obtain ⟨ho, hm, hk⟩ := h.owns.refused ha
        exact ⟨nofun, ho, hm ▸ h.chain, h.confined.trans hk⟩
      · rename_i child m₁ ha
        exact ih (h.make hd' (Nat.succ_ne_zero _) hs ha f _) (by omega) hrun

/-! ## The leaf -/

theorem Owns.undo (h : Owns used others root m)
    (hc : Chain root (m₀.memory.slot root) made (m.memory.slot root))
    (hk : Confined (elsewhere used others root) m₀ m) :
    Orderly used others root m₀ (m.takeBack made) ∧
      (m.takeBack made).memory.slot root = m₀.memory.slot root := by
  obtain ⟨ho, hs, hk'⟩ := h.takeBack hc
  exact ⟨⟨ho, hk.trans hk', fun p hp => hs ▸ hp⟩, hs⟩

theorem writeLeaf_eq_error {leaf : Level} {f : EntryFlags} {x : MapError}
    (hrun : m.writeLeaf root p v leaf f = (.error x, m')) :
    ∃ r made m₁, m.makePath v f.asLink leaf (3 - leaf.height) root [] = (r, made, m₁) ∧
      m' = m₁.takeBack made := by
  unfold writeLeaf at hrun
  split at hrun
  · rename_i made m₁ hp
    cases hrun
    exact ⟨_, made, m₁, hp, rfl⟩
  · rename_i u made m₁ hp
    simp only at hrun
    split at hrun
    · cases hrun
      exact ⟨_, made, m₁, hp, rfl⟩
    · cases hrun
    · cases hrun

theorem writeLeaf_eq_ok {leaf : Level} {f : EntryFlags}
    (hrun : m.writeLeaf root p v leaf f = (.ok (), m')) :
    ∃ u made m₁, m.makePath v f.asLink leaf (3 - leaf.height) root [] = (.ok u, made, m₁) ∧
      ((m₁.entry u (leaf.index v)).role leaf = .absent ∧
          m' = m₁.write u (leaf.index v) (.make p f) ∨
        (m₁.entry u (leaf.index v)).role leaf = .leaf ∧
          m' = (m₁.write u (leaf.index v) (.make p f)).flush v) := by
  unfold writeLeaf at hrun
  split at hrun
  · cases hrun
  · rename_i u made m₁ hp
    refine ⟨u, made, m₁, hp, ?_⟩
    simp only at hrun
    split at hrun
    · cases hrun
    · rename_i hr
      cases hrun
      exact .inl ⟨hr, rfl⟩
    · rename_i hr
      cases hrun
      exact .inr ⟨hr, rfl⟩

/-- **A call that fails changes no entry in use.** -/
theorem Owns.writeLeaf_error {leaf : Level} {f : EntryFlags} {x : MapError}
    (h : Owns used others root m) (hrun : m.writeLeaf root p v leaf f = (.error x, m')) :
    Orderly used others root m m' ∧ m'.memory.slot root = m.memory.slot root := by
  have hd : 0 + (leaf.height + (3 - leaf.height)) = 3 := by cases leaf <;> rfl
  obtain ⟨r, made, m₁, hp, rfl⟩ := writeLeaf_eq_error hrun
  obtain ⟨-, ho, hc, hk⟩ := (Descent.start h).makePath hd hp
  exact ho.undo hc hk

theorem Descent.put {i : Index} {e : Entry} (h : Descent used others root v m₀ d t made m)
    (he : e.isPresent = true ∧ e.isLeafAt (Path.level (v.trail d)) = true)
    (hn : (m.entry t i).link? (Path.level (v.trail d)) = none)
    (hm : m'.memory = m.memory.set t i e) (hf : m'.frames = m.frames)
    (hk : Confined (elsewhere used others root) m m') :
    Orderly used others root m₀ m' ∧
      (∀ q u, m₀.memory.tableAt root q = some u → m'.memory.tableAt root q = some u) ∧
      m'.memory.leaf root =
        Function.update (m₀.memory.leaf root) (i :: v.trail d) (some e) := by
  have hi : m.memory.tableAt root (i :: v.trail d) = none := by
    rw [Memory.tableAt_cons h.here]; exact hn
  obtain ⟨ho, hs, ht⟩ := h.owns.put h.here hi (Entry.link?_of_isLeafAt he.2) hm hf
  rw [Entry.inUse?_of_isPresent he.1] at hs
  refine ⟨⟨ho, h.confined.trans hk, fun q hq => ?_⟩, fun q u hu => ?_, ?_⟩
  · rw [hs] at hq
    obtain ⟨hne, hq⟩ := hq.of_update_leaf he.2
    exact (h.bare q hq).resolve_left hne
  · rw [Memory.tableAt_eq_tableIn] at hu
    rw [ht, Memory.tableAt_eq_tableIn]
    exact h.chain.tableIn_of_tableIn hu
  · rw [Memory.leaf, hs, leafIn_update_of_leaf he.2, h.chain.leafIn_eq]
    rfl

/-- **A call that goes through changes one leaf**, and moves no table. -/
theorem Owns.writeLeaf_ok {leaf : Level} {f : EntryFlags} (h : Owns used others root m)
    (hf : (Entry.make p f).isPresent = true ∧ (Entry.make p f).isLeafAt leaf = true)
    (hrun : m.writeLeaf root p v leaf f = (.ok (), m')) :
    Orderly used others root m m' ∧
      (∀ q t, m.memory.tableAt root q = some t → m'.memory.tableAt root q = some t) ∧
      m'.memory.leaf root = Function.update (m.memory.leaf root) (v.trail (4 - leaf.height))
        (some (.make p f)) := by
  have hd : 0 + (leaf.height + (3 - leaf.height)) = 3 := by cases leaf <;> rfl
  have hl := v.level_trail_height leaf
  rw [v.trail_height]
  obtain ⟨u, made, m₁, hp, hput⟩ := writeLeaf_eq_ok hrun
  obtain ⟨hD, -⟩ := (Descent.start h).makePath hd hp
  have hD := hD u rfl
  have hw : Confined (elsewhere used others root) m₁ (m₁.write u (leaf.index v) (.make p f)) :=
    .write _ (hD.owns.notMem_elsewhere hD.here)
  rcases hput with ⟨hr, rfl⟩ | ⟨hr, rfl⟩
  · exact hD.put (hl.symm ▸ hf) (by rw [hl, Entry.link?, hr]) rfl rfl hw
  · exact hD.put (hl.symm ▸ hf) (by rw [hl, Entry.link?, hr]) rfl rfl (hw.trans (.flush v))

end Machine

end VirtualMemory
