import VirtualMemory.Proofs.Hierarchy

/-!
# Walks and leaves

A walk goes along the trail of its address and ends at the only leaf that lies on it.

* `Address.trail`: the paths that a walk reads, the one of length `d` after `d` steps;
* `walk_cases`: a walk ends at a leaf (`walk_eq_ofLeaf`) or at an entry not in use
  (`walk_eq_missing`);
* **`target?_walk_eq_none_iff`**, **`walk_eq_mapped_iff`**, **`walk_eq_missing_iff`**: where it ends;
* `target?_walk_congr`: what an address maps to depends on the leaves of its trail alone;
* `mem_visits_iff`: the entries that a walk reads.
-/

namespace VirtualMemory

theorem Level.succ_depth (l : Level) : 3 - l.height + 1 = 4 - l.height := by
  have := l.height_le
  omega

namespace Address

/-- **The path of the first `d` steps of a walk** for `v`. -/
def trail (v : VAddr) : Nat → Path
  | 0 => []
  | d + 1 => (Level.ofHeight (3 - d)).index v :: trail v d

variable {v v' : VAddr} {d d' : Nat}

@[simp] theorem length_trail (v : VAddr) (d : Nat) : (v.trail d).length = d := by
  induction d with
  | zero => rfl
  | succ d ih => rw [trail, List.length_cons, ih]

theorem trail_ne_trail (h : d ≠ d') : v.trail d ≠ v'.trail d' := fun he =>
  h (by simpa using congrArg List.length he)

@[simp] theorem level_trail (v : VAddr) (d : Nat) :
    Path.level (v.trail d) = .ofHeight (3 - d) := by
  rw [Path.level, length_trail]

theorem trail_succ (v : VAddr) {k : Nat} (h : d + k = 3) :
    v.trail (d + 1) = (Level.ofHeight k).index v :: v.trail d := by
  rw [trail, ← h, Nat.add_sub_cancel_left]

theorem level_trail_of (v : VAddr) {k : Nat} (h : d + k = 3) :
    Path.level (v.trail d) = .ofHeight k := by
  rw [level_trail, ← h, Nat.add_sub_cancel_left]

theorem trail_height (v : VAddr) (l : Level) :
    v.trail (4 - l.height) = l.index v :: v.trail (3 - l.height) := by
  rw [← l.succ_depth, v.trail_succ (Nat.sub_add_cancel l.height_le), Level.ofHeight_height]

theorem level_trail_height (v : VAddr) (l : Level) : Path.level (v.trail (3 - l.height)) = l := by
  rw [v.level_trail_of (Nat.sub_add_cancel l.height_le), Level.ofHeight_height]

theorem level_trail_ne_pt (v : VAddr) (hd : d < 3) : Path.level (v.trail d) ≠ .pt := by
  intro h
  have hheight := congrArg Level.height h
  rw [level_trail, Level.height_ofHeight (Nat.sub_le 3 d)] at hheight
  exact Nat.sub_ne_zero_of_lt hd hheight

theorem trail_suffix (v : VAddr) (h : d ≤ d') : v.trail d <:+ v.trail d' := by
  induction d' with
  | zero => exact Nat.le_zero.1 h ▸ List.suffix_refl _
  | succ d' ih =>
    rcases Nat.lt_or_eq_of_le h with h | rfl
    · exact (ih (Nat.le_of_lt_succ h)).trans (List.suffix_cons _ _)
    · exact List.suffix_refl _

theorem eq_trail_of_suffix {p : Path} (h : p <:+ v.trail d) : p = v.trail p.length := by
  have hl : p.length ≤ d := by simpa using h.length_le
  have ht := v.trail_suffix hl
  exact (List.suffix_of_suffix_length_le h ht (by simp)).eq_of_length (by simp)

theorem trail_eq_of_le (h : v.trail d = v'.trail d) (hd : d' ≤ d) : v.trail d' = v'.trail d' := by
  have hs : v.trail d' <:+ v'.trail d := h ▸ v.trail_suffix hd
  simpa using eq_trail_of_suffix hs

end Address

namespace Translation

theorem target?_ofLeaf_ne_none (l : Level) (e : Entry) (v : VAddr) :
    (ofLeaf l e v).target? ≠ none := by
  cases l <;> exact Option.some_ne_none _

theorem level_of_ofLeaf {l l' : Level} {e : Entry} {v : VAddr} {p : PAddr} {a : Attributes}
    (h : ofLeaf l e v = mapped p a l') : l' = l := by
  cases l <;> cases h <;> rfl

end Translation

namespace Memory

variable {mem mem' : Memory} {root root' t : PAddr} {v : VAddr} {e : Entry} {n d k : Nat}

theorem tableAt_trail_succ_iff (hd : d + n = 3) (ht : mem.tableAt root (v.trail d) = some t)
    (c : PAddr) : mem.tableAt root (v.trail (d + 1)) = some c ↔
      (mem.entry t ((Level.ofHeight n).index v)).role (.ofHeight n) = .link c := by
  rw [v.trail_succ hd, tableAt_cons ht, v.level_trail_of hd, Entry.link?_eq_some_iff]

theorem leaf_trail_succ (ht : mem.tableAt root (v.trail d) = some t) :
    mem.leaf root (v.trail (d + 1)) =
      (mem.entry t ((Level.ofHeight (3 - d)).index v)).inUse?.filter
        (·.isLeafAt (.ofHeight (3 - d))) := by
  rw [leaf, Address.trail, leafIn, slot_cons ht, Address.level_trail]

/-- **A trail holds one leaf at most.** -/
theorem length_eq_of_leaf_trail {e' : Entry} (he : mem.leaf root (v.trail d) = some e)
    (he' : mem.leaf root (v.trail k) = some e') : d = k := by
  have key : ∀ {a b : Nat} {e e' : Entry}, mem.leaf root (v.trail a) = some e →
      mem.leaf root (v.trail (b + 1)) = some e' → ¬ a ≤ b := by
    intro a b e e' he he' hab
    rw [leaf_eq_none_of_suffix (v.trail_suffix hab) (slot_of_leafIn he')] at he
    cases he
  rcases Nat.lt_trichotomy d k with hlt | rfl | hlt
  · obtain ⟨b, rfl⟩ := Nat.exists_eq_add_of_lt hlt
    exact absurd (Nat.le_add_right d b) (key he he')
  · rfl
  · obtain ⟨b, rfl⟩ := Nat.exists_eq_add_of_lt hlt
    exact absurd (Nat.le_add_right k b) (key he' he)

/-- **A walk comes by all tables of its trail.** -/
theorem walk_eq_walkFrom (hd : d + n = 3) (ht : mem.tableAt root (v.trail d) = some t) :
    mem.walk root v = mem.walkFrom v n t := by
  induction d generalizing n t with
  | zero =>
    cases ht
    rw [walk, show n = 3 by omega]
  | succ d ih =>
    obtain ⟨u, hu⟩ := exists_tableAt_of_suffix (v.trail_suffix (Nat.le_succ d)) ht
    rw [ih (show d + (n + 1) = 3 by omega) hu,
      walkFrom_of_link ((tableAt_trail_succ_iff (by omega) hu t).1 ht)]

theorem walk_eq_ofLeaf (hk : k ≤ 3) (he : mem.leaf root (v.trail (k + 1)) = some e) :
    mem.walk root v = .ofLeaf (.ofHeight (3 - k)) e v := by
  obtain ⟨t, ht, -⟩ := exists_tableAt_of_slot (slot_of_leafIn he)
  rw [leaf_trail_succ ht] at he
  obtain ⟨he, hl⟩ := Option.filter_eq_some_iff.1 he
  obtain ⟨rfl, hp⟩ := Entry.eq_of_inUse? he
  rw [walk_eq_walkFrom (n := 3 - k) (by omega) ht]
  exact walkFrom_of_leaf (Entry.role_eq_leaf_iff.2 ⟨hp, hl⟩)

theorem walk_eq_missing (hd : d + n = 3) (ht : mem.tableAt root (v.trail d) = some t)
    (hs : mem.slot root (v.trail (d + 1)) = none) :
    mem.walk root v = .missing (.ofHeight n) t := by
  rw [v.trail_succ hd, slot_cons ht, Entry.inUse?_eq_none_iff] at hs
  rw [walk_eq_walkFrom hd ht]
  exact walkFrom_of_absent ((Entry.role_eq_absent_iff _ _).2 hs)

theorem trail_cases (hd : d + n = 3) :
    mem.slot root (v.trail (d + 1)) = none ∨ (∃ e, mem.leaf root (v.trail (d + 1)) = some e) ∨
      ∃ c, mem.tableAt root (v.trail (d + 1)) = some c := by
  rcases hs : mem.slot root (v.trail (d + 1)) with _ | e
  · exact .inl rfl
  · rw [v.trail_succ hd] at hs ⊢
    obtain ⟨u, -, rfl, hp⟩ := exists_tableAt_of_slot hs
    cases hl : (mem.entry u ((Level.ofHeight n).index v)).isLeafAt (Path.level (v.trail d)) with
    | true => exact .inr (.inl ⟨_, by rw [leaf, leafIn, hs, Option.filter_some, if_pos hl]⟩)
    | false =>
      obtain ⟨c, hc⟩ := Entry.exists_link?_of_not_isLeafAt hp hl
      exact .inr (.inr ⟨c, by rw [tableAt_eq_tableIn, tableIn, hs]; exact hc⟩)

/-- **A walk ends at a leaf or at an entry not in use.** -/
theorem walk_cases (mem : Memory) (root : PAddr) (v : VAddr) :
    (∃ k ≤ 3, ∃ e, mem.leaf root (v.trail (k + 1)) = some e) ∨
      ∃ d n t, d + n = 3 ∧ mem.tableAt root (v.trail d) = some t ∧
        mem.slot root (v.trail (d + 1)) = none := by
  -- on the levels below a table of the trail
  have key : ∀ n d t, d + n = 3 → mem.tableAt root (v.trail d) = some t →
      (∃ k ≤ 3, ∃ e, mem.leaf root (v.trail (k + 1)) = some e) ∨
        ∃ d n t, d + n = 3 ∧ mem.tableAt root (v.trail d) = some t ∧
          mem.slot root (v.trail (d + 1)) = none := by
    intro n
    induction n with
    | zero =>
      intro d t hd ht
      rcases trail_cases hd with hs | he | ⟨c, hc⟩
      · exact .inr ⟨d, 0, t, hd, ht, hs⟩
      · exact .inl ⟨d, by omega, he⟩
      · have := length_le_of_tableAt hc
        rw [Address.length_trail] at this
        omega
    | succ n ih =>
      intro d t hd ht
      rcases trail_cases hd with hs | he | ⟨c, hc⟩
      · exact .inr ⟨d, n + 1, t, hd, ht, hs⟩
      · exact .inl ⟨d, by omega, he⟩
      · exact ih (d + 1) c (by omega) hc
  exact key 3 0 root rfl tableAt_nil

/-- **An address maps to nothing if no leaf lies on its trail.** -/
theorem target?_walk_eq_none_iff : (mem.walk root v).target? = none ↔
    ∀ k ≤ 3, mem.leaf root (v.trail (k + 1)) = none := by
  constructor
  · intro h k hk
    by_contra hne
    obtain ⟨e, he⟩ := Option.ne_none_iff_exists'.1 hne
    rw [walk_eq_ofLeaf hk he] at h
    exact Translation.target?_ofLeaf_ne_none _ _ _ h
  · intro h
    rcases walk_cases mem root v with ⟨k, hk, e, he⟩ | ⟨d, n, t, hd, ht, hs⟩
    · rw [h k hk] at he
      cases he
    · rw [walk_eq_missing hd ht hs]
      rfl

/-- **An address maps by the leaf at its level's place on the trail.** -/
theorem walk_eq_mapped_iff {p : PAddr} {a : Attributes} {l : Level} :
    mem.walk root v = .mapped p a l ↔ ∃ e, mem.leaf root (v.trail (4 - l.height)) = some e ∧
      .ofLeaf l e v = Translation.mapped p a l := by
  have hl := l.height_le
  constructor
  · intro h
    have hmapped : (mem.walk root v).target? ≠ none := by
      rw [h]
      exact Option.some_ne_none _
    rw [Ne, target?_walk_eq_none_iff] at hmapped
    push Not at hmapped
    obtain ⟨k, hk, hne⟩ := hmapped
    obtain ⟨e, he⟩ := Option.ne_none_iff_exists'.1 hne
    rw [walk_eq_ofLeaf hk he] at h
    obtain rfl := Translation.level_of_ofLeaf h
    refine ⟨e, ?_, h⟩
    rwa [Level.height_ofHeight (Nat.sub_le 3 k), show 4 - (3 - k) = k + 1 by omega]
  · rintro ⟨e, he, h⟩
    rw [← l.succ_depth] at he
    rw [walk_eq_ofLeaf (Nat.sub_le 3 _) he, Nat.sub_sub_self hl, Level.ofHeight_height, h]

/-- **A walk stops at a level** whose table is there while the entry in it is not in use. -/
theorem walk_eq_missing_iff {l : Level} : mem.walk root v = .missing l t ↔
    mem.tableAt root (v.trail (3 - l.height)) = some t ∧
      mem.slot root (v.trail (4 - l.height)) = none := by
  have hl := l.height_le
  constructor
  · intro h
    rcases walk_cases mem root v with ⟨k, hk, e, he⟩ | ⟨d, n, u, hd, hu, hs⟩
    · have := Translation.target?_ofLeaf_ne_none (.ofHeight (3 - k)) e v
      rw [← walk_eq_ofLeaf hk he, h] at this
      exact absurd rfl this
    · rw [walk_eq_missing hd hu hs] at h
      cases h
      rw [Level.height_ofHeight (by omega), show 3 - n = d by omega, show 4 - n = d + 1 by omega]
      exact ⟨hu, hs⟩
  · rintro ⟨ht, hs⟩
    rw [← l.succ_depth] at hs
    rw [walk_eq_missing (Nat.sub_add_cancel hl) ht hs, Level.ofHeight_height]

theorem walk_eq_missing_pml4_iff : mem.walk root v = .missing .pml4 root ↔
    (mem.entry root (Level.pml4.index v)).isPresent = false := by
  rw [walk_eq_missing_iff, ← Entry.inUse?_eq_none_iff]
  exact and_iff_right tableAt_nil

theorem exists_role_of_leaf {l : Level} (he : mem.leaf root (v.trail (4 - l.height)) = some e) :
    ∃ t, mem.tableAt root (v.trail (3 - l.height)) = some t ∧
      (mem.entry t (l.index v)).role l = .leaf := by
  obtain ⟨t, ht, -⟩ := exists_tableAt_of_slot (v.trail_height l ▸ slot_of_leafIn he)
  refine ⟨t, ht, ?_⟩
  rw [← l.succ_depth, leaf_trail_succ ht, Nat.sub_sub_self l.height_le, Level.ofHeight_height,
    Option.filter_eq_some_iff] at he
  obtain ⟨rfl, hp⟩ := Entry.eq_of_inUse? he.1
  exact Entry.role_eq_leaf_iff.2 ⟨hp, he.2⟩

theorem role_of_missing {l : Level} (hw : mem.walk root v = .missing l t) :
    (mem.entry t (l.index v)).role l = .absent := by
  obtain ⟨ht, hs⟩ := walk_eq_missing_iff.1 hw
  rw [v.trail_height, slot_cons ht, Entry.inUse?_eq_none_iff] at hs
  exact (Entry.role_eq_absent_iff _ _).2 hs

/-- **What an address maps to depends on the leaves of its trail alone.** -/
theorem target?_walk_congr (h : ∀ k ≤ 3,
      mem'.leaf root' (v.trail (k + 1)) = mem.leaf root (v.trail (k + 1))) :
    (mem'.walk root' v).target? = (mem.walk root v).target? := by
  by_cases hn : ∃ k ≤ 3, mem.leaf root (v.trail (k + 1)) ≠ none
  · obtain ⟨k, hk, hne⟩ := hn
    obtain ⟨e, he⟩ := Option.ne_none_iff_exists'.1 hne
    rw [walk_eq_ofLeaf hk he, walk_eq_ofLeaf hk ((h k hk).trans he)]
  · push Not at hn
    rw [target?_walk_eq_none_iff.2 hn, target?_walk_eq_none_iff]
    exact fun k hk => (h k hk).trans (hn k hk)

/-- **Walks depend on the entries in use on their trail alone**, and on the root they stop at. -/
theorem walk_congr (h : ∀ k ≤ 3, mem'.slot root' (v.trail (k + 1)) = mem.slot root (v.trail (k + 1)))
    (hroot : root' = root ∨ mem.slot root (v.trail 1) ≠ none) :
    mem'.walk root' v = mem.walk root v := by
  rcases walk_cases mem root v with ⟨k, hk, e, he⟩ | ⟨d, n, t, hd, ht, hs⟩
  · have he' : mem'.leaf root' (v.trail (k + 1)) = some e := (leafIn_congr (h k hk)).trans he
    rw [walk_eq_ofLeaf hk he, walk_eq_ofLeaf hk he']
  · have ht' : mem'.tableAt root' (v.trail d) = some t := by
      cases d with
      | zero => rwa [hroot.resolve_right fun hne => hne hs]
      | succ d =>
        have hslot := h d (by omega)
        rw [tableAt_eq_tableIn, Address.trail, tableIn] at ht ⊢
        rwa [← Address.trail, hslot]
    rw [walk_eq_missing hd ht hs, walk_eq_missing hd ht' ((h d (by omega)).trans hs)]

theorem walk_of_slot (h : mem'.slot root = mem.slot root) (v : VAddr) :
    mem'.walk root v = mem.walk root v := walk_congr (fun _ _ => congrFun h _) (.inl rfl)

/-- **A walk reads the tables of its trail alone.** -/
theorem walk_of_table (h : ∀ d t, mem.tableAt root (v.trail d) = some t →
    mem'.table t = mem.table t) : mem'.walk root v = mem.walk root v := by
  have htable : ∀ d, mem'.tableAt root (v.trail d) = mem.tableAt root (v.trail d) := by
    intro d
    induction d with
    | zero => rfl
    | succ d ih =>
      rw [Address.trail, tableAt, tableAt, ih]
      exact Option.bind_congr fun t ht => by rw [entry, entry, h d t ht]
  refine walk_congr (fun d _ => ?_) (.inl rfl)
  rw [Address.trail, slot, slot, htable]
  exact Option.bind_congr fun t ht => by rw [entry, entry, h d t ht]

theorem target?_walk_eq_none_of_trail {v' : VAddr} (h : v.trail 4 = v'.trail 4)
    (hn : (mem.walk root v').target? = none) : (mem.walk root v).target? = none := by
  rw [target?_walk_eq_none_iff] at hn ⊢
  intro k hk
  rw [Address.trail_eq_of_le h (by omega)]
  exact hn k hk

theorem target?_walk_of_page (he : mem.leaf root (v.trail 4) = some e) :
    (mem.walk root v).target? = some (e.target + v.pageOffset, e.flags.decode) := by
  rw [walk_eq_ofLeaf (Nat.le_refl _) he]; rfl

end Memory

/-! ## What a walk reads -/

namespace Memory

variable {mem : Memory} {root t : PAddr} {v : VAddr} {x : Visit} {n d : Nat}

theorem visitsFrom_of_link {c : PAddr}
    (h : (mem.entry t ((Level.ofHeight (n + 1)).index v)).role (.ofHeight (n + 1)) = .link c) :
    mem.visitsFrom v (n + 1) t = ⟨.ofHeight (n + 1), t,
      mem.entry t ((Level.ofHeight (n + 1)).index v)⟩ :: mem.visitsFrom v n c := by
  rw [visitsFrom.eq_def]; simp only [h]

theorem visitsFrom_of_not_link
    (h : ∀ c, (mem.entry t ((Level.ofHeight n).index v)).role (.ofHeight n) ≠ .link c) :
    mem.visitsFrom v n t =
      [⟨.ofHeight n, t, mem.entry t ((Level.ofHeight n).index v)⟩] := by
  rw [visitsFrom.eq_def]
  cases hr : (mem.entry t ((Level.ofHeight n).index v)).role (.ofHeight n) with
  | absent => simp only [hr]
  | leaf => simp only [hr]
  | link c => exact absurd hr (h c)

/-- The entry on the trail of `v` in the table `t`, which is `d` links down. -/
def visitAt (mem : Memory) (v : VAddr) (d : Nat) (t : PAddr) : Visit where
  level := .ofHeight (3 - d)
  table := t
  entry := mem.entry t ((Level.ofHeight (3 - d)).index v)

theorem visitAt_eq (hd : d + n = 3) : mem.visitAt v d t =
    ⟨.ofHeight n, t, mem.entry t ((Level.ofHeight n).index v)⟩ := by
  rw [visitAt, ← hd, Nat.add_sub_cancel_left]

theorem visitAt_height (mem : Memory) (v : VAddr) (l : Level) (t : PAddr) :
    mem.visitAt v (3 - l.height) t = ⟨l, t, mem.entry t (l.index v)⟩ := by
  rw [visitAt_eq (Nat.sub_add_cancel l.height_le), Level.ofHeight_height]

theorem mem_visitsFrom_of_last (hd : d + n = 3) (ht : mem.tableAt root (v.trail d) = some t)
    (hn : ∀ c, mem.tableAt root (v.trail (d + 1)) ≠ some c) : x ∈ mem.visitsFrom v n t ↔
      ∃ k u, d ≤ k ∧ mem.tableAt root (v.trail k) = some u ∧ x = mem.visitAt v k u := by
  rw [visitsFrom_of_not_link fun c hr => hn c ((tableAt_trail_succ_iff hd ht c).2 hr),
    List.mem_singleton, ← visitAt_eq hd]
  constructor
  · rintro rfl
    exact ⟨d, t, Nat.le_refl d, ht, rfl⟩
  · rintro ⟨k, u, hk, hu, rfl⟩
    rcases Nat.lt_or_eq_of_le hk with hk | rfl
    · obtain ⟨c, hc⟩ := exists_tableAt_of_suffix (v.trail_suffix (Nat.succ_le_of_lt hk)) hu
      exact absurd hc (hn c)
    · cases ht.symm.trans hu
      rfl

theorem mem_visitsFrom_iff (hd : d + n = 3) (ht : mem.tableAt root (v.trail d) = some t) :
    x ∈ mem.visitsFrom v n t ↔
      ∃ k u, d ≤ k ∧ mem.tableAt root (v.trail k) = some u ∧ x = mem.visitAt v k u := by
  induction n generalizing d t with
  | zero =>
    refine mem_visitsFrom_of_last hd ht fun c hc => ?_
    exact Entry.role_pt_ne_link _ c ((tableAt_trail_succ_iff hd ht c).1 hc)
  | succ n ih =>
    by_cases hc : ∃ c, mem.tableAt root (v.trail (d + 1)) = some c
    · obtain ⟨c, hc⟩ := hc
      rw [visitsFrom_of_link ((tableAt_trail_succ_iff hd ht c).1 hc), List.mem_cons,
        ih (by omega) hc, ← visitAt_eq hd]
      constructor
      · rintro (rfl | ⟨k, u, hk, hu, rfl⟩)
        · exact ⟨d, t, Nat.le_refl d, ht, rfl⟩
        · exact ⟨k, u, by omega, hu, rfl⟩
      · rintro ⟨k, u, hk, hu, rfl⟩
        rcases Nat.lt_or_eq_of_le hk with hk | rfl
        · exact .inr ⟨k, u, hk, hu, rfl⟩
        · cases ht.symm.trans hu
          exact .inl rfl
    · exact mem_visitsFrom_of_last hd ht fun c hn => hc ⟨c, hn⟩

/-- **A walk reads one entry in each table of its trail.** -/
theorem mem_visits_iff : x ∈ mem.visits root v ↔
    ∃ d t, mem.tableAt root (v.trail d) = some t ∧ x = mem.visitAt v d t := by
  rw [visits, mem_visitsFrom_iff (d := 0) rfl tableAt_nil]
  simp only [Nat.zero_le, true_and]

theorem tableAt_trail_of_visit (ht : mem.tableAt root (v.trail d) = some t) :
    mem.tableAt root (v.trail (d + 1)) =
      (mem.visitAt v d t).entry.link? (mem.visitAt v d t).level := by
  rw [Address.trail, tableAt_cons ht, Address.level_trail]
  rfl

theorem slot_trail_of_visit (ht : mem.tableAt root (v.trail d) = some t) :
    mem.slot root (v.trail (d + 1)) = (mem.visitAt v d t).entry.inUse? := slot_cons ht

theorem exists_visit_of_slot {e : Entry} (h : mem.slot root (v.trail (d + 1)) = some e) :
    ∃ t, mem.visitAt v d t ∈ mem.visits root v ∧ (mem.visitAt v d t).entry = e := by
  obtain ⟨t, ht, he, -⟩ := exists_tableAt_of_slot h
  exact ⟨t, mem_visits_iff.2 ⟨d, t, ht, rfl⟩, he⟩

end Memory

end VirtualMemory
