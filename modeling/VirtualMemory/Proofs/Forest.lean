import VirtualMemory.Kernel
import VirtualMemory.Proofs.Accounting

/-!
# Hierarchies that share an image

Several roots may link the same table in the entry of the kernel's image, and share all tables below
it. Apart from that their tables are their own.

* `Machine.image`: the table that a root links for the image;
* `Machine.Forest`: roots whose hierarchies share nothing else;
* **`Forest.call`**: a call keeps the forest if it leaves a shared image linked;
* **`Forest.not_holds_image`**: a call that unlinks a shared image has given its frame back;
* **`Forest.insert_root`**: a new root joins the forest.
-/

namespace VirtualMemory

namespace Memory

variable {mem : Memory} {root root' : PAddr} {i : Index}

theorem tableAt_append_eq (h : mem.tableAt root [i] = mem.tableAt root' [i]) (q : Path) :
    mem.tableAt root (q ++ [i]) = mem.tableAt root' (q ++ [i]) := by
  induction q with
  | nil => exact h
  | cons j q ih => rw [List.cons_append, tableAt, tableAt, ih]

end Memory

namespace Machine

section Image

variable {α : Type} {root root' t : PAddr} {p : Path} {m : Machine α}

/-- **The table that a root links for the image** of the kernel. -/
def image (root : PAddr) (m : Machine α) : Option PAddr := m.memory.tableAt root [imageSlot]

/-- The path leads through the image. -/
def InImage (p : Path) : Prop := [imageSlot] <:+ p

theorem not_inImage_nil : ¬ InImage [] := fun h => by simpa using h.length_le

theorem exists_image (hp : InImage p) (ht : m.memory.tableAt root p = some t) :
    ∃ c, m.image root = some c := Memory.exists_tableAt_of_suffix hp ht

theorem tableAt_of_image_eq (h : m.image root = m.image root') (hp : InImage p) :
    m.memory.tableAt root p = m.memory.tableAt root' p := by
  obtain ⟨q, rfl⟩ := hp
  exact Memory.tableAt_append_eq h q

end Image

variable {α : Type} [FrameSource α] {used : Set PAddr} {roots : List PAddr}
  {root other r t c : PAddr} {p : Path} {m m' : Machine α}

/-- **Hierarchies that share images at most.** Each one is well-formed, and a table of two of them
lies in the image of both, which is the same. -/
structure Forest (used : Set PAddr) (roots : List PAddr) (m : Machine α) : Prop where
  wellFormed : ∀ r ∈ roots, WellFormed used r m
  shared : ∀ r ∈ roots, ∀ r' ∈ roots, ∀ p p' t, m.memory.tableAt r p = some t →
    m.memory.tableAt r' p' = some t → r = r' ∨ InImage p ∧ InImage p' ∧ m.image r = m.image r'

namespace Forest

theorem holds (h : Forest used roots m) (hr : r ∈ roots) (hp : p ≠ [])
    (ht : m.memory.tableAt r p = some t) : m.Holds t := (h.wellFormed r hr).held p t hp ht

theorem singleton (h : WellFormed used root m) : Forest used [root] m where
  wellFormed _ hr := List.mem_singleton.1 hr ▸ h
  shared _ hr _ hr' _ _ _ _ _ :=
    .inl ((List.mem_singleton.1 hr).trans (List.mem_singleton.1 hr').symm)

theorem congr (h : Forest used roots m) (hm : m'.memory = m.memory)
    (hh : ∀ t, m'.Holds t ↔ m.Holds t) (hs : FrameSource.Honest used m'.frames) :
    Forest used roots m' where
  wellFormed r hr :=
    { honest := hs
      tree := hm ▸ (h.wellFormed r hr).tree
      held := fun p t hp ht => (hh t).2 (h.holds hr hp (hm ▸ ht))
      rooted := (h.wellFormed r hr).rooted.imp_left (hh r).2 }
  shared := by
    simp only [image, hm]
    exact h.shared

/-! ## Calls on one root -/

section Call

variable (h : Forest used roots m) (hroot : root ∈ roots)
  (hcall : Orderly used (strangers root m) root m m')

include h hroot

/-- **The tables of another root are elsewhere**, seen from a root, unless both share them. -/
theorem mem_elsewhere (hr : other ∈ roots) (hne : other ≠ root)
    (hp : ¬ (InImage p ∧ m.image root = m.image other)) (ht : m.memory.tableAt other p = some t) :
    t ∈ elsewhere used (strangers root m) root := by
  have hshared : ∀ q, m.memory.tableAt root q ≠ some t := fun q hq => by
    rcases h.shared root hroot other hr q p t hq ht with he | ⟨-, hi, he⟩
    · exact hne he.symm
    · exact hp ⟨hi, he⟩
  refine ⟨?_, fun he => hshared [] (he ▸ rfl)⟩
  by_cases hn : p = []
  · subst hn
    cases ht
    exact (h.wellFormed other hr).rooted.imp_left fun ho => ⟨ho, fun q _ => hshared q⟩
  · exact .inl ⟨h.holds hr hn ht, fun q _ => hshared q⟩

include hcall

theorem tableAt_other (hr : other ∈ roots) (hne : other ≠ root)
    (hp : ¬ (InImage p ∧ m.image root = m.image other)) :
    m'.memory.tableAt other p = m.memory.tableAt other p := by
  induction p with
  | nil => rfl
  | cons i p ih =>
    have hp' : ¬ (InImage p ∧ m.image root = m.image other) := fun hi =>
      hp ⟨hi.1.trans (List.suffix_cons i p), hi.2⟩
    rw [Memory.tableAt, Memory.tableAt, ih hp']
    refine Option.bind_congr fun t ht => ?_
    rw [Memory.entry, Memory.entry,
      hcall.confined.table t (h.mem_elsewhere hroot hr hne hp' ht)]

/-- **A call on one root moves no other root's link to its image.** -/
theorem image_other (hr : other ∈ roots) (hne : other ≠ root) : m'.image other = m.image other := by
  have ho : m.memory.tableAt other [] = some other := rfl
  have he := h.mem_elsewhere hroot hr hne (fun hi => not_inImage_nil hi.1) ho
  rw [image, image, Memory.tableAt_singleton, Memory.tableAt_singleton, Memory.entry, Memory.entry,
    hcall.confined.table other he]

/-- What a table of another root may be after a call that leaves shared images linked. -/
theorem tableAt_other_cases (hkeep : ∀ other ∈ roots, other ≠ root → ∀ c,
      m.image root = some c → m.image other = some c → m'.image root = some c)
    (hr : other ∈ roots) (hne : other ≠ root) (ht : m'.memory.tableAt other p = some t) :
    t ∈ elsewhere used (strangers root m) root ∧ m.memory.tableAt other p = some t ∨
      t ∉ elsewhere used (strangers root m) root ∧ InImage p ∧
        m'.memory.tableAt root p = some t ∧ m'.image root = m'.image other := by
  by_cases hp : InImage p ∧ m.image root = m.image other
  · obtain ⟨c, hc⟩ := exists_image hp.1 ht
    have hc₀ : m.image other = some c := (h.image_other hroot hcall hr hne).symm.trans hc
    have he : m'.image root = m'.image other :=
      (hkeep other hr hne c (hp.2.trans hc₀) hc₀).trans hc.symm
    have ht' := (tableAt_of_image_eq he hp.1).trans ht
    exact .inr ⟨hcall.owns.notMem_elsewhere ht', hp.1, ht', he⟩
  · have ht₀ := (h.tableAt_other hroot hcall hr hne hp).symm.trans ht
    exact .inl ⟨h.mem_elsewhere hroot hr hne hp ht₀, ht₀⟩

theorem wellFormed_other (hkeep : ∀ other ∈ roots, other ≠ root → ∀ c,
      m.image root = some c → m.image other = some c → m'.image root = some c)
    (hr : other ∈ roots) (hne : other ≠ root) : WellFormed used other m' where
  honest := hcall.owns.honest
  tree p q t hp hq := by
    -- no table is both elsewhere and in the hierarchy of the call
    rcases h.tableAt_other_cases hroot hcall hkeep hr hne hp with ⟨ht, hp⟩ | ⟨ht, -, hp, -⟩ <;>
      rcases h.tableAt_other_cases hroot hcall hkeep hr hne hq with ⟨ht', hq⟩ | ⟨ht', -, hq, -⟩
    · exact (h.wellFormed other hr).tree p q t hp hq
    · exact absurd ht ht'
    · exact absurd ht' ht
    · exact hcall.owns.tree p q t hp hq
  held p t hn hp := by
    rcases h.tableAt_other_cases hroot hcall hkeep hr hne hp with ⟨ht, hp⟩ | ⟨-, -, hp, -⟩
    · refine (hcall.owns.holds_iff t).2 (.inl (ht.1.resolve_right ?_))
      exact (h.holds hr hn hp).notMem (h.wellFormed other hr).honest
    · exact hcall.owns.holds hn hp
  rooted := by
    have ho : m.memory.tableAt other [] = some other := rfl
    have ht := h.mem_elsewhere hroot hr hne (fun hi => not_inImage_nil hi.1) ho
    exact ht.1.imp_left fun ho => (hcall.owns.holds_iff other).2 (.inl ho)

/-- **A call keeps a forest** if it leaves the images linked that its root shares. -/
theorem call (hkeep : ∀ other ∈ roots, other ≠ root → ∀ c,
      m.image root = some c → m.image other = some c → m'.image root = some c) :
    Forest used roots m' where
  wellFormed r hr := by
    by_cases hne : r = root
    · exact hne ▸ hcall.owns.wellFormed
    · exact h.wellFormed_other hroot hcall hkeep hr hne
  shared r hr r' hr' p p' t hp hp' := by
    have hcases := fun {other p} (hr : other ∈ roots) (hne : other ≠ root) =>
      h.tableAt_other_cases (p := p) (t := t) hroot hcall hkeep hr hne
    by_cases hne : r = root <;> by_cases hne' : r' = root
    · exact .inl (hne.trans hne'.symm)
    · subst hne
      rcases hcases hr' hne' hp' with ⟨ht, -⟩ | ⟨-, hi, hq, he⟩
      · exact absurd ht (hcall.owns.notMem_elsewhere hp)
      · exact .inr ⟨hcall.owns.tree p p' t hp hq ▸ hi, hi, he⟩
    · subst hne'
      rcases hcases hr hne hp with ⟨ht, -⟩ | ⟨-, hi, hq, he⟩
      · exact absurd ht (hcall.owns.notMem_elsewhere hp')
      · exact .inr ⟨hi, hcall.owns.tree p p' t hq hp' ▸ hi, he.symm⟩
    · rcases hcases hr hne hp with ⟨ht, hq⟩ | ⟨ht, hi, -, he⟩ <;>
        rcases hcases hr' hne' hp' with ⟨ht', hq'⟩ | ⟨ht', hi', -, he'⟩
      · rw [h.image_other hroot hcall hr hne, h.image_other hroot hcall hr' hne']
        exact h.shared r hr r' hr' p p' t hq hq'
      · exact absurd ht ht'
      · exact absurd ht' ht
      · exact .inr ⟨hi, hi', he.symm.trans he'⟩

/-- **A call that unlinks a shared image gives its frame back**, which the other root still links. -/
theorem not_holds_image (hpeak : Peaks root m m') (hr : other ∈ roots) (hne : other ≠ root)
    (hc : m.image root = some c) (hc' : m.image other = some c) (hdrop : m'.image root ≠ some c) :
    m'.image other = some c ∧ ¬ m'.Holds c := by
  refine ⟨(h.image_other hroot hcall hr hne).trans hc', fun hheld => ?_⟩
  rcases (hcall.owns.holds_iff c).1 hheld with ho | ⟨p, hp, ht⟩
  · exact ho.2 [imageSlot] (List.cons_ne_nil _ _) hc
  · obtain ⟨peak, htree, hx, hx'⟩ := hpeak
    obtain rfl := htree p [imageSlot] c (hx' p c ht) (hx [imageSlot] c hc)
    exact hdrop ht

end Call

/-! ## New roots -/

section NewRoot

variable (h : Forest used roots m) (hroot : root ∈ roots) {m₁ : Machine α}
  (ha : m.allocate = (some r, m₁))
  (hm : m'.memory =
    (m₁.memory.setTable r .empty).set r imageSlot ((m₁.zero r).entry root imageSlot))

include h ha

theorem tableAt_ne_granted (ho : other ∈ roots) (p : Path) : m.memory.tableAt other p ≠ some r := by
  obtain ⟨hn, -, -, hh, hs, -⟩ := allocate_some (h.wellFormed other ho).honest ha
  exact ((h.wellFormed other ho).owns.fresh hn (((hh r).2 (.inl rfl)).notMem hs)).1 p

include hm

theorem table_newRoot (ho : other ∈ roots) (hne : t ≠ r) :
    m'.memory.table t = m.memory.table t := by
  obtain ⟨-, -, -, -, -, frames, contents, rfl⟩ := allocate_some (h.wellFormed other ho).honest ha
  rw [hm, Memory.set, Memory.table_setTable_of_ne _ hne.symm, Memory.table_setTable_of_ne _ hne.symm]
  exact Memory.table_setTable_of_ne _ hne.symm _

theorem tableAt_slot_newRoot (ho : other ∈ roots) :
    m'.memory.tableAt other = m.memory.tableAt other ∧
      m'.memory.slot other = m.memory.slot other :=
  Memory.tableAt_slot_eq_of_table fun p _ ht =>
    h.table_newRoot ha hm ho fun he => h.tableAt_ne_granted ha ho p (he ▸ ht)

include hroot

theorem entry_newRoot (i : Index) :
    m'.memory.entry r i = if imageSlot = i then m'.memory.entry root i else .empty := by
  have hne : root ≠ r := fun he => h.tableAt_ne_granted ha hroot [] (he ▸ rfl)
  rw [hm, Memory.entry_set, Memory.entry_setTable, if_pos rfl, Table.get_empty]
  by_cases hi : imageSlot = i
  · subst hi
    rw [if_pos ⟨rfl, rfl⟩, if_pos rfl, Memory.entry_set, if_neg fun he => hne he.1.symm]
    rfl
  · rw [if_neg fun he => hi he.2, if_neg hi]

theorem image_newRoot : m'.image r = m'.image root := by
  rw [image, image, Memory.tableAt_singleton, Memory.tableAt_singleton,
    h.entry_newRoot hroot ha hm, if_pos rfl]

theorem tableAt_newRoot (hp : p ≠ []) (ht : m'.memory.tableAt r p = some t) :
    InImage p ∧ m.memory.tableAt root p = some t := by
  have hi : InImage p := by
    obtain ⟨q, i, rfl⟩ : ∃ q i, p = q ++ [i] :=
      ⟨p.dropLast, p.getLast hp, (List.dropLast_concat_getLast hp).symm⟩
    obtain ⟨u, hu⟩ := Memory.exists_tableAt_of_suffix (List.suffix_append q [i]) ht
    rw [Memory.tableAt_singleton, h.entry_newRoot hroot ha hm] at hu
    by_cases hi : imageSlot = i
    · exact hi ▸ List.suffix_append q _
    · rw [if_neg hi] at hu
      cases hu
  rw [tableAt_of_image_eq (h.image_newRoot hroot ha hm) hi,
    (h.tableAt_slot_newRoot ha hm hroot).1] at ht
  exact ⟨hi, ht⟩

variable (hf : m'.frames = m₁.frames)

theorem shared_newRoot {p' : Path} (ho : other ∈ roots) (hp : m'.memory.tableAt r p = some t)
    (hp' : m'.memory.tableAt other p' = some t) :
    InImage p ∧ InImage p' ∧ m'.image r = m'.image other := by
  rw [(h.tableAt_slot_newRoot ha hm ho).1] at hp'
  by_cases hn : p = []
  · subst hn
    cases hp
    exact absurd hp' (h.tableAt_ne_granted ha ho p')
  · obtain ⟨hi, hq⟩ := h.tableAt_newRoot hroot ha hm hn hp
    have he := h.image_newRoot hroot ha hm
    rcases h.shared root hroot other ho p p' t hq hp' with rfl | ⟨-, hi', he'⟩
    · exact ⟨hi, (h.wellFormed root hroot).tree p p' t hq hp' ▸ hi, he⟩
    · refine ⟨hi, hi', he.trans ?_⟩
      rw [image, image, (h.tableAt_slot_newRoot ha hm hroot).1,
        (h.tableAt_slot_newRoot ha hm ho).1]
      exact he'

include hf

theorem wellFormed_newRoot : WellFormed used r m' := by
  obtain ⟨-, -, -, hh, hs, -⟩ := allocate_some (h.wellFormed root hroot).honest ha
  have hnew := fun {p t} => h.tableAt_newRoot (p := p) (t := t) hroot ha hm
  refine ⟨hf ▸ hs, fun p q t hp hq => ?_, fun p t hp ht => ?_, .inl ?_⟩
  · by_cases hn : p = [] <;> by_cases hn' : q = []
    · rw [hn, hn']
    · subst hn
      cases hp
      exact absurd (hnew hn' hq).2 (h.tableAt_ne_granted ha hroot q)
    · subst hn'
      cases hq
      exact absurd (hnew hn hp).2 (h.tableAt_ne_granted ha hroot p)
    · exact (h.wellFormed root hroot).tree p q t (hnew hn hp).2 (hnew hn' hq).2
  · exact (holds_congr hf).2 ((hh t).2 (.inr (h.holds hroot hp (hnew hp ht).2)))
  · exact (holds_congr hf).2 ((hh r).2 (.inl rfl))

omit hroot in
theorem wellFormed_oldRoot (ho : other ∈ roots) : WellFormed used other m' := by
  have hw := h.wellFormed other ho
  obtain ⟨-, -, -, hh, hs, -⟩ := allocate_some hw.honest ha
  have hold : ∀ {t}, m.Holds t → m'.Holds t := fun {t} ht =>
    (holds_congr hf).2 ((hh t).2 (.inr ht))
  have hsame := (h.tableAt_slot_newRoot ha hm ho).1
  exact ⟨hf ▸ hs, hw.tree.of_le fun p t ht => hsame ▸ ht,
    fun p t hp ht => hold (h.holds ho hp (hsame ▸ ht)), hw.rooted.imp_left hold⟩

/-- **A new root joins the forest.** -/
theorem insert_root : Forest used (r :: roots) m' := by
  have hsame := fun {other} (ho : other ∈ roots) => (h.tableAt_slot_newRoot ha hm ho).1
  constructor
  · intro r' hr'
    rcases List.mem_cons.1 hr' with rfl | ho
    · exact h.wellFormed_newRoot hroot ha hm hf
    · exact h.wellFormed_oldRoot ha hm hf ho
  · intro r₁ h₁ r₂ h₂ p p' t hp hp'
    rcases List.mem_cons.1 h₁ with rfl | ho₁ <;> rcases List.mem_cons.1 h₂ with rfl | ho₂
    · exact .inl rfl
    · exact .inr (h.shared_newRoot hroot ha hm ho₂ hp hp')
    · obtain ⟨hi, hi', he⟩ := h.shared_newRoot hroot ha hm ho₁ hp' hp
      exact .inr ⟨hi', hi, he.symm⟩
    · rw [image, image, hsame ho₁, hsame ho₂]
      rw [hsame ho₁] at hp
      rw [hsame ho₂] at hp'
      exact h.shared r₁ ho₁ r₂ ho₂ p p' t hp hp'

end NewRoot

end Forest

end Machine

end VirtualMemory
