import VirtualMemory.Proofs.Spans

/-!
# Taking back

A call that maps one page and fails leaves nothing behind. The tables made on the way down are new,
so undoing what was done to them, newest first, undoes it all. No tree is needed for this: it is
enough that the tables of the hierarchy are in use when the call begins.

* `Nested`: the events of such a call match like brackets, a table made against the same table
  unlinked and given back (**`Nested.newest_first`**, **`Nested.unlinked`**);
* `Machine.Undone`: what is as before, and the events in between;
* `makePath_new`, `makePath_old`: the way down, below a new table and above;
* **`failed_page_leaves_nothing`**: a failed call that maps a page, small or large.
-/

namespace VirtualMemory

/-! ## Matching events -/

namespace Event

/-- The frame that an event grants. -/
def granted? : Event → Option PAddr
  | granted c _ => some c
  | _ => none

/-- The frame that an event gives back. -/
def released? : Event → Option PAddr
  | released c _ => some c
  | _ => none

/-- A request that was refused, or a notice. -/
def Idle : Event → Prop
  | refused | logged _ => True
  | _ => False

end Event

/-- **The events of a call that undoes itself**: what is made last goes first. -/
inductive Nested : List Event → Prop where
  | nil : Nested []
  | idle {e : Event} {es : List Event} (he : e.Idle) (rest : Nested es) : Nested (e :: es)
  | table {c t : PAddr} {contents : Table} {i : Index} {e : Entry} {l : Level} {es : List Event}
      (link : e.link? l = some c) (inner : Nested es) :
      Nested (.granted c contents :: .zeroed c :: .wrote t i e :: (es ++
        [.interruptsOff, .wrote t i e.disabled, .interruptsOn, .released c true]))

namespace Nested

variable {es es' before after : List Event} {c : PAddr} {b : Bool}

theorem idle_append (he : ∀ e ∈ es, e.Idle) (h : Nested es') : Nested (es ++ es') := by
  induction es with
  | nil => exact h
  | cons e es ih =>
    rw [List.forall_mem_cons] at he
    exact .idle he.1 (ih he.2)

theorem of_idle (he : ∀ e ∈ es, e.Idle) : Nested es := by
  simpa using idle_append he .nil

theorem newest_first (h : Nested es) :
    es.filterMap Event.released? = (es.filterMap Event.granted?).reverse := by
  induction h with
  | nil => rfl
  | @idle e es he _ ih => cases e <;> first | exact he.elim | simpa [Event.granted?, Event.released?]
  | table _ _ ih => simp [List.filterMap_cons, Event.granted?, Event.released?, ih]

theorem not_flushed (h : Nested es) (v : VAddr) : Event.flushed v ∉ es := by
  induction h with
  | nil => simp
  | idle he _ ih =>
    rintro (_ | ⟨_, hm⟩)
    · exact he
    · exact ih hm
  | table _ _ ih => simpa using ih

theorem unlinked (h : Nested es) (hes : es = before ++ .released c b :: after) :
    b = true ∧ ∃ t i e l, Entry.link? l e = some c ∧ .wrote t i e ∈ before ∧
      [.interruptsOff, .wrote t i e.disabled, .interruptsOn] <:+ before := by
  induction h generalizing before after with
  | nil => simp at hes
  | idle he _ ih =>
    rcases List.cons_eq_append_iff.1 hes with ⟨rfl, hes⟩ | ⟨before, rfl, rfl⟩
    · cases hes
      exact he.elim
    · obtain ⟨hb, t, i, e, l, hl, hw, hs⟩ := ih rfl
      exact ⟨hb, t, i, e, l, hl, List.mem_cons_of_mem _ hw, hs.trans (List.suffix_cons _ _)⟩
  | @table c' t _ i e l es link _ ih =>
    -- the first three events are no release, so it is the last of all or lies further in
    rcases before with _ | ⟨x, _ | ⟨y, _ | ⟨z, before⟩⟩⟩
    · cases hes
    · cases hes
    · cases hes
    · simp only [List.cons_append, List.cons.injEq] at hes
      obtain ⟨rfl, rfl, rfl, hes⟩ := hes
      rcases List.append_eq_append_iff.1 hes with ⟨rest, rfl, hlast⟩ | ⟨rest, rfl, hlast⟩
      · rcases rest with _ | ⟨_, _ | ⟨_, _ | ⟨_, _ | ⟨_, rest⟩⟩⟩⟩ <;> simp at hlast
        obtain ⟨rfl, rfl, rfl, ⟨rfl, rfl⟩, rfl⟩ := hlast
        exact ⟨rfl, t, i, e, l, link, by simp, ⟨_ :: _ :: _ :: es, rfl⟩⟩
      · rcases rest with _ | ⟨_, rest⟩ <;> cases hlast
        obtain ⟨hb, t, i, e, l, hl, hw, hs⟩ := ih rfl
        exact ⟨hb, t, i, e, l, hl, by simp [hw], hs.trans ⟨[_, _, _], rfl⟩⟩

end Nested

namespace Machine

variable {α : Type} [FrameSource α] {used : Set PAddr} {root t c u p : PAddr} {v : VAddr}
  {w : Widths} {a : Attributes} {f : EntryFlags} {leaf : Level} {x : MapError} {d n : Nat}
  {i : Index} {made made' : List NewTable} {m m₁ m₂ m' : Machine α}

/-! ## Steps that leave nothing behind -/

/-- **Nothing happens** but that requests are refused and notices shown. -/
structure Idles (used : Set PAddr) (m m' : Machine α) : Prop where
  honest : FrameSource.Honest used m.frames → FrameSource.Honest used m'.frames
  memory : m'.memory = m.memory
  holds : ∀ u, m'.Holds u ↔ m.Holds u
  history : ∃ es, m'.history = m.history ++ es ∧ ∀ e ∈ es, e.Idle

namespace Idles

theorem refl (m : Machine α) : Idles used m m := ⟨id, rfl, fun _ => Iff.rfl, [], by simp⟩

theorem trans (h : Idles used m m₁) (h' : Idles used m₁ m') : Idles used m m' := by
  obtain ⟨es, hes, hi⟩ := h.history
  obtain ⟨es', hes', hi'⟩ := h'.history
  refine ⟨h'.honest ∘ h.honest, h'.memory.trans h.memory, fun u => (h'.holds u).trans (h.holds u),
    es ++ es', by simp [hes, hes'], fun e he => ?_⟩
  exact (List.mem_append.1 he).elim (hi e) (hi' e)

theorem note (m : Machine α) (n : Notice) : Idles used m (m.note n) := by
  obtain ⟨es, hes, hl⟩ := history_notices [n] m
  refine ⟨by simp, memory_note m n, fun u => holds_congr (frames_note m n),
    es, hes, fun e he => ?_⟩
  obtain ⟨n, rfl⟩ := hl e he
  trivial

theorem refused (hs : FrameSource.Honest used m.frames) (ha : m.allocate = (none, m')) :
    Idles used m m' := by
  obtain ⟨hh, hs', frames, rfl⟩ := allocate_none hs ha
  exact ⟨fun _ => hs', rfl, hh, [.refused], history_record _ _, by simp [Event.Idle]⟩

end Idles

/-- **A step that leaves nothing behind**: the frames that are out are the same, and so are the
entries in use of all frames that were in use before. -/
structure Undone (used : Set PAddr) (m m' : Machine α) : Prop where
  honest : FrameSource.Honest used m'.frames
  holds : ∀ u, m'.Holds u ↔ m.Holds u
  inUse : ∀ u, m.Holds u ∨ u ∈ used → ∀ j, (m'.entry u j).inUse? = (m.entry u j).inUse?
  history : ∃ es, m'.history = m.history ++ es ∧ Nested es

namespace Undone

theorem of_idles (hs : FrameSource.Honest used m.frames) (h : Idles used m m') : Undone used m m' := by
  obtain ⟨es, hes, hi⟩ := h.history
  exact ⟨h.honest hs, h.holds, fun u _ j => by rw [entry, h.memory, entry], es, hes, .of_idle hi⟩

/-- **A table made and taken back**, with a step in between that leaves nothing behind. -/
theorem table {l : Level} (hs : FrameSource.Honest used m.frames)
    (ha : m.allocate = (some c, m₁)) (ht : m.Holds t ∨ t ∈ used)
    (hi : (m.entry t i).isPresent = false) (hl : l ≠ .pt)
    (hn : Idles used ((m₁.zero c).write t i (.make c f.asLink)) m₂) (h : Undone used m₂ m') :
    Undone used m ((m'.disable t i).release c) := by
  have hmade := entry_of_made (t := t) (i := i) (e := .make c f.asLink) hs ha
  obtain ⟨hnew, hal, hb, hh, hs₁, frames, contents, rfl⟩ := allocate_some hs ha
  obtain ⟨es, hes, hid⟩ := hn.history
  obtain ⟨es', hes', hnest⟩ := h.history
  have hcu : c ∉ used := ((hh c).2 (.inl rfl)).notMem hs₁
  have hout : ∀ u, m₂.Holds u ↔ u = c ∨ m.Holds u := fun u => (hn.holds u).trans (hh u)
  have hlink : (Entry.make c f.asLink).link? l = some c := Entry.link?_make_asLink ⟨hal, hb⟩ f hl
  -- the new frame was not out, so it is none of the tables from before
  have hold : ∀ u, m.Holds u ∨ u ∈ used → c ≠ u ∧ (m₂.Holds u ∨ u ∈ used) := by
    rintro u hu
    refine ⟨?_, hu.imp_left fun hm => (hout u).2 (.inr hm)⟩
    rintro rfl
    exact hu.elim hnew hcu
  have hentry : m'.entry t i = .make c f.asLink := by
    have hw : m₂.entry t i = .make c f.asLink := by rw [entry, hn.memory]; simp
    have hp : (m₂.entry t i).inUse? = some (.make c f.asLink) := by
      rw [hw, Entry.inUse?_of_isPresent (Entry.isPresent_make_asLink c f)]
    exact (Entry.eq_of_inUse? ((h.inUse t (hold t ht).2 i).trans hp)).1
  have hc : (m'.disable t i).Holds c := (h.holds c).2 ((hout c).2 (.inl rfl))
  obtain ⟨hh', hs', -⟩ := holds_release (m := m'.disable t i) h.honest hc
  refine ⟨hs', fun u => ?_, fun u hu j => ?_, ?_⟩
  · have hu : (m'.disable t i).Holds u ↔ u = c ∨ m.Holds u := (h.holds u).trans (hout u)
    rw [hh', hu]
    constructor
    · rintro ⟨rfl | hu, hne⟩
      · exact absurd rfl hne
      · exact hu
    · exact fun hu => ⟨.inr hu, fun he => hnew (he ▸ hu)⟩
  · rw [entry, memory_release, memory_disable, Memory.entry_set]
    split
    · rename_i he
      obtain ⟨rfl, rfl⟩ := he
      rw [Entry.inUse?_of_not_isPresent (Entry.isPresent_disabled _),
        Entry.inUse?_of_not_isPresent hi]
    · rename_i he
      have hm₂ : m₂.entry u j = m.entry u j := by
        have hj := hmade u j
        rwa [if_neg he, if_neg (hold u hu).1, entry, ← hn.memory] at hj
      rw [← hm₂]
      exact h.inUse u (hold u hu).2 j
  · refine ⟨_, ?_, @Nested.table c t contents i _ l _ hlink (.idle_append hid hnest)⟩
    rw [history_release (m := m'.disable t i) h.honest hc, history_disable, hentry, hes', hes,
      history_write, history_zero, history_record]
    simp [Machine.history]

end Undone

/-! ## The way down -/

theorem vacant_of_granted (hs : FrameSource.Honest used m.frames) (ha : m.allocate = (some c, m₁))
    (ht : m.Holds t ∨ t ∈ used) (x : Notice) :
    let m₂ := ((m₁.zero c).write t i (.make c f.asLink)).note x
    Idles used ((m₁.zero c).write t i (.make c f.asLink)) m₂ ∧
      FrameSource.Honest used m₂.frames ∧ m₂.Holds c ∧ ∀ j, (m₂.entry c j).isPresent = false := by
  obtain ⟨hnew, -, -, hh, hs₁, -⟩ := allocate_some hs ha
  have hct : t ≠ c := by
    rintro rfl
    exact ht.elim hnew (((hh t).2 (.inl rfl)).notMem hs₁)
  have hn : Idles used ((m₁.zero c).write t i (.make c f.asLink))
      (((m₁.zero c).write t i (.make c f.asLink)).note x) :=
    .note _ x
  refine ⟨hn, hn.honest hs₁, (hn.holds c).2 ((hh c).2 (.inl rfl)), fun j => ?_⟩
  have hj := entry_of_made (t := t) (i := i) (e := .make c f.asLink) hs ha c j
  rw [if_neg fun h => hct h.1, if_pos rfl, entry, ← hn.memory] at hj
  exact congrArg Entry.isPresent hj

/-- **Below a new table** every table is missing, so the way down fails only for want of a frame. -/
theorem makePath_new {r : Except MapError PAddr} (hs : FrameSource.Honest used m.frames)
    (ht : m.Holds t) (hvac : ∀ j, (m.entry t j).isPresent = false) (hne : made ≠ [])
    (hrun : m.makePath v f.asLink leaf n t made = (r, made', m')) :
    (∀ x, r = .error x → x = .outOfFrames ∧ ∃ new, made' = new ++ made ∧
      ∀ m₁, Idles used m' m₁ → Undone used m
        (new.foldl (fun m t => (m.disable t.parent t.index).release t.table) m₁)) ∧
    ∀ u, r = .ok u → ∀ j, (m'.entry u j).isPresent = false := by
  induction n generalizing t made m with
  | zero =>
    cases hrun
    exact ⟨by simp, fun u hu => by cases hu; exact hvac⟩
  | succ n ih =>
    simp only [makePath, List.isEmpty_eq_false_iff.2 hne, Bool.false_eq_true, if_false,
      Entry.role_empty] at hrun
    split at hrun
    · rename_i m₁ ha
      cases hrun
      refine ⟨fun x hx => ?_, by simp⟩
      cases hx
      exact ⟨rfl, [], rfl, fun m₂ hm₂ => .of_idles hs ((Idles.refused hs ha).trans hm₂)⟩
    · rename_i c m₁ ha
      obtain ⟨hn, hs₂, hc, hvac'⟩ := vacant_of_granted hs ha (.inl ht) _
      obtain ⟨herr, hok⟩ := ih hs₂ hc hvac' (List.cons_ne_nil _ made) hrun
      refine ⟨fun x hx => ?_, hok⟩
      obtain ⟨hx, new, rfl, hundo⟩ := herr x hx
      refine ⟨hx, new ++ [⟨t, _, c⟩], List.append_cons new _ made, fun m₂ hm₂ => ?_⟩
      rw [List.foldl_append]
      exact .table (l := .pd) hs ha (.inl ht) (hvac _) (by decide) hn (hundo m₂ hm₂)

/-- **Down to the first table that is missing** nothing happens. -/
theorem makePath_old {r : Except MapError PAddr} (hs : FrameSource.Honest used m.frames)
    (hold : ∀ q t, m.memory.tableAt root q = some t → m.Holds t ∨ t ∈ used)
    (ht : m.memory.tableAt root (v.trail d) = some t) (hd : d + (leaf.height + n) = 3)
    (hrun : m.makePath v f.asLink leaf n t [] = (r, made', m')) :
    (∀ x, r = .error x → (x ≠ .outOfFrames → made' = [] ∧ m' = m) ∧
      ∀ m₁, Idles used m' m₁ → Undone used m
        (made'.foldl (fun m t => (m.disable t.parent t.index).release t.table) m₁)) ∧
    ∀ u, r = .ok u → made' = [] ∧ m' = m ∨ ∀ j, (m'.entry u j).isPresent = false := by
  induction n generalizing d t with
  | zero =>
    cases hrun
    exact ⟨by simp, fun u hu => .inl ⟨rfl, rfl⟩⟩
  | succ n ih =>
    have hd' : d + (leaf.height + n + 1) = 3 := by omega
    simp only [makePath, List.isEmpty_nil, if_true] at hrun
    split at hrun
    · cases hrun
      exact ⟨fun x hx => ⟨fun _ => ⟨rfl, rfl⟩, fun m₁ hm₁ => .of_idles hs hm₁⟩, by simp⟩
    · rename_i child hr
      exact ih ((Memory.tableAt_trail_succ_iff hd' ht child).2 hr) (by omega) hrun
    · rename_i hr
      have hi := (Entry.role_eq_absent_iff _ _).1 hr
      split at hrun
      · rename_i m₁ ha
        cases hrun
        refine ⟨fun x hx => ?_, by simp⟩
        cases hx
        exact ⟨fun hx => absurd rfl hx, fun m₁ hm₁ =>
          .of_idles hs ((Idles.refused hs ha).trans hm₁)⟩
      · rename_i c m₁ ha
        obtain ⟨hn, hs₂, hc, hvac⟩ := vacant_of_granted hs ha (hold _ _ ht) _
        obtain ⟨herr, hok⟩ := makePath_new hs₂ hc hvac (List.cons_ne_nil _ []) hrun
        refine ⟨fun x hx => ?_, fun u hu => .inr (hok u hu)⟩
        obtain ⟨rfl, new, rfl, hundo⟩ := herr x hx
        refine ⟨fun hx => absurd rfl hx, fun m₂ hm₂ => ?_⟩
        rw [List.foldl_append]
        exact .table (l := .pd) hs ha (hold _ _ ht) hi (by decide) hn (hundo m₂ hm₂)

/-! ## Failed calls -/

theorem undone_writeLeaf (hs : FrameSource.Honest used m.frames)
    (hold : ∀ q t, m.memory.tableAt root q = some t → m.Holds t ∨ t ∈ used)
    (hrun : m.writeLeaf root p v leaf f = (.error x, m')) :
    Undone used m m' ∧ (x ≠ .outOfFrames → m' = m) := by
  have hd : 0 + (leaf.height + (3 - leaf.height)) = 3 := by cases leaf <;> rfl
  have htake : ∀ made (m₁ : Machine α), (∀ m₂, Idles used m₁ m₂ → Undone used m
      (made.foldl (fun m t => (m.disable t.parent t.index).release t.table) m₂)) →
      Undone used m (m₁.takeBack made) := by
    intro made m₁ hundo
    unfold takeBack
    split
    · rename_i hm
      obtain rfl := List.isEmpty_iff.1 hm
      exact hundo m₁ (.refl m₁)
    · exact hundo _ (.note m₁ _)
  unfold writeLeaf at hrun
  split at hrun
  · rename_i y made m₁ hp
    cases hrun
    obtain ⟨hsame, hundo⟩ := (makePath_old hs hold Memory.tableAt_nil hd hp).1 x rfl
    refine ⟨htake made m₁ hundo, fun hx => ?_⟩
    obtain ⟨rfl, rfl⟩ := hsame hx
    rfl
  · rename_i t made m₁ hp
    simp only at hrun
    split at hrun
    · rename_i c hr
      cases hrun
      -- a table in the leaf's place is an old one, so none was made
      rcases (makePath_old hs hold Memory.tableAt_nil hd hp).2 t rfl with ⟨rfl, rfl⟩ | hvac
      · exact ⟨.of_idles hs (.refl _), fun _ => rfl⟩
      · rw [(Entry.role_eq_absent_iff _ _).2 (hvac _)] at hr
        cases hr
    · cases hrun
    · cases hrun

/-- **A page that is not mapped leaves nothing behind**: the frames asked for go back newest first,
each after its link was cleared, and nothing is forgotten. -/
theorem failed_page_leaves_nothing (hs : FrameSource.Honest used m.frames)
    (hold : ∀ q t, m.memory.tableAt root q = some t → m.Holds t ∨ t ∈ used)
    (hrun : m.mapPage w root p v a = (.error x, m') ∨ m.mapLarge w root p v a = (.error x, m')) :
    (m'.memory.tableAt root = m.memory.tableAt root ∧
      ∀ q t, m.memory.tableAt root q = some t →
        ∀ i, (m'.entry t i).inUse? = (m.entry t i).inUse?) ∧
    (∀ t, m'.Holds t ↔ m.Holds t) ∧
    (∃ es, m'.history = m.history ++ es ∧
      es.filterMap Event.released? = (es.filterMap Event.granted?).reverse ∧
      (∀ before c b after, es = before ++ .released c b :: after →
        b = true ∧ ∃ t i e l, Entry.link? l e = some c ∧ .wrote t i e ∈ before ∧
          [.interruptsOff, .wrote t i e.disabled, .interruptsOn] <:+ before) ∧
      ∀ v', .flushed v' ∉ es) ∧
    (x ≠ .outOfFrames → m' = m) := by
  have key : Undone used m m' ∧ (x ≠ .outOfFrames → m' = m) := by
    rcases hrun with hrun | hrun
    · rcases mapPage_eq_error hrun with rfl | hrun
      · exact ⟨.of_idles hs (.refl _), fun _ => rfl⟩
      · exact undone_writeLeaf hs hold hrun
    · rcases mapLarge_eq_error hrun with rfl | hrun
      · exact ⟨.of_idles hs (.refl _), fun _ => rfl⟩
      · exact undone_writeLeaf hs hold hrun
  obtain ⟨⟨-, hh, huse, es, hes, hnest⟩, hsame⟩ := key
  have hent : ∀ q t, m.memory.tableAt root q = some t →
      ∀ i, (m'.entry t i).inUse? = (m.entry t i).inUse? := fun q t ht => huse t (hold q t ht)
  exact ⟨⟨(Memory.tableAt_slot_eq_of_inUse hent).1, hent⟩, hh,
    ⟨es, hes, hnest.newest_first, fun _ _ _ _ he => hnest.unlinked he, hnest.not_flushed⟩, hsame⟩

theorem WellFormed.table_in_use (h : WellFormed used root m) {q : Path}
    (ht : m.memory.tableAt root q = some t) : m.Holds t ∨ t ∈ used := by
  rcases eq_or_ne q [] with rfl | hq
  · cases ht
    exact h.rooted
  · exact .inl (h.held q t hq ht)

theorem two_tables_taken_back :
    let m := unmapped ⟨0x1000⟩ 3
    let m' := (m.mapPage .assumed ⟨0x1000⟩ ⟨0x5000⟩ ⟨0x1ff000⟩ ∅).2
    m'.history.filterMap Event.granted? = [⟨0x2000⟩, ⟨0x3000⟩] ∧
      m'.history.filterMap Event.released? = [⟨0x3000⟩, ⟨0x2000⟩] ∧
      m'.memory.tableAt ⟨0x1000⟩ = m.memory.tableAt ⟨0x1000⟩ ∧ ∀ t, m'.Holds t ↔ m.Holds t := by
  intro m m'
  have hrun : m.mapPage .assumed ⟨0x1000⟩ ⟨0x5000⟩ ⟨0x1ff000⟩ ∅ = (.error .outOfFrames, m') :=
    Prod.fst_eq_iff.1 (by decide +kernel)
  have h : WellFormed (FramePool.pinnedSet ⟨0x1000⟩ 1) ⟨0x1000⟩ m :=
    (owns_unmapped rfl (by decide) (by decide)).wellFormed
  obtain ⟨⟨htables, -⟩, hholds, ⟨es, hes, hnewest, -⟩, -⟩ :=
    failed_page_leaves_nothing h.honest (fun _ _ => h.table_in_use) (.inl hrun)
  have hgranted : m'.history.filterMap Event.granted? = [⟨0x2000⟩, ⟨0x3000⟩] := by decide +kernel
  refine ⟨hgranted, ?_, htables, hholds⟩
  rw [show m'.history = es from hes] at hgranted ⊢
  rw [hnewest, hgranted]
  rfl

end Machine

end VirtualMemory
