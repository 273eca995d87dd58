import VirtualMemory.Proofs.Spans
import VirtualMemory.Proofs.Twins

/-!
# Calls in step

Every step of a call reads only what twins have in common, so both machines take it together and
stay twins. By induction along the recursions of the calls, whole calls are in step.

* `Pair.Leads`: from one pair of twins to another, with events in step;
* **`Twins.removeFrom`**: removing a page, along the way back up;
* **`Twins.makePath_old`**, **`Twins.makePath_new`**: down to the table of a leaf, and back up along
  the tables made if the frames run out (`Reverts`);
* **`Twins.call`**, **`Twins.walk`**: whole calls and walks.
-/

namespace VirtualMemory

namespace Pair

variable {α β : Type} [FrameSource α] [FrameSource β]

/-- **From one pair to another, in step.** -/
structure Leads (used used' : Set PAddr) (roots : List (PAddr × PAddr)) (x y : Pair α β) :
    Prop where
  twins : y.Twins used used' roots
  history : ∃ es es', y.left.history = x.left.history ++ es ∧
    y.right.history = x.right.history ++ es' ∧ InStep x.names es es' y.names

variable {used used' : Set PAddr} {roots : List (PAddr × PAddr)} {x y z : Pair α β}
  {t t' c c' : PAddr} {i : Index} {e e' : Entry} {f : EntryFlags} {n : Nat}
  {m m₁ : Machine α} {m' m₁' : Machine β} {v : VAddr}

namespace Leads

theorem refl (h : x.Twins used used' roots) : Leads used used' roots x x :=
  ⟨h, [], [], by simp, by simp, .done _⟩

theorem trans (h : Leads used used' roots x y) (h' : Leads used used' roots y z) :
    Leads used used' roots x z := by
  obtain ⟨es, fs, he, hf, hs⟩ := h.history
  obtain ⟨es', fs', he', hf', hs'⟩ := h'.history
  exact ⟨h'.twins, es ++ es', fs ++ fs', by simp [he', he], by simp [hf', hf], hs.trans hs'⟩

theorem notices (h : x.Twins used used' roots) (ns ns' : List Notice) : Leads used used' roots x
    { x with left := ns.foldl Machine.note x.left, right := ns'.foldl Machine.note x.right } := by
  obtain ⟨hm, hf⟩ := Machine.notices_eq ns x.left
  obtain ⟨hm', hf'⟩ := Machine.notices_eq ns' x.right
  obtain ⟨es, he, hl⟩ := Machine.history_notices ns x.left
  obtain ⟨es', he', hl'⟩ := Machine.history_notices ns' x.right
  exact ⟨h.congr hm hf hm' hf', es, es', he, he', .of_notices hl hl'⟩

theorem flush (h : x.Twins used used' roots) (v : VAddr) : Leads used used' roots x
    { x with left := x.left.flush v, right := x.right.flush v } :=
  ⟨h.congr rfl rfl rfl rfl, [.flushed v], [.flushed v], Machine.history_record _ _,
    Machine.history_record _ _, .same trivial (.done _)⟩

/-- **A request is granted on both sides or on neither.** -/
theorem allocate (h : x.Twins used used' roots) :
    (∃ m₁ m₁', x.left.allocate = (none, m₁) ∧ x.right.allocate = (none, m₁') ∧
      Leads used used' roots x { x with left := m₁, right := m₁' }) ∨
    ∃ c c' m₁ m₁', x.left.allocate = (some c, m₁) ∧ x.right.allocate = (some c', m₁') ∧
      FrameSource.InPace (Function.update x.names c (some c')) m₁.frames m₁'.frames := by
  rcases ha : x.left.allocate with ⟨_ | c, m₁⟩
  · obtain ⟨m₁', ha', hp⟩ := Machine.exists_allocate_none h.inPace ha
    refine .inl ⟨m₁, m₁', rfl, ha', ?_⟩
    obtain ⟨hh, hs, frames, rfl⟩ := Machine.allocate_none h.honest ha
    obtain ⟨hh', hs', frames', rfl⟩ := Machine.allocate_none h.honest' ha'
    refine ⟨⟨?_, ?_⟩, [.refused], [.refused], Machine.history_record _ _,
      Machine.history_record _ _, .same trivial (.done _)⟩
    · constructor <;> simp only [hh, hh']
      exacts [hs, hs', hp, h.root_iff, h.rooted, h.height_le, h.held]
    · exact ⟨h.oneToOne, h.agree, h.down, h.once, h.linked⟩
  · obtain ⟨c', m₁', ha', hp⟩ := Machine.exists_allocate_some h.inPace ha
    exact .inr ⟨c, c', m₁, m₁', rfl, ha', hp⟩

theorem link (h : x.Twins used used' roots) (ht : x.names t = some t') (hn : x.height t = n + 1)
    (hi : (x.left.entry t i).isPresent = false) (ha : x.left.allocate = (some c, m₁))
    (ha' : x.right.allocate = (some c', m₁'))
    (hp : FrameSource.InPace (Function.update x.names c (some c')) m₁.frames m₁'.frames) :
    Leads used used' roots x
      ⟨(m₁.zero c).write t i (.make c f.asLink), (m₁'.zero c').write t' i (.make c' f.asLink),
        Function.update x.names c (some c'), Function.update x.height c n⟩ := by
  have htwins := h.link (f := f) ht hn hi ha ha' hp
  obtain ⟨hc, hc'⟩ := h.fresh ha ha'
  obtain ⟨-, hal, hb, -, -, frames, contents, rfl⟩ := Machine.allocate_some h.honest ha
  obtain ⟨-, hal', hb', -, -, frames', contents', rfl⟩ := Machine.allocate_some h.honest' ha'
  have htc : t ≠ c := by
    rintro rfl
    simp [hc] at ht
  refine ⟨htwins, [.granted c contents, .zeroed c, .wrote t i (.make c f.asLink)],
    [.granted c' contents', .zeroed c', .wrote t' i (.make c' f.asLink)], ?_, ?_, ?_⟩
  · rw [Machine.history_write, Machine.history_zero, Machine.history_record]
    simp [Machine.history]
  · rw [Machine.history_write, Machine.history_zero, Machine.history_record]
    simp [Machine.history]
  · have hagree := Entry.Agree.make_asLink (f := f) ⟨hal, hb⟩ ⟨hal', hb'⟩
      (Level.ofHeight_succ_ne_pt n) (Function.update_self c (some c') x.names)
    refine .granted contents contents' hc hc' (.zeroed (by simp) (.wrote i ?_ hagree (.done _)))
    simpa [htc] using ht

theorem put (h : x.Twins used used' roots) (ht : x.names t = some t')
    (he : e.isPresent = true ∧ e.isLeafAt (.ofHeight (x.height t)) = true)
    (hold : ∀ c, (x.left.entry t i).role (.ofHeight (x.height t)) ≠ .link c) :
    Leads used used' roots x
      { x with left := x.left.write t i e, right := x.right.write t' i e } := by
  have hrole := Entry.role_eq_leaf_iff.2 he
  refine ⟨h.set ht (.leaf hrole rfl) hold (by simp [hrole]) rfl rfl rfl rfl, [.wrote t i e],
    [.wrote t' i e], Machine.history_write .., Machine.history_write ..,
    .wrote i ht (.leaf hrole rfl) (.done _)⟩

theorem clear (h : x.Twins used used' roots) (ht : x.names t = some t')
    (hr : (x.left.entry t i).role (.ofHeight (x.height t)) = .leaf) :
    Leads used used' roots x
      { x with left := x.left.disable t i, right := x.right.disable t' i } := by
  have hd : ∀ (e : Entry) c, e.disabled.role (.ofHeight (x.height t)) ≠ .link c := by
    simp [(Entry.role_eq_absent_iff _ _).2 (Entry.isPresent_disabled _)]
  refine ⟨h.set ht (.disabled _ _ _) (by simp [hr]) (hd _) (Machine.memory_disable ..) (Machine.frames_disable ..)
      (Machine.memory_disable ..) (Machine.frames_disable ..),
    [.interruptsOff, .wrote t i _, .interruptsOn], [.interruptsOff, .wrote t' i _, .interruptsOn],
    Machine.history_disable .., Machine.history_disable .., ?_⟩
  exact .same trivial (.wrote i ht (.disabled (.ofHeight (x.height t)) _ _) (.same trivial (.done _)))

theorem unlink (h : x.Twins used used' roots) (hl : x.Links t i c) (ht : x.names t = some t')
    (hc : x.names c = some c') (hv : ∀ j, (x.left.entry c j).isPresent = false)
    (height : PAddr → Nat) (hheight : ∀ u, u ≠ c → height u = x.height u)
    (ns ns' : List Notice) : Leads used used' roots x
      ⟨(ns.foldl Machine.note (x.left.disable t i)).release c,
        (ns'.foldl Machine.note (x.right.disable t' i)).release c',
        Function.update x.names c none, height⟩ := by
  obtain ⟨hm, hf⟩ := Machine.notices_eq ns (x.left.disable t i)
  obtain ⟨hm', hf'⟩ := Machine.notices_eq ns' (x.right.disable t' i)
  obtain ⟨es, hes, hlog⟩ := Machine.history_notices ns (x.left.disable t i)
  obtain ⟨es', hes', hlog'⟩ := Machine.history_notices ns' (x.right.disable t' i)
  have hdown := h.down t i c hl
  have hle := h.height_le t t' ht
  obtain ⟨hheld, hheld'⟩ := h.held c c' hc (by omega)
  replace hheld := (Machine.holds_congr hf).2 hheld
  replace hheld' := (Machine.holds_congr hf').2 hheld'
  refine ⟨h.unlink hl ht hc hv hm hf hm' hf' hheight,
    .interruptsOff :: .wrote t i (x.left.entry t i).disabled :: .interruptsOn ::
      (es ++ [.released c true]),
    .interruptsOff :: .wrote t' i (x.right.entry t' i).disabled :: .interruptsOn ::
      (es' ++ [.released c' true]), ?_, ?_, ?_⟩
  · simp [Machine.history_release (hf ▸ h.honest) hheld, hes, Machine.history_disable]
  · simp [Machine.history_release (hf' ▸ h.honest') hheld', hes', Machine.history_disable]
  · exact .same trivial (.wrote i ht (.disabled (.ofHeight (x.height t)) _ _) (.same trivial
      ((InStep.of_notices hlog hlog').trans (.released hc (.done _)))))

end Leads

/-! ## Removing pages -/

/-- **What removal from a table with `n` levels below it does to twins**: higher tables keep their
entries, and no table of its height or higher goes. -/
structure Removes (used used' : Set PAddr) (roots : List (PAddr × PAddr)) (n : Nat)
    (x y : Pair α β) : Prop where
  leads : Leads used used' roots x y
  height : y.height = x.height
  names : ∀ u, n ≤ x.height u → y.names u = x.names u
  entry : ∀ u, n < x.height u → ∀ j, y.left.entry u j = x.left.entry u j

namespace Removes

theorem refl (h : x.Twins used used' roots) : Removes used used' roots n x x :=
  ⟨.refl h, rfl, fun _ _ => rfl, fun _ _ _ => rfl⟩

theorem leaf (h : x.Twins used used' roots) (ht : x.names t = some t') (hn : x.height t = n)
    (hr : (x.left.entry t i).role (.ofHeight n) = .leaf) (v : VAddr) :
    Removes used used' roots n x
      { x with left := (x.left.disable t i).flush v, right := (x.right.disable t' i).flush v } := by
  have hclear := Leads.clear h ht (i := i) (by rwa [hn])
  refine ⟨hclear.trans (.flush hclear.twins v), rfl, fun _ _ => rfl, fun u hu j => ?_⟩
  have hne : ¬ (t = u ∧ i = j) := by
    rintro ⟨rfl, -⟩
    omega
  simp [Machine.entry, Memory.entry_set, hne]

/-- **On the way back up**, a table goes on both sides or on neither. -/
theorem step (h : x.Twins used used' roots) (hy : Removes used used' roots n x y)
    (ht : x.names t = some t') (hn : x.height t = n + 1) (hc : x.names c = some c')
    (hr : (x.left.entry t i).role (.ofHeight (n + 1)) = .link c) (a a' : Notice) :
    ∃ z, z.left = (if (y.left.memory.table c).isVacant then
        ((y.left.disable t i).note a).release c else y.left) ∧
      z.right = (if (y.right.memory.table c').isVacant then
        ((y.right.disable t' i).note a').release c' else y.right) ∧
      Removes used used' roots (n + 1) x z := by
  have hl : x.Links t i c := ⟨⟨t', ht⟩, by rwa [hn]⟩
  have hdown := h.down t i c hl
  have hty : y.names t = some t' := by rw [hy.names t (by omega), ht]
  have hcy : y.names c = some c' := by rw [hy.names c (by omega), hc]
  have hly : y.Links t i c := by
    refine ⟨⟨t', hty⟩, ?_⟩
    rw [hy.height, hn, hy.entry t (by omega), hr]
  have hvac : (y.right.memory.table c').isVacant = (y.left.memory.table c).isVacant := by
    rw [Bool.eq_iff_iff, Table.isVacant_iff, Table.isVacant_iff]
    exact forall_congr' fun j =>
      iff_of_eq (congrArg (· = false) (hy.leads.twins.agree c c' hcy j).isPresent_eq)
  rw [hvac]
  split
  · rename_i hv
    have hun := Leads.unlink hy.leads.twins hly hty hcy ((Table.isVacant_iff _).1 hv)
      x.height (fun u _ => by rw [hy.height]) [a] [a']
    refine ⟨_, rfl, rfl, hy.leads.trans hun, rfl, fun u hu => ?_, fun u hu j => ?_⟩
    · have huc : u ≠ c := by
        rintro rfl
        omega
      simp only [Function.update_of_ne huc]
      exact hy.names u (by omega)
    · have hne : ¬ (t = u ∧ i = j) := by
        rintro ⟨rfl, -⟩
        omega
      rw [← hy.entry u (by omega)]
      simp [Machine.entry, Memory.entry_set, hne]
  · exact ⟨y, rfl, rfl, hy.leads, hy.height, fun u hu => hy.names u (by omega),
      fun u hu => hy.entry u (by omega)⟩

end Removes

theorem Twins.removeFrom (h : x.Twins used used' roots) (n : Nat) {t t' : PAddr}
    (ht : x.names t = some t') (hn : x.height t = n) : ∃ y, y.left = x.left.removeFrom v n t ∧
      y.right = x.right.removeFrom v n t' ∧ Removes used used' roots n x y := by
  have hagree := h.agree t t' ht ((Level.ofHeight n).index v)
  rw [hn] at hagree
  cases hagree with
  | absent left right =>
    rw [Machine.removeFrom_of_absent left, Machine.removeFrom_of_absent right]
    exact ⟨x, rfl, rfl, .refl h⟩
  | leaf left same =>
    rw [Machine.removeFrom_of_leaf left, Machine.removeFrom_of_leaf (same ▸ left)]
    exact ⟨_, rfl, rfl, .leaf h ht hn left v⟩
  | @link c c' left right named =>
    cases n with
    | zero => exact absurd left (Entry.role_pt_ne_link _ _)
    | succ n =>
      have hdown := h.down t _ c ⟨⟨t', ht⟩, hn.symm ▸ left⟩
      obtain ⟨y, hyl, hyr, hy⟩ := h.removeFrom n named (by omega)
      rw [Machine.removeFrom_of_link left, Machine.removeFrom_of_link right, ← hyl, ← hyr]
      exact hy.step h ht hn named left _ _

end Pair

/-! ## Making the path to a leaf -/

namespace Machine

variable {α : Type} [FrameSource α]

/-- Takes one table back. -/
def unmake (m : Machine α) (new : NewTable) : Machine α :=
  (m.disable new.parent new.index).release new.table

theorem exists_takeBack_eq (made : List NewTable) (m : Machine α) :
    ∃ ns : List Notice, m.takeBack made = made.foldl unmake (ns.foldl note m) := by
  unfold takeBack
  split
  · rename_i hm
    obtain rfl := List.isEmpty_iff.1 hm
    exact ⟨[], rfl⟩
  · exact ⟨[.takingBack made.length], rfl⟩

end Machine

namespace Pair

variable {α β : Type} [FrameSource α] [FrameSource β] {used used' : Set PAddr}
  {roots : List (PAddr × PAddr)} {x y z : Pair α β} {t t' c c' : PAddr} {i : Index}
  {f : EntryFlags} {n : Nat} {m₁ : Machine α} {m₁' : Machine β} {v : VAddr} {leaf : Level}
  {made made' : List NewTable}

/-- **Back to the same tables**: twins again, with the same names and the same entries in use. -/
structure Reverts (used used' : Set PAddr) (roots : List (PAddr × PAddr)) (x : Pair α β)
    (m : Machine α) (m' : Machine β) : Prop where
  leads : Leads used used' roots x { x with left := m, right := m' }
  inUse : ∀ u u', x.names u = some u' → ∀ j, (m.entry u j).inUse? = (x.left.entry u j).inUse?

theorem Reverts.links_iff {m : Machine α} {m' : Machine β}
    (hz : Reverts used used' roots x m m') :
    Links { x with left := m, right := m' } t i c ↔ x.Links t i c := by
  refine and_congr_right ?_
  rintro ⟨t', ht⟩
  rw [← Entry.link?_eq_some_iff, ← Entry.link?_eq_some_iff, Entry.link?_eq_bind, hz.inUse t t' ht i,
    ← Entry.link?_eq_bind]

/-- Two machines after both made a table and reported it. -/
def withTable (x : Pair α β) (t t' c c' : PAddr) (i : Index) (f : EntryFlags) (n : Nat)
    (m : Machine α) (m' : Machine β) (a a' : Notice) : Pair α β :=
  ⟨((m.zero c).write t i (.make c f.asLink)).note a,
    ((m'.zero c').write t' i (.make c' f.asLink)).note a',
    Function.update x.names c (some c'), Function.update x.height c n⟩

section WithTable

variable (h : x.Twins used used' roots) (ht : x.names t = some t') (hn : x.height t = n + 1)
  (hi : (x.left.entry t i).isPresent = false) (ha : x.left.allocate = (some c, m₁))
  (ha' : x.right.allocate = (some c', m₁'))
  (hp : FrameSource.InPace (Function.update x.names c (some c')) m₁.frames m₁'.frames)
  (a a' : Notice)

include h ha

theorem Twins.entry_withTable (u : PAddr) (j : Index) :
    (x.withTable t t' c c' i f n m₁ m₁' a a').left.entry u j =
      if t = u ∧ i = j then .make c f.asLink else if c = u then .empty else x.left.entry u j := by
  rw [← Machine.entry_of_made h.honest ha u j]
  simp [withTable, Machine.entry]

include ht hn hi ha' hp

theorem Leads.withTable :
    Leads used used' roots x (x.withTable t t' c c' i f n m₁ m₁' a a') := by
  have hlink := Leads.link (f := f) h ht hn hi ha ha' hp
  exact hlink.trans (.notices hlink.twins [a] [a'])

/-- **A table made and taken back**, with a return to the same tables in between. -/
theorem Reverts.unmake {m : Machine α} {m' : Machine β}
    (hz : Reverts used used' roots (x.withTable t t' c c' i f n m₁ m₁' a a') m m') :
    Reverts used used' roots x (m.unmake ⟨t, i, c⟩) (m'.unmake ⟨t', i, c'⟩) := by
  have hy := Leads.withTable (f := f) h ht hn hi ha ha' hp a a'
  have hentry : ∀ u j, (x.withTable t t' c c' i f n m₁ m₁' a a').left.entry u j = _ :=
    h.entry_withTable ha a a'
  obtain ⟨hc, -⟩ := h.fresh ha ha'
  have hname : ∀ u u', x.names u = some u' →
      u ≠ c ∧ (x.withTable t t' c c' i f n m₁ m₁' a a').names u = some u' := by
    intro u u' hu
    have huc : u ≠ c := by
      rintro rfl
      simp [hc] at hu
    exact ⟨huc, by simp [Pair.withTable, huc, hu]⟩
  obtain ⟨htc, ht₁⟩ := hname t t' ht
  have hc₁ : (x.withTable t t' c c' i f n m₁ m₁' a a').names c = some c' := by
    simp [Pair.withTable]
  -- the entry that links the table has stayed, and the table is empty again
  obtain ⟨-, hal, hb, -⟩ := Machine.allocate_some h.honest ha
  have hmade : (x.withTable t t' c c' i f n m₁ m₁' a a').Links t i c :=
    (Matched.links_link_iff ht hn hi hc ⟨hal, hb⟩ hentry).2 (.inl ⟨rfl, rfl, rfl⟩)
  have hl := hz.links_iff.2 hmade
  have hv : ∀ j, (m.entry c j).isPresent = false := by
    intro j
    rw [← Entry.inUse?_eq_none_iff, hz.inUse c c' hc₁ j, hentry]
    simp [htc, Entry.inUse?]
  have hun := Leads.unlink hz.leads.twins hl ht₁ hc₁ hv x.height
    (fun u hu => by simp [Pair.withTable, hu]) [] []
  have hback : Function.update (x.withTable t t' c c' i f n m₁ m₁' a a').names c none = x.names := by
    simp [Pair.withTable, ← hc]
  rw [hback] at hun
  refine ⟨hy.trans (hz.leads.trans hun), fun u u' hu j => ?_⟩
  obtain ⟨huc, hu₁⟩ := hname u u' hu
  have hafter : (m.unmake ⟨t, i, c⟩).entry u j =
      if t = u ∧ i = j then (m.entry t i).disabled else m.entry u j := by
    simp [Machine.unmake, Machine.entry, Memory.entry_set]
  rw [hafter]
  split
  · rename_i he
    obtain ⟨rfl, rfl⟩ := he
    rw [Entry.inUse?_of_not_isPresent (Entry.isPresent_disabled _),
      Entry.inUse?_of_not_isPresent hi]
  · rename_i he
    rw [hz.inUse u u' hu₁ j, hentry, if_neg he, if_neg (Ne.symm huc)]

end WithTable

open Machine in
/-- **Below a new table** both machines make the same tables, and can take them back. -/
theorem Twins.makePath_new (h : x.Twins used used' roots) (ht : x.names t = some t')
    (hn : x.height t = leaf.height + n) (hv : ∀ j, (x.left.entry t j).isPresent = false)
    (hmade : made ≠ []) (hmade' : made' ≠ []) :
    (∃ y u u' new new', x.left.makePath v f.asLink leaf n t made = (.ok u, new, y.left) ∧
      x.right.makePath v f.asLink leaf n t' made' = (.ok u', new', y.right) ∧
      Leads used used' roots x y ∧ y.names u = some u' ∧ y.height u = leaf.height ∧
      ∀ j, (y.left.entry u j).isPresent = false) ∨
    ∃ m m' new new', x.left.makePath v f.asLink leaf n t made =
        (.error .outOfFrames, new ++ made, m) ∧
      x.right.makePath v f.asLink leaf n t' made' = (.error .outOfFrames, new' ++ made', m') ∧
      ∀ ns ns' : List Notice, Reverts used used' roots x (new.foldl unmake (ns.foldl note m))
        (new'.foldl unmake (ns'.foldl note m')) := by
  -- below a new table no entry is read: the source alone decides how the way goes on
  induction n generalizing t t' made made' x with
  | zero => exact .inl ⟨x, t, t', made, made', rfl, rfl, .refl h, ht, hn, hv⟩
  | succ n ih =>
    simp only [makePath, List.isEmpty_eq_false_iff.2 hmade, List.isEmpty_eq_false_iff.2 hmade',
      Bool.false_eq_true, if_false, Entry.role_empty]
    rcases Leads.allocate h with ⟨m, m', ha, ha', hr⟩ | ⟨c, c', m₁, m₁', ha, ha', hp⟩
    · simp only [ha, ha']
      refine .inr ⟨m, m', [], [], rfl, rfl, fun ns ns' => ⟨?_, ?_⟩⟩
      · exact hr.trans (.notices hr.twins ns ns')
      · obtain ⟨-, -, frames, rfl⟩ := allocate_none h.honest ha
        exact fun u u' hu j => by simp [entry, (notices_eq ns _).1]
    · simp only [ha, ha']
      have htc : t ≠ c := by
        rintro rfl
        simp [(h.fresh ha ha').1] at ht
      generalize (Level.ofHeight (leaf.height + n + 1)).index v = i
      have hy := fun a a' => Leads.withTable (f := f) h ht hn (hv i) ha ha' hp a a'
      rcases ih (hy _ _).twins (Function.update_self ..) (Function.update_self ..) (fun j => by
        rw [h.entry_withTable ha]; simp [htc]) (List.cons_ne_nil _ made)
        (List.cons_ne_nil _ made') with
        ⟨z, u, u', new, new', hz, hz', hl, hrest⟩ | ⟨m, m', new, new', hz, hz', hrev⟩
      · exact .inl ⟨z, u, u', new, new', hz, hz', (hy _ _).trans hl, hrest⟩
      · refine .inr ⟨m, m', new ++ [⟨t, i, c⟩], new' ++ [⟨t', i, c'⟩], ?_, ?_, fun ns ns' => ?_⟩
        · rw [← List.append_cons]
          exact hz
        · rw [← List.append_cons]
          exact hz'
        · rw [List.foldl_append, List.foldl_append]
          exact .unmake h ht hn (hv i) ha ha' hp _ _ (hrev ns ns')

open Machine in
/-- **Down to the first table that is missing** both machines follow links of the same names. -/
theorem Twins.makePath_old (h : x.Twins used used' roots) (ht : x.names t = some t')
    (hn : x.height t = leaf.height + n) :
    (∃ y u u' new new', x.left.makePath v f.asLink leaf n t [] = (.ok u, new, y.left) ∧
      x.right.makePath v f.asLink leaf n t' [] = (.ok u', new', y.right) ∧
      Leads used used' roots x y ∧ y.names u = some u' ∧ y.height u = leaf.height ∧
      (new = [] ∧ new' = [] ∧ y = x ∨ ∀ j, (y.left.entry u j).isPresent = false)) ∨
    ∃ e m m' new new', x.left.makePath v f.asLink leaf n t [] = (.error e, new, m) ∧
      x.right.makePath v f.asLink leaf n t' [] = (.error e, new', m') ∧
      ∀ ns ns' : List Notice, Leads used used' roots x { x with
        left := new.foldl unmake (ns.foldl note m), right := new'.foldl unmake (ns'.foldl note m') } := by
  induction n generalizing t t' with
  | zero => exact .inl ⟨x, t, t', [], [], rfl, rfl, .refl h, ht, hn, .inl ⟨rfl, rfl, rfl⟩⟩
  | succ n ih =>
    have hagree := h.agree t t' ht ((Level.ofHeight (leaf.height + n + 1)).index v)
    rw [hn, ← Nat.add_assoc] at hagree
    simp only [makePath, List.isEmpty_nil, if_true]
    generalize (Level.ofHeight (leaf.height + n + 1)).index v = i at hagree ⊢
    cases hagree with
    | leaf left same =>
      simp only [left, same]
      exact .inr ⟨.sizeMismatch, _, _, [], [], rfl, rfl, fun ns ns' => .notices h ns ns'⟩
    | @link c c' left right named =>
      simp only [left, right]
      have hdown := h.down t i c ⟨⟨t', ht⟩, by rwa [hn]⟩
      exact ih named (by omega)
    | absent left right =>
      simp only [left, right]
      have hi := (Entry.role_eq_absent_iff _ _).1 left
      rcases Leads.allocate h with ⟨m, m', ha, ha', hr⟩ | ⟨c, c', m₁, m₁', ha, ha', hp⟩
      · simp only [ha, ha']
        exact .inr ⟨.outOfFrames, m, m', [], [], rfl, rfl, fun ns ns' =>
          hr.trans (.notices hr.twins ns ns')⟩
      · simp only [ha, ha']
        have htc : t ≠ c := by
          rintro rfl
          simp [(h.fresh ha ha').1] at ht
        have hy := fun a a' => Leads.withTable (f := f) h ht hn hi ha ha' hp a a'
        rcases (hy _ _).twins.makePath_new (Function.update_self ..) (Function.update_self ..)
          (fun j => by rw [h.entry_withTable ha]; simp [htc]) (List.cons_ne_nil _ [])
          (List.cons_ne_nil _ []) with
          ⟨z, u, u', new, new', hz, hz', hl, hu, hleaf, hv⟩ | ⟨m, m', new, new', hz, hz', hrev⟩
        · exact .inl ⟨z, u, u', new, new', hz, hz', (hy _ _).trans hl, hu, hleaf, .inr hv⟩
        · refine .inr ⟨.outOfFrames, m, m', _, _, hz, hz', fun ns ns' => ?_⟩
          rw [List.foldl_append, List.foldl_append]
          exact (Reverts.unmake h ht hn hi ha ha' hp _ _ (hrev ns ns')).leads

/-! ## Whole calls -/

/-- **Two runs from a pair that answer the same and stay in step.** -/
def Together (used used' : Set PAddr) (roots : List (PAddr × PAddr)) (x : Pair α β) {γ : Type}
    (r : γ × Machine α) (r' : γ × Machine β) : Prop :=
  r.1 = r'.1 ∧ ∃ names height, Leads used used' roots x ⟨r.2, r'.2, names, height⟩

open Machine in
theorem Twins.writeLeaf {r r' : PAddr} (h : x.Twins used used' roots) (hr : (r, r') ∈ roots)
    (p : PAddr) (v : VAddr)
    (hf : (Entry.make p f).isPresent = true ∧ (Entry.make p f).isLeafAt leaf = true) :
    Together used used' roots x (x.left.writeLeaf r p v leaf f)
      (x.right.writeLeaf r' p v leaf f) := by
  obtain ⟨hname, hheight⟩ := (h.root_iff r r').1 hr
  have hle := leaf.height_le
  have hlevel : x.height r = leaf.height + (3 - leaf.height) := by omega
  simp only [Machine.writeLeaf]
  rcases h.makePath_old (v := v) (f := f) hname hlevel with
    ⟨y, u, u', new, new', hp, hp', hy, hu, hlevel, hnew⟩ | ⟨e, m, m', new, new', hp, hp', hback⟩
  · simp only [hp, hp']
    have hagree := hy.twins.agree u u' hu (leaf.index v)
    rw [hlevel, Level.ofHeight_height] at hagree
    have hput : (∀ c, (y.left.entry u (leaf.index v)).role leaf ≠ .link c) →
        Leads used used' roots y { y with
          left := y.left.write u (leaf.index v) (.make p f)
          right := y.right.write u' (leaf.index v) (.make p f) } := by
      intro hold
      apply Leads.put hy.twins hu <;> rw [hlevel, Level.ofHeight_height]
      exacts [hf, hold]
    cases hagree with
    | absent left right =>
      simp only [left, right]
      exact ⟨rfl, _, _, hy.trans (hput (by simp [left]))⟩
    | leaf left same =>
      simp only [left, same]
      have hleads := hput (by simp [left])
      exact ⟨rfl, _, _, hy.trans (hleads.trans (.flush hleads.twins v))⟩
    | link left right =>
      simp only [left, right]
      -- a table in the leaf's place is an old one, so none was made
      rcases hnew with ⟨rfl, rfl, rfl⟩ | hv
      · exact ⟨rfl, _, _, hy⟩
      · rw [(Entry.role_eq_absent_iff _ _).2 (hv _)] at left
        cases left
  · simp only [hp, hp']
    obtain ⟨ns, hns⟩ := exists_takeBack_eq new m
    obtain ⟨ns', hns'⟩ := exists_takeBack_eq new' m'
    rw [hns, hns']
    exact ⟨rfl, _, _, hback ns ns'⟩

variable {w : Widths} {r r' p : PAddr} {a : Attributes} {s : Span}

theorem Twins.mapPage (h : x.Twins used used' roots) (hr : (r, r') ∈ roots) (w : Widths)
    (p : PAddr) (v : VAddr) (a : Attributes) : Together used used' roots x
      (x.left.mapPage w r p v a) (x.right.mapPage w r' p v a) := by
  unfold Machine.mapPage
  split
  · exact ⟨rfl, _, _, .refl h⟩
  · exact h.writeLeaf hr p v (Entry.isLeafAt_make_asLeaf p _)

theorem Twins.mapLarge (h : x.Twins used used' roots) (hr : (r, r') ∈ roots) (w : Widths)
    (p : PAddr) (v : VAddr) (a : Attributes) : Together used used' roots x
      (x.left.mapLarge w r p v a) (x.right.mapLarge w r' p v a) := by
  unfold Machine.mapLarge
  split
  · exact ⟨rfl, _, _, .refl h⟩
  · exact h.writeLeaf hr p v (Entry.isLeafAt_make_enlarged p _)

theorem Twins.unmapPage (h : x.Twins used used' roots) (hr : (r, r') ∈ roots) (v : VAddr) :
    ∃ names height, Leads used used' roots x
      ⟨x.left.unmapPage r v, x.right.unmapPage r' v, names, height⟩ := by
  obtain ⟨hname, hheight⟩ := (h.root_iff r r').1 hr
  obtain ⟨y, hl, hr, hy⟩ := h.removeFrom (v := v) 3 hname hheight
  exact ⟨y.names, y.height, by rw [Machine.unmapPage, Machine.unmapPage, ← hl, ← hr]; exact hy.leads⟩

theorem Twins.unwind (h : x.Twins used used' roots) (hr : (r, r') ∈ roots) (v : VAddr)
    (count : Nat) : ∃ names height, Leads used used' roots x
      ⟨x.left.unwind r v count, x.right.unwind r' v count, names, height⟩ := by
  induction count with
  | zero => exact ⟨_, _, .refl h⟩
  | succ count ih =>
    obtain ⟨names, height, hy⟩ := ih
    obtain ⟨names', height', hz⟩ := hy.twins.unmapPage hr (v.addPages count)
    rw [Machine.unwind_succ, Machine.unwind_succ]
    exact ⟨names', height', hy.trans hz⟩

theorem Twins.mapSpanFrom (h : x.Twins used used' roots) (hr : (r, r') ∈ roots) (w : Widths)
    (s : Span) (a : Attributes) (left i : Nat) : Together used used' roots x
      (x.left.mapSpanFrom w r s a left i) (x.right.mapSpanFrom w r' s a left i) := by
  induction left generalizing i x with
  | zero => exact ⟨rfl, _, _, .refl h⟩
  | succ left ih =>
    obtain ⟨hres, names, height, hy⟩ := h.mapPage hr w (s.phys.addPages i) (s.virt.addPages i) a
    simp only [Machine.mapSpanFrom]
    rcases hrun : x.left.mapPage w r (s.phys.addPages i) (s.virt.addPages i) a with ⟨o, m⟩
    rcases hrun' : x.right.mapPage w r' (s.phys.addPages i) (s.virt.addPages i) a with ⟨o', m'⟩
    rw [hrun, hrun'] at hres hy
    obtain rfl : o = o' := hres
    cases o with
    | ok u =>
      obtain ⟨hres, names, height, hz⟩ := ih hy.twins (i + 1)
      exact ⟨hres, names, height, hy.trans hz⟩
    | error e =>
      have hnote := Leads.notices hy.twins [.runFailed s.pages s.virt i e]
        [.runFailed s.pages s.virt i e]
      obtain ⟨names, height, hz⟩ := hnote.twins.unwind hr s.virt i
      exact ⟨rfl, names, height, hy.trans (hnote.trans hz)⟩

/-- **Every call is in step**, and answers the same. -/
theorem Twins.call (h : x.Twins used used' roots) (hr : (r, r') ∈ roots) (w : Widths) (c : Call) :
    Together used used' roots x (c.run w r x.left) (c.run w r' x.right) := by
  cases c with
  | mapPage p v a => exact h.mapPage hr w p v a
  | mapLarge p v a => exact h.mapLarge hr w p v a
  | mapSpan s a =>
    simp only [Call.run, Machine.mapSpan]
    split
    · exact ⟨rfl, _, _, .refl h⟩
    · exact h.mapSpanFrom hr w s a s.pages 0
  | unmapPage v => exact ⟨rfl, h.unmapPage hr v⟩
  | unmapPages v count =>
    simp only [Call.run]
    cases hadm : w.admitsPages v count with
    | false =>
      rw [Machine.unmapPages_refused hadm, Machine.unmapPages_refused hadm]
      exact ⟨rfl, _, _, .refl h⟩
    | true =>
      rw [Machine.unmapPages_eq hadm, Machine.unmapPages_eq hadm]
      exact ⟨rfl, h.unwind hr v count⟩

/-! ## Walks -/

/-- **Walks end alike**: at the same leaf, or at the same level of tables of one name. -/
theorem Twins.walkFrom (h : x.Twins used used' roots) (n : Nat) {t t' : PAddr}
    (ht : x.names t = some t') (hn : x.height t = n) :
    (∃ l e, x.left.memory.walkFrom v n t = .ofLeaf l e v ∧
      x.right.memory.walkFrom v n t' = .ofLeaf l e v) ∨
    ∃ l u u', x.names u = some u' ∧ x.left.memory.walkFrom v n t = .missing l u ∧
      x.right.memory.walkFrom v n t' = .missing l u' := by
  have hagree := h.agree t t' ht ((Level.ofHeight n).index v)
  rw [hn] at hagree
  cases hagree with
  | absent left right =>
    exact .inr ⟨_, t, t', ht, Memory.walkFrom_of_absent left, Memory.walkFrom_of_absent right⟩
  | leaf left same =>
    have right : (x.right.entry t' ((Level.ofHeight n).index v)).role (.ofHeight n) = .leaf :=
      same ▸ left
    refine .inl ⟨_, _, Memory.walkFrom_of_leaf left, ?_⟩
    rw [Memory.walkFrom_of_leaf right]
    exact congrArg (Translation.ofLeaf _ · v) same
  | @link c c' left right named =>
    cases n with
    | zero => exact absurd left (Entry.role_pt_ne_link _ _)
    | succ n =>
      have hdown := h.down t _ c ⟨⟨t', ht⟩, hn.symm ▸ left⟩
      rw [Memory.walkFrom_of_link left, Memory.walkFrom_of_link right]
      exact h.walkFrom n named (by omega)

theorem Twins.walk (h : x.Twins used used' roots) (hr : (r, r') ∈ roots) (v : VAddr) :
    ((x.right.walk r' v).1.target? = (x.left.walk r v).1.target? ∧
      ∀ p a, (x.right.walk r' v).1.check p a = (x.left.walk r v).1.check p a) ∧
    Leads used used' roots x
      { x with left := (x.left.walk r v).2, right := (x.right.walk r' v).2 } := by
  obtain ⟨hname, hheight⟩ := (h.root_iff r r').1 hr
  constructor
  · simp only [Machine.walk, Memory.walk]
    rcases h.walkFrom (v := v) 3 hname hheight with ⟨l, e, hl, hr⟩ | ⟨l, u, u', -, hl, hr⟩
    · simp [hl, hr]
    · simp [hl, hr, Translation.target?, Translation.check]
  · have hn := Leads.notices h
      ((x.left.memory.visits r v).map fun s => .read v s.level s.entry)
      ((x.right.memory.visits r' v).map fun s => .read v s.level s.entry)
    rwa [List.foldl_map, List.foldl_map] at hn

end Pair

end VirtualMemory
