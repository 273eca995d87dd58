import VirtualMemory.Proofs.Positions
import VirtualMemory.Proofs.TakingBack
import VirtualMemory.Proofs.Unmapping

/-!
# What a walk tells about mapping

Mapping a page goes down the way that the walk of its address goes. So the walk, done before, tells
how the call ends: at a leaf or a table of another size it gives up, at its own level it writes one
word, and where the walk stops above, the source of frames decides alone.

* `FrameSource.answers`: what a source answers to requests made one after the other;
* `Translation.framesFor`: the number of frames that a leaf at a level needs after a walk;
* `makePath_eq_makePath`: the way down comes by the tables of the trail, `makePath_of_missing`: it asks
  for a frame where the walk stops, and `makePath_below`: for one at every step below a new table;
* `Predicted`: what a walk tells about writing a leaf, and **`WellFormed.predicted_writeLeaf`**;
* **`WellFormed.walk_predicts`**: the same for mapping a page, small or large, and when a large page is
  in the way of others.
-/

namespace VirtualMemory

/-! ## Requests -/

/-- The answer that an event gives to a request for a frame. -/
def Event.request? : Event → Option (Option PAddr)
  | granted c _ => some (some c)
  | refused => some none
  | _ => none

namespace FrameSource

variable {α : Type} [FrameSource α]

/-- **What a source answers to `n` requests in a row**, up to the first that it refuses. -/
def answers : Nat → α → List (Option PAddr)
  | 0, _ => []
  | n + 1, s =>
    match allocate s with
    | (none, _) => [none]
    | (some (f, _), s) => some f.start :: answers n s

theorem length_answers {n : Nat} {s : α} (h : none ∉ answers n s) : (answers n s).length = n := by
  induction n generalizing s with
  | zero => rfl
  | succ n ih =>
    unfold answers at h ⊢
    split at h
    · exact absurd List.mem_cons_self h
    · rename_i f contents s' hs
      rw [List.length_cons, ih fun hm => h (List.mem_cons_of_mem _ hm)]

end FrameSource

/-- **The frames that a leaf at a level needs** after a walk, if it can be written at all. A leaf of
the same size makes room, and each level at which a table is missing takes a frame. -/
def Translation.framesFor (leaf : Level) : Translation → Option Nat
  | mapped _ _ l => if l = leaf then some 0 else none
  | missing l _ => if l.height < leaf.height then none else some (l.height - leaf.height)

namespace Machine

open FrameSource

variable {α : Type} [FrameSource α] {used : Set PAddr} {root p t u c : PAddr} {v : VAddr}
  {w : Widths} {a : Attributes} {l leaf : Level} {f link : EntryFlags} {n d k : Nat}
  {made made' : List NewTable} {m m₁ m' : Machine α}

theorem answers_of_some (ha : m.allocate = (some c, m₁)) (n : Nat) :
    answers (n + 1) m.frames = some c :: answers n m₁.frames := by
  unfold allocate at ha
  split at ha
  · cases ha
  · rename_i f contents frames hf
    cases ha
    rw [answers, hf]
    rfl

theorem answers_of_none (ha : m.allocate = (none, m₁)) (n : Nat) :
    answers (n + 1) m.frames = [none] := by
  unfold allocate at ha
  split at ha
  · rename_i frames hf
    rw [answers, hf]
  · cases ha

/-- **Between two machines, requests were made** and answered with `qs`. -/
def Asks (qs : List (Option PAddr)) (m m' : Machine α) : Prop :=
  ∃ es, m'.history = m.history ++ es ∧ es.filterMap Event.request? = qs

namespace Asks

variable {qs qs' : List (Option PAddr)} {i : Index} {e : Entry}

omit [FrameSource α] in
theorem refl (m : Machine α) : Asks [] m m := ⟨[], (List.append_nil _).symm, rfl⟩

omit [FrameSource α] in
theorem trans (h : Asks qs m m₁) (h' : Asks qs' m₁ m') : Asks (qs ++ qs') m m' := by
  obtain ⟨es, hes, rfl⟩ := h
  obtain ⟨es', hes', rfl⟩ := h'
  exact ⟨es ++ es', by rw [hes', hes, List.append_assoc], List.filterMap_append⟩

omit [FrameSource α] in
theorem quiet (h : Asks qs m m₁) (h' : Asks [] m₁ m') : Asks qs m m' := by
  simpa using h.trans h'

omit [FrameSource α] in
theorem write (m : Machine α) (t : PAddr) (i : Index) (e : Entry) : Asks [] m (m.write t i e) :=
  ⟨_, history_write m t i e, rfl⟩

omit [FrameSource α] in
theorem note (m : Machine α) (n : Notice) : Asks [] m (m.note n) := by
  obtain ⟨logs, hlogs, hlogged⟩ := history_notices [n] m
  refine ⟨logs, hlogs, List.filterMap_eq_nil_iff.2 fun e he => ?_⟩
  obtain ⟨x, rfl⟩ := hlogged e he
  rfl

theorem granted (hs : Honest used m.frames) (ha : m.allocate = (some c, m₁)) :
    Asks [some c] m m₁ := by
  obtain ⟨-, -, -, -, -, frames, contents, rfl⟩ := allocate_some hs ha
  exact ⟨[.granted c contents], history_record _ _, rfl⟩

theorem refused (hs : Honest used m.frames) (ha : m.allocate = (none, m₁)) : Asks [none] m m₁ := by
  obtain ⟨-, -, frames, rfl⟩ := allocate_none hs ha
  exact ⟨[.refused], history_record _ _, rfl⟩

theorem takeBack (made : List NewTable) (m : Machine α) : Asks [] m (m.takeBack made) := by
  have hfold : ∀ (made : List NewTable) (m : Machine α), Asks [] m
      (made.foldl (fun m t => (m.disable t.parent t.index).release t.table) m) := by
    intro made
    induction made with
    | nil => exact refl
    | cons x made ih =>
      intro m
      have hdisable : Asks [] m (m.disable x.parent x.index) := ⟨_, history_disable m _ _, rfl⟩
      have hrelease : Asks [] (m.disable x.parent x.index)
          ((m.disable x.parent x.index).release x.table) := ⟨_, history_record _ _, rfl⟩
      exact (hdisable.quiet hrelease).quiet (ih _)
  unfold Machine.takeBack
  split
  · exact refl m
  · exact (note m _).quiet (hfold made _)

end Asks

/-! ## The way down -/

/-- **The way down comes by the tables of the trail.** -/
theorem makePath_eq_makePath (hd : d + (leaf.height + k) = 3)
    (ht : m.memory.tableAt root (v.trail d) = some t) :
    m.makePath v link leaf (3 - leaf.height) root [] = m.makePath v link leaf k t [] := by
  induction d generalizing k t with
  | zero =>
    obtain rfl := Option.some.inj ht
    rw [show 3 - leaf.height = k by omega]
  | succ d ih =>
    obtain ⟨u, hu⟩ := Memory.exists_tableAt_of_suffix (v.trail_suffix (Nat.le_succ d)) ht
    have hr := (Memory.tableAt_trail_succ_iff (n := leaf.height + k + 1) (by omega) hu t).1 ht
    rw [ih (k := k + 1) (by omega) hu, makePath]
    simp only [List.isEmpty_nil, if_true]
    rw [show m.entry u _ = m.memory.entry u _ from rfl, hr]

theorem makePath_eq_ok (ht : m.memory.tableAt root (v.trail (3 - leaf.height)) = some t) :
    m.makePath v link leaf (3 - leaf.height) root [] = (.ok t, [], m) :=
  makePath_eq_makePath (k := 0) (Nat.sub_add_cancel leaf.height_le) ht

/-- **A table made in the frame `c`**, and linked by the entry `e`: what is known of the machine. -/
structure Made (used : Set PAddr) (t c : PAddr) (i : Index) (e : Entry) (m m₁ m' : Machine α) :
    Prop where
  frames : m'.frames = m₁.frames
  honest : Honest used m'.frames
  fresh : ¬ (m.Holds c ∨ c ∈ used)
  holds : ∀ u, m'.Holds u ↔ u = c ∨ m.Holds u
  asks : Asks [some c] m m'
  entry : ∀ u, m.Holds u ∨ u ∈ used → ∀ j,
    m'.entry u j = if t = u ∧ i = j then e else m.entry u j

theorem made_of_allocate (hs : Honest used m.frames) (ha : m.allocate = (some c, m₁)) (t : PAddr)
    (i : Index) (e : Entry) (x : Notice) :
    Made used t c i e m m₁ (((m₁.zero c).write t i e).note x) := by
  have hmade := entry_of_made (t := t) (i := i) (e := e) hs ha
  have hzero : Asks [] m₁ (m₁.zero c) := ⟨_, history_zero m₁ c, rfl⟩
  have hasks := (((Asks.granted hs ha).quiet hzero).quiet (.write _ t i e)).quiet (.note _ x)
  obtain ⟨hnew, -, -, hh, hs₁, -⟩ := allocate_some hs ha
  have hframes : (((m₁.zero c).write t i e).note x).frames = m₁.frames := frames_note _ _
  have hfresh : ¬ (m.Holds c ∨ c ∈ used) :=
    not_or.2 ⟨hnew, ((hh c).2 (.inl rfl)).notMem hs₁⟩
  refine ⟨hframes, hframes ▸ hs₁, hfresh, fun u => (holds_congr hframes).trans (hh u), hasks,
    fun u hu j => ?_⟩
  have hj := hmade u j
  rw [if_neg (c := c = u) (by rintro rfl; exact hfresh hu)] at hj
  rw [← hj, Machine.entry, memory_note]
  rfl

/-- **Below a new table, each step asks for a frame**, and the way ends in a new one or where none
is left. -/
theorem makePath_below (v : VAddr) (link : EntryFlags) (leaf : Level) (n : Nat)
    (hs : Honest used m.frames) (ht : m.Holds t) (hne : made ≠ []) :
    ∃ r made' m', m.makePath v link leaf n t made = (r, made', m') ∧
      Asks (answers n m.frames) m m' ∧
      (none ∈ answers n m.frames → r = .error .outOfFrames) ∧
      (none ∉ answers n m.frames → ∃ u, r = .ok u ∧ (u = t ∨ ¬ (m.Holds u ∨ u ∈ used))) ∧
      ∀ u, m.Holds u ∨ u ∈ used → u ≠ t → ∀ j, m'.entry u j = m.entry u j := by
  induction n generalizing t made m with
  | zero =>
    exact ⟨.ok t, made, m, rfl, .refl m, nofun, fun _ => ⟨t, rfl, .inl rfl⟩, fun _ _ _ _ => rfl⟩
  | succ n ih =>
    simp only [makePath, List.isEmpty_eq_false_iff.2 hne, Bool.false_eq_true, if_false,
      Entry.role_empty]
    rcases ha : m.allocate with ⟨_ | c, m₁⟩
    · rw [answers_of_none ha]
      have hasks := Asks.refused hs ha
      obtain ⟨-, -, frames, rfl⟩ := allocate_none hs ha
      exact ⟨_, _, _, rfl, hasks, fun _ => rfl, by simp, fun _ _ _ _ => rfl⟩
    · let level := Level.ofHeight (leaf.height + n + 1)
      have hmade := made_of_allocate hs ha t (level.index v) (.make c link) (.linked v level c)
      have hc := (hmade.holds c).2 (.inl rfl)
      have hold : ∀ u, m.Holds u ∨ u ∈ used → u ≠ c := by
        rintro u hu rfl
        exact hmade.fresh hu
      obtain ⟨r, made', m', hrun, hasks, herr, hok, hkept⟩ :=
        ih hmade.honest hc (List.cons_ne_nil ⟨t, level.index v, c⟩ made)
      rw [hmade.frames] at hasks herr hok
      rw [answers_of_some ha]
      refine ⟨r, made', m', hrun, hmade.asks.trans hasks, ?_, fun hn => ?_, fun u hu hne j => ?_⟩
      · simpa using herr
      · obtain ⟨u, hu, hnew⟩ := hok fun hm => hn (List.mem_cons_of_mem _ hm)
        refine ⟨u, hu, .inr fun hin => ?_⟩
        rcases hnew with rfl | hnew
        · exact hmade.fresh hin
        · exact hnew (hin.imp_left fun hh => (hmade.holds u).2 (.inr hh))
      · rw [hkept u (hu.imp_left fun hh => (hmade.holds u).2 (.inr hh)) (hold u hu), hmade.entry u hu,
          if_neg fun he => hne he.1.symm]

/-! ## Writing a leaf -/

theorem writeLeaf_of_table (ht : m.memory.tableAt root (v.trail k) = some t)
    (hk : 4 - leaf.height ≤ k) : m.writeLeaf root p v leaf f = (.error .sizeMismatch, m) := by
  obtain ⟨c, hc⟩ := Memory.exists_tableAt_of_suffix (v.trail_suffix hk) ht
  rw [← leaf.succ_depth] at hc
  obtain ⟨u, hu⟩ := Memory.exists_tableAt_of_suffix (v.trail_suffix (Nat.le_succ _)) hc
  have hr := (Memory.tableAt_trail_succ_iff (Nat.sub_add_cancel leaf.height_le) hu c).1 hc
  rw [Level.ofHeight_height] at hr
  simp only [writeLeaf, makePath_eq_ok hu]
  rw [show m.entry u _ = m.memory.entry u _ from rfl, hr]
  rfl

theorem writeLeaf_of_larger (ht : m.memory.tableAt root (v.trail (3 - l.height)) = some t)
    (hr : (m.entry t (l.index v)).role l = .leaf) (hl : leaf.height < l.height) :
    m.writeLeaf root p v leaf f = (.error .sizeMismatch, m) := by
  obtain ⟨n, hn⟩ : ∃ n, l.height = leaf.height + n + 1 := ⟨l.height - leaf.height - 1, by omega⟩
  have hheight := l.height_le
  have hpath : m.makePath v f.asLink leaf (3 - leaf.height) root [] = _ :=
    makePath_eq_makePath (k := n + 1) (by omega) ht
  simp only [makePath, List.isEmpty_nil, if_true, ← hn, Level.ofHeight_height, hr] at hpath
  simp only [writeLeaf, hpath]
  rfl

/-- **What a walk tells about writing a leaf** at its level, where `r` is the outcome. -/
structure Predicted (root p : PAddr) (v : VAddr) (leaf : Level) (f : EntryFlags) (m : Machine α)
    (r : Except MapError Unit × Machine α) : Prop where
  /-- A leaf or a table of another size is in the way. -/
  mismatch : (m.memory.walk root v).framesFor leaf = none → r = (.error .sizeMismatch, m)
  /-- A leaf of the same size is replaced, and forgotten. -/
  replaces : ∀ q b, m.memory.walk root v = .mapped q b leaf →
    ∃ t, m.memory.tableAt root (v.trail (3 - leaf.height)) = some t ∧
      r = (.ok (), (m.write t (leaf.index v) (.make p f)).flush v)
  /-- An entry not in use is written. -/
  fills : ∀ t, m.memory.walk root v = .missing leaf t →
    r = (.ok (), m.write t (leaf.index v) (.make p f))
  /-- Tables are missing: the source decides, and the first new table goes where the walk stops. -/
  builds : ∀ l t n, m.memory.walk root v = .missing l t →
    (m.memory.walk root v).framesFor leaf = some (n + 1) →
      Asks (answers (n + 1) m.frames) m r.2 ∧
      r.1 = (if none ∈ answers (n + 1) m.frames then .error .outOfFrames else .ok ()) ∧
      (none ∉ answers (n + 1) m.frames → (answers (n + 1) m.frames).length = n + 1 ∧
        ∃ c, (answers (n + 1) m.frames).head? = some (some c) ∧
          r.2.entry t (l.index v) = .make c f.asLink ∧
          r.2.memory.tableAt root (v.trail (4 - l.height)) = some c)

theorem makePath_of_missing (hw : m.memory.walk root v = .missing l t)
    (hl : l.height = leaf.height + n + 1) :
    (∀ m₁, m.allocate = (none, m₁) →
      m.makePath v link leaf (3 - leaf.height) root [] = (.error .outOfFrames, [], m₁)) ∧
    ∀ c m₁, m.allocate = (some c, m₁) →
      m.makePath v link leaf (3 - leaf.height) root [] =
        makePath v link leaf n c [⟨t, l.index v, c⟩]
          (((m₁.zero c).write t (l.index v) (.make c link)).note (.linked v l c)) := by
  have hheight := l.height_le
  have hr : (m.entry t (l.index v)).role l = .absent := Memory.role_of_missing hw
  rw [makePath_eq_makePath (k := n + 1) (by omega) (Memory.walk_eq_missing_iff.1 hw).1]
  constructor
  · intro m₁ ha
    simp only [makePath, List.isEmpty_nil, if_true, ← hl, Level.ofHeight_height, hr, ha]
  · intro c m₁ ha
    simp only [makePath, List.isEmpty_nil, if_true, ← hl, Level.ofHeight_height, hr, ha]

/-- **The first new table goes where the walk stops**, and those below it go into one another. -/
theorem WellFormed.makePath_of_granted (h : WellFormed used root m)
    (hw : m.memory.walk root v = .missing l t) (hl : l.height = leaf.height + n + 1)
    (ha : m.allocate = (some c, m₁)) (f : EntryFlags) :
    ∃ r made' m', m.makePath v f.asLink leaf (3 - leaf.height) root [] = (r, made', m') ∧
      Asks (some c :: answers n m₁.frames) m m' ∧
      (none ∈ answers n m₁.frames → r = .error .outOfFrames) ∧
      (none ∉ answers n m₁.frames → ∃ u, r = .ok u ∧ u ≠ t ∧ ∀ j, (m'.entry u j).isPresent = false) ∧
      m'.entry t (l.index v) = .make c f.asLink := by
  have ht := (Memory.walk_eq_missing_iff.1 hw).1
  have hold := h.table_in_use ht
  have hmade := made_of_allocate h.honest ha t (l.index v) (.make c f.asLink) (.linked v l c)
  have hkeep : ∀ u, m.Holds u ∨ u ∈ used → _ := fun u hu =>
    hu.imp_left fun hh => (hmade.holds u).2 (.inr hh)
  have hc := (hmade.holds c).2 (.inl rfl)
  have htc : t ≠ c := by
    rintro rfl
    exact hmade.fresh hold
  obtain ⟨r, made', m', hrun, hasks, herr, hok, hkept⟩ := makePath_below v f.asLink leaf n
    hmade.honest hc (List.cons_ne_nil ⟨t, l.index v, c⟩ [])
  obtain ⟨-, -, -, hvac⟩ := vacant_of_granted (f := f) (i := l.index v) h.honest ha hold
    (.linked v l c)
  have hend := (makePath_new hmade.honest hc hvac (List.cons_ne_nil _ _) hrun).2
  rw [hmade.frames] at hasks herr hok
  refine ⟨r, made', m', ?_, hmade.asks.trans hasks, herr, fun hn => ?_, ?_⟩
  · rw [(makePath_of_missing hw hl).2 c m₁ ha]
    exact hrun
  · obtain ⟨u, rfl, hu⟩ := hok hn
    refine ⟨u, rfl, ?_, hend u rfl⟩
    rintro rfl
    exact hu.elim htc fun hnew => hnew (hkeep u hold)
  · rw [hkept t (hkeep t hold) htc, hmade.entry t hold, if_pos ⟨rfl, rfl⟩]

theorem WellFormed.writeLeaf_of_missing (h : WellFormed used root m)
    (hw : m.memory.walk root v = .missing l t) (hl : l.height = leaf.height + n + 1) :
    Asks (answers (n + 1) m.frames) m (m.writeLeaf root p v leaf f).2 ∧
      (m.writeLeaf root p v leaf f).1 =
        (if none ∈ answers (n + 1) m.frames then .error .outOfFrames else .ok ()) ∧
      (none ∉ answers (n + 1) m.frames → ∃ c, (answers (n + 1) m.frames).head? = some (some c) ∧
        (m.writeLeaf root p v leaf f).2.entry t (l.index v) = .make c f.asLink ∧
        c.Nameable) := by
  rcases ha : m.allocate with ⟨_ | c, m₁⟩
  · have hpath : m.makePath v f.asLink leaf (3 - leaf.height) root [] = _ :=
      (makePath_of_missing hw hl).1 m₁ ha
    simp only [writeLeaf, hpath, answers_of_none ha]
    exact ⟨(Asks.refused h.honest ha).quiet (.takeBack [] m₁), by simp, by simp⟩
  · obtain ⟨r, made', m', hpath, hasks, herr, hok, hentry⟩ := h.makePath_of_granted hw hl ha f
    rw [answers_of_some ha]
    have hiff : none ∈ some c :: answers n m₁.frames ↔ none ∈ answers n m₁.frames := by simp
    by_cases hn : none ∈ answers n m₁.frames
    · obtain rfl := herr hn
      simp only [writeLeaf, hpath]
      exact ⟨hasks.quiet (.takeBack _ _), (if_pos (hiff.2 hn)).symm, fun hall => absurd hn
        (hiff.not.1 hall)⟩
    · obtain ⟨u, rfl, hut, hvac⟩ := hok hn
      have habs : (m'.entry u (leaf.index v)).role leaf = .absent :=
        (Entry.role_eq_absent_iff _ _).2 (hvac _)
      obtain ⟨-, hal, hb, -⟩ := allocate_some h.honest ha
      simp only [writeLeaf, hpath, habs]
      refine ⟨hasks.quiet (.write _ _ _ _), (if_neg (hiff.not.2 hn)).symm,
        fun _ => ⟨c, rfl, ?_, hal, hb⟩⟩
      rw [Machine.entry, memory_write, Memory.entry_set_of_ne _ _ fun he => hut he.1.symm]
      exact hentry

/-- **The walk tells how writing a leaf ends.** -/
theorem WellFormed.predicted_writeLeaf (h : WellFormed used root m)
    (hf : (Entry.make p f).isPresent = true ∧ (Entry.make p f).isLeafAt leaf = true) :
    Predicted root p v leaf f m (m.writeLeaf root p v leaf f) where
  mismatch hw := by
    cases hwalk : m.memory.walk root v with
    | mapped q b l =>
      rw [hwalk] at hw
      obtain ⟨e, he, -⟩ := Memory.walk_eq_mapped_iff.1 hwalk
      obtain ⟨t, ht, hr⟩ := Memory.exists_role_of_leaf he
      -- a larger leaf is met on the way down, a smaller one lies below a table in the leaf's place
      rcases Nat.lt_trichotomy leaf.height l.height with hlt | heq | hlt
      · exact writeLeaf_of_larger ht hr hlt
      · have : l = leaf := by rw [← l.ofHeight_height, ← heq, leaf.ofHeight_height]
        simp [Translation.framesFor, this] at hw
      · exact writeLeaf_of_table ht (by have := leaf.height_le; omega)
    | missing l t =>
      rw [hwalk] at hw
      have hlt : l.height < leaf.height := by
        by_contra hn
        simp [Translation.framesFor, hn] at hw
      exact writeLeaf_of_table (Memory.walk_eq_missing_iff.1 hwalk).1
        (by have := leaf.height_le; omega)
  replaces q b hw := by
    obtain ⟨e, he, -⟩ := Memory.walk_eq_mapped_iff.1 hw
    obtain ⟨t, ht, hr⟩ := Memory.exists_role_of_leaf he
    have hr : (m.entry t (leaf.index v)).role leaf = .leaf := hr
    refine ⟨t, ht, ?_⟩
    simp only [writeLeaf, makePath_eq_ok ht, hr]
  fills t hw := by
    have hr : (m.entry t (leaf.index v)).role leaf = .absent := Memory.role_of_missing hw
    simp only [writeLeaf, makePath_eq_ok (Memory.walk_eq_missing_iff.1 hw).1, hr]
  builds l t n hw hn := by
    have hl : l.height = leaf.height + n + 1 := by
      rw [hw, Translation.framesFor] at hn
      split at hn
      · cases hn
      · have := Option.some.inj hn
        omega
    obtain ⟨hasks, hres, hlink⟩ := h.writeLeaf_of_missing (p := p) (f := f) hw hl
    refine ⟨hasks, hres, fun hall => ⟨length_answers hall, ?_⟩⟩
    obtain ⟨c, hc, hentry, hname⟩ := hlink hall
    refine ⟨c, hc, hentry, ?_⟩
    rw [if_neg hall] at hres
    have hstay := (h.owns.writeLeaf_ok hf (Prod.fst_eq_iff.1 hres)).2.1 _ _
      (Memory.walk_eq_missing_iff.1 hw).1
    have hne : l ≠ .pt := by
      rintro rfl
      simp [Level.height] at hl
    rw [v.trail_height, Memory.tableAt_cons hstay, v.level_trail_height]
    change Entry.link? l ((m.writeLeaf root p v leaf f).2.entry t (l.index v)) = _
    rw [hentry, Entry.link?_make_asLink hname f hne]

end Machine

/-! ## Pages in the way of a large one -/

namespace Memory

variable {mem : Memory} {root t : PAddr} {v : VAddr} {leaf : Level} {o : Nat}

theorem framesFor_eq_none_of_table (ht : mem.tableAt root (v.trail (4 - leaf.height)) = some t) :
    (mem.walk root v).framesFor leaf = none := by
  have hleaf := leaf.height_le
  cases hw : mem.walk root v with
  | mapped q b l =>
    refine if_neg ?_
    rintro rfl
    obtain ⟨e, he, -⟩ := walk_eq_mapped_iff.1 hw
    rw [leaf, leafIn_eq_none_of_tableIn (tableAt_eq_tableIn mem root ▸ ht)] at he
    cases he
  | missing l u =>
    refine if_pos ?_
    by_contra hn
    obtain ⟨c, hc⟩ := exists_tableAt_of_suffix (v.trail_suffix (d := 4 - l.height) (by omega)) ht
    have hs := (walk_eq_missing_iff.1 hw).2
    rw [tableAt_eq_tableIn, v.trail_height, tableIn, ← v.trail_height, hs] at hc
    cases hc

/-- **A large page finds no room** just where a leaf of another size maps an address of its span. -/
theorem framesFor_large_eq_none_iff (hb : ∀ p, ¬ Bare root (mem.slot root) p)
    (hv : v.isAligned PageSize.mib2.bytes = true) : (mem.walk root v).framesFor .pd = none ↔
      ∃ o < 2 ^ 21, mem.ResolvesAt root (v + BitVec.ofNat 64 o) .pt ∨
        mem.ResolvesAt root (v + BitVec.ofNat 64 o) .pdpt := by
  constructor
  · intro hn
    cases hw : mem.walk root v with
    | mapped q b l =>
      have hzero : v + BitVec.ofNat 64 0 = v := Address.ext (by simp)
      refine ⟨0, by decide, ?_⟩
      rw [hzero]
      rw [hw] at hn
      cases l with
      | pd => simp [Translation.framesFor] at hn
      | pt => exact .inl ⟨q, b, hw⟩
      | pdpt => exact .inr ⟨q, b, hw⟩
      | pml4 =>
        -- no entry of the root is a leaf
        obtain ⟨e, he, -⟩ := walk_eq_mapped_iff.1 hw
        obtain ⟨t, -, hr⟩ := exists_role_of_leaf he
        exact Bool.noConfusion (Entry.role_eq_leaf_iff.1 hr).2
    | missing l t =>
      rw [hw] at hn
      obtain rfl : l = .pt := by
        cases l <;> simp [Translation.framesFor, Level.height] at hn ⊢
      have ht : mem.tableAt root (v.trail 3) = some t := (walk_eq_missing_iff.1 hw).1
      -- the table is not empty, and each of its entries maps a page of the span
      have hsome : ∃ j, mem.slot root (j :: v.trail 3) ≠ none := by
        by_contra hnone
        push Not at hnone
        exact hb _ ⟨List.cons_ne_nil _ _, ⟨t, tableAt_eq_tableIn mem root ▸ ht⟩, hnone⟩
      obtain ⟨j, hj⟩ := hsome
      refine ⟨j.val * 4096, by have := j.isLt; omega, .inl (resolvesAt_iff.2 ?_)⟩
      change mem.leaf root ((v + BitVec.ofNat 64 (j.val * 4096)).trail 4) ≠ none
      rw [Address.trail_add_page_of_large hv j]
      rw [slot_cons ht, Ne, Entry.inUse?_eq_none_iff, Bool.not_eq_false] at hj
      exact (leaf_cons_ne_none_iff ht).2 (Entry.role_eq_leaf_iff.2 ⟨hj, rfl⟩)
  · rintro ⟨o, ho, hpt | hpdpt⟩
    · obtain ⟨e, he⟩ := Option.ne_none_iff_exists'.1 (resolvesAt_iff.1 hpt)
      obtain ⟨t, ht, -⟩ := exists_role_of_leaf he
      refine framesFor_eq_none_of_table (t := t) ?_
      change mem.tableAt root (v.trail 3) = some t
      rw [← Address.trail_add_of_large hv ho]
      exact ht
    · rw [resolvesAt_iff, Address.trail_eq_of_le (Address.trail_add_of_large hv ho)
        (show 4 - Level.pdpt.height ≤ 3 by decide), ← resolvesAt_iff] at hpdpt
      obtain ⟨q, b, hw⟩ := hpdpt
      rw [hw]
      rfl

end Memory

namespace Machine

open FrameSource

variable {α : Type} [FrameSource α] {used : Set PAddr} {root p : PAddr} {v : VAddr}
  {w : Widths} {a : Attributes} {leaf : Level} {f : EntryFlags} {m : Machine α}
  {r : Except MapError Unit × Machine α}

theorem Predicted.mismatch_iff (h : Predicted root p v leaf f m r) :
    r.1 = .error .sizeMismatch ↔ (m.memory.walk root v).framesFor leaf = none := by
  constructor
  · intro hr
    by_contra hne
    obtain ⟨n, hn⟩ := Option.ne_none_iff_exists'.1 hne
    cases hw : m.memory.walk root v with
    | mapped q b l =>
      obtain rfl : l = leaf := by
        by_contra hl
        exact hne (by rw [hw]; exact if_neg hl)
      obtain ⟨t, -, rfl⟩ := h.replaces q b hw
      cases hr
    | missing l t =>
      cases n with
      | zero =>
        obtain rfl : l = leaf := by
          rw [hw, Translation.framesFor] at hn
          split at hn
          · cases hn
          · have := Option.some.inj hn
            rw [← l.ofHeight_height, ← leaf.ofHeight_height, show l.height = leaf.height by omega]
        rw [h.fills t hw] at hr
        cases hr
      | succ n =>
        rw [(h.builds l t n hw hn).2.1] at hr
        split at hr <;> cases hr
  · intro hn
    rw [h.mismatch hn]

/-- **The walk tells how mapping a page ends**, if its arguments are admitted. -/
theorem WellFormed.walk_predicts (h : WellFormed used root m) (hp : w.admitsFrame p = true)
    (hv : w.admitsPage v = true) (a : Attributes) :
    Predicted root p v .pt a.encode.asLeaf m (m.mapPage w root p v a) ∧
    (p.isAligned PageSize.mib2.bytes = true → v.isAligned PageSize.mib2.bytes = true →
      Predicted root p v .pd a.encode.asLeaf.enlarged m (m.mapLarge w root p v a) ∧
      (Stocked root m → ((m.mapLarge w root p v a).1 = .error .sizeMismatch ↔
        ∃ o < 2 ^ 21, m.memory.ResolvesAt root (v + BitVec.ofNat 64 o) .pt ∨
          m.memory.ResolvesAt root (v + BitVec.ofNat 64 o) .pdpt))) := by
  have hsmall : m.mapPage w root p v a = m.writeLeaf root p v .pt a.encode.asLeaf := by
    simp [mapPage, hp, hv]
  refine ⟨?_, fun hp' hv' => ?_⟩
  · rw [hsmall]
    exact h.predicted_writeLeaf (Entry.isLeafAt_make_asLeaf p _)
  · have hlarge : m.mapLarge w root p v a =
        m.writeLeaf root p v .pd a.encode.asLeaf.enlarged := by
      simp [mapLarge, hp, hv, hp', hv']
    rw [hlarge]
    have hpred := h.predicted_writeLeaf (v := v) (Entry.isLeafAt_make_enlarged p a.encode)
    exact ⟨hpred, fun hs => hpred.mismatch_iff.trans
      (Memory.framesFor_large_eq_none_iff (stocked_iff.1 hs) hv')⟩

theorem predicted_from_stops :
    ((unmapped ⟨0x1000⟩ 3).mapPage .assumed ⟨0x1000⟩ ⟨0x5000⟩ ⟨0x1ff000⟩ ∅).1 =
        .error .outOfFrames ∧
      ((unmapped ⟨0x1000⟩ 8).mapPage .assumed ⟨0x1000⟩ ⟨0x5000⟩ ⟨0x1ff000⟩ ∅).1 = .ok () ∧
      ((unmapped ⟨0x1000⟩ 8).mapPage .assumed ⟨0x1000⟩ ⟨0x5000⟩ ⟨0x1ff000⟩ ∅).2.memory.tableAt
        ⟨0x1000⟩ ((⟨0x1ff000⟩ : VAddr).trail 1) = some ⟨0x2000⟩ ∧
      (mixed.mapLarge .assumed ⟨0x1000⟩ ⟨0x800000⟩ ⟨0x400000⟩ ∅).1 = .error .sizeMismatch := by
  have hwell : ∀ size ≥ 1, size < 2 ^ 20 →
      WellFormed (FramePool.pinnedSet ⟨0x1000⟩ 1) ⟨0x1000⟩ (unmapped ⟨0x1000⟩ size) :=
    fun size hs hf => (owns_unmapped rfl hs (by change 4096 + size * 4096 ≤ _; omega)).wellFormed
  have hfew := ((hwell 3 (by decide) (by decide)).walk_predicts (w := .assumed) (p := ⟨0x5000⟩)
    (v := ⟨0x1ff000⟩) (by decide) (by decide) ∅).1.builds .pml4 ⟨0x1000⟩ 2 (by decide +kernel)
      (by decide +kernel)
  have henough := ((hwell 8 (by decide) (by decide)).walk_predicts (w := .assumed) (p := ⟨0x5000⟩)
    (v := ⟨0x1ff000⟩) (by decide) (by decide) ∅).1.builds .pml4 ⟨0x1000⟩ 2 (by decide +kernel)
      (by decide +kernel)
  have hanswers : answers 3 (unmapped ⟨0x1000⟩ 8).frames =
      [some ⟨0x2000⟩, some ⟨0x3000⟩, some ⟨0x4000⟩] := by decide +kernel
  obtain ⟨hmixed, hstocked⟩ := stocked_mixed
  refine ⟨hfew.2.1.trans (if_pos (by decide +kernel)), ?_, ?_, ?_⟩
  · exact henough.2.1.trans (if_neg (by rw [hanswers]; decide))
  · obtain ⟨-, c, hc, -, htable⟩ := henough.2.2 (by rw [hanswers]; decide)
    rw [hanswers] at hc
    cases hc
    exact htable
  · refine (((hmixed.walk_predicts (by decide) (by decide) ∅).2 (by decide)
      (by decide)).2 hstocked).2 ⟨0, by decide, .inl ⟨⟨0x9000⟩, ∅, by decide +kernel⟩⟩

end Machine

end VirtualMemory
