import VirtualMemory.Proofs.Unwinding

/-!
# What the processor remembers

The processor keeps translations that it has made, and does not look at the tables again until it is
made to forget them. So a call that writes over a leaf in use, or takes one out of use, has to make
the processor forget an address of that page afterwards. It does so each time, and at no other time.

* `Instant.leafStores`: how many accesses are stores to leaves in use;
* `Settles`: each store to an entry is followed by a flush of certain addresses;
* `Machine.Account`: the events of a sequence of edits, their flushes counted against their stores
  to leaves (**`Owns.account_synced`**, **`Owns.account_phased`**);
* **`WellFormed.leaves_nothing_stale`**: no call leaves the processor with a stale translation.
-/

namespace VirtualMemory

/-! ## Stores to leaves -/

/-- The processor is made to forget a page. -/
def Event.isFlush : Event → Bool
  | flushed _ => true
  | _ => false

/-- **The entry `i` of the table `t` is a leaf in use**, in the hierarchy where `q` leads to `t`. -/
def Memory.HasLeaf (root : PAddr) (mem : Memory) (q : Path) (t : PAddr) (i : Index) : Prop :=
  mem.tableAt root q = some t ∧ mem.leaf root (i :: q) ≠ none

/-- **The access writes over a leaf in use** of the hierarchy in `mem`. -/
def Access.HitsLeaf (root : PAddr) (mem : Memory) : Access → Prop
  | stored t i _ => ∃ q, mem.HasLeaf root q t i
  | _ => False

section HitsLeaf

variable {mem mem' : Memory} {root t c : PAddr} {q : Path} {i : Index} {e : Entry}

theorem Memory.Tree.hitsLeaf_iff (h : mem.Tree root) (ht : mem.tableAt root q = some t) :
    (Access.stored t i e).HitsLeaf root mem ↔ mem.leaf root (i :: q) ≠ none := by
  constructor
  · rintro ⟨q', ht', hl⟩
    rwa [h q q' t ht ht']
  · exact fun hl => ⟨q, ht, hl⟩

theorem Access.hitsLeaf_congr (ht : mem'.tableAt root = mem.tableAt root)
    (hs : mem'.slot root = mem.slot root) (a : Access) :
    a.HitsLeaf root mem' ↔ a.HitsLeaf root mem := by
  cases a <;> simp only [HitsLeaf, Memory.HasLeaf, Memory.leaf, ht, hs]

theorem Access.not_hitsLeaf_of_fresh (hc : ∀ p, mem.tableAt root p ≠ some c) :
    ¬ (stored c i e).HitsLeaf root mem := by
  rintro ⟨q, ht, -⟩
  exact hc q ht

end HitsLeaf

namespace Instant

variable {s : Instant} {root c : PAddr} {a : Access} {as bs : List Access}

open Classical in
/-- **How many accesses are stores to leaves in use**, each at the instant when it is made. -/
noncomputable def leafStores (root : PAddr) (s : Instant) : List Access → Nat
  | [] => 0
  | a :: as => (if a.HitsLeaf root s.memory then 1 else 0) + leafStores root (s.next a) as

theorem leafStores_cons_of_not (h : ¬ a.HitsLeaf root s.memory) :
    s.leafStores root (a :: as) = (s.next a).leafStores root as := by
  rw [leafStores, if_neg h, Nat.zero_add]

theorem leafStores_append : s.leafStores root (as ++ bs) =
    s.leafStores root as + (s.after as).leafStores root bs := by
  induction as generalizing s with
  | nil => rw [List.nil_append, leafStores, Nat.zero_add, after_nil]
  | cons a as ih => rw [List.cons_append, leafStores, ih, leafStores, after_cons, Nat.add_assoc]

theorem leafStores_stored {t : PAddr} {q : Path} {i : Index} {e : Entry}
    (h : s.memory.Tree root) (ht : s.memory.tableAt root q = some t) :
    s.leafStores root [.stored t i e] = if s.memory.leaf root (i :: q) = none then 0 else 1 := by
  rw [leafStores, leafStores, Nat.add_zero]
  by_cases hl : s.memory.leaf root (i :: q) = none
  · rw [if_pos hl, if_neg fun hh => (h.hitsLeaf_iff ht).1 hh hl]
  · rw [if_neg hl, if_pos ((h.hitsLeaf_iff ht).2 hl)]

theorem leafStores_zeroing (hc : ∀ p, s.memory.tableAt root p ≠ some c) (is : List Index) :
    s.leafStores root (Access.zeroing c is) = 0 := by
  induction is generalizing s with
  | nil => rfl
  | cons i is ih =>
    rw [Access.zeroing, List.map_cons, leafStores_cons_of_not (Access.not_hitsLeaf_of_fresh hc)]
    refine ih fun p => ?_
    show (s.memory.set c i .empty).tableAt root p ≠ some c
    rw [Memory.set, (tableAt_slot_elsewhere hc _).1]
    exact hc p

end Instant

/-! ## Flushes after stores -/

/-- **Each store to the entry `i` of `t` is followed by a flush** of an address with the property
`P`. -/
def Settles (t : PAddr) (i : Index) (P : VAddr → Prop) (es : List Event) : Prop :=
  ∀ before x after, es = before ++ x :: after → (∃ e, .stored t i e ∈ x.accesses) →
    ∃ v, P v ∧ .flushed v ∈ after

section Settles

variable {t : PAddr} {i : Index} {P : VAddr → Prop} {v : VAddr} {e : Entry} {es es' : List Event}

theorem mem_accesses_of_event {before after : List Event} {x : Event} {a : Access}
    (h : a ∈ x.accesses) : a ∈ accesses (before ++ x :: after) :=
  List.mem_flatMap.2 ⟨x, List.mem_append_right _ List.mem_cons_self, h⟩

theorem settles_of_not_stored (h : ∀ e, .stored t i e ∉ accesses es) : Settles t i P es := by
  rintro before x after rfl ⟨e, he⟩
  exact absurd (mem_accesses_of_event he) (h e)

theorem settles_concat (es : List Event) (hv : P v) : Settles t i P (es ++ [.flushed v]) := by
  rintro before x after he ⟨e, hx⟩
  rcases List.eq_nil_or_concat after with rfl | ⟨after, y, rfl⟩
  · obtain ⟨-, he⟩ := List.append_inj' he rfl
    obtain rfl := (List.cons.inj he).1
    cases hx
  · rw [List.concat_eq_append] at he ⊢
    rw [← List.cons_append, ← List.append_assoc] at he
    obtain ⟨-, he⟩ := List.append_inj' he rfl
    obtain rfl := (List.cons.inj he).1
    exact ⟨v, hv, List.mem_append_right _ (List.mem_singleton_self _)⟩

theorem Settles.append (h : Settles t i P es) (h' : Settles t i P es') :
    Settles t i P (es ++ es') := by
  rw [Settles, forall_place_append]
  refine ⟨fun before x after he hx => ?_, fun before => h' before⟩
  obtain ⟨v, hv, hmem⟩ := h before x after he hx
  exact ⟨v, hv, List.mem_append_left es' hmem⟩

theorem exists_last_store (h : .stored t i e ∈ accesses es) : ∃ before x after,
    es = before ++ x :: after ∧ (∃ e, .stored t i e ∈ x.accesses) ∧
      ∀ e, .stored t i e ∉ accesses after := by
  induction es generalizing e with
  | nil => cases h
  | cons y es ih =>
    by_cases hes : ∃ e, .stored t i e ∈ accesses es
    · obtain ⟨e, he⟩ := hes
      obtain ⟨before, x, after, rfl, hx, hafter⟩ := ih he
      exact ⟨y :: before, x, after, rfl, hx, hafter⟩
    · have hy := (List.mem_append.1 h).resolve_right fun he => hes ⟨e, he⟩
      exact ⟨[], y, es, rfl, ⟨e, hy⟩, fun e he => hes ⟨e, he⟩⟩

/-- **After the last store to an entry that settles there is a flush**, and no store. -/
theorem Settles.exists_last_flush (h : Settles t i P es) (hs : .stored t i e ∈ accesses es) :
    ∃ before v after, es = before ++ .flushed v :: after ∧ P v ∧
      (∃ e, .stored t i e ∈ accesses before) ∧ ∀ e, .stored t i e ∉ accesses after := by
  obtain ⟨before, x, after, rfl, ⟨e, hx⟩, hlast⟩ := exists_last_store hs
  obtain ⟨v, hv, hmem⟩ := h before x after rfl ⟨e, hx⟩
  obtain ⟨mid, after, rfl⟩ := List.append_of_mem hmem
  refine ⟨before ++ x :: mid, v, after, ?_, hv, ⟨e, mem_accesses_of_event hx⟩, fun e he => ?_⟩
  · rw [List.append_assoc, List.cons_append]
  · refine hlast e ?_
    rw [accesses_append]
    exact List.mem_append_right _ he

end Settles

/-! ## The events of an edit -/

namespace Edit

variable {root t : PAddr} {mem : Memory} {x : Edit} {q : Path} {i : Index} {e : Entry}
  {es : List Event}

/-- **The edit writes the entry `i` of the table `t`**, or makes the table. -/
def Touches (root : PAddr) (mem : Memory) (x : Edit) (t : PAddr) (i : Index) : Prop :=
  (∃ q, x.path = i :: q ∧ mem.tableAt root q = some t) ∨ ∃ q j f, x = .link q j t f

namespace Emits

/-- **An edit makes one store**, after it has zeroed its table if it makes one. -/
theorem accesses_eq (h : x.Emits root mem es) : ∃ q i t e, x.path = i :: q ∧
    mem.tableAt root q = some t ∧ (accesses es = [.stored t i e] ∨
      (∃ c, accesses es = [.stored t i e, .released c]) ∨
      ∃ c contents f, x = .link q i c f ∧ accesses es =
        .granted c contents :: (Access.zeroing c (List.finRange 512) ++ [.stored t i e])) := by
  cases h with
  | link f contents parent =>
    exact ⟨_, _, _, _, rfl, parent, .inr (.inr ⟨_, contents, f, rfl, accesses_link ..⟩)⟩
  | put parent => exact ⟨_, _, _, _, rfl, parent, .inl rfl⟩
  | clear parent => exact ⟨_, _, _, _, rfl, parent, .inl rfl⟩
  | @unlink q i t c logged parent logs =>
    have hlogged : accesses logged = [] := List.flatMap_eq_nil_iff.2 fun y hy => by
      obtain ⟨n, rfl⟩ := logs y hy
      rfl
    refine ⟨q, i, t, (mem.entry t i).disabled, rfl, parent, .inr (.inl ⟨c, ?_⟩)⟩
    rw [accesses_append, accesses_append, hlogged]
    rfl

theorem countP_isFlush (h : x.Emits root mem es) : es.countP Event.isFlush = 0 := by
  cases h with
  | link => rfl
  | put => rfl
  | clear => rfl
  | @unlink q i t c logged parent logs =>
    have hlogged : logged.countP Event.isFlush = 0 := List.countP_eq_zero.2 fun y hy => by
      obtain ⟨n, rfl⟩ := logs y hy
      exact Bool.false_ne_true
    rw [List.countP_append, List.countP_append, hlogged]
    rfl

theorem touches (h : x.Emits root mem es) (hs : .stored t i e ∈ accesses es) :
    x.Touches root mem t i := by
  obtain ⟨q, j, u, e', hpath, hu, he | ⟨c, he⟩ | ⟨c, contents, f, rfl, he⟩⟩ := h.accesses_eq
  · rw [he, List.mem_singleton] at hs
    cases hs
    exact .inl ⟨q, hpath, hu⟩
  · rw [he] at hs
    rcases List.mem_cons.1 hs with hs | hs
    · cases hs
      exact .inl ⟨q, hpath, hu⟩
    · cases List.mem_singleton.1 hs
  · rw [he, List.mem_cons, List.mem_append] at hs
    rcases hs with hs | hs | hs
    · cases hs
    · obtain ⟨k, -, hk⟩ := List.mem_map.1 hs
      cases hk
      exact .inr ⟨q, j, f, rfl⟩
    · cases List.mem_singleton.1 hs
      exact .inl ⟨q, hpath, hu⟩

theorem exists_stored (h : x.Emits root mem es) (hp : x.path = i :: q)
    (ht : mem.tableAt root q = some t) : ∃ e, .stored t i e ∈ accesses es := by
  obtain ⟨q', j, u, e, hpath, hu, hes⟩ := h.accesses_eq
  obtain ⟨rfl, rfl⟩ := List.cons.inj (hp.symm.trans hpath)
  cases hu.symm.trans ht
  refine ⟨e, ?_⟩
  rcases hes with he | ⟨c, he⟩ | ⟨c, contents, f, -, he⟩ <;> rw [he]
  · exact List.mem_singleton_self _
  · exact List.mem_cons_self
  · exact List.mem_cons_of_mem _ (List.mem_append_right _ (List.mem_singleton_self _))

end Emits

theorem apply_of_ne {s : Path → Option Entry} {p : Path} (hp : p ≠ x.path) : x.apply s p = s p := by
  cases x <;> exact Function.update_of_ne hp _ _

end Edit

namespace Machine

variable {α : Type} [FrameSource α] {used others : Set PAddr} {root t c : PAddr} {V : Set VAddr}
  {q : Path} {i : Index} {x : Edit} {xs : List Edit} {es es' : List Event} {old peak : Memory}
  {m m' m'' : Machine α}

theorem Owns.fresh_of_link {f : EntryFlags} (h : Owns used others root m)
    (hx : Step root (.link q i c f) m m') (p : Path) : m.memory.tableAt root p ≠ some c := by
  cases hx with
  | link f parent above vacant request =>
    obtain ⟨hn, -, -, hh, hs, -⟩ := allocate_some h.honest request
    exact (h.fresh hn (((hh c).2 (.inl rfl)).notMem hs)).1 p

theorem Owns.leaf_step_of_ne {p : Path} (h : Owns used others root m) (hx : Step root x m m')
    (hp : p ≠ x.path) : m'.memory.leaf root p = m.memory.leaf root p := by
  rw [Memory.leaf, (h.step hx).2]
  exact leafIn_congr (Edit.apply_of_ne hp)

/-- **An edit makes one store to a leaf in use**, or none if there is no leaf in its place. -/
theorem Owns.leafStores_step (h : Owns used others root m) (hx : Step root x m m')
    (he : x.Emits root m.memory es) : m.now.leafStores root (accesses es) =
      if m.memory.leaf root x.path = none then 0 else 1 := by
  obtain ⟨q, i, t, e, hpath, ht, hes | ⟨c, hes⟩ | ⟨c, contents, f, rfl, hes⟩⟩ := he.accesses_eq
  · rw [hes, hpath]
    exact Instant.leafStores_stored (s := m.now) h.tree ht
  · rw [hes, hpath, ← List.singleton_append, Instant.leafStores_append,
      Instant.leafStores_stored (s := m.now) h.tree ht,
      Instant.leafStores_cons_of_not (a := .released c) id]
    rfl
  · have hfree := hx.leaf_eq_none rfl
    have hfresh := h.fresh_of_link hx
    have hgranted : ∀ p, (m.now.next (.granted c contents)).memory.tableAt root p ≠ some c :=
      fun p => (Instant.tableAt_slot_elsewhere (s := m.now) hfresh contents).1 ▸ hfresh p
    -- the new table is zeroed before it is linked, so the tree is that of the beginning
    have hmem : ((m.now.next (.granted c contents)).after
        (Access.zeroing c (List.finRange 512))).memory = m.memory.setTable c .empty := by
      rw [Instant.next, Instant.after_zeroing_all]
      rfl
    obtain ⟨htable, hslot⟩ := Instant.tableAt_slot_elsewhere (s := m.now) hfresh .empty
    have hidle : ¬ (Access.stored t i e).HitsLeaf root (m.memory.setTable c .empty) := fun hh =>
      (h.tree.hitsLeaf_iff ht).1 ((Access.hitsLeaf_congr htable hslot _).1 hh) (hpath ▸ hfree)
    rw [hes, if_pos hfree, Instant.leafStores_cons_of_not id, Instant.leafStores_append,
      Instant.leafStores_zeroing hgranted, Instant.leafStores_cons_of_not (hmem ▸ hidle)]
    rfl

/-! ## The account of a call -/

/-- **The account of some edits**: their events `es`, with one flush for each store to a leaf in
use. Each leaf in use in `old` is followed by a flush of its page when it is stored to, and stored
to when it changes. -/
structure Account (V : Set VAddr) (root : PAddr) (old : Memory) (m m' : Machine α)
    (es : List Event) : Prop where
  history : m'.history = m.history ++ es
  replay : m.now.after (accesses es) = m'.now
  count : es.countP Event.isFlush = m.now.leafStores root (accesses es)
  settled : ∀ q t i, old.HasLeaf root q t i →
    Settles t i (fun v => v ∈ V ∧ i :: q = v.trail (q.length + 1)) es
  moved : ∀ q t i, old.HasLeaf root q t i →
    m'.memory.leaf root (i :: q) ≠ m.memory.leaf root (i :: q) →
      ∃ e, .stored t i e ∈ accesses es

namespace Account

theorem append (h : Account V root old m m' es) (h' : Account V root old m' m'' es') :
    Account V root old m m'' (es ++ es') where
  history := by rw [h'.history, h.history, List.append_assoc]
  replay := by rw [accesses_append, Instant.after_append, h.replay, h'.replay]
  count := by
    rw [List.countP_append, accesses_append, Instant.leafStores_append, h.replay, h.count, h'.count]
  settled q t i hq := (h.settled q t i hq).append (h'.settled q t i hq)
  moved q t i hq hne := by
    rw [accesses_append]
    by_cases hm : m'.memory.leaf root (i :: q) = m.memory.leaf root (i :: q)
    · obtain ⟨e, he⟩ := h'.moved q t i hq (hm ▸ hne)
      exact ⟨e, List.mem_append_right _ he⟩
    · obtain ⟨e, he⟩ := h.moved q t i hq hm
      exact ⟨e, List.mem_append_left _ he⟩

theorem unseen (hh : m'.history = m.history ++ es) (hn : m'.now = m.now)
    (hes : ∀ e ∈ es, e.accesses = [] ∧ e.isFlush = false) : Account V root old m m' es := by
  have ha : accesses es = [] := List.flatMap_eq_nil_iff.2 fun e he => (hes e he).1
  have hm : m'.memory = m.memory := congrArg Instant.memory hn
  refine ⟨hh, by rw [ha, hn, Instant.after_nil], ?_, fun q t i _ => ?_, fun q t i _ hne => ?_⟩
  · rw [ha, Instant.leafStores, List.countP_eq_zero]
    exact fun e he => by simp [(hes e he).2]
  · exact settles_of_not_stored fun e he => by simp [ha] at he
  · exact absurd (by rw [hm]) hne

end Account

theorem Owns.account_silent (h : Owns used others root m) (hs : Silent m m') :
    ∃ es, Account V root old m m' es := by
  cases hs with
  | note n =>
    obtain ⟨es, hes, hlog⟩ := history_notices [n] m
    refine ⟨es, .unseen hes (now_eq (memory_note m n) fun t => holds_congr (frames_note m n)) ?_⟩
    intro e he
    obtain ⟨n, rfl⟩ := hlog e he
    exact ⟨rfl, rfl⟩
  | refused request =>
    obtain ⟨hh, -, frames, rfl⟩ := allocate_none h.honest request
    refine ⟨_, .unseen (history_record _ _) (now_eq rfl hh) ?_⟩
    simp [Event.accesses, Event.isFlush]

/-- **The edit `x` spares the leaves of `old`** that are gone: it touches one of their entries only
if this is the place of the edit, and a leaf still. -/
def Spares (root : PAddr) (old mem : Memory) (x : Edit) : Prop :=
  ∀ q t i, old.HasLeaf root q t i →
    (x.Touches root mem t i → x.path = i :: q ∧ mem.leaf root (i :: q) ≠ none) ∧
      (x.path = i :: q → mem.tableAt root q = some t)

theorem Owns.stored_of_moved (h : Owns used others root m) (hx : Step root x m m')
    (hs : Spares root old m.memory x) (he : x.Emits root m.memory es) (hq : old.HasLeaf root q t i)
    (hne : m'.memory.leaf root (i :: q) ≠ m.memory.leaf root (i :: q)) :
    ∃ e, .stored t i e ∈ accesses es := by
  have hpath : x.path = i :: q := by
    by_contra hp
    exact hne (h.leaf_step_of_ne hx (Ne.symm hp))
  exact he.exists_stored hpath ((hs q t i hq).2 hpath)

theorem Owns.account_idle (h : Owns used others root m) (hx : Step root x m m')
    (hs : Spares root old m.memory x) (hfree : m.memory.leaf root x.path = none) :
    ∃ es, Account V root old m m' es := by
  obtain ⟨es, htrace, he⟩ := h.trace_step hx
  refine ⟨es, htrace.history, htrace.replay, ?_, fun q t i hq => ?_, fun q t i hq =>
    h.stored_of_moved hx hs he hq⟩
  · rw [he.countP_isFlush, h.leafStores_step hx he, if_pos hfree]
  · refine settles_of_not_stored fun e hstored => ?_
    obtain ⟨hpath, hused⟩ := (hs q t i hq).1 (he.touches hstored)
    exact hused (hpath ▸ hfree)

/-- **An edit in the place of a leaf in use** is made good by a flush. -/
theorem Owns.account_busy {v : VAddr} (h : Owns used others root m) (hx : Step root x m m')
    (hs : Spares root old m.memory x) (hused : m.memory.leaf root x.path ≠ none) (hv : v ∈ V)
    (hhere : x.path = v.trail x.path.length) : ∃ es, Account V root old m (m'.flush v) es := by
  obtain ⟨es, htrace, he⟩ := h.trace_step hx
  have hacc : accesses (es ++ [.flushed v]) = accesses es := by
    rw [accesses_append]
    exact List.append_nil _
  refine ⟨es ++ [.flushed v], ?_, hacc ▸ htrace.replay, ?_, fun q t i hq => ?_, fun q t i hq hne =>
    hacc ▸ h.stored_of_moved hx hs he hq hne⟩
  · rw [flush, history_record, htrace.history, List.append_assoc]
  · rw [hacc, h.leafStores_step hx he, if_neg hused, List.countP_append, he.countP_isFlush]
    rfl
  · by_cases hstored : ∃ e, .stored t i e ∈ accesses es
    · obtain ⟨e, hstored⟩ := hstored
      have hpath := ((hs q t i hq).1 (he.touches hstored)).1
      rw [hpath, List.length_cons] at hhere
      exact settles_concat es ⟨hv, hhere⟩
    · refine settles_of_not_stored fun e hmem => hstored ⟨e, hacc ▸ hmem⟩

/-- **Edits that spare the leaves of `old` have an account.** An invariant `I` tells which do. -/
theorem Owns.account_synced {I : Memory → Prop} (h : Owns used others root m)
    (hsync : Synced V root xs m m') (hI : I m.memory)
    (hstep : ∀ x ∈ xs, ∀ m m' : Machine α, Owns used others root m → Step root x m m' →
      I m.memory → I m'.memory ∧ Spares root old m.memory x) :
    I m'.memory ∧ ∃ es, Account V root old m m' es := by
  induction hsync with
  | refl m => exact ⟨hI, [], .unseen (List.append_nil _).symm rfl nofun⟩
  | silent first _ ih =>
    obtain ⟨ho, hm⟩ := h.quiet first.quiet
    obtain ⟨es, hfirst⟩ : ∃ es, Account V root old _ _ es := h.account_silent first
    obtain ⟨hI', es', hrest⟩ := ih ho (hm ▸ hI) hstep
    exact ⟨hI', es ++ es', hfirst.append hrest⟩
  | idle first free _ ih =>
    obtain ⟨hx, hxs⟩ := List.forall_mem_cons.1 hstep
    obtain ⟨hI₁, hs⟩ := hx _ _ h first hI
    obtain ⟨es, hfirst⟩ : ∃ es, Account V root old _ _ es := h.account_idle first hs free
    obtain ⟨hI', es', hrest⟩ := ih (h.step first).1 hI₁ hxs
    exact ⟨hI', es ++ es', hfirst.append hrest⟩
  | busy first used known here _ ih =>
    obtain ⟨hx, hxs⟩ := List.forall_mem_cons.1 hstep
    obtain ⟨hI₁, hs⟩ := hx _ _ h first hI
    obtain ⟨es, hfirst⟩ := h.account_busy first hs used known here
    obtain ⟨hI', es', hrest⟩ := ih ((h.step first).1.congr rfl rfl) hI₁ hxs
    exact ⟨hI', es ++ es', hfirst.append hrest⟩

/-! ## The two halves of a call -/

theorem Owns.spares_of_adds (h : Owns used others root m) (hx : Step root x m m')
    (ha : x.adds = true) (hI : ∀ q t i, old.HasLeaf root q t i → m.memory.HasLeaf root q t i) :
    (∀ q t i, old.HasLeaf root q t i → m'.memory.HasLeaf root q t i) ∧
      Spares root old m.memory x := by
  obtain ⟨htable, hleaf⟩ := h.adds_step hx ha
  refine ⟨fun q t i hq => ⟨htable q t (hI q t i hq).1, hleaf _ (hI q t i hq).2⟩,
    fun q t i hq => ⟨?_, fun _ => (hI q t i hq).1⟩⟩
  rintro (⟨q', hpath, ht'⟩ | ⟨q', j, f, rfl⟩)
  · obtain rfl := h.tree q' q t ht' (hI q t i hq).1
    exact ⟨hpath, (hI q' t i hq).2⟩
  · exact absurd (hI q t i hq).1 (h.fresh_of_link hx q)

theorem Owns.spares_of_drops (h : Owns used others root m) (hx : Step root x m m')
    (ha : x.adds = false) (hpeak : peak.Tree root)
    (hold : ∀ q t i, old.HasLeaf root q t i → peak.HasLeaf root q t i)
    (hI : m.memory.Extends root peak) :
    m'.memory.Extends root peak ∧ Spares root old m.memory x := by
  refine ⟨(h.drops_step hx ha).trans hI, fun q t i hq => ⟨?_, fun hpath => ?_⟩⟩
  · rintro (⟨q', hpath, ht'⟩ | ⟨q', j, f, rfl⟩)
    · obtain rfl := hpeak q' q t (hI q' t ht') (hold q t i hq).1
      refine ⟨hpath, ?_⟩
      cases hx with
      | link => cases ha
      | put => cases ha
      | clear parent leaf =>
        obtain ⟨rfl, rfl⟩ := List.cons.inj hpath
        exact (Memory.leaf_cons_ne_none_iff parent).2 leaf
      | unlink notices parent child empty =>
        -- no table was linked where a leaf is
        obtain ⟨rfl, rfl⟩ := List.cons.inj hpath
        have hchild := hI _ _ child
        rw [Memory.tableAt_eq_tableIn] at hchild
        exact absurd (leafIn_eq_none_of_tableIn hchild) (hold _ t _ hq).2
    · cases ha
  · obtain ⟨u, hu⟩ : ∃ u, m.memory.tableAt root q = some u := by
      cases hx <;> obtain ⟨rfl, rfl⟩ := List.cons.inj hpath <;> exact ⟨_, ‹_›⟩
    have hut := (hI q u hu).symm.trans (hold q t i hq).1
    rw [hu, hut]

/-- **A call that drops when it adds no more has an account** of the leaves in use before it. -/
theorem Owns.account_phased (h : Owns used others root m) (hp : Phased V root m m') :
    ∃ es, Account V root m.memory m m' es := by
  obtain ⟨m₁, ⟨xs, hx, hadds⟩, ys, hy, hdrops⟩ := hp
  have ho := (h.steps hx.steps).1
  obtain ⟨hold, es, hfirst⟩ : (∀ q t i, m.memory.HasLeaf root q t i →
      m₁.memory.HasLeaf root q t i) ∧ ∃ es, Account V root m.memory m m₁ es :=
    h.account_synced (I := fun mem => ∀ q t i, m.memory.HasLeaf root q t i →
        mem.HasLeaf root q t i) hx (fun _ _ _ => id) fun x hx m m' ho hstep hI =>
      ho.spares_of_adds hstep (hadds x hx) hI
  obtain ⟨-, es', hrest⟩ : m'.memory.Extends root m₁.memory ∧
      ∃ es, Account V root m.memory m₁ m' es :=
    ho.account_synced (I := fun mem => mem.Extends root m₁.memory) hy (.refl _)
      fun y hy m m' ho' hstep hI => ho'.spares_of_drops hstep (hdrops y hy) ho.tree hold hI
  exact ⟨es ++ es', hfirst.append hrest⟩

/-! ## Calls -/

variable {w : Widths}

/-- **Every call drops only when it adds no more.** -/
theorem Owns.phased_call (h : Owns used others root m) (c : Call)
    (hV : ∀ v, w.admitsPage v = true → v ∈ V) (hc : ∀ v, c = .unmapPage v → v ∈ V) :
    Phased V root m (c.run w root m).2 := by
  cases c with
  | mapPage p v a =>
    rw [Call.run]
    rcases hrun : m.mapPage w root p v a with ⟨_ | _, m'⟩
    · exact h.phased_mapPage hrun
    · exact .ofAdds (h.adds_mapPage hV hrun)
  | mapLarge p v a => exact h.phased_mapLarge hV
  | mapSpan s a =>
    rw [Call.run]
    rcases hrun : m.mapSpan w root s a with ⟨x | _, m'⟩
    · rcases mapSpan_eq_error hrun with ⟨rfl, -⟩ | ⟨m₁, hp, rfl⟩
      · exact .refl m'
      · generalize m.pagesMapped w root s a = n at hp ⊢
        obtain ⟨ho, -, -, -, -, -, had⟩ := h.mapPrefix hp
        have hnote : Silent m₁ (m₁.note (.runFailed s.pages s.virt n x)) := .note _ _
        have hunwind := (ho.owns.quiet hnote.quiet).1.drops_unwind (v := s.virt)
          fun i hi => hV _ (had i (Nat.zero_le i) hi).2
        exact (h.phased_mapPrefix hV hp).then_drops ((Drops.ofSilent hnote).trans hunwind)
    · obtain ⟨-, n, hp⟩ := mapSpan_eq_ok hrun
      exact h.phased_mapPrefix hV hp
  | unmapPage v => exact .ofDrops (h.drops_unmapPage (hc v rfl))
  | unmapPages v count =>
    rw [Call.run]
    cases hv : w.admitsPages v count with
    | false =>
      rw [unmapPages_refused hv]
      exact .refl m
    | true =>
      rw [unmapPages_eq hv]
      exact .ofDrops (h.drops_unwind fun i hi => hV _ (Widths.admitsPage_of_admitsPages hv hi))

theorem Owns.exists_steps (h : Owns used others root m) (w : Widths) (c : Call) :
    ∃ xs, Steps root xs m (c.run w root m).2 := by
  obtain ⟨m₁, ⟨xs, hx, -⟩, ys, hy, -⟩ := h.phased_call (w := w) (V := .univ) c
    (fun v _ => Set.mem_univ v) (fun v _ => Set.mem_univ v)
  exact ⟨xs ++ ys, hx.steps.append hy.steps⟩

/-- **A call after which the processor remembers nothing stale**: if a canonical address does not map
as before any more, its page was flushed after the last store to the leaf. There are as many flushes
as stores to leaves in use. -/
structure LeavesNothingStale (w : Widths) (root : PAddr) (m m' : Machine α) (es : List Event) :
    Prop where
  history : m'.history = m.history ++ es
  replay : m.now.after (accesses es) = m'.now
  flushed : ∀ x p a l, w.isCanonical x = true → m.memory.walk root x = .mapped p a l →
    (m'.memory.walk root x).target? ≠ some (p, a) →
      ∃ t, ⟨l, t, m.memory.entry t (l.index x)⟩ ∈ m.memory.visits root x ∧
        ∃ before v after, es = before ++ .flushed v :: after ∧ x.SamePage l v ∧
          (∃ e, .stored t (l.index x) e ∈ accesses before) ∧
          ∀ e, .stored t (l.index x) e ∉ accesses after
  counted : es.countP Event.isFlush = m.now.leafStores root (accesses es)

/-- **No call leaves the processor with a stale translation**, whatever its answer. -/
theorem WellFormed.leaves_nothing_stale (h : WellFormed used root m) (hw : w.virt ≤ 48) (c : Call)
    (hc : ∀ v, c = .unmapPage v → w.isCanonical v = true) :
    ∃ es, LeavesNothingStale w root m (c.run w root m).2 es := by
  obtain ⟨es, hes⟩ := h.owns.account_phased (V := {v | w.isCanonical v = true})
    (h.owns.phased_call c (fun _ hv => Widths.isCanonical_of_admitsPage hv) hc)
  refine ⟨es, hes.history, hes.replay, fun x p a l hx hwalk hchanged => ?_, hes.count⟩
  obtain ⟨e, he, hmap⟩ := Memory.walk_eq_mapped_iff.1 hwalk
  have hne : (c.run w root m).2.memory.leaf root (x.trail (4 - l.height)) ≠
      m.memory.leaf root (x.trail (4 - l.height)) := by
    intro hsame
    refine hchanged ?_
    rw [Memory.walk_eq_mapped_iff.2 ⟨e, hsame.trans he, hmap⟩]
    rfl
  rw [x.trail_height] at he hne
  obtain ⟨t, ht, -⟩ := Memory.exists_tableAt_of_slot (slot_of_leafIn he)
  have hleaf : m.memory.HasLeaf root (x.trail (3 - l.height)) t (l.index x) :=
    ⟨ht, by rw [he]; exact Option.some_ne_none e⟩
  obtain ⟨e', hstored⟩ := hes.moved _ t _ hleaf hne
  obtain ⟨before, v, after, heq, ⟨hv, hpath⟩, hbefore, hafter⟩ :=
    (hes.settled _ t _ hleaf).exists_last_flush hstored
  rw [← x.trail_height, Address.length_trail, l.succ_depth] at hpath
  refine ⟨t, Memory.mem_visits_iff.2 ⟨3 - l.height, t, ht, ?_⟩, before, v, after, heq,
    (Widths.trail_eq_iff_samePage hw hx hv).1 hpath, hbefore, hafter⟩
  rw [Memory.visitAt_height]

theorem flushed_full :
    ∃ t before v after, (Call.run .assumed ⟨0x1000⟩ Kernel.full.machine
        (.mapPage ⟨0x7000⟩ ⟨0x1ff000⟩ ∅)).2.history =
          Kernel.full.machine.history ++ (before ++ .flushed v :: after) ∧
      (⟨0x1ff000⟩ : VAddr).SamePage .pt v ∧ (∃ e, .stored t 0x1ff e ∈ accesses before) ∧
      ∀ e, .stored t 0x1ff e ∉ accesses after := by
  have hwell : ∃ es, LeavesNothingStale .assumed ⟨0x1000⟩ Kernel.full.machine
      (Call.run .assumed ⟨0x1000⟩ Kernel.full.machine (.mapPage ⟨0x7000⟩ ⟨0x1ff000⟩ ∅)).2 es :=
    Kernel.wellFormed_full.leaves_nothing_stale (by decide) _ nofun
  have hbefore : Kernel.full.machine.memory.walk ⟨0x1000⟩ ⟨0x1ff000⟩ = .mapped ⟨0x5000⟩ ∅ .pt := by
    decide +kernel
  have hafter : ((Call.run .assumed ⟨0x1000⟩ Kernel.full.machine
      (.mapPage ⟨0x7000⟩ ⟨0x1ff000⟩ ∅)).2.memory.walk ⟨0x1000⟩ ⟨0x1ff000⟩).target? ≠
        some (⟨0x5000⟩, ∅) := by decide +kernel
  -- the machines are not to be evaluated any more
  generalize (Call.run .assumed ⟨0x1000⟩ Kernel.full.machine
    (.mapPage ⟨0x7000⟩ ⟨0x1ff000⟩ ∅)).2 = m' at hwell hafter ⊢
  generalize Kernel.full.machine = m at hwell hbefore ⊢
  obtain ⟨es, hes⟩ := hwell
  obtain ⟨t, -, before, v, after, rfl, hpage, hstored, hlast⟩ :=
    hes.flushed ⟨0x1ff000⟩ ⟨0x5000⟩ ∅ .pt (by decide) hbefore hafter
  have hindex : Level.pt.index ⟨0x1ff000⟩ = 0x1ff := by decide
  rw [hindex] at hstored
  simp only [hindex] at hlast
  exact ⟨t, before, v, after, hes.history, hpage, hstored, hlast⟩

end Machine

end VirtualMemory
