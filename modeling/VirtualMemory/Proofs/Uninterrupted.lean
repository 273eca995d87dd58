import VirtualMemory.Proofs.Coherence
import VirtualMemory.Proofs.TakingBack
import VirtualMemory.Proofs.Unmapping

/-!
# Sections without interrupts

An entry in use is taken out of use while interrupts are shut out, so that no handler finds it half
changed. Such a section holds one write and nothing else. A call has one section for each leaf that
it takes out of use, and one for each table, whose frame goes back when the section is over.

* `Access.Disables`, `Event.Disables`: an entry of the hierarchy is taken out of use;
* `Disabled`: the roles of the entries that some events take out of use, in order;
* `Placed`: what stands before and after an event that belongs to a section;
* `Machine.Sectioned`: the sections of some edits (**`Owns.sectioned_step`**);
* **`WellFormed.keeps_sections`**: the sections of a call.
-/

namespace VirtualMemory

/-! ## Entries taken out of use -/

/-- The table that an entry links. -/
def Role.child? : Role → Option PAddr
  | link c => some c
  | _ => none

/-- **The access takes an entry out of use**: the entry `i` of the table at the path `q`, which has
the role `r` until then. -/
def Access.Disables (root : PAddr) (s : Instant) (a : Access) (q : Path) (i : Index) (r : Role) :
    Prop :=
  ∃ t, s.memory.tableAt root q = some t ∧ (s.memory.entry t i).role (Path.level q) = r ∧
    r ≠ .absent ∧ ((s.next a).memory.entry t i).isPresent = false

/-- One of the accesses of the event takes an entry out of use. -/
def Event.Disables (root : PAddr) (s : Instant) (x : Event) (q : Path) (i : Index) (r : Role) :
    Prop :=
  ∃ as a bs, x.accesses = as ++ a :: bs ∧ a.Disables root (s.after as) q i r

/-- **The events take entries out of use that have the roles `rs`**, in this order, and no two with
one event. -/
inductive Disabled (root : PAddr) : Instant → List Event → List Role → Prop where
  | nil (s : Instant) : Disabled root s [] []
  | keep {s : Instant} {x : Event} {es : List Event} {rs : List Role}
      (none : ∀ q i r, ¬ x.Disables root s q i r)
      (rest : Disabled root (s.after x.accesses) es rs) : Disabled root s (x :: es) rs
  | one {s : Instant} {x : Event} {es : List Event} {rs : List Role} {q : Path} {i : Index}
      {r : Role} (here : x.Disables root s q i r)
      (only : ∀ q' i' r', x.Disables root s q' i' r' → q' = q ∧ i' = i)
      (rest : Disabled root (s.after x.accesses) es rs) : Disabled root s (x :: es) (r :: rs)

section Disables

variable {root t c : PAddr} {s : Instant} {q : Path} {i j : Index} {r : Role} {e : Entry}
  {a : Access} {x : Event} {es es' : List Event} {rs rs' : List Role}

namespace Access

theorem Disables.entry_ne (h : a.Disables root s q i r) : ∃ t, s.memory.tableAt root q = some t ∧
    (s.next a).memory.entry t i ≠ s.memory.entry t i := by
  obtain ⟨t, ht, rfl, hr, hp⟩ := h
  refine ⟨t, ht, fun he => hr ?_⟩
  rw [Entry.role_eq_absent_iff, ← he, hp]

theorem Disables.of_stored (h : (stored t i e).Disables root s q j r) :
    s.memory.tableAt root q = some t ∧ j = i ∧ e.isPresent = false := by
  obtain ⟨u, hu, hne⟩ := h.entry_ne
  have he : (s.memory.set t i e).entry u j = if t = u ∧ i = j then e else s.memory.entry u j :=
    Memory.entry_set ..
  split at he
  · rename_i hti
    obtain ⟨rfl, rfl⟩ := hti
    obtain ⟨u, hu', -, -, hp⟩ := h
    obtain rfl := Option.some.inj (hu'.symm.trans hu)
    exact ⟨hu, rfl, he ▸ hp⟩
  · exact absurd he hne

theorem not_disables_of_isPresent (he : e.isPresent = true) :
    ¬ (stored t i e).Disables root s q j r := fun h => by
  rw [h.of_stored.2.2] at he
  cases he

theorem not_disables_of_fresh (hc : ∀ p, s.memory.tableAt root p ≠ some c) :
    ¬ (stored c i e).Disables root s q j r := fun h => hc q h.of_stored.1

end Access

namespace Event

theorem not_disables_of_accesses (hx : x.accesses = []) : ¬ x.Disables root s q i r := by
  rintro ⟨as, a, bs, he, -⟩
  rw [hx] at he
  exact absurd he.symm (List.append_ne_nil_of_right_ne_nil as (List.cons_ne_nil a bs))

theorem disables_iff_of_accesses (hx : x.accesses = [a]) :
    x.Disables root s q i r ↔ a.Disables root s q i r := by
  constructor
  · rintro ⟨as, b, bs, he, hb⟩
    rw [hx] at he
    rcases List.cons_eq_append_iff.1 he with ⟨rfl, hcons⟩ | ⟨as, rfl, hnil⟩
    · cases hcons
      exact hb
    · exact absurd hnil.symm (List.append_ne_nil_of_right_ne_nil as (List.cons_ne_nil b bs))
  · exact fun h => ⟨[], a, [], hx, h⟩

/-- **A frame without a table is no loss**, whatever it comes with. -/
theorem not_disables_granted (hc : ∀ p, s.memory.tableAt root p ≠ some c) (contents : Table) :
    ¬ (granted c contents).Disables root s q i r := by
  rw [disables_iff_of_accesses rfl]
  intro h
  obtain ⟨t, ht, hne⟩ := h.entry_ne
  have htc : c ≠ t := fun he => hc q (he ▸ ht)
  refine hne ?_
  rw [Instant.next, Memory.entry, Memory.table_setTable_of_ne _ htc]
  rfl

theorem passes_zeroing (hc : ∀ p, s.memory.tableAt root p ≠ some c) (is : List Index) :
    s.Passes (fun s => ∀ p, s.memory.tableAt root p ≠ some c) (Access.zeroing c is) := by
  induction is generalizing s with
  | nil => exact Instant.passes_nil.2 hc
  | cons i is ih =>
    refine Instant.passes_cons.2 ⟨hc, ih fun p => ?_⟩
    show (s.memory.set c i .empty).tableAt root p ≠ some c
    rw [Memory.set, (Instant.tableAt_slot_elsewhere hc _).1]
    exact hc p

theorem not_disables_zeroed (hc : ∀ p, s.memory.tableAt root p ≠ some c) :
    ¬ (zeroed c).Disables root s q i r := by
  rintro ⟨as, a, bs, he, ha⟩
  have hpass := passes_zeroing hc (List.finRange 512) as ⟨a :: bs, he.symm⟩
  have hmem : a ∈ Access.zeroing c (List.finRange 512) := by
    rw [show Access.zeroing c (List.finRange 512) = as ++ a :: bs from he]
    exact List.mem_append_right as List.mem_cons_self
  obtain ⟨j, -, rfl⟩ := List.mem_map.1 hmem
  exact Access.not_disables_of_fresh hpass ha

end Event

theorem Disabled.append (h : Disabled root s es rs)
    (h' : Disabled root (s.after (accesses es)) es' rs') :
    Disabled root s (es ++ es') (rs ++ rs') := by
  induction h with
  | nil s => exact h'
  | keep none _ ih => exact .keep none (ih (by rwa [← Instant.after_append]))
  | one here only _ ih => exact .one here only (ih (by rwa [← Instant.after_append]))

theorem Disabled.of_accesses (h : ∀ x ∈ es, x.accesses = []) : Disabled root s es [] := by
  induction es generalizing s with
  | nil => exact .nil s
  | cons x es ih =>
    obtain ⟨hx, hes⟩ := List.forall_mem_cons.1 h
    exact .keep (fun _ _ _ => Event.not_disables_of_accesses hx) (ih hes)

end Disables

/-! ## Sections -/

/-- The event shuts interrupts out or lets them in again, or gives a frame back. -/
def Event.Marks : Event → Prop
  | interruptsOff | interruptsOn | released .. => True
  | _ => False

/-- **The entry `i` of the table `t` of the hierarchy goes out of use when `e` is written to it**,
and its other bits stay. -/
def Instant.Cuts (root : PAddr) (s : Instant) (t : PAddr) (i : Index) (e : Entry) : Prop :=
  (∃ q, s.memory.tableAt root q = some t) ∧ (s.memory.entry t i).isPresent = true ∧
    e.isPresent = false ∧ ∀ j ≠ 0, e.bits.getLsbD j = (s.memory.entry t i).bits.getLsbD j

/-- **The event `x` is in its place** between those before it and those after it. -/
structure Placed (root : PAddr) (s : Instant) (before : List Event) (x : Event)
    (after : List Event) : Prop where
  /-- A section has one write in it, which takes an entry in use out of use. -/
  opens : x = .interruptsOff → ∃ t i e later, after = .wrote t i e :: .interruptsOn :: later ∧
    (s.after (accesses before)).Cuts root t i e
  closes : x = .interruptsOn → ∃ earlier t i e, before = earlier ++ [.interruptsOff, .wrote t i e]
  /-- An entry goes out of use in a section only. -/
  guarded : ∀ q i r, x.Disables root (s.after (accesses before)) q i r →
    ∃ earlier t e later, before = earlier ++ [.interruptsOff] ∧ x = .wrote t i e ∧
      after = .interruptsOn :: later
  /-- A frame that goes back was out, and the section that unlinked it is over. -/
  unlinked : ∀ c held, x = .released c held → held = true ∧ ∃ earlier t i e later,
    before = earlier ++ .interruptsOff :: .wrote t i e :: .interruptsOn :: later ∧
      ∃ q, (s.after (accesses earlier)).memory.tableAt root q = some t ∧
        ((s.after (accesses earlier)).memory.entry t i).role (Path.level q) = .link c

namespace Placed

variable {root : PAddr} {s : Instant} {before after es es' : List Event} {x : Event}

theorem of_not_marks (hx : ¬ x.Marks)
    (hd : ∀ q i r, ¬ x.Disables root (s.after (accesses before)) q i r) :
    Placed root s before x after where
  opens he := absurd (he ▸ trivial) hx
  closes he := absurd (he ▸ trivial) hx
  guarded q i r h := absurd h (hd q i r)
  unlinked _ _ he := absurd (he ▸ trivial) hx

theorem followed (h : Placed root s before x after) (es : List Event) :
    Placed root s before x (after ++ es) where
  opens hx := by
    obtain ⟨t, i, e, later, rfl, hcut⟩ := h.opens hx
    exact ⟨t, i, e, later ++ es, rfl, hcut⟩
  closes := h.closes
  guarded q i r hd := by
    obtain ⟨earlier, t, e, later, hbefore, hx, rfl⟩ := h.guarded q i r hd
    exact ⟨earlier, t, e, later ++ es, hbefore, hx, rfl⟩
  unlinked := h.unlinked

theorem preceded (h : Placed root (s.after (accesses es)) before x after) :
    Placed root s (es ++ before) x after := by
  have hafter : ∀ es', s.after (accesses (es ++ es')) =
      (s.after (accesses es)).after (accesses es') := fun es' => by
    rw [accesses_append, Instant.after_append]
  refine ⟨fun hx => ?_, fun hx => ?_, fun q i r hd => ?_, fun c held hx => ?_⟩
  · rw [hafter]
    exact h.opens hx
  · obtain ⟨earlier, t, i, e, rfl⟩ := h.closes hx
    exact ⟨es ++ earlier, t, i, e, (List.append_assoc ..).symm⟩
  · rw [hafter] at hd
    obtain ⟨earlier, t, e, later, rfl, hrest⟩ := h.guarded q i r hd
    exact ⟨es ++ earlier, t, e, later, (List.append_assoc ..).symm, hrest⟩
  · obtain ⟨hheld, earlier, t, i, e, later, rfl, hlink⟩ := h.unlinked c held hx
    refine ⟨hheld, es ++ earlier, t, i, e, later, (List.append_assoc ..).symm, ?_⟩
    rw [hafter]
    exact hlink

theorem of_disabled (h : Disabled root s es []) (hm : ∀ x ∈ es, ¬ x.Marks) :
    ∀ before x after, es = before ++ x :: after → Placed root s before x after := by
  generalize hrs : ([] : List Role) = rs at h
  induction h with
  | nil s => simp
  | @keep s x es rs none _ ih =>
    obtain ⟨hx, hes⟩ := List.forall_mem_cons.1 hm
    have hfirst : accesses [x] = x.accesses := List.append_nil _
    refine forall_place_cons.2 ⟨.of_not_marks hx none, fun before y after he => ?_⟩
    rw [← List.singleton_append]
    refine preceded ?_
    rw [hfirst]
    exact ih hes hrs before y after he
  | one => cases hrs

end Placed

namespace Machine

variable {α : Type} [FrameSource α] {used others : Set PAddr} {root t c : PAddr} {q : Path}
  {i : Index} {x : Edit} {xs : List Edit} {es es' : List Event} {rs rs' : List Role}
  {m m' m'' : Machine α}

/-- **The sections of some edits**: each of their events `es` is in its place, the entries taken out
of use have the roles `rs`, one for each section, and the tables that they link are the frames that
go back. -/
structure Sectioned (root : PAddr) (m m' : Machine α) (es : List Event) (rs : List Role) :
    Prop where
  history : m'.history = m.history ++ es
  replay : m.now.after (accesses es) = m'.now
  disabled : Disabled root m.now es rs
  placed : ∀ before x after, es = before ++ x :: after → Placed root m.now before x after
  counted : es.count .interruptsOff = rs.count .leaf + (rs.filterMap Role.child?).length
  returned : es.filterMap Event.released? = rs.filterMap Role.child?

namespace Sectioned

theorem append (h : Sectioned root m m' es rs) (h' : Sectioned root m' m'' es' rs') :
    Sectioned root m m'' (es ++ es') (rs ++ rs') where
  history := by rw [h'.history, h.history, List.append_assoc]
  replay := by rw [accesses_append, Instant.after_append, h.replay, h'.replay]
  disabled := h.disabled.append (h.replay ▸ h'.disabled)
  placed := forall_place_append.2
    ⟨fun before x after he => (h.placed before x after he).followed es',
      fun before x after he => .preceded (h.replay ▸ h'.placed before x after he)⟩
  counted := by
    rw [List.count_append, h.counted, h'.counted, List.count_append, List.filterMap_append,
      List.length_append]
    omega
  returned := by rw [List.filterMap_append, h.returned, h'.returned, List.filterMap_append]

theorem of_disabled (hh : m'.history = m.history ++ es)
    (hr : m.now.after (accesses es) = m'.now) (hd : Disabled root m.now es [])
    (hm : ∀ x ∈ es, ¬ x.Marks) : Sectioned root m m' es [] where
  history := hh
  replay := hr
  disabled := hd
  placed := .of_disabled hd hm
  counted := List.count_eq_zero.2 fun hoff => hm _ hoff trivial
  returned := List.filterMap_eq_nil_iff.2 fun x hx => by
    cases x with
    | released => exact absurd trivial (hm _ hx)
    | _ => rfl

end Sectioned

/-! ## The sections of one edit -/

/-- **One section takes one entry out of use.** -/
theorem Owns.disabled_section {r : Role} (h : Owns used others root m)
    (ht : m.memory.tableAt root q = some t) (hr : (m.entry t i).role (Path.level q) = r)
    (hne : r ≠ .absent) : Disabled root m.now
      [.interruptsOff, .wrote t i (m.entry t i).disabled, .interruptsOn] [r] := by
  have hwrote : ∀ q' i' r', (Event.wrote t i (m.entry t i).disabled).Disables root m.now q' i' r' ↔
      q' = q ∧ i' = i ∧ r' = r := by
    intro q' i' r'
    rw [Event.disables_iff_of_accesses rfl]
    constructor
    · intro hd
      obtain ⟨ht', rfl, -⟩ := hd.of_stored
      obtain rfl := h.tree q' q t ht' ht
      obtain ⟨u, hu, hr', -⟩ := hd
      obtain rfl := Option.some.inj (hu.symm.trans ht)
      exact ⟨rfl, rfl, hr'.symm.trans hr⟩
    · rintro ⟨rfl, rfl, rfl⟩
      refine ⟨t, ht, hr, hne, ?_⟩
      show ((m.memory.set t i' (m.entry t i').disabled).entry t i').isPresent = false
      rw [Memory.entry_set_self, Entry.isPresent_disabled]
  refine .keep (fun _ _ _ => Event.not_disables_of_accesses rfl) ?_
  refine .one ((hwrote q i r).2 ⟨rfl, rfl, rfl⟩) (fun q' i' r' hd => ?_) ?_
  · obtain ⟨rfl, rfl, -⟩ := (hwrote q' i' r').1 hd
    exact ⟨rfl, rfl⟩
  · exact .keep (fun _ _ _ => Event.not_disables_of_accesses rfl) (.nil _)

theorem placed_section (ht : m.memory.tableAt root q = some t)
    (hp : (m.entry t i).isPresent = true) :
    ∀ before x after, [.interruptsOff, .wrote t i (m.entry t i).disabled, .interruptsOn] =
      before ++ x :: after → Placed root m.now before x after := by
  have hcut : m.now.Cuts root t i (m.entry t i).disabled := by
    refine ⟨⟨q, ht⟩, hp, Entry.isPresent_disabled _, fun j hj => ?_⟩
    rw [Entry.getLsbD_disabled, decide_eq_false hj, Bool.not_false, Bool.and_true]
    rfl
  rw [forall_place_cons, forall_place_cons, forall_place_cons]
  refine ⟨⟨?_, nofun, ?_, nofun⟩, ⟨nofun, nofun, ?_, nofun⟩, ⟨nofun, ?_, ?_, nofun⟩, by simp⟩
  · exact fun _ => ⟨t, i, _, [], rfl, hcut⟩
  · exact fun _ _ _ hd => absurd hd (Event.not_disables_of_accesses rfl)
  · intro q' i' r hd
    rw [Event.disables_iff_of_accesses rfl] at hd
    obtain ⟨-, rfl, -⟩ := hd.of_stored
    exact ⟨[], t, _, [], rfl, rfl, rfl⟩
  · exact fun _ => ⟨[], t, i, _, rfl⟩
  · exact fun _ _ _ hd => absurd hd (Event.not_disables_of_accesses rfl)

/-- **A table is unlinked** in a section, and goes back when it is over. -/
theorem Owns.sectioned_unlink {logs : List Event} (h : Owns used others root m)
    (ht : m.memory.tableAt root q = some t) (hr : (m.entry t i).role (Path.level q) = .link c)
    (hlogs : ∀ x ∈ logs, ∃ n, x = .logged n)
    (hhistory : m'.history = m.history ++
      ([.interruptsOff, .wrote t i (m.entry t i).disabled, .interruptsOn] ++ logs ++
        [.released c true]))
    (hreplay : m.now.after (accesses
      ([.interruptsOff, .wrote t i (m.entry t i).disabled, .interruptsOn] ++ logs ++
        [.released c true])) = m'.now) :
    Sectioned root m m' ([.interruptsOff, .wrote t i (m.entry t i).disabled, .interruptsOn] ++
      logs ++ [.released c true]) [.link c] := by
  have hlogged : ∀ x ∈ logs, x.accesses = [] ∧ ¬ x.Marks ∧ x.released? = none := by
    intro x hx
    obtain ⟨n, rfl⟩ := hlogs x hx
    exact ⟨rfl, id, rfl⟩
  have hquiet : ∀ s, Disabled root s logs [] := fun s => .of_accesses fun x hx => (hlogged x hx).1
  have hback : ∀ s q' i' r, ¬ (Event.released c true).Disables root s q' i' r := by
    intro s q' i' r hd
    rw [Event.disables_iff_of_accesses rfl] at hd
    obtain ⟨u, -, hne⟩ := hd.entry_ne
    exact hne rfl
  have hp := Entry.isPresent_of_link? (Entry.link?_eq_some_iff.2 hr)
  refine ⟨hhistory, hreplay, ?_, ?_, ?_, ?_⟩
  · have hsection := h.disabled_section ht hr Role.noConfusion
    exact (hsection.append (hquiet _)).append (.keep (hback _) (.nil _))
  · refine forall_place_append.2 ⟨forall_place_append.2 ⟨fun before x after he => ?_,
      fun before x after he => ?_⟩, forall_place_cons.2 ⟨?_, by simp⟩⟩
    · exact ((placed_section ht hp before x after he).followed logs).followed _
    · refine (Placed.preceded ?_).followed _
      exact .of_disabled (hquiet _) (fun x hx => (hlogged x hx).2.1) before x after he
    · refine ⟨nofun, nofun, fun q' i' r hd => absurd hd (hback _ q' i' r), fun c' held he => ?_⟩
      cases he
      exact ⟨rfl, [], t, i, _, logs, List.append_nil _, q, ht, hr⟩
  · have hnone : logs.count .interruptsOff = 0 :=
      List.count_eq_zero.2 fun hoff => (hlogged _ hoff).2.1 trivial
    rw [List.count_append, List.count_append, hnone]
    rfl
  · have hnone : logs.filterMap Event.released? = [] :=
      List.filterMap_eq_nil_iff.2 fun x hx => (hlogged x hx).2.2
    rw [List.filterMap_append, List.filterMap_append, hnone]
    rfl

/-- **Every edit keeps to its sections.** -/
theorem Owns.sectioned_step (h : Owns used others root m) (hx : Step root x m m') :
    ∃ es rs, Sectioned root m m' es rs := by
  obtain ⟨es, htrace, hemits⟩ := h.trace_step hx
  have hfresh := fun q i c f (he : x = .link q i c f) => h.fresh_of_link (he ▸ hx)
  cases hx with
  | @link _ m₁ q i t c f parent above vacant request =>
    cases hemits with
    | link f contents parent' =>
      refine ⟨_, [], .of_disabled htrace.history htrace.replay ?_ (by simp [Event.Marks])⟩
      have hc := hfresh _ _ _ _ rfl
      have hc' : ∀ p, (m.now.next (.granted c contents)).memory.tableAt root p ≠ some c :=
        fun p => (Instant.tableAt_slot_elsewhere (s := m.now) hc contents).1 ▸ hc p
      refine .keep (fun _ _ _ => Event.not_disables_granted hc contents) ?_
      refine .keep (fun _ _ _ => Event.not_disables_zeroed hc') ?_
      refine .keep (fun _ _ _ hd => ?_) (.nil _)
      rw [Event.disables_iff_of_accesses rfl] at hd
      exact Access.not_disables_of_isPresent (Entry.isPresent_make_asLink c f) hd
  | put parent free leaf =>
    cases hemits with
    | put parent' =>
      refine ⟨_, [], .of_disabled htrace.history htrace.replay ?_ (by simp [Event.Marks])⟩
      refine .keep (fun _ _ _ hd => ?_) (.nil _)
      rw [Event.disables_iff_of_accesses rfl] at hd
      exact Access.not_disables_of_isPresent leaf.1 hd
  | clear parent leaf =>
    cases hemits with
    | clear parent' =>
      obtain rfl := Option.some.inj (parent'.symm.trans parent)
      exact ⟨_, [.leaf], htrace.history, htrace.replay,
        h.disabled_section parent leaf Role.noConfusion,
        placed_section parent (Entry.role_eq_leaf_iff.1 leaf).1, rfl, rfl⟩
  | @unlink _ q i t c notices parent child empty =>
    cases hemits with
    | @unlink q i t' c logs parent' hlogs =>
      obtain rfl := Option.some.inj (parent'.symm.trans parent)
      rw [Memory.tableAt_cons parent, Entry.link?_eq_some_iff] at child
      exact ⟨_, [.link c], h.sectioned_unlink parent child hlogs htrace.history htrace.replay⟩

theorem Owns.sectioned_quiet (h : Owns used others root m) (hq : Quiet m m') :
    ∃ es, Sectioned root m m' es [] := by
  cases hq with
  | note n =>
    obtain ⟨es, htrace, hlogs⟩ := trace_notices (m := m) (P := fun _ => True) [n] trivial
    refine ⟨es, .of_disabled htrace.history htrace.replay (.of_accesses fun x hx => ?_) ?_⟩
    · obtain ⟨n, rfl⟩ := hlogs x hx
      rfl
    · intro x hx
      obtain ⟨n, rfl⟩ := hlogs x hx
      exact id
  | flush v =>
    exact ⟨_, .of_disabled (history_record m (.flushed v)) rfl
      (.of_accesses (by simp [Event.accesses])) (by simp [Event.Marks])⟩
  | refused request =>
    obtain ⟨hh, -, frames, rfl⟩ := allocate_none h.honest request
    have hnow : ({ m with frames }.record .refused).now = m.now := now_eq rfl hh
    exact ⟨_, .of_disabled (history_record _ _) hnow.symm (.of_accesses (by simp [Event.accesses]))
      (by simp [Event.Marks])⟩

theorem Owns.sectioned_steps (h : Owns used others root m) (hx : Steps root xs m m') :
    ∃ es rs, Sectioned root m m' es rs := by
  induction hx with
  | refl m =>
    exact ⟨[], [], .of_disabled (List.append_nil _).symm rfl (.nil _) nofun⟩
  | quiet first _ ih =>
    obtain ⟨es, hfirst⟩ := h.sectioned_quiet first
    obtain ⟨es', rs, hrest⟩ := ih (h.quiet first).1
    exact ⟨es ++ es', [] ++ rs, hfirst.append hrest⟩
  | edit first _ ih =>
    obtain ⟨es, rs, hfirst⟩ := h.sectioned_step first
    obtain ⟨es', rs', hrest⟩ := ih (h.step first).1
    exact ⟨es ++ es', rs ++ rs', hfirst.append hrest⟩

/-- **Every call keeps to its sections**, whatever its answer. -/
theorem WellFormed.keeps_sections (h : WellFormed used root m) (w : Widths) (c : Call) :
    ∃ es rs, Sectioned root m (c.run w root m).2 es rs := by
  obtain ⟨xs, hx⟩ := h.owns.exists_steps w c
  exact h.owns.sectioned_steps hx

theorem keeps_sections_mixed :
    (∃ es rs, Sectioned ⟨0x1000⟩ mixed
        (Call.run .assumed ⟨0x1000⟩ mixed (.unmapPage ⟨0x200123⟩)).2 es rs ∧
      es.count .interruptsOff = 1 ∧ rs.count .leaf = 1 ∧ es.filterMap Event.released? = []) ∧
    ∃ es rs, Sectioned ⟨0x1000⟩ (unmapped ⟨0x1000⟩ 3)
        (Call.run .assumed ⟨0x1000⟩ (unmapped ⟨0x1000⟩ 3) (.mapPage ⟨0x5000⟩ ⟨0x1ff000⟩ ∅)).2
        es rs ∧
      es.count .interruptsOff = 2 ∧ rs.count .leaf = 0 ∧
      es.filterMap Event.released? = [⟨0x3000⟩, ⟨0x2000⟩] := by
  have key : ∀ (m m' : Machine FramePool) (n : Nat) (back : List PAddr),
      (∃ es rs, Sectioned ⟨0x1000⟩ m m' es rs) →
      (m'.history.drop m.history.length).count .interruptsOff = n + back.length →
      (m'.history.drop m.history.length).filterMap Event.released? = back →
      ∃ es rs, Sectioned ⟨0x1000⟩ m m' es rs ∧ es.count .interruptsOff = n + back.length ∧
        rs.count .leaf = n ∧ es.filterMap Event.released? = back := by
    rintro m m' n back ⟨es, rs, hes⟩ hcount hback
    rw [hes.history, List.drop_left] at hcount hback
    have hroles := hes.counted
    rw [hcount, ← hes.returned, hback] at hroles
    exact ⟨es, rs, hes, hcount, Nat.add_right_cancel hroles.symm, hback⟩
  have hfresh : WellFormed (FramePool.pinnedSet ⟨0x1000⟩ 1) ⟨0x1000⟩ (unmapped ⟨0x1000⟩ 3) :=
    (owns_unmapped rfl (by decide) (by decide)).wellFormed
  exact ⟨key _ _ 1 [] (stocked_mixed.1.keeps_sections _ _) (by decide +kernel) (by decide +kernel),
    key _ _ 0 [⟨0x3000⟩, ⟨0x2000⟩] (hfresh.keeps_sections _ _) (by decide +kernel)
      (by decide +kernel)⟩

end Machine

end VirtualMemory
