import VirtualMemory.Proofs.Edits
import Mathlib.Data.Set.Basic

/-!
# What a walk may meet during a call

The processor may walk the tables at any time, also between two writes of a call. So the events of a
call are taken apart into single accesses and replayed one by one.

* `Access`, `Event.accesses`: a frame granted or given back, or one entry written;
* `Zeroes`: frames are zeroed before anything else happens to them;
* `Instant`, `Instant.after`: memory and the frames that are out, after some of the accesses;
* `Instant.Safe`: a walk meets tables in use only, and finds one of two sets of leaves;
* `Edit.Emits`: the events of each kind of edit;
* `Machine.Trace`: the accesses of a sequence of edits, with what holds after each of them
  (**`Owns.trace_step`**, **`Owns.trace_steps`**);
* **`WellFormed.safe_throughout`**: the calls on single pages are safe at every instant.
-/

namespace VirtualMemory

/-! ## Accesses -/

/-- **A single access**: to the source of frames, or to one entry in memory. -/
inductive Access where
  | granted (frame : PAddr) (contents : Table)
  | released (frame : PAddr)
  | stored (table : PAddr) (i : Index) (e : Entry)

/-- A table is zeroed entry by entry. -/
def Access.zeroing (t : PAddr) (is : List Index) : List Access := is.map (stored t · .empty)

/-- **The accesses of an event.** Most events are none: a request that is refused changes nothing
that a walk could see. -/
def Event.accesses : Event → List Access
  | granted t contents => [.granted t contents]
  | released t _ => [.released t]
  | zeroed t => Access.zeroing t (List.finRange 512)
  | wrote t i e => [.stored t i e]
  | _ => []

def accesses (es : List Event) : List Access := es.flatMap Event.accesses

theorem accesses_append (es es' : List Event) :
    accesses (es ++ es') = accesses es ++ accesses es' := List.flatMap_append

theorem accesses_link (c t : PAddr) (contents : Table) (i : Index) (e : Entry) :
    accesses [.granted c contents, .zeroed c, .wrote t i e] =
      .granted c contents :: (Access.zeroing c (List.finRange 512) ++ [.stored t i e]) := by
  simp only [accesses, List.flatMap_cons, List.flatMap_nil, Event.accesses, List.append_nil,
    List.cons_append, List.nil_append]

/-! ## Places in a list of events -/

section Places

variable {β : Type} {Q : List β → β → List β → Prop} {y : β} {xs ys : List β}

theorem forall_place_cons :
    (∀ before x after, y :: xs = before ++ x :: after → Q before x after) ↔
      Q [] y xs ∧ ∀ before x after, xs = before ++ x :: after → Q (y :: before) x after := by
  constructor
  · intro h
    refine ⟨h [] y xs rfl, ?_⟩
    rintro before x after rfl
    exact h (y :: before) x after rfl
  · rintro ⟨hy, h⟩ before x after he
    rcases List.cons_eq_append_iff.1 he with ⟨rfl, hcons⟩ | ⟨before, rfl, hxs⟩
    · cases hcons
      exact hy
    · exact h before x after hxs

/-- **What holds at each place of two lists** put together. -/
theorem forall_place_append :
    (∀ before x after, xs ++ ys = before ++ x :: after → Q before x after) ↔
      (∀ before x after, xs = before ++ x :: after → Q before x (after ++ ys)) ∧
        ∀ before x after, ys = before ++ x :: after → Q (xs ++ before) x after := by
  induction xs generalizing Q with
  | nil => exact ⟨fun h => ⟨by simp, h⟩, And.right⟩
  | cons x xs ih => rw [List.cons_append, forall_place_cons, forall_place_cons, ih, and_assoc]; rfl

end Places

/-- **Frames are zeroed as soon as they are granted**, before anything else happens. -/
def Zeroes (es : List Event) : Prop :=
  ∀ before after c contents, es = before ++ .granted c contents :: after →
    ∃ later, after = .zeroed c :: later

section Zeroes

variable {es es' : List Event}

theorem zeroes_of_not_granted (h : ∀ c t, .granted c t ∉ es) : Zeroes es := by
  rintro before after c contents rfl
  exact absurd (List.mem_append_right _ List.mem_cons_self) (h c contents)

theorem zeroes_iff : Zeroes es ↔ ∀ before x after, es = before ++ x :: after →
    ∀ c contents, x = .granted c contents → ∃ later, after = .zeroed c :: later := by
  constructor
  · rintro h before _ after he c contents rfl
    exact h before after c contents he
  · exact fun h before after c contents he => h before _ after he c contents rfl

theorem zeroes_link (c t : PAddr) (contents : Table) (i : Index) (e : Entry) :
    Zeroes [.granted c contents, .zeroed c, .wrote t i e] := by
  rw [zeroes_iff, forall_place_cons, forall_place_cons, forall_place_cons]
  simp

theorem Zeroes.append (h : Zeroes es) (h' : Zeroes es') : Zeroes (es ++ es') := by
  rw [zeroes_iff] at *
  refine forall_place_append.2 ⟨fun before x after he c contents hx => ?_, h'⟩
  obtain ⟨later, rfl⟩ := h before x after he c contents hx
  exact ⟨later ++ es', rfl⟩

end Zeroes

/-- **The machine as walks see it** at an instant: its memory, the frames that are out, and the
entries which still hold what their frame came with. -/
@[ext] structure Instant where
  memory : Memory
  out : Set PAddr
  stale : Set (PAddr × Index)

namespace Instant

def next (s : Instant) : Access → Instant
  | .granted t contents =>
    ⟨s.memory.setTable t contents, {u | u = t ∨ u ∈ s.out}, {x | x.1 = t ∨ x ∈ s.stale}⟩
  | .released t => ⟨s.memory, {u | u ∈ s.out ∧ u ≠ t}, s.stale⟩
  | .stored t i e => ⟨s.memory.set t i e, s.out, {x | x ∈ s.stale ∧ x ≠ (t, i)}⟩

/-- **The instant after some accesses.** -/
def after (s : Instant) (as : List Access) : Instant := as.foldl next s

/-- The property `P` holds at all instants from the first to the last of some accesses. -/
def Passes (P : Instant → Prop) (s : Instant) (as : List Access) : Prop :=
  ∀ bs, bs <+: as → P (s.after bs)

variable {P Q : Instant → Prop} {s : Instant} {as bs : List Access} {a : Access}

@[simp] theorem after_nil (s : Instant) : s.after [] = s := rfl

@[simp] theorem after_cons (s : Instant) (a : Access) (as : List Access) :
    s.after (a :: as) = (s.next a).after as := rfl

theorem after_append (s : Instant) (as bs : List Access) :
    s.after (as ++ bs) = (s.after as).after bs := List.foldl_append

theorem Passes.mono (h : s.Passes P as) (hPQ : ∀ s, P s → Q s) : s.Passes Q as :=
  fun bs hbs => hPQ _ (h bs hbs)

theorem Passes.last (h : s.Passes P as) : P (s.after as) := h as (List.prefix_refl as)

@[simp] theorem passes_nil : s.Passes P [] ↔ P s := by
  constructor
  · intro h
    exact h.last
  · intro h bs hbs
    rw [List.prefix_nil.1 hbs]
    exact h

@[simp] theorem passes_cons : s.Passes P (a :: as) ↔ P s ∧ (s.next a).Passes P as := by
  constructor
  · intro h
    constructor
    · exact h [] List.nil_prefix
    · intro bs hbs
      exact h (a :: bs) (List.cons_prefix_cons.2 ⟨rfl, hbs⟩)
  · rintro ⟨hs, h⟩ bs hbs
    cases bs with
    | nil => exact hs
    | cons b bs =>
      obtain ⟨rfl, hbs'⟩ := List.cons_prefix_cons.1 hbs
      exact h bs hbs'

theorem Passes.append (h : s.Passes P as) (h' : (s.after as).Passes P bs) :
    s.Passes P (as ++ bs) := by
  induction as generalizing s with
  | nil => exact h'
  | cons a as ih =>
    rw [passes_cons] at h
    rw [List.cons_append, passes_cons]
    exact ⟨h.1, ih h.2 h'⟩

/-! ## Zeroing -/

/-- **Zeroing a table entry by entry** leaves nothing stale in it. -/
theorem after_zeroing (mem : Memory) (out : Set PAddr) (stale : Set (PAddr × Index)) (c : PAddr)
    (t : Table) (is : List Index) :
    (⟨mem.setTable c t, out, stale⟩ : Instant).after (Access.zeroing c is) =
      ⟨mem.setTable c (is.foldl (fun t i => t.set i .empty) t), out,
        {x | x ∈ stale ∧ ∀ i ∈ is, x ≠ (c, i)}⟩ := by
  induction is generalizing t stale with
  | nil => simp [Access.zeroing]
  | cons i is ih =>
    have hmem : (mem.setTable c t).set c i .empty = mem.setTable c (t.set i .empty) := by
      rw [Memory.set, Memory.table_setTable_self, Memory.setTable_setTable]
    rw [Access.zeroing, List.map_cons, after_cons, next, hmem]
    show Instant.after _ (Access.zeroing c is) = _
    rw [ih]
    simp [and_assoc]

theorem after_zeroing_all (mem : Memory) (out : Set PAddr) (stale : Set (PAddr × Index))
    (c : PAddr) (t : Table) :
    (⟨mem.setTable c t, out, stale⟩ : Instant).after (Access.zeroing c (List.finRange 512)) =
      ⟨mem.setTable c .empty, out, {x | x ∈ stale ∧ x.1 ≠ c}⟩ := by
  rw [after_zeroing]
  ext1
  · show mem.setTable c _ = _
    rw [Table.foldl_set_finRange]; rfl
  · rfl
  · ext ⟨u, i⟩
    simp

/-! ## Safety -/

/-- **An instant at which a walk is safe.** Each table it can come to is out, and none of the
table's entries is left over from before; the leaves are those in `old` or those in `new`. -/
structure Safe (root : PAddr) (old new : Path → Option Entry) (s : Instant) : Prop where
  out : ∀ p t, p ≠ [] → s.memory.tableAt root p = some t → t ∈ s.out
  clean : ∀ p t i, p ≠ [] → s.memory.tableAt root p = some t → (t, i) ∉ s.stale
  leaf : s.memory.leaf root = old ∨ s.memory.leaf root = new

section Safe

variable {root c : PAddr} {old new : Path → Option Entry}

theorem Safe.ofOld (h : s.Safe root old old) (new : Path → Option Entry) : s.Safe root old new :=
  ⟨h.out, h.clean, .inl (h.leaf.elim id id)⟩

theorem Safe.ofNew (h : s.Safe root new new) (old : Path → Option Entry) : s.Safe root old new :=
  ⟨h.out, h.clean, .inr (h.leaf.elim id id)⟩

variable (hc : ∀ p, s.memory.tableAt root p ≠ some c)

include hc

/-- A frame that no path leads to may be written at will. -/
theorem tableAt_slot_elsewhere (t : Table) :
    (s.memory.setTable c t).tableAt root = s.memory.tableAt root ∧
      (s.memory.setTable c t).slot root = s.memory.slot root := by
  apply Memory.tableAt_slot_eq_of_table
  intro p u hu
  apply Memory.table_setTable_of_ne
  rintro rfl
  exact hc p hu

theorem Safe.granted (h : s.Safe root old new) (t : Table) :
    (s.next (.granted c t)).Safe root old new := by
  obtain ⟨htable, hslot⟩ := tableAt_slot_elsewhere hc t
  refine ⟨fun p u hp hu => .inr ?_, fun p u i hp hu => ?_, ?_⟩
  · exact h.out p u hp (htable ▸ hu)
  · rintro (rfl | hx)
    · exact hc p (htable ▸ hu)
    · exact h.clean p u i hp (htable ▸ hu) hx
  · show leafIn _ = old ∨ leafIn _ = new
    rw [next, hslot]
    exact h.leaf

theorem Safe.stored (h : s.Safe root old new) (i : Index) (e : Entry) :
    (s.next (.stored c i e)).Safe root old new := by
  obtain ⟨htable, hslot⟩ := tableAt_slot_elsewhere hc ((s.memory.table c).set i e)
  refine ⟨fun p u hp hu => ?_, fun p u j hp hu hx => ?_, ?_⟩
  · exact h.out p u hp (htable ▸ hu)
  · exact h.clean p u j hp (htable ▸ hu) hx.1
  · show leafIn _ = old ∨ leafIn _ = new
    rw [next, Memory.set, hslot]
    exact h.leaf

theorem Safe.zeroing (h : s.Safe root old new) (is : List Index) :
    s.Passes (Safe root old new) (Access.zeroing c is) := by
  induction is generalizing s with
  | nil => exact passes_nil.2 h
  | cons i is ih =>
    refine passes_cons.2 ⟨h, ih ?_ (h.stored hc i .empty)⟩
    intro p
    show (s.memory.set c i .empty).tableAt root p ≠ some c
    rw [Memory.set, (tableAt_slot_elsewhere hc _).1]
    exact hc p

end Safe

end Instant

/-- **The events of an edit** of the hierarchy in `mem`. -/
inductive Edit.Emits (root : PAddr) (mem : Memory) : Edit → List Event → Prop where
  | link {q : Path} {i : Index} {t c : PAddr} (f : EntryFlags) (contents : Table)
      (parent : mem.tableAt root q = some t) :
      Emits root mem (.link q i c f)
        [.granted c contents, .zeroed c, .wrote t i (.make c f.asLink)]
  | put {q : Path} {i : Index} {t : PAddr} {e : Entry} (parent : mem.tableAt root q = some t) :
      Emits root mem (.put q i e) [.wrote t i e]
  | clear {q : Path} {i : Index} {t : PAddr} (parent : mem.tableAt root q = some t) :
      Emits root mem (.clear q i)
        [.interruptsOff, .wrote t i (mem.entry t i).disabled, .interruptsOn]
  | unlink {q : Path} {i : Index} {t c : PAddr} {es : List Event}
      (parent : mem.tableAt root q = some t) (logs : ∀ e ∈ es, ∃ n, e = .logged n) :
      Emits root mem (.unlink q i c)
        ([.interruptsOff, .wrote t i (mem.entry t i).disabled, .interruptsOn] ++ es ++
          [.released c true])

namespace Machine

variable {α : Type} [FrameSource α] {used others : Set PAddr} {root t c : PAddr} {v : VAddr}
  {P Q : Instant → Prop} {x : Edit} {xs ys : List Edit} {es es' : List Event}
  {m m' m'' : Machine α}

/-- **The instant before a call begins, or after it has ended.** -/
def now (m : Machine α) : Instant := ⟨m.memory, {t | m.Holds t}, ∅⟩

/-- **The trace of some edits**: the events `es` account for all that they do, at each instant on
the way the property `P` holds, and frames are granted to link them, zeroed at once, and given back
once unlinked. -/
structure Trace (P : Instant → Prop) (xs : List Edit) (m m' : Machine α) (es : List Event) :
    Prop where
  history : m'.history = m.history ++ es
  replay : m.now.after (accesses es) = m'.now
  passes : m.now.Passes P (accesses es)
  zeroed : Zeroes es
  granted : ∀ c t, .granted c t ∈ es → ∃ q i f, .link q i c f ∈ xs
  released : ∀ c b, .released c b ∈ es → ∃ q i, .unlink q i c ∈ xs

namespace Trace

theorem mono (h : Trace P xs m m' es) (hPQ : ∀ s, P s → Q s) : Trace Q xs m m' es :=
  ⟨h.history, h.replay, h.passes.mono hPQ, h.zeroed, h.granted, h.released⟩

theorem append (h : Trace P xs m m' es) (h' : Trace P ys m' m'' es') :
    Trace P (xs ++ ys) m m'' (es ++ es') := by
  have hes := accesses_append es es'
  refine ⟨?_, ?_, ?_, h.zeroed.append h'.zeroed, fun c t hc => ?_, fun c b hc => ?_⟩
  · rw [h'.history, h.history, List.append_assoc]
  · rw [hes, Instant.after_append, h.replay, h'.replay]
  · rw [hes]
    exact h.passes.append (h.replay ▸ h'.passes)
  · rcases List.mem_append.1 hc with hc | hc
    · obtain ⟨q, i, f, hx⟩ := h.granted c t hc
      exact ⟨q, i, f, List.mem_append_left ys hx⟩
    · obtain ⟨q, i, f, hx⟩ := h'.granted c t hc
      exact ⟨q, i, f, List.mem_append_right xs hx⟩
  · rcases List.mem_append.1 hc with hc | hc
    · obtain ⟨q, i, hx⟩ := h.released c b hc
      exact ⟨q, i, List.mem_append_left ys hx⟩
    · obtain ⟨q, i, hx⟩ := h'.released c b hc
      exact ⟨q, i, List.mem_append_right xs hx⟩

theorem passes_last (h : Trace P xs m m' es) : P m'.now := h.replay ▸ h.passes.last

theorem unseen (hh : m'.history = m.history ++ es) (hn : m'.now = m.now)
    (hes : ∀ e ∈ es, e.accesses = []) (hP : P m.now) : Trace P [] m m' es := by
  have ha : accesses es = [] := List.flatMap_eq_nil_iff.2 hes
  have hg : ∀ c t, Event.granted c t ∉ es := fun c t hc => by cases hes _ hc
  refine ⟨hh, by rw [ha, hn, Instant.after_nil], by rwa [ha, Instant.passes_nil],
    zeroes_of_not_granted hg, ?_, ?_⟩
  · intro c t hc
    exact absurd hc (hg c t)
  · intro c b hc
    cases hes _ hc

end Trace

theorem now_eq (hm : m'.memory = m.memory) (hh : ∀ t, m'.Holds t ↔ m.Holds t) :
    m'.now = m.now := by
  ext1
  · exact hm
  · ext t
    exact hh t
  · rfl

/-! ## The trace of one edit -/

theorem now_next_granted {m₁ : Machine α} (hs : FrameSource.Honest used m.frames)
    (ha : m.allocate = (some c, m₁)) :
    ∃ contents, m₁.history = m.history ++ [.granted c contents] ∧
      (m.now.next (.granted c contents)).after (Access.zeroing c (List.finRange 512)) =
        (m₁.zero c).now := by
  obtain ⟨-, -, -, hh, -, frames, contents, rfl⟩ := allocate_some hs ha
  refine ⟨contents, history_record _ _, ?_⟩
  rw [Instant.next, now, Instant.after_zeroing_all]
  ext1
  · exact (Memory.setTable_setTable m.memory c contents .empty).symm
  · ext u
    exact (hh u).symm
  · ext ⟨u, j⟩
    simp [now]

theorem now_next_stored {i : Index} {e : Entry} (hm : m'.memory = m.memory.set t i e)
    (hf : m'.frames = m.frames) : m.now.next (.stored t i e) = m'.now := by
  ext1
  · exact hm.symm
  · ext u
    exact (holds_congr hf).symm
  · ext x
    simp [Instant.next, now]

theorem now_next_released (hs : FrameSource.Honest used m.frames) (hc : m.Holds c) :
    m.now.next (.released c) = (m.release c).now := by
  ext1
  · rfl
  · ext u
    exact ((holds_release hs hc).1 u).symm
  · rfl

theorem Owns.safe_now (h : Owns used others root m) :
    m.now.Safe root (m.memory.leaf root) (m.memory.leaf root) where
  out _ _ hp ht := h.holds hp ht
  clean _ _ _ _ _ := id
  leaf := .inl rfl

/-- **A new table is linked** after it was zeroed: until then no walk comes to its frame. -/
theorem Owns.trace_link {m₁ : Machine α} {q : Path} {i : Index} {f : EntryFlags}
    (h : Owns used others root m) (hx : Step root (.link q i c f) m m')
    (request : m.allocate = (some c, m₁)) (hm : m' = (m₁.zero c).write t i (.make c f.asLink)) :
    ∃ contents, Trace (Instant.Safe root (m.memory.leaf root) (m'.memory.leaf root))
      [.link q i c f] m m' [.granted c contents, .zeroed c, .wrote t i (.make c f.asLink)] := by
  obtain ⟨hn, -, -, hh, hs₁, -⟩ := allocate_some h.honest request
  have hfresh := (h.fresh hn (((hh c).2 (.inl rfl)).notMem hs₁)).1
  obtain ⟨contents, hgrant, hzero⟩ := now_next_granted h.honest request
  have hstore : (m₁.zero c).now.next (.stored t i (.make c f.asLink)) = m'.now :=
    now_next_stored (hm ▸ memory_write _ _ _ _) (hm ▸ frames_write _ _ _ _)
  have hold := h.safe_now.ofOld (m'.memory.leaf root)
  have hnew := (h.step hx).1.safe_now.ofNew (m.memory.leaf root)
  have hfresh' : ∀ p, (m.now.next (.granted c contents)).memory.tableAt root p ≠ some c := by
    intro p
    show (m.now.memory.setTable c contents).tableAt root p ≠ some c
    rw [(Instant.tableAt_slot_elsewhere hfresh contents).1]
    exact hfresh p
  have hpass := (hold.granted hfresh contents).zeroing hfresh' (List.finRange 512)
  refine ⟨contents, ?_, ?_, ?_, zeroes_link c t contents i _, ?_, ?_⟩
  · rw [hm, write, history_record]
    show (m₁.record (.zeroed c)).history ++ _ = _
    rw [history_record, hgrant, List.append_assoc, List.append_assoc]
    rfl
  · rw [accesses_link, Instant.after_cons, Instant.after_append, hzero, Instant.after_cons, hstore,
      Instant.after_nil]
  · rw [accesses_link, Instant.passes_cons]
    refine ⟨hold, hpass.append ?_⟩
    rw [hzero, Instant.passes_cons, Instant.passes_nil, hstore]
    exact ⟨hzero ▸ hpass.last, hnew⟩
  · intro c' t' hc
    simp only [List.mem_cons, Event.granted.injEq, reduceCtorEq, List.not_mem_nil, or_false] at hc
    exact ⟨q, i, f, List.mem_singleton.2 (by rw [hc.1])⟩
  · intro c' b hc
    simp at hc

theorem Trace.store {i : Index} {e : Entry} (hh : m'.history = m.history ++ es)
    (hes : accesses es = [.stored t i e]) (hm : m'.memory = m.memory.set t i e)
    (hf : m'.frames = m.frames) (hg : ∀ c t, .granted c t ∉ es) (hr : ∀ c b, .released c b ∉ es)
    (hP : P m.now) (hP' : P m'.now) : Trace P xs m m' es := by
  have hnext := now_next_stored hm hf
  refine ⟨hh, ?_, ?_, zeroes_of_not_granted hg, fun c t hc => absurd hc (hg c t),
    fun c b hc => absurd hc (hr c b)⟩
  · rw [hes]
    exact hnext
  · rw [hes, Instant.passes_cons, Instant.passes_nil, hnext]
    exact ⟨hP, hP'⟩

theorem Trace.release {q : Path} {i : Index} (hs : FrameSource.Honest used m.frames)
    (hc : m.Holds c) (hP : P m.now) (hP' : P (m.release c).now) :
    Trace P [.unlink q i c] m (m.release c) [.released c true] := by
  have hnext := now_next_released hs hc
  refine ⟨?_, hnext, ?_, zeroes_of_not_granted (by simp), by simp, fun c' b hc' => ?_⟩
  · show (m.release c).events.reverse = _
    rw [(holds_release hs hc).2.2]
    exact List.reverse_cons
  · show m.now.Passes P [_]
    rw [Instant.passes_cons, Instant.passes_nil, hnext]
    exact ⟨hP, hP'⟩
  · simp only [List.mem_singleton, Event.released.injEq] at hc'
    exact ⟨q, i, List.mem_singleton.2 (by rw [hc'.1])⟩

theorem trace_notices (notices : List Notice) (hP : P m.now) :
    ∃ es, Trace P [] m (notices.foldl note m) es ∧ ∀ e ∈ es, ∃ n, e = .logged n := by
  obtain ⟨es, hes, hlog⟩ := history_notices notices m
  obtain ⟨hm, hf⟩ := notices_eq notices m
  refine ⟨es, .unseen hes (now_eq hm fun t => holds_congr hf) (fun e he => ?_) hP, hlog⟩
  obtain ⟨n, rfl⟩ := hlog e he
  rfl

/-- **An empty table is unlinked** before its frame goes back. -/
theorem Owns.trace_unlink {q : Path} {i : Index} {notices : List Notice}
    (h : Owns used others root m) (hx : Step root (.unlink q i c) m m')
    (hc : m.Holds c) (hm : m' = (notices.foldl note (m.disable t i)).release c) :
    ∃ es, (∀ e ∈ es, ∃ n, e = .logged n) ∧
      Trace (Instant.Safe root (m.memory.leaf root) (m'.memory.leaf root)) [.unlink q i c] m m'
        ([.interruptsOff, .wrote t i (m.memory.entry t i).disabled, .interruptsOn] ++ es ++
          [.released c true]) := by
  obtain ⟨hmem, hfr⟩ := notices_eq notices (m.disable t i)
  have hc₁ : (notices.foldl note (m.disable t i)).Holds c := (holds_congr hfr).2 hc
  have hs₁ : FrameSource.Honest used (notices.foldl note (m.disable t i)).frames :=
    hfr ▸ h.honest
  have hold := h.safe_now.ofOld (m'.memory.leaf root)
  have hnew := (h.step hx).1.safe_now.ofNew (m.memory.leaf root)
  -- while the frame is still out, the tables are already those of the end
  have hmid : (m.disable t i).now.Safe root (m.memory.leaf root) (m'.memory.leaf root) := by
    have hm' : m'.memory = (m.disable t i).memory := by rw [hm, memory_release, hmem]
    refine ⟨fun p u hp hu => ?_, fun _ _ _ _ _ => id, ?_⟩
    · have hu : m'.Holds u := by
        apply hnew.out p u hp
        show m'.memory.tableAt root p = some u
        rw [hm']
        exact hu
      rw [hm, (holds_release hs₁ hc₁).1] at hu
      exact (holds_congr hfr).1 hu.1
    · exact .inr (congrArg (Memory.leaf · root) hm').symm
  have hstore : Trace _ [] m (m.disable t i) _ :=
    .store (history_disable m t i) rfl rfl rfl (by simp) (by simp) hold hmid
  obtain ⟨es, hnotes, hlog⟩ := trace_notices notices hmid
  subst hm
  exact ⟨es, hlog, (hstore.append hnotes).append (.release hs₁ hc₁ hnotes.passes_last hnew)⟩

/-- **An edit is safe at every instant.** -/
theorem Owns.trace_step (h : Owns used others root m) (hx : Step root x m m') :
    ∃ es, Trace (Instant.Safe root (m.memory.leaf root) (m'.memory.leaf root)) [x] m m' es ∧
      x.Emits root m.memory es := by
  have hold := h.safe_now.ofOld (m'.memory.leaf root)
  have hnew := (h.step hx).1.safe_now.ofNew (m.memory.leaf root)
  have hx' := hx
  cases hx with
  | link f parent above vacant request =>
    obtain ⟨contents, htrace⟩ := h.trace_link hx' request rfl
    exact ⟨_, htrace, .link f contents parent⟩
  | put parent free leaf =>
    exact ⟨_, .store (history_record _ _) rfl rfl rfl (by simp) (by simp) hold hnew, .put parent⟩
  | clear parent leaf =>
    exact ⟨_, .store (history_disable m _ _) rfl rfl rfl (by simp) (by simp) hold hnew,
      .clear parent⟩
  | unlink notices parent child empty =>
    obtain ⟨es, hlog, htrace⟩ := h.trace_unlink hx' (h.holds (List.cons_ne_nil _ _) child) rfl
    exact ⟨_, htrace, .unlink parent hlog⟩

theorem Owns.trace_quiet (h : Owns used others root m) (hq : Quiet m m') (hP : P m.now) :
    ∃ es, Trace P [] m m' es := by
  cases hq with
  | note n => exact (trace_notices [n] hP).imp fun _ h => h.1
  | flush v =>
    have hh : (m.flush v).history = m.history ++ [.flushed v] := history_record m _
    exact ⟨_, .unseen hh rfl (by simp [Event.accesses]) hP⟩
  | refused request =>
    obtain ⟨hh, -, frames, rfl⟩ := allocate_none h.honest request
    exact ⟨_, .unseen (history_record _ _) (now_eq rfl hh) (by simp [Event.accesses]) hP⟩

/-- **Edits of which at most one moves a leaf are safe at every instant.** -/
theorem Owns.trace_steps (h : Owns used others root m) (hx : Steps root xs m m')
    (hl : xs.countP Edit.movesLeaf ≤ 1) :
    ∃ es, Trace (Instant.Safe root (m.memory.leaf root) (m'.memory.leaf root)) xs m m' es := by
  induction hx with
  | refl m => exact ⟨[], .unseen (List.append_nil _).symm rfl nofun h.safe_now⟩
  | quiet first rest ih =>
    obtain ⟨ho, hm⟩ := h.quiet first
    obtain ⟨es', hrest⟩ := ih ho hl
    obtain ⟨es, hfirst⟩ := h.trace_quiet first (h.safe_now.ofOld _)
    rw [hm] at hrest
    exact ⟨es ++ es', hfirst.append hrest⟩
  | @edit x xs m m₁ m' first rest ih =>
    have ho := (h.step first).1
    obtain ⟨es, hfirst, -⟩ := h.trace_step first
    rw [List.countP_cons] at hl
    obtain ⟨es', hrest⟩ := ih ho (by omega)
    have key : Trace (Instant.Safe root (m.memory.leaf root) (m'.memory.leaf root)) [x] m m₁ es ∧
        Trace (Instant.Safe root (m.memory.leaf root) (m'.memory.leaf root)) xs m₁ m' es' := by
      -- a leaf moves with the first edit, or with one of the others
      cases hx : x.movesLeaf with
      | true =>
        rw [hx] at hl
        have hleaf := ho.leaf_steps rest (by simpa using hl)
        rw [← hleaf] at hfirst hrest
        exact ⟨hfirst, hrest.mono fun s hs => hs.ofNew _⟩
      | false =>
        have hleaf := h.leaf_step first hx
        rw [hleaf] at hfirst hrest
        exact ⟨hfirst.mono fun s hs => hs.ofOld _, hrest⟩
    exact ⟨es ++ es', key.1.append key.2⟩

theorem Owns.exists_trace (h : Owns used others root m) (hx : Steps root xs m m') :
    ∃ es, Trace (fun _ => True) xs m m' es := by
  induction hx with
  | refl m => exact ⟨[], .unseen (List.append_nil _).symm rfl nofun trivial⟩
  | quiet first rest ih =>
    obtain ⟨es, hfirst⟩ := h.trace_quiet first (P := fun _ => True) trivial
    obtain ⟨es', hrest⟩ := ih (h.quiet first).1
    exact ⟨es ++ es', hfirst.append hrest⟩
  | edit first rest ih =>
    obtain ⟨es, hfirst, -⟩ := h.trace_step first
    obtain ⟨es', hrest⟩ := ih (h.step first).1
    exact ⟨es ++ es', (hfirst.mono fun _ _ => trivial).append hrest⟩

/-! ## Calls on single pages -/

/-- **A call that is safe at every instant**: after each access of its events `es`, the tables that a
walk can come to are out and hold nothing left over, and all addresses resolve as before the call,
or all as after it. -/
structure SafeThroughout (root : PAddr) (m m' : Machine α) (es : List Event) : Prop where
  history : m'.history = m.history ++ es
  replay : m.now.after (accesses es) = m'.now
  zeroed : Zeroes es
  linked : ∀ as, as <+: accesses es → ∀ p t, p ≠ [] →
    (m.now.after as).memory.tableAt root p = some t →
      t ∈ (m.now.after as).out ∧ ∀ i, (t, i) ∉ (m.now.after as).stale
  -- a leaf that maps the frame at that moment mapped it before the call, so the caller had it so
  released : ∀ as t, as ++ [.released t] <+: accesses es →
    (∀ p, p ≠ [] → (m.now.after as).memory.tableAt root p ≠ some t) ∧
      ∀ p e, (m.now.after as).memory.leaf root p = some e → m.memory.leaf root p = some e
  resolves : ∀ as, as <+: accesses es →
    (∀ v, ((m.now.after as).memory.walk root v).target? = (m.memory.walk root v).target?) ∨
      ∀ v, ((m.now.after as).memory.walk root v).target? = (m'.memory.walk root v).target?

theorem exists_released_of_mem_accesses (h : .released c ∈ accesses es) :
    ∃ b, Event.released c b ∈ es := by
  obtain ⟨e, he, hc⟩ := List.mem_flatMap.1 h
  cases e with
  | released t b =>
    cases List.mem_singleton.1 hc
    exact ⟨b, he⟩
  | zeroed t => simp [Event.accesses, Access.zeroing] at hc
  | _ => simp [Event.accesses] at hc

theorem Owns.safeThroughout (h : Owns used others root m) (hx : Steps root xs m m')
    (hl : xs.countP Edit.movesLeaf ≤ 1)
    (hr : (∀ x ∈ xs, ¬ x.Unlinks) ∨
      ∀ p e, m'.memory.leaf root p = some e → m.memory.leaf root p = some e) :
    ∃ es, SafeThroughout root m m' es := by
  obtain ⟨es, htrace⟩ := h.trace_steps hx hl
  refine ⟨es, htrace.history, htrace.replay, htrace.zeroed, fun as has p t hp ht => ?_,
    fun as t has => ?_, fun as has => ?_⟩
  · have hs := htrace.passes as has
    exact ⟨hs.out p t hp ht, fun i => hs.clean p t i hp ht⟩
  · constructor
    · -- giving the frame back changes no entry, and afterwards no path leads to it
      intro p hp ht
      have hs := htrace.passes _ has
      rw [Instant.after_append] at hs
      exact (hs.out p t hp ht).2 rfl
    · obtain ⟨b, hb⟩ := exists_released_of_mem_accesses
        (has.subset (List.mem_append_right as (List.mem_singleton_self _)))
      obtain ⟨q, i, hu⟩ := htrace.released t b hb
      have hkept := hr.resolve_left fun hn => hn _ hu ⟨q, i, t, rfl⟩
      have hs := htrace.passes as ((List.prefix_append as _).trans has)
      intro p e he
      rcases hs.leaf with hs | hs
      · rwa [hs] at he
      · rw [hs] at he
        exact hkept p e he
  · rcases (htrace.passes as has).leaf with hs | hs
    · exact .inl fun v => Memory.target?_walk_congr fun k _ => congrFun hs _
    · exact .inr fun v => Memory.target?_walk_congr fun k _ => congrFun hs _

theorem Owns.safeThroughout_writeLeaf {leaf : Level} {p : PAddr} {f : EntryFlags}
    (h : Owns used others root m)
    (hf : (Entry.make p f).isPresent = true ∧ (Entry.make p f).isLeafAt leaf = true) :
    ∃ es, SafeThroughout root m (m.writeLeaf root p v leaf f).2 es := by
  rcases hrun : m.writeLeaf root p v leaf f with ⟨_ | _, m'⟩
  · obtain ⟨xs, ys, m₁, hx, hlinks, hy, hunlinks⟩ := h.synced_writeLeaf_error (V := .univ) hrun
    refine h.safeThroughout (hx.append hy).steps ?_ (.inr fun p e he => ?_)
    · rw [List.countP_append, Edit.countP_of_linksOn hlinks, Edit.countP_of_unlinks hunlinks]
      exact Nat.zero_le 1
    · rwa [Memory.leaf, (h.writeLeaf_error hrun).2] at he
  · obtain ⟨xs, m₁, m₂, hx, hlinks, -, -, hput⟩ :=
      h.synced_writeLeaf_ok (V := .univ) (Set.mem_univ v) hf hrun
    refine h.safeThroughout (hx.append hput).steps ?_ (.inl fun x hxs => ?_)
    · rw [List.countP_append, Edit.countP_of_linksOn hlinks]
      exact Nat.le_refl 1
    · rcases List.mem_append.1 hxs with hxs | hxs
      · exact (hlinks x hxs).not_unlinks
      · rintro ⟨q, i, c, rfl⟩
        cases List.mem_singleton.1 hxs

/-- **Calls on single pages are safe at every instant**, whatever their answer. -/
theorem WellFormed.safe_throughout (h : WellFormed used root m) (w : Widths) :
    (∀ p v a, ∃ es, SafeThroughout root m (m.mapPage w root p v a).2 es) ∧
    (∀ p v a, ∃ es, SafeThroughout root m (m.mapLarge w root p v a).2 es) ∧
    ∀ v, ∃ es, SafeThroughout root m (m.unmapPage root v) es := by
  have ho := h.owns
  have idle : ∃ es, SafeThroughout root m m es :=
    ho.safeThroughout (.refl m) (Nat.zero_le 1) (.inl nofun)
  refine ⟨fun p v a => ?_, fun p v a => ?_, fun v => ?_⟩
  · unfold mapPage
    split
    · exact idle
    · exact ho.safeThroughout_writeLeaf (Entry.isLeafAt_make_asLeaf p _)
  · unfold mapLarge
    split
    · exact idle
    · exact ho.safeThroughout_writeLeaf (Entry.isLeafAt_make_enlarged p _)
  · obtain ⟨xs, ys, hx, hclear, hunlinks⟩ := ho.synced_unmapPage (V := .univ) (Set.mem_univ v)
    refine ho.safeThroughout hx.steps ?_ (.inr fun p e he => ?_)
    · rw [List.countP_append, Edit.countP_of_unlinks hunlinks]
      rcases hclear with rfl | ⟨q, i, rfl⟩
      · exact Nat.zero_le 1
      · exact Nat.le_refl 1
    · exact leafIn_of_le (fun _ _ => (ho.unmapPage v).2.slot_of_some) he

theorem safe_throughout_first_page :
    (∃ es, SafeThroughout ⟨0x1000⟩ (unmapped ⟨0x1000⟩ 8)
      ((unmapped ⟨0x1000⟩ 8).mapPage .assumed ⟨0x1000⟩ ⟨0x9000⟩ ⟨0x5000⟩ ∅).2 es) ∧
    ∃ es, SafeThroughout ⟨0x1000⟩
      ((unmapped ⟨0x1000⟩ 8).mapPage .assumed ⟨0x1000⟩ ⟨0x9000⟩ ⟨0x5000⟩ ∅).2
      (((unmapped ⟨0x1000⟩ 8).mapPage .assumed ⟨0x1000⟩ ⟨0x9000⟩ ⟨0x5000⟩ ∅).2.unmapPage
        ⟨0x1000⟩ ⟨0x5000⟩) es := by
  have h : Owns _ ∅ ⟨0x1000⟩ (unmapped ⟨0x1000⟩ 8) := owns_unmapped rfl (by decide) (by decide)
  have hok : ((unmapped ⟨0x1000⟩ 8).mapPage .assumed ⟨0x1000⟩ ⟨0x9000⟩ ⟨0x5000⟩ ∅).1 = .ok () := by
    decide +kernel
  have h' := (h.mapPage_ok (Prod.fst_eq_iff.1 hok)).1.owns
  exact ⟨(h.wellFormed.safe_throughout .assumed).1 _ _ _,
    (h'.wellFormed.safe_throughout .assumed).2.2 _⟩

end Machine

end VirtualMemory
