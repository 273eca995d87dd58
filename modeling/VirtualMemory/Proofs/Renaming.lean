import VirtualMemory.Proofs.EntryBits
import VirtualMemory.Proofs.Source

/-!
# Frames under other names

Two machines may do the same with different frames. A renaming tells which frame of the one stands
for which of the other, as long as both are in use.

* `Renaming`, `Renaming.OneToOne`;
* `Entry.Agree`: what two entries have in common that play the same part;
* **`InStep`**: two sequences of events that are the same up to a renaming, which changes as frames
  come and go;
* **`FrameSource.InPace`**: two sources that grant and refuse at the same requests, with pools that
  have room for equally many frames as an example (`FramePool.inPace`).
-/

namespace VirtualMemory

/-- **A renaming of frames**: the name that a frame of one machine has in another, if it has one. -/
abbrev Renaming := PAddr → Option PAddr

namespace Renaming

variable {ρ : Renaming} {c c' : PAddr}

def OneToOne (ρ : Renaming) : Prop := ∀ t u c, ρ t = some c → ρ u = some c → t = u

theorem OneToOne.insert (h : ρ.OneToOne) (hc : ∀ t, ρ t ≠ some c') :
    OneToOne (Function.update ρ c (some c')) := by
  intro t u d ht hu
  rw [Function.update_apply] at ht hu
  split at ht <;> split at hu
  · simp_all
  · cases ht
    exact absurd hu (hc u)
  · cases hu
    exact absurd ht (hc t)
  · exact h t u d ht hu

theorem OneToOne.erase (h : ρ.OneToOne) : OneToOne (Function.update ρ c none) := by
  intro t u d ht hu
  rw [Function.update_apply] at ht hu
  split at ht <;> split at hu
  · cases ht
  · cases ht
  · cases hu
  · exact h t u d ht hu

/-- The renaming of one frame. -/
def single (c c' : PAddr) : Renaming := Function.update (fun _ => none) c (some c')

theorem single_eq_some_iff {t t' : PAddr} : single c c' t = some t' ↔ t = c ∧ t' = c' := by
  by_cases h : t = c <;> simp [single, h, eq_comm]

theorem oneToOne_single : (single c c').OneToOne := fun _ _ _ ht hu =>
  (single_eq_some_iff.1 ht).1.trans (single_eq_some_iff.1 hu).1.symm

end Renaming

/-! ## Entries -/

namespace Entry

/-- **Two entries agree** at a level, up to the names of frames: neither is in use, or they are the
same leaf, or they link a frame and its namesake and have the same bits outside the address field. -/
inductive Agree (ρ : Renaming) (l : Level) (e e' : Entry) : Prop where
  | absent (left : e.role l = .absent) (right : e'.role l = .absent)
  | leaf (left : e.role l = .leaf) (same : e' = e)
  | link {c c' : PAddr} (left : e.role l = .link c) (right : e'.role l = .link c')
      (named : ρ c = some c') (same : e'.bits &&& ~~~addressMask = e.bits &&& ~~~addressMask)

variable {ρ ρ' : Renaming} {l : Level} {e e' : Entry} {c c' : PAddr} {f : EntryFlags}

namespace Agree

theorem congr (h : Agree ρ l e e') (hc : ∀ c, e.role l = .link c → ρ' c = ρ c) :
    Agree ρ' l e e' := by
  cases h with
  | absent left right => exact .absent left right
  | leaf left same => exact .leaf left same
  | link left right named same => exact .link left right ((hc _ left).trans named) same

theorem of_not_isPresent (h : e.isPresent = false) (h' : e'.isPresent = false) :
    Agree ρ l e e' :=
  .absent ((role_eq_absent_iff l e).2 h) ((role_eq_absent_iff l e').2 h')

theorem disabled (l : Level) (e e' : Entry) : Agree ρ l e.disabled e'.disabled :=
  .of_not_isPresent (isPresent_disabled e) (isPresent_disabled e')

/-- **Entries that agree are in use together.** -/
theorem isPresent_eq (h : Agree ρ l e e') : e'.isPresent = e.isPresent := by
  have hiff : e'.isPresent = false ↔ e.isPresent = false := by
    rw [← role_eq_absent_iff l, ← role_eq_absent_iff l]
    cases h with
    | absent left right => simp [left, right]
    | leaf left same => rw [same]
    | link left right => simp [left, right]
  cases he : e.isPresent <;> simp_all

/-- **The entries made for a table and its namesake agree.** -/
theorem make_asLink (hc : c.Nameable) (hc' : c'.Nameable) (hl : l ≠ .pt) (hρ : ρ c = some c') :
    Agree ρ l (make c f.asLink) (make c' f.asLink) := by
  have hout : ∀ a : PAddr, (make a f.asLink).bits &&& ~~~addressMask =
      f.asLink.bits &&& ~~~addressMask := by
    intro a
    rw [make, BitVec.and_or_distrib_right, BitVec.and_assoc]
    simp
  exact .link (link?_eq_some_iff.1 (link?_make_asLink hc f hl))
    (link?_eq_some_iff.1 (link?_make_asLink hc' f hl)) hρ ((hout c').trans (hout c).symm)

end Agree

end Entry

/-! ## Events -/

/-- Events that show no frame and are no notices: they are the same on both sides. -/
def Event.Plain : Event → Prop
  | refused | interruptsOff | interruptsOn | flushed _ => True
  | _ => False

/-- **Two sequences of events in step**, from one renaming to another: the same but for names and
notices. A frame gets its name when it is granted, and loses it when it is given back. -/
inductive InStep : Renaming → List Event → List Event → Renaming → Prop where
  | done (ρ : Renaming) : InStep ρ [] [] ρ
  | noticed {ρ ρ' : Renaming} {es es' : List Event} (n : Notice) (rest : InStep ρ es es' ρ') :
      InStep ρ (.logged n :: es) es' ρ'
  | noticed' {ρ ρ' : Renaming} {es es' : List Event} (n : Notice) (rest : InStep ρ es es' ρ') :
      InStep ρ es (.logged n :: es') ρ'
  | same {ρ ρ' : Renaming} {es es' : List Event} {e : Event} (plain : e.Plain)
      (rest : InStep ρ es es' ρ') : InStep ρ (e :: es) (e :: es') ρ'
  | granted {ρ ρ' : Renaming} {es es' : List Event} {c c' : PAddr} (contents contents' : Table)
      (free : ρ c = none) (free' : ∀ t, ρ t ≠ some c')
      (rest : InStep (Function.update ρ c (some c')) es es' ρ') :
      InStep ρ (.granted c contents :: es) (.granted c' contents' :: es') ρ'
  | released {ρ ρ' : Renaming} {es es' : List Event} {c c' : PAddr} (named : ρ c = some c')
      (rest : InStep (Function.update ρ c none) es es' ρ') :
      InStep ρ (.released c true :: es) (.released c' true :: es') ρ'
  | zeroed {ρ ρ' : Renaming} {es es' : List Event} {t t' : PAddr} (named : ρ t = some t')
      (rest : InStep ρ es es' ρ') : InStep ρ (.zeroed t :: es) (.zeroed t' :: es') ρ'
  | wrote {ρ ρ' : Renaming} {es es' : List Event} {t t' : PAddr} {e e' : Entry} {l : Level}
      (i : Index) (named : ρ t = some t') (agree : Entry.Agree ρ l e e') (rest : InStep ρ es es' ρ') :
      InStep ρ (.wrote t i e :: es) (.wrote t' i e' :: es') ρ'

namespace InStep

variable {ρ ρ' ρ'' : Renaming} {es es' fs fs' : List Event}

theorem trans (h : InStep ρ es es' ρ') (h' : InStep ρ' fs fs' ρ'') :
    InStep ρ (es ++ fs) (es' ++ fs') ρ'' := by
  induction h with
  | done => exact h'
  | noticed n _ ih => exact .noticed n (ih h')
  | noticed' n _ ih => exact .noticed' n (ih h')
  | same plain _ ih => exact .same plain (ih h')
  | granted contents contents' free free' _ ih =>
    exact .granted contents contents' free free' (ih h')
  | released named _ ih => exact .released named (ih h')
  | zeroed named _ ih => exact .zeroed named (ih h')
  | wrote i named agree _ ih => exact .wrote i named agree (ih h')

theorem of_notices (h : ∀ e ∈ es, ∃ n, e = .logged n) (h' : ∀ e ∈ es', ∃ n, e = .logged n) :
    InStep ρ es es' ρ := by
  induction es with
  | nil =>
    induction es' with
    | nil => exact .done ρ
    | cons e es' ih =>
      obtain ⟨⟨n, rfl⟩, hrest⟩ := List.forall_mem_cons.1 h'
      exact .noticed' n (ih hrest)
  | cons e es ih =>
    obtain ⟨⟨n, rfl⟩, hrest⟩ := List.forall_mem_cons.1 h
    exact .noticed n (ih hrest)

end InStep

/-! ## Sources -/

namespace FrameSource

variable {α β : Type} [FrameSource α] [FrameSource β]

/-- What two sources owe each other if the relation `I` is to last. -/
structure Paced (I : Renaming → α → β → Prop) (ρ : Renaming) (s : α) (s' : β) : Prop where
  grant : ∀ f contents s₁, allocate s = (some (f, contents), s₁) →
    ∃ f' contents' s₁', allocate s' = (some (f', contents'), s₁') ∧
      I (Function.update ρ f.start (some f'.start)) s₁ s₁'
  refuse : ∀ s₁, allocate s = (none, s₁) → ∃ s₁', allocate s' = (none, s₁') ∧ I ρ s₁ s₁'
  takeBack : ∀ f ∈ held s, ∀ f' ∈ held s', ρ f.start = some f'.start →
    I (Function.update ρ f.start none) (release f s) (release f' s')

/-- **Two sources that grant and refuse at the same requests**, whatever is asked of them, as long
as frames given back on one side are namesakes of those given back on the other. -/
def InPace (ρ : Renaming) (s : α) (s' : β) : Prop :=
  ∃ I : Renaming → α → β → Prop, I ρ s s' ∧ ∀ ρ s s', I ρ s s' → Paced I ρ s s'

end FrameSource

namespace Machine

variable {α β : Type} [FrameSource α] [FrameSource β] {m m₁ : Machine α} {m' : Machine β}
  {ρ : Renaming} {c c' : PAddr}

theorem exists_allocate_some (h : FrameSource.InPace ρ m.frames m'.frames)
    (ha : m.allocate = (some c, m₁)) : ∃ c' m₁', m'.allocate = (some c', m₁') ∧
      FrameSource.InPace (Function.update ρ c (some c')) m₁.frames m₁'.frames := by
  obtain ⟨I, hI, hk⟩ := h
  unfold allocate at ha
  split at ha
  · cases ha
  · rename_i f contents s₁ hf
    cases ha
    obtain ⟨f', contents', s₁', hf', hI'⟩ := (hk _ _ _ hI).grant f contents s₁ hf
    rw [allocate, hf']
    exact ⟨_, _, rfl, I, hI', hk⟩

theorem exists_allocate_none (h : FrameSource.InPace ρ m.frames m'.frames)
    (ha : m.allocate = (none, m₁)) : ∃ m₁', m'.allocate = (none, m₁') ∧
      FrameSource.InPace ρ m₁.frames m₁'.frames := by
  obtain ⟨I, hI, hk⟩ := h
  unfold allocate at ha
  split at ha
  · rename_i s₁ hf
    cases ha
    obtain ⟨s₁', hf', hI'⟩ := (hk _ _ _ hI).refuse s₁ hf
    rw [allocate, hf']
    exact ⟨_, rfl, I, hI', hk⟩
  · cases ha

theorem inPace_release (h : FrameSource.InPace ρ m.frames m'.frames) (hc : m.Holds c)
    (hc' : m'.Holds c') (hρ : ρ c = some c') :
    FrameSource.InPace (Function.update ρ c none) (m.release c).frames (m'.release c').frames := by
  obtain ⟨I, hI, hk⟩ := h
  obtain ⟨f, hf, rfl⟩ := hc
  obtain ⟨f', hf', rfl⟩ := hc'
  rw [frames_release, frames_release, f.containing_start, f'.containing_start]
  exact ⟨I, (hk _ _ _ hI).takeBack f hf f' hf' hρ, hk⟩

end Machine

namespace FramePool

variable {pool pool' : FramePool}

/-- The number of frames that a pool has to give out, its budget aside. -/
def room (pool : FramePool) : Nat := pool.returned.length + (pool.size - pool.used)

theorem allocate_eq_none_iff :
    (pool.allocate).1 = none ↔ pool.budget = some 0 ∨ pool.room = 0 := by
  unfold allocate room
  split
  · simp_all
  · cases hr : pool.returned with
    | cons f rest => simp_all [give]
    | nil =>
      simp only [List.length_nil]
      split
      · simp_all [give]; omega
      · simp_all

theorem budget_room_allocate {f : Frame .kib4} {contents : Table} {pool₁ : FramePool}
    (ha : pool.allocate = (some (f, contents), pool₁)) :
    pool₁.budget = pool.budget.map (· - 1) ∧ pool₁.room = pool.room - 1 := by
  unfold allocate at ha
  split at ha
  · cases ha
  split at ha
  · rename_i f rest hr
    cases ha
    exact ⟨rfl, by simp only [room, hr, List.length_cons]; omega⟩
  · split at ha <;> cases ha
    exact ⟨rfl, by simp only [room]; omega⟩

theorem budget_room_release {f : Frame .kib4} (hf : f ∈ pool.held) :
    (pool.release f).budget = pool.budget ∧ (pool.release f).room = pool.room + 1 := by
  rw [release, if_pos (List.contains_iff_mem.2 hf)]
  exact ⟨rfl, by simp only [room, List.length_cons]; omega⟩

/-- **Pools with the same budget and room for equally many frames are in pace.** -/
theorem inPace (hb : pool'.budget = pool.budget) (hr : pool'.room = pool.room) (ρ : Renaming) :
    FrameSource.InPace ρ pool pool' := by
  refine ⟨fun _ p p' => p'.budget = p.budget ∧ p'.room = p.room, ⟨hb, hr⟩, ?_⟩
  rintro ρ p p' ⟨hb, hr⟩
  have hiff : (p'.allocate).1 = none ↔ (p.allocate).1 = none := by
    rw [allocate_eq_none_iff, allocate_eq_none_iff, hb, hr]
  constructor
  · intro f contents p₁ ha
    change p.allocate = _ at ha
    rcases ha' : p'.allocate with ⟨_ | ⟨f', contents'⟩, p₁'⟩
    · simp [ha, ha'] at hiff
    · obtain ⟨hb₁, hr₁⟩ := budget_room_allocate ha
      obtain ⟨hb₁', hr₁'⟩ := budget_room_allocate ha'
      exact ⟨f', contents', p₁', ha', by rw [hb₁, hb₁', hb], by rw [hr₁, hr₁', hr]⟩
  · intro p₁ ha
    change p.allocate = _ at ha
    rcases ha' : p'.allocate with ⟨_ | ⟨f', contents'⟩, p₁'⟩
    · obtain rfl := Sound.allocate_none ha
      obtain rfl := Sound.allocate_none ha'
      exact ⟨p₁', ha', hb, hr⟩
    · simp [ha, ha'] at hiff
  · intro f hf f' hf' _
    obtain ⟨hb₁, hr₁⟩ := budget_room_release hf
    obtain ⟨hb₁', hr₁'⟩ := budget_room_release hf'
    exact ⟨(hb₁'.trans hb).trans hb₁.symm, (hr₁'.trans (congrArg (· + 1) hr)).trans hr₁.symm⟩

end FramePool

end VirtualMemory
