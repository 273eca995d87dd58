import VirtualMemory.Event
import VirtualMemory.FrameSource
import VirtualMemory.Memory

/-!
# The machine

The machine that calls run on: memory, a source of frames, a processor and a log. A call is a
function from machines to machines, built from the steps of this module. Each step adds its event.

* `Machine`, with its events, the latest first; `Machine.history` has them in order;
* steps on memory: `write`, `zero`, and `disable`, which shuts interrupts out;
* steps on the source: `allocate`, `release`;
* steps on the processor and the log: `flush`, `setCr0`, …, `note`;
* `memory_write`, `frames_release`, `history_disable` and their like say what each step does to
  memory, frames and events.
-/

namespace VirtualMemory

/-- **The machine**, with frames from a source of the type `α`. -/
structure Machine (α : Type) where
  memory : Memory
  frames : α
  registers : Registers
  cpuid : Cpuid
  logLimit : Severity
  /-- What has happened, the latest first. -/
  events : List Event := []

namespace Machine

variable {α : Type} (m : Machine α)

def history : List Event := m.events.reverse

def record (e : Event) : Machine α := { m with events := e :: m.events }

/-! ## Log -/

/-- Shows a notice in the log, unless the limit hides it. -/
def note (n : Notice) : Machine α :=
  if n.severity.shownUnder m.logLimit then m.record (.logged n) else m

/-! ## Memory -/

def entry (table : PAddr) (i : Index) : Entry := m.memory.entry table i

def write (table : PAddr) (i : Index) (e : Entry) : Machine α :=
  { m with memory := m.memory.set table i e }.record (.wrote table i e)

def zero (table : PAddr) : Machine α :=
  { m with memory := m.memory.setTable table .empty }.record (.zeroed table)

/-! ## Processor -/

/-- Makes the processor forget what it knows of the page at `v`. -/
def flush (v : VAddr) : Machine α := m.record (.flushed v)

def uninterrupted (step : Machine α → Machine α) : Machine α :=
  (step (m.record .interruptsOff)).record .interruptsOn

/-- **Takes an entry out of use**, keeping its other bits. Interrupts are shut out, so that no
handler sees the entry half changed. -/
def disable (table : PAddr) (i : Index) : Machine α :=
  m.uninterrupted fun m => m.write table i (m.entry table i).disabled

def setCr0 (value : Cr0) : Machine α :=
  { m with registers.cr0 := value }.record (.wroteCr0 value)

/-- Loads CR3, the root of the current hierarchy. -/
def setCr3 (root : PAddr) : Machine α :=
  { m with registers.cr3 := root }.record (.wroteCr3 root)

def setCr4 (value : Cr4) : Machine α :=
  { m with registers.cr4 := value }.record (.wroteCr4 value)

def setEfer (value : Efer) : Machine α :=
  { m with registers.efer := value }.record (.wroteEfer value)

/-! ## Frames -/

variable [FrameSource α]

def held : List (Frame .kib4) := FrameSource.held m.frames

/-- **Asks the source for a frame**, which may hold anything. -/
def allocate : Option PAddr × Machine α :=
  match FrameSource.allocate m.frames with
  | (none, frames) => (none, { m with frames }.record .refused)
  | (some (frame, contents), frames) =>
    let memory := m.memory.setTable frame.start contents
    (some frame.start, { m with frames, memory }.record (.granted frame.start contents))

/-- **Gives the frame of a table back.** -/
def release (table : PAddr) : Machine α :=
  let frame := Block.containing table
  { m with frames := FrameSource.release frame m.frames }.record
    (.released frame.start (m.held.contains frame))

/-! ## What a step changes -/

section Memory

variable (table : PAddr) (i : Index) (e : Entry) (v : VAddr) (n : Notice)

omit [FrameSource α]

@[simp] theorem memory_record (e : Event) : (m.record e).memory = m.memory := rfl
@[simp] theorem memory_write : (m.write table i e).memory = m.memory.set table i e := rfl
@[simp] theorem memory_zero : (m.zero table).memory = m.memory.setTable table .empty := rfl
@[simp] theorem memory_flush : (m.flush v).memory = m.memory := rfl
@[simp] theorem memory_disable :
    (m.disable table i).memory = m.memory.set table i (m.entry table i).disabled := rfl
@[simp] theorem memory_note : (m.note n).memory = m.memory := by unfold note; split <;> rfl
@[simp] theorem memory_release [FrameSource α] : (m.release table).memory = m.memory := rfl

end Memory

section Frames

variable (table : PAddr) (i : Index) (e : Entry) (v : VAddr) (n : Notice)

omit [FrameSource α]

@[simp] theorem frames_record (e : Event) : (m.record e).frames = m.frames := rfl
@[simp] theorem frames_write : (m.write table i e).frames = m.frames := rfl
@[simp] theorem frames_zero : (m.zero table).frames = m.frames := rfl
@[simp] theorem frames_flush : (m.flush v).frames = m.frames := rfl
@[simp] theorem frames_disable : (m.disable table i).frames = m.frames := rfl
@[simp] theorem frames_note : (m.note n).frames = m.frames := by unfold note; split <;> rfl
@[simp] theorem frames_release [FrameSource α] :
    (m.release table).frames = FrameSource.release (.containing table) m.frames := rfl

theorem notices_eq (xs : List Notice) (m : Machine α) :
    (xs.foldl note m).memory = m.memory ∧ (xs.foldl note m).frames = m.frames := by
  induction xs generalizing m with
  | nil => exact ⟨rfl, rfl⟩
  | cons x xs ih =>
    rw [List.foldl_cons, (ih _).1, (ih _).2, memory_note, frames_note]
    exact ⟨rfl, rfl⟩

end Frames

section History

omit [FrameSource α]

theorem history_record (e : Event) : (m.record e).history = m.history ++ [e] := List.reverse_cons

theorem history_write (table : PAddr) (i : Index) (e : Entry) :
    (m.write table i e).history = m.history ++ [.wrote table i e] := List.reverse_cons

theorem history_zero (table : PAddr) : (m.zero table).history = m.history ++ [.zeroed table] :=
  List.reverse_cons

theorem history_disable (table : PAddr) (i : Index) : (m.disable table i).history =
    m.history ++ [.interruptsOff, .wrote table i (m.entry table i).disabled, .interruptsOn] := by
  simp [disable, uninterrupted, write, history, record, entry]

theorem history_notices (ns : List Notice) (m : Machine α) :
    ∃ es, (ns.foldl note m).history = m.history ++ es ∧ ∀ e ∈ es, ∃ n, e = .logged n := by
  induction ns generalizing m with
  | nil => exact ⟨[], (List.append_nil _).symm, nofun⟩
  | cons n ns ih =>
    obtain ⟨es, he, hl⟩ := ih (m.note n)
    rw [List.foldl_cons, he, note]
    split
    · refine ⟨.logged n :: es, ?_, List.forall_mem_cons.2 ⟨⟨n, rfl⟩, hl⟩⟩
      rw [history_record, List.append_assoc]; rfl
    · exact ⟨es, rfl, hl⟩

end History

end Machine

end VirtualMemory
