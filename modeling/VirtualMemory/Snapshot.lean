import VirtualMemory.FramePool
import VirtualMemory.Machine

/-!
# Snapshots

What an observer can tell of a machine with a pool of frames between two moments: the events in
between, and the words that have changed in the frames in use.
-/

namespace VirtualMemory

/-- **A machine at one moment**: its memory, and the frames in use. -/
structure Snapshot where
  memory : Memory
  frames : List (Frame .kib4)

namespace Snapshot

def of (m : Machine FramePool) : Snapshot := ⟨m.memory, m.frames.visible⟩

/-- The words in which two tables at `a` differ, with their new values. -/
def changedWords (a : PAddr) (old new : Table) : List (PAddr × Entry) :=
  (List.finRange 512).filterMap fun i =>
    if old.get i = new.get i then none
    else some (a + BitVec.ofNat 64 (8 * i.val), new.get i)

/-- What a frame held at an earlier moment, as far as the observer could know: a frame not in use
then, or given out since, counts as zero. -/
def known (before : Snapshot) (events : List Event) (f : Frame .kib4) : Table :=
  let regiven := events.any fun
    | .granted frame _ => frame = f.start
    | _ => false
  if before.frames.contains f && !regiven then before.memory.table f.start else .empty

/-- **The words that have changed** in the frames in use, by ascending addresses. The argument
`events` holds what has happened since `before`. -/
def changes (before : Snapshot) (events : List Event) (m : Machine FramePool) :
    List (PAddr × Entry) :=
  let frames := m.frames.visible.mergeSort fun f g => f.start.bits ≤ g.start.bits
  frames.flatMap fun f =>
    changedWords f.start (before.known events f) (m.memory.table f.start)

end Snapshot

end VirtualMemory
