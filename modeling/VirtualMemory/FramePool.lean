import VirtualMemory.FrameSource

/-!
# A pool of frames

A source over the frames of one region. The first frames are pinned and never given out. Frames
given back are given out again before new ones, the latest first; a budget may end the supply early.
A frame arrives with all its bits set.

* `FramePool`, an instance of `FrameSource`;
* `FramePool.pinnedFrames`, `FramePool.visible`.
-/

namespace VirtualMemory

/-- **A pool of frames** from the address `base` on. -/
structure FramePool where
  base : PAddr
  size : Nat
  /-- The number of frames at the start that are never given out. -/
  pinned : Nat
  /-- The number of frames from the start that are pinned or were given out at some time. -/
  used : Nat := pinned
  /-- The frames given back, the latest first. -/
  returned : List (Frame .kib4) := []
  /-- The frames given out and not taken back. -/
  held : List (Frame .kib4) := []
  /-- The number of frames still allowed to go out, if that is limited. -/
  budget : Option Nat := none
deriving DecidableEq

namespace FramePool

def frame (pool : FramePool) (i : Nat) : Frame .kib4 := .containing (pool.base.addPages i)

def pinnedFrames (pool : FramePool) : List (Frame .kib4) := (List.range pool.pinned).map pool.frame

/-- The frames in use: pinned or given out. -/
def visible (pool : FramePool) : List (Frame .kib4) := pool.pinnedFrames ++ pool.held

def stale : Table := .filled ⟨BitVec.allOnes 64⟩

def give (pool : FramePool) (f : Frame .kib4) : Option (Frame .kib4 × Table) × FramePool :=
  (some (f, stale), { pool with held := f :: pool.held, budget := pool.budget.map (· - 1) })

/-- Asks for a frame: the one given back last, or else the next new one. -/
def allocate (pool : FramePool) : Option (Frame .kib4 × Table) × FramePool :=
  if pool.budget = some 0 then (none, pool)
  else
    match pool.returned with
    | f :: rest => give { pool with returned := rest } f
    | [] =>
      if pool.used < pool.size then give { pool with used := pool.used + 1 } (pool.frame pool.used)
      else (none, pool)

/-- Takes a frame back. A frame that was not given out is ignored. -/
def release (f : Frame .kib4) (pool : FramePool) : FramePool :=
  if pool.held.contains f then
    { pool with held := pool.held.erase f, returned := f :: pool.returned }
  else pool

instance : FrameSource FramePool where
  allocate := allocate
  release := release
  held := held

end FramePool

end VirtualMemory
