import VirtualMemory.Table

/-!
# Sources of frames

Tables are made in frames that a source gives out and later takes back. The source may fail at any
time, and a frame may arrive with any contents.
-/

namespace VirtualMemory

/-- **A source of frames for tables.** -/
class FrameSource (α : Type) where
  /-- Asks for a frame. A granted one comes with what it holds. -/
  allocate : α → Option (Frame .kib4 × Table) × α
  release : Frame .kib4 → α → α
  /-- The frames given out and not taken back. -/
  held : α → List (Frame .kib4)

end VirtualMemory
