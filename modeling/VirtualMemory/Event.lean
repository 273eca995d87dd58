import VirtualMemory.Notice
import VirtualMemory.Table

/-!
# Events

What a call does to the machine, step by step: its dealings with the frame source, its writes to
memory, its use of the processor and its notices.
-/

namespace VirtualMemory

/-- **One step of a call.** -/
inductive Event where
  | granted (frame : PAddr) (contents : Table)
  | refused
  /-- A frame went back to the source; `held` tells whether the source had given it out. -/
  | released (frame : PAddr) (held : Bool)
  | zeroed (table : PAddr)
  | wrote (table : PAddr) (index : Index) (entry : Entry)
  | interruptsOff
  | interruptsOn
  /-- The processor forgot what it knew of the page at `v`. -/
  | flushed (v : VAddr)
  | wroteCr0 (value : Cr0)
  | wroteCr3 (root : PAddr)
  | wroteCr4 (value : Cr4)
  | wroteEfer (value : Efer)
  | logged (notice : Notice)
deriving DecidableEq

/-- The event as an observer of the source and the processor sees it. Writes to memory show in the
memory. -/
def Event.text? : Event → Option String
  | granted frame _ => some s!"alloc {frame.text}"
  | refused => some "alloc none"
  | released frame true => some s!"free {frame.text}"
  | released frame false => some s!"badfree {frame.text}"
  | zeroed _ | wrote .. => none
  | interruptsOff => some "cli"
  | interruptsOn => some "sti"
  | flushed v => some s!"flush {v.text}"
  | wroteCr0 value => some s!"cr0={Hex.text value.bits}"
  | wroteCr3 root => some s!"cr3={root.text}"
  | wroteCr4 value => some s!"cr4={Hex.text value.bits}"
  | wroteEfer value => some s!"efer={Hex.text value.bits}"
  | logged notice => some s!"log {notice.line.render}"

end VirtualMemory
