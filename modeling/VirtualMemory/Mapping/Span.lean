import VirtualMemory.Mapping.Build
import VirtualMemory.Mapping.Remove

/-!
# Mapping a span

A span of physical memory is mapped page by page. If one page fails, the pages mapped before it are
removed again.

* `Span`, `Span.ofPages?`, `Span.pages`;
* `Machine.mapSpan`, with its loop `mapSpanFrom`; `Machine.unwind` removes what it has mapped.
-/

namespace VirtualMemory

/-- **A span to map**: `size` bytes of memory at `phys`, to show at `virt`. -/
structure Span where
  virt : VAddr
  phys : PAddr
  size : BitVec 64
deriving DecidableEq

namespace Span

/-- The span of `count` pages, if its length in bytes is a word. -/
def ofPages? (virt : VAddr) (phys : PAddr) (count : Nat) : Option Span :=
  if count * 4096 < 1 <<< 64 then some ⟨virt, phys, BitVec.ofNat 64 (count * 4096)⟩ else none

/-- The number of 4 KiB pages that the span touches, when it starts at a page. -/
def pages (s : Span) : Nat :=
  let whole := s.size / 4096
  (if s.size % 4096 = 0 then whole else whole + 1).toNat

def describe (s : Span) : String :=
  recordText "MapRange" [
    ("vaddr", s.virt.describe),
    ("paddr", s.phys.describe),
    ("size", toString s.size.toNat)]

end Span

namespace Machine

variable {α : Type} [FrameSource α]

def unwind (root : PAddr) (v : VAddr) (count : Nat) (m : Machine α) : Machine α :=
  Nat.fold count (fun i _ m => m.unmapPage root (v.addPages i)) m

/-- Maps the pages of a span from the number `i` on, `left` of them. If one fails, the pages before
it are removed. -/
def mapSpanFrom (w : Widths) (root : PAddr) (s : Span) (a : Attributes) (left i : Nat)
    (m : Machine α) : Except MapError Unit × Machine α :=
  match left with
  | 0 => (.ok (), m)
  | left + 1 =>
    match m.mapPage w root (s.phys.addPages i) (s.virt.addPages i) a with
    | (.ok (), m) => mapSpanFrom w root s a left (i + 1) m
    | (.error e, m) =>
      (.error e, (m.note (.runFailed s.pages s.virt i e)).unwind root s.virt i)

/-- **Maps every page of a span, or none of them.** -/
def mapSpan (w : Widths) (root : PAddr) (s : Span) (a : Attributes) (m : Machine α) :
    Except MapError Unit × Machine α :=
  if !w.admitsPages s.virt s.pages || !w.admitsFrames s.phys s.pages then
    (.error .invalidAddress, m)
  else m.mapSpanFrom w root s a s.pages 0

end Machine

end VirtualMemory
