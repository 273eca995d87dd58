import VirtualMemory.Space
import VirtualMemory.Processor
import VirtualMemory.Entry
import VirtualMemory.MapError
import VirtualMemory.Severity

/-!
# Notices

What the kernel reports in its log, as data; `Notice.line` gives the wording.
-/

namespace VirtualMemory

/-- **Something the kernel reports in its log.** -/
inductive Notice where
  | measured (widths : Widths) (features : Features)
  | tookOver (root : PAddr)
  | madeRoot (root : PAddr)
  | madeSpace (space : Space)
  /-- A failed call takes back the tables it made. -/
  | takingBack (tables : Nat)
  | runFailed (pages : Nat) (start : VAddr) (page : Nat) (error : MapError)
  | read (v : VAddr) (level : Level) (entry : Entry)
  /-- A table was made and linked at `level`. -/
  | linked (v : VAddr) (level : Level) (table : PAddr)
  /-- A table of `level` has become unused and goes back. -/
  | reclaimed (v : VAddr) (level : Level) (table : PAddr)
deriving DecidableEq

namespace Notice

def severity : Notice → Severity
  | measured .. | tookOver .. | madeRoot .. | madeSpace .. | takingBack .. => .debug
  | runFailed .. => .warn
  | read .. | linked .. | reclaimed .. => .trace

def text : Notice → String
  | measured w f =>
    s!"mmu: {w.virt}-bit virtual, {w.phys}-bit physical, smep={f.smep} smap={f.smap}"
  | tookOver root => s!"mmu: kernel root at {root.text}"
  | madeRoot root => s!"mmu: new root table at {root.text}"
  | madeSpace space =>
    s!"mmu: address space at {space.base.text} ({Hex.text space.size} bytes, " ++
      s!"kernel={space.forKernel})"
  | takingBack tables => s!"mmu: rolling back {tables} new table(s)"
  | runFailed pages start page error =>
    s!"mmu: mapping {pages} pages at {start.text} failed at page {page}: {error.message}"
  | read v level entry => s!"walk {v.text} {level.name}: {entry.describe}"
  | linked v level table => s!"install {v.text}: new {level.name} table at {table.text}"
  | reclaimed v level table => s!"unmap {v.text}: freeing {level.name} table at {table.text}"

def line (n : Notice) : LogLine := ⟨n.severity, n.text⟩

end Notice

end VirtualMemory
