import VirtualMemory.Attributes
import VirtualMemory.Machine

/-!
# Mapping one page

The tables missing on the way to the leaf are made, cleared and linked from the root down, and the
leaf is written last. A call that fails takes back every table it made.

* `Machine.makePath`: down to the leaf's table, by recursion on the number of levels to go;
* `Machine.takeBack`: the tables made are unlinked and given back, the newest first;
* `Machine.writeLeaf`; `Machine.mapPage` for 4 KiB and `Machine.mapLarge` for 2 MiB.
-/

namespace VirtualMemory

/-- A table made by a call, and the entry that links it. -/
structure NewTable where
  parent : PAddr
  index : Index
  table : PAddr
deriving DecidableEq

namespace Machine

variable {α : Type} [FrameSource α]

/-- **Takes back the tables that a call has made**, given newest first. Each is unlinked before its
frame goes back. -/
def takeBack (made : List NewTable) (m : Machine α) : Machine α :=
  if made.isEmpty then m
  else made.foldl (fun m t => (m.disable t.parent t.index).release t.table)
    (m.note (.takingBack made.length))

/-- **Goes down to the leaf's table**, `n` levels from `table`, and makes the tables that are
missing. The tables made so far come first in the answer's second part; in the newest of them every
entry is zero, so below it none is read. -/
def makePath (v : VAddr) (link : EntryFlags) (leaf : Level) (n : Nat) (table : PAddr)
    (made : List NewTable) (m : Machine α) : Except MapError PAddr × List NewTable × Machine α :=
  match n with
  | 0 => (.ok table, made, m)
  | n + 1 =>
    let level := Level.ofHeight (leaf.height + n + 1)
    let i := level.index v
    let e := if made.isEmpty then m.entry table i else .empty
    match e.role level with
    | .leaf => (.error .sizeMismatch, made, m)
    | .link child => makePath v link leaf n child made m
    | .absent =>
      match m.allocate with
      | (none, m) => (.error .outOfFrames, made, m)
      | (some child, m) =>
        let m := ((m.zero child).write table i (.make child link)).note (.linked v level child)
        makePath v link leaf n child (⟨table, i, child⟩ :: made) m

/-- **Writes a leaf at a level**, after making the path to it. A leaf in use is replaced, and the
processor made to forget it; a table in the leaf's place is left alone. -/
def writeLeaf (root p : PAddr) (v : VAddr) (leaf : Level) (flags : EntryFlags) (m : Machine α) :
    Except MapError Unit × Machine α :=
  match m.makePath v flags.asLink leaf (3 - leaf.height) root [] with
  | (.error e, made, m) => (.error e, m.takeBack made)
  | (.ok table, made, m) =>
    let i := leaf.index v
    match (m.entry table i).role leaf with
    | .link _ => (.error .sizeMismatch, m.takeBack made)
    | .absent => (.ok (), m.write table i (.make p flags))
    | .leaf => (.ok (), (m.write table i (.make p flags)).flush v)

/-- **Maps the 4 KiB page at `v`** to the frame at `p`. -/
def mapPage (w : Widths) (root p : PAddr) (v : VAddr) (a : Attributes) (m : Machine α) :
    Except MapError Unit × Machine α :=
  if !w.admitsFrame p || !w.admitsPage v then (.error .invalidAddress, m)
  else m.writeLeaf root p v .pt a.encode.asLeaf

/-- **Maps the 2 MiB page at `v`** to the frame of the same size at `p`. -/
def mapLarge (w : Widths) (root p : PAddr) (v : VAddr) (a : Attributes) (m : Machine α) :
    Except MapError Unit × Machine α :=
  if !w.admitsFrame p || !w.admitsPage v || !p.isAligned PageSize.mib2.bytes
      || !v.isAligned PageSize.mib2.bytes then (.error .invalidAddress, m)
  else m.writeLeaf root p v .pd a.encode.asLeaf.enlarged

end Machine

end VirtualMemory
