import VirtualMemory.Machine

/-!
# Removing mappings

The leaf that maps an address is taken out of use. On the way back up, each table left without an
entry in use is unlinked and its frame given back; the root stays.

* `Machine.removeFrom`, by recursion on the height of the table;
* `Machine.unmapPage` for whatever maps one address, `Machine.unmapPages` for a run of pages.
-/

namespace VirtualMemory

namespace Machine

variable {α : Type} [FrameSource α]

/-- Removes what maps `v` below a table with `n` levels below it, and the tables that this leaves
unused. A table is unlinked before its frame goes back, so that no walk can reach a frame that is
used again. -/
def removeFrom (v : VAddr) (n : Nat) (table : PAddr) (m : Machine α) : Machine α :=
  let level := Level.ofHeight n
  let i := level.index v
  match (m.entry table i).role level, n with
  | .absent, _ => m
  | .link child, n + 1 =>
    let m := removeFrom v n child m
    if (m.memory.table child).isVacant then
      ((m.disable table i).note (.reclaimed v (.ofHeight n) child)).release child
    else m
  | _, _ => (m.disable table i).flush v

section Equations

variable {v : VAddr} {n : Nat} {table : PAddr} {m : Machine α}

theorem removeFrom_of_absent
    (h : (m.entry table ((Level.ofHeight n).index v)).role (.ofHeight n) = .absent) :
    m.removeFrom v n table = m := by
  rw [removeFrom.eq_def]; simp only [h]

theorem removeFrom_of_leaf
    (h : (m.entry table ((Level.ofHeight n).index v)).role (.ofHeight n) = .leaf) :
    m.removeFrom v n table = (m.disable table ((Level.ofHeight n).index v)).flush v := by
  rw [removeFrom.eq_def]; simp only [h]

theorem removeFrom_of_link {child : PAddr}
    (h : (m.entry table ((Level.ofHeight (n + 1)).index v)).role (.ofHeight (n + 1)) =
      .link child) :
    m.removeFrom v (n + 1) table =
      if ((m.removeFrom v n child).memory.table child).isVacant then
        (((m.removeFrom v n child).disable table ((Level.ofHeight (n + 1)).index v)).note
          (.reclaimed v (.ofHeight n) child)).release child
      else m.removeFrom v n child := by
  rw [removeFrom.eq_def]; simp only [h]

end Equations

/-- **Removes the leaf that maps `v`**, whatever its size. Nothing happens if there is none. -/
def unmapPage (root : PAddr) (v : VAddr) (m : Machine α) : Machine α := m.removeFrom v 3 root

/-- **Removes a run of 4 KiB pages**, if all of them are admitted. -/
def unmapPages (w : Widths) (root : PAddr) (v : VAddr) (count : Nat) (m : Machine α) :
    Except MapError Unit × Machine α :=
  if !w.admitsPages v count then (.error .invalidAddress, m)
  else
    let pages : Run .virtual .kib4 := (Block.containing v).run count
    (.ok (), pages.fold (fun m page => m.unmapPage root page.start) m)

end Machine

end VirtualMemory
