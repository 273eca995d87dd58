import VirtualMemory.Table

/-!
# Memory

Physical memory as far as tables live in it: each frame holds a table. A frame that was never
written reads as zero.

* `Memory.table` and `Memory.entry` read; `Memory.setTable` and `Memory.set` write;
* **`table_setTable`**, **`entry_set`**: a write changes the place it names and no other.
-/

namespace VirtualMemory

/-- **Memory**, by the addresses of frames: the frames written so far, the latest first. -/
structure Memory where
  written : List (PAddr × Table)

namespace Memory

def blank : Memory := ⟨[]⟩

instance : Inhabited Memory := ⟨blank⟩

def table (mem : Memory) (a : PAddr) : Table :=
  match mem.written.find? (·.1 = a) with
  | some frame => frame.2
  | none => .empty

def entry (mem : Memory) (a : PAddr) (i : Index) : Entry := (mem.table a).get i

def setTable (mem : Memory) (a : PAddr) (t : Table) : Memory :=
  ⟨(a, t) :: mem.written.filter (·.1 ≠ a)⟩

def set (mem : Memory) (a : PAddr) (i : Index) (e : Entry) : Memory :=
  mem.setTable a ((mem.table a).set i e)

@[simp] theorem table_blank (a : PAddr) : blank.table a = .empty := rfl

/-- **A frame reads as it was last written**, and writing it leaves the others alone. -/
theorem table_setTable (mem : Memory) (a b : PAddr) (t : Table) :
    (mem.setTable a t).table b = if a = b then t else mem.table b := by
  by_cases h : a = b
  · simp [setTable, table, h]
  · have : (mem.written.filter (·.1 ≠ a)).find? (·.1 = b) = mem.written.find? (·.1 = b) := by
      rw [List.find?_filter]
      congr 1
      funext frame
      by_cases hb : frame.1 = b <;> simp [hb, Ne.symm h]
    simp only [setTable, table, h, this, List.find?_cons, decide_false, if_false]

@[simp] theorem table_setTable_self (mem : Memory) (a : PAddr) (t : Table) :
    (mem.setTable a t).table a = t := by simp [table_setTable]

theorem table_setTable_of_ne (mem : Memory) {a b : PAddr} (h : a ≠ b) (t : Table) :
    (mem.setTable a t).table b = mem.table b := by simp [table_setTable, h]

theorem setTable_setTable (mem : Memory) (a : PAddr) (t t' : Table) :
    (mem.setTable a t).setTable a t' = mem.setTable a t' := by
  simp [setTable]

theorem entry_setTable (mem : Memory) (a b : PAddr) (t : Table) (j : Index) :
    (mem.setTable a t).entry b j = if a = b then t.get j else mem.entry b j := by
  simp only [entry, table_setTable]; split <;> rfl

/-- **An entry reads as it was last written**, and writing it leaves the others alone. -/
theorem entry_set (mem : Memory) (a b : PAddr) (i j : Index) (e : Entry) :
    (mem.set a i e).entry b j = if a = b ∧ i = j then e else mem.entry b j := by
  rw [set, entry_setTable]
  by_cases h : a = b
  · subst h; simp [Table.get_set, entry]
  · simp [h]

@[simp] theorem entry_set_self (mem : Memory) (a : PAddr) (i : Index) (e : Entry) :
    (mem.set a i e).entry a i = e := by simp [entry_set]

theorem entry_set_of_ne (mem : Memory) {a b : PAddr} {i j : Index} (e : Entry)
    (h : ¬ (b = a ∧ j = i)) : (mem.set a i e).entry b j = mem.entry b j := by
  rw [entry_set, if_neg fun he => h ⟨he.1.symm, he.2.symm⟩]

end Memory

end VirtualMemory
