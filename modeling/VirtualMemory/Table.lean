import VirtualMemory.Entry

/-!
# Tables

A table is 512 entries, one frame of memory.

* `Table.get`, `Table.set`, `Table.empty` (`get_set`, `get_empty`);
* `Table.isVacant`: no entry is in use (`isVacant_iff`).
-/

namespace VirtualMemory

/-- **A table of 512 entries.** -/
structure Table where
  entries : Vector Entry 512
deriving DecidableEq

namespace Table

def filled (e : Entry) : Table := ⟨Vector.replicate 512 e⟩

def empty : Table := filled .empty

instance : Inhabited Table := ⟨empty⟩

def get (t : Table) (i : Index) : Entry := t.entries[i]

def set (t : Table) (i : Index) (e : Entry) : Table := ⟨t.entries.set i e i.isLt⟩

def isVacant (t : Table) : Bool := t.entries.all (!·.isPresent)

@[ext] theorem ext {s t : Table} (h : ∀ i, s.get i = t.get i) : s = t := by
  cases s; cases t
  congr 1
  exact Vector.ext fun i hi => h ⟨i, hi⟩

@[simp] theorem get_filled (e : Entry) (i : Index) : (filled e).get i = e := by
  simp [filled, get]

@[simp] theorem get_empty (i : Index) : empty.get i = .empty := get_filled _ i

theorem get_set (t : Table) (i j : Index) (e : Entry) :
    (t.set i e).get j = if i = j then e else t.get j := by
  simp [get, set, Vector.getElem_set, Fin.ext_iff]

@[simp] theorem get_set_self (t : Table) (i : Index) (e : Entry) : (t.set i e).get i = e := by
  simp [get_set]

/-- An entry that is written, or was so before, reads as written. -/
theorem get_foldl_set (t : Table) {is : List Index} {e : Entry} {j : Index}
    (h : j ∈ is ∨ t.get j = e) : (is.foldl (fun t i => t.set i e) t).get j = e := by
  induction is generalizing t with
  | nil => exact h.resolve_left List.not_mem_nil
  | cons i is ih =>
    apply ih
    rw [get_set]
    by_cases hi : i = j
    · rw [if_pos hi]
      exact .inr rfl
    · rw [if_neg hi]
      exact h.imp_left fun hm => (List.mem_cons.1 hm).resolve_left (Ne.symm hi)

/-- **Writing the same entry everywhere** fills the table. -/
theorem foldl_set_finRange (t : Table) (e : Entry) :
    (List.finRange 512).foldl (fun t i => t.set i e) t = filled e := by
  ext j
  rw [get_foldl_set t (.inl (List.mem_finRange j)), get_filled]

theorem isVacant_iff (t : Table) : t.isVacant = true ↔ ∀ i, (t.get i).isPresent = false := by
  simp only [isVacant, Vector.all_eq_true, get, Bool.not_eq_true']
  exact ⟨fun h i => h i.val i.isLt, fun h i hi => h ⟨i, hi⟩⟩

end Table

end VirtualMemory
