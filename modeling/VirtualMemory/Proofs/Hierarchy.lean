import VirtualMemory.Translation
import Mathlib.Logic.Function.Basic
import Mathlib.Tactic.Push

/-!
# Hierarchies by their paths

A path lists the indices that lead from the root down to a table or an entry. A hierarchy is
described by what its paths lead to, and a write to a tree changes what one path leads to.

* `Memory.tableAt`, `Memory.slot`, `Memory.leaf`: the table, the entry in use and the leaf at a path;
* `Memory.Tree`: no table is reached on two paths, in terms of links `tree_iff`;
* **`slot_eq_update`**: a write to an entry of a tree updates the slot of one path;
* `tableIn`, `leafIn`: tables and leaves are determined by the slots (`tableAt_eq_tableIn`);
* `Bare`: a table without an entry in use.
-/

namespace VirtualMemory

/-! ## Paths -/

/-- **The indices from the root down** to a table or an entry, the lowest one first. -/
abbrev Path := List Index

/-- The level of the table that a path leads to. -/
def Path.level (p : Path) : Level := .ofHeight (3 - p.length)

def Entry.inUse? (e : Entry) : Option Entry := if e.isPresent then some e else none

def Entry.link? (l : Level) (e : Entry) : Option PAddr :=
  match e.role l with
  | .link child => some child
  | _ => none

namespace Entry

variable {l : Level} {e : Entry} {c : PAddr}

theorem link?_eq_some_iff : e.link? l = some c ↔ e.role l = .link c := by
  unfold link?; split <;> simp_all

theorem inUse?_of_isPresent (h : e.isPresent = true) : e.inUse? = some e := if_pos h

theorem inUse?_of_not_isPresent (h : e.isPresent = false) : e.inUse? = none := by
  simp [inUse?, h]

theorem inUse?_eq_none_iff : e.inUse? = none ↔ e.isPresent = false := by
  unfold inUse?; split <;> simp_all

theorem eq_of_inUse? {e' : Entry} (h : e.inUse? = some e') : e = e' ∧ e.isPresent = true := by
  unfold inUse? at h; split at h <;> simp_all

theorem isPresent_of_link? (h : e.link? l = some c) : e.isPresent = true := by
  rw [link?_eq_some_iff] at h
  by_contra hp
  rw [Bool.not_eq_true] at hp
  rw [(role_eq_absent_iff l e).2 hp] at h
  cases h

theorem link?_eq_bind (l : Level) (e : Entry) : e.link? l = e.inUse?.bind (link? l) := by
  by_cases h : e.isPresent
  · rw [inUse?_of_isPresent h]; rfl
  · rw [Bool.not_eq_true] at h
    rw [inUse?_of_not_isPresent h, link?, (role_eq_absent_iff l e).2 h]; rfl

theorem not_isLeafAt_of_link? (h : e.link? l = some c) : e.isLeafAt l = false := by
  rw [link?_eq_some_iff, role] at h
  split at h
  · cases h
  · split at h
    · cases h
    · simp_all

theorem role_eq_leaf_iff : e.role l = .leaf ↔ e.isPresent = true ∧ e.isLeafAt l = true := by
  unfold role; split
  · simp_all
  · split <;> simp_all

theorem link?_of_isLeafAt (h : e.isLeafAt l = true) : e.link? l = none := by
  rw [Option.eq_none_iff_forall_ne_some]
  intro c hc
  rw [not_isLeafAt_of_link? hc] at h
  cases h

theorem exists_link?_of_not_isLeafAt (hp : e.isPresent = true) (h : e.isLeafAt l = false) :
    ∃ c, e.link? l = some c := ⟨e.target, by simp [link?, role, hp, h]⟩

end Entry

/-! ## What a path leads to -/

namespace Memory

/-- **The table that a path leads to.** -/
def tableAt (mem : Memory) (root : PAddr) : Path → Option PAddr
  | [] => some root
  | i :: p => (mem.tableAt root p).bind fun t => (mem.entry t i).link? (Path.level p)

/-- **The entry in use at a path.** -/
def slot (mem : Memory) (root : PAddr) : Path → Option Entry
  | [] => none
  | i :: p => (mem.tableAt root p).bind fun t => (mem.entry t i).inUse?

end Memory

/-- The tables of a hierarchy whose entries in use are `s`. -/
def tableIn (root : PAddr) (s : Path → Option Entry) : Path → Option PAddr
  | [] => some root
  | i :: p => (s (i :: p)).bind (Entry.link? (Path.level p))

/-- **The leaf at a path** of a hierarchy whose entries in use are `s`. -/
def leafIn (s : Path → Option Entry) : Path → Option Entry
  | [] => none
  | i :: p => (s (i :: p)).filter (·.isLeafAt (Path.level p))

/-- **A table below the root without an entry in use.** -/
def Bare (root : PAddr) (s : Path → Option Entry) (p : Path) : Prop :=
  p ≠ [] ∧ (∃ t, tableIn root s p = some t) ∧ ∀ i, s (i :: p) = none

theorem tableIn_congr {root : PAddr} {s s' : Path → Option Entry} {p : Path} (h : s' p = s p) :
    tableIn root s' p = tableIn root s p := by
  cases p with
  | nil => rfl
  | cons i p => rw [tableIn, tableIn, h]

/-! ## Updating one slot -/

section Update

variable {root c : PAddr} {s : Path → Option Entry} {p q : Path} {i : Index} {e : Entry}

theorem tableIn_update (x : Option Entry) : tableIn root (Function.update s (i :: q) x) =
    Function.update (tableIn root s) (i :: q) (x.bind (Entry.link? (Path.level q))) := by
  funext p
  by_cases hp : p = i :: q
  · subst hp; simp only [tableIn, Function.update_self]
  · rw [Function.update_of_ne hp]
    cases p with
    | nil => rfl
    | cons j p => rw [tableIn, tableIn, Function.update_of_ne hp]

theorem leafIn_update (x : Option Entry) : leafIn (Function.update s (i :: q) x) =
    Function.update (leafIn s) (i :: q) (x.filter (·.isLeafAt (Path.level q))) := by
  funext p
  by_cases hp : p = i :: q
  · subst hp; simp only [leafIn, Function.update_self]
  · rw [Function.update_of_ne hp]
    cases p with
    | nil => rfl
    | cons j p => rw [leafIn, leafIn, Function.update_of_ne hp]

theorem leafIn_update_of_link (h : s (i :: q) = none) (he : e.link? (Path.level q) = some c) :
    leafIn (Function.update s (i :: q) (some e)) = leafIn s := by
  have hs : leafIn s (i :: q) = none := by rw [leafIn, h]; rfl
  have hf : (some e).filter (·.isLeafAt (Path.level q)) = none := by
    rw [Option.filter_some, Entry.not_isLeafAt_of_link? he]; rfl
  rw [leafIn_update, hf, ← hs, Function.update_eq_self]

theorem leafIn_update_of_leaf (he : e.isLeafAt (Path.level q) = true) :
    leafIn (Function.update s (i :: q) (some e)) =
      Function.update (leafIn s) (i :: q) (some e) := by
  rw [leafIn_update, Option.filter_some, if_pos he]

/-- **An entry put to use** leaves its table not bare. -/
theorem Bare.of_update_some (h : Bare root (Function.update s (i :: q) (some e)) p) :
    p ≠ q ∧ (p = i :: q ∨ Bare root s p) := by
  obtain ⟨hn, ⟨t, ht⟩, hb⟩ := h
  have hpq : p ≠ q := by
    rintro rfl
    have := hb i
    rw [Function.update_self] at this
    cases this
  refine ⟨hpq, ?_⟩
  by_cases hp : p = i :: q
  · exact .inl hp
  · rw [tableIn_update, Function.update_of_ne hp] at ht
    refine .inr ⟨hn, ⟨t, ht⟩, fun j => ?_⟩
    have hj : j :: p ≠ i :: q := fun he => hpq (List.cons.inj he).2
    rw [← hb j, Function.update_of_ne hj]

theorem Bare.of_update_leaf (he : e.isLeafAt (Path.level q) = true)
    (h : Bare root (Function.update s (i :: q) (some e)) p) : p ≠ q ∧ Bare root s p := by
  obtain ⟨hpq, hp⟩ := h.of_update_some
  refine ⟨hpq, hp.resolve_left ?_⟩
  rintro rfl
  obtain ⟨t, ht⟩ := h.2.1
  rw [tableIn_update, Function.update_self, Option.bind_some, Entry.link?_of_isLeafAt he] at ht
  cases ht

/-- **An entry taken out of use** may leave its table bare, but no other. -/
theorem Bare.of_update_none (h : Bare root (Function.update s (i :: q) none) p) :
    p ≠ i :: q ∧ (p = q ∨ Bare root s p) := by
  obtain ⟨hn, ⟨t, ht⟩, hb⟩ := h
  have hp : p ≠ i :: q := by
    rintro rfl
    rw [tableIn_update, Function.update_self] at ht
    cases ht
  refine ⟨hp, ?_⟩
  by_cases hpq : p = q
  · exact .inl hpq
  · rw [tableIn_update, Function.update_of_ne hp] at ht
    refine .inr ⟨hn, ⟨t, ht⟩, fun j => ?_⟩
    have hj : j :: p ≠ i :: q := fun he => hpq (List.cons.inj he).2
    rw [← hb j, Function.update_of_ne hj]

end Update

namespace Memory

def leaf (mem : Memory) (root : PAddr) : Path → Option Entry := leafIn (mem.slot root)

/-- **No table is reached on two paths**, the root only on the empty one. -/
def Tree (mem : Memory) (root : PAddr) : Prop :=
  ∀ p q t, mem.tableAt root p = some t → mem.tableAt root q = some t → p = q

variable {mem mem' : Memory} {root t c : PAddr} {p q : Path} {i j : Index} {e : Entry}

@[simp] theorem tableAt_nil : mem.tableAt root [] = some root := rfl

theorem tableAt_cons (h : mem.tableAt root p = some t) :
    mem.tableAt root (i :: p) = (mem.entry t i).link? (Path.level p) := by
  rw [tableAt, h]; rfl

theorem tableAt_singleton : mem.tableAt root [i] = (mem.entry root i).link? (Path.level []) :=
  tableAt_cons tableAt_nil

theorem slot_cons (h : mem.tableAt root p = some t) :
    mem.slot root (i :: p) = (mem.entry t i).inUse? := by
  rw [slot, h]; rfl

theorem tableAt_cons_eq_some_iff :
    mem.tableAt root (i :: p) = some c ↔
      ∃ t, mem.tableAt root p = some t ∧ (mem.entry t i).role (Path.level p) = .link c := by
  simp only [tableAt, Option.bind_eq_some_iff, Entry.link?_eq_some_iff]

theorem exists_tableAt_of_cons (h : mem.tableAt root (i :: p) = some c) :
    ∃ t, mem.tableAt root p = some t :=
  (tableAt_cons_eq_some_iff.1 h).imp fun _ h => h.1

theorem exists_tableAt_of_slot (h : mem.slot root (i :: p) = some e) :
    ∃ t, mem.tableAt root p = some t ∧ mem.entry t i = e ∧ e.isPresent = true := by
  obtain ⟨t, ht, he⟩ := Option.bind_eq_some_iff.1 h
  obtain ⟨he, hp⟩ := Entry.eq_of_inUse? he
  exact ⟨t, ht, he, he ▸ hp⟩

/-- **The tables are determined by the entries in use.** -/
theorem tableAt_eq_tableIn (mem : Memory) (root : PAddr) :
    mem.tableAt root = tableIn root (mem.slot root) := by
  funext p
  cases p with
  | nil => rfl
  | cons i p =>
    simp only [tableAt, tableIn, slot, Option.bind_assoc]
    congr 1
    funext t
    exact Entry.link?_eq_bind _ _

theorem tableAt_of_slot (h : mem'.slot root = mem.slot root) :
    mem'.tableAt root = mem.tableAt root := by
  rw [tableAt_eq_tableIn, tableAt_eq_tableIn, h]

theorem length_le_of_tableAt (h : mem.tableAt root p = some t) : p.length ≤ 3 := by
  cases p with
  | nil => exact Nat.zero_le _
  | cons i p =>
    obtain ⟨u, -, hl⟩ := tableAt_cons_eq_some_iff.1 h
    by_contra hlen
    have : Path.level p = .pt := by
      have : 3 - p.length = 0 := by simp only [List.length_cons] at hlen; omega
      simp only [Path.level, this]; rfl
    rw [this] at hl
    exact Entry.role_pt_ne_link _ _ hl

theorem exists_tableAt_of_suffix (h : p <:+ q) (hq : mem.tableAt root q = some t) :
    ∃ u, mem.tableAt root p = some u := by
  induction q generalizing t with
  | nil => rw [List.suffix_nil.1 h]; exact ⟨_, rfl⟩
  | cons i q ih =>
    rcases List.suffix_cons_iff.1 h with rfl | h
    · exact ⟨t, hq⟩
    · obtain ⟨u, hu⟩ := exists_tableAt_of_cons hq
      exact ih h hu

/-- **A hierarchy is a tree** just if each table below the root is linked once, and the root never. -/
theorem tree_iff : mem.Tree root ↔
    (∀ p q t u i j c, mem.tableAt root p = some t → mem.tableAt root q = some u →
      (mem.entry t i).role (Path.level p) = .link c →
      (mem.entry u j).role (Path.level q) = .link c → t = u ∧ i = j) ∧
    ∀ p t i, mem.tableAt root p = some t → (mem.entry t i).role (Path.level p) ≠ .link root := by
  constructor
  · refine fun h => ⟨fun p q t u i j c ht hu hi hj => ?_, fun p t i ht hi => ?_⟩
    · obtain ⟨rfl, rfl⟩ := List.cons.inj <| h (i :: p) (j :: q) c
        (tableAt_cons_eq_some_iff.2 ⟨t, ht, hi⟩) (tableAt_cons_eq_some_iff.2 ⟨u, hu, hj⟩)
      exact ⟨Option.some.inj (ht.symm.trans hu), rfl⟩
    · cases h (i :: p) [] root (tableAt_cons_eq_some_iff.2 ⟨t, ht, hi⟩) rfl
  · rintro ⟨hone, hroot⟩ p
    induction p with
    | nil =>
      intro q t hp hq
      cases hp
      cases q with
      | nil => rfl
      | cons j q =>
        obtain ⟨u, hu, hj⟩ := tableAt_cons_eq_some_iff.1 hq
        exact absurd hj (hroot q u j hu)
    | cons i p ih =>
      intro q c hp hq
      obtain ⟨t, ht, hi⟩ := tableAt_cons_eq_some_iff.1 hp
      cases q with
      | nil =>
        cases hq
        exact absurd hi (hroot p t i ht)
      | cons j q =>
        obtain ⟨u, hu, hj⟩ := tableAt_cons_eq_some_iff.1 hq
        obtain ⟨rfl, rfl⟩ := hone p q t u i j c ht hu hi hj
        rw [ih q t ht hu]

/-! ## Empty tables -/

/-- Nothing is in use below a path that leads to no table, or to one without an entry in use. -/
theorem slot_append_eq_none (h : ∀ j, mem.slot root (j :: p) = none) (r : Path) (j : Index) :
    mem.slot root (r ++ j :: p) = none := by
  have key : ∀ r : Path, mem.tableAt root (r ++ j :: p) = none ∧
      mem.slot root (r ++ j :: p) = none := by
    intro r
    induction r with
    | nil =>
      refine ⟨?_, h j⟩
      rw [tableAt_eq_tableIn, List.nil_append, tableIn, h j]; rfl
    | cons k r ih => simp only [List.cons_append, tableAt, slot, ih.1, Option.bind_none, and_self]
  exact (key r).2

theorem slot_cons_eq_none_iff (h : mem.tableAt root p = some t) :
    (∀ j, mem.slot root (j :: p) = none) ↔ ∀ j, (mem.entry t j).isPresent = false := by
  simp only [slot_cons h, Entry.inUse?_eq_none_iff]

theorem slot_eq_none_of_vacant (h : ∀ i, (mem.entry root i).isPresent = false) (p : Path) :
    mem.slot root p = none := by
  rcases List.eq_nil_or_concat p with rfl | ⟨r, i, rfl⟩
  · rfl
  · rw [List.concat_eq_append]
    exact slot_append_eq_none ((slot_cons_eq_none_iff tableAt_nil).2 h) r i

theorem tableAt_eq_none_of_vacant (h : ∀ i, (mem.entry root i).isPresent = false) (hp : p ≠ []) :
    mem.tableAt root p = none := by
  cases p with
  | nil => exact absurd rfl hp
  | cons i p => rw [tableAt_eq_tableIn, tableIn, slot_eq_none_of_vacant h]; rfl

theorem slot_cons_of_tableAt_eq_none (h : mem.tableAt root p = none) (j : Index) :
    mem.slot root (j :: p) = none := by
  rw [slot, h]; rfl

theorem slot_cons_of_slot_eq_none (h : mem.slot root (i :: p) = none) (j : Index) :
    mem.slot root (j :: i :: p) = none := by
  apply slot_cons_of_tableAt_eq_none
  rw [tableAt_eq_tableIn, tableIn, h]; rfl

/-! ## Writing frames -/

/-- **A hierarchy is as before if its tables have the same entries in use.** -/
theorem tableAt_slot_eq_of_inUse (h : ∀ p t, mem.tableAt root p = some t →
    ∀ i, (mem'.entry t i).inUse? = (mem.entry t i).inUse?) :
    mem'.tableAt root = mem.tableAt root ∧ mem'.slot root = mem.slot root := by
  have key : ∀ p, mem'.tableAt root p = mem.tableAt root p := by
    intro p
    induction p with
    | nil => rfl
    | cons i p ih =>
      rw [tableAt, tableAt, ih]
      refine Option.bind_congr fun t ht => ?_
      rw [Entry.link?_eq_bind, h p t ht, ← Entry.link?_eq_bind]
  refine ⟨funext key, funext fun p => ?_⟩
  cases p with
  | nil => rfl
  | cons i p =>
    rw [slot, slot, key]
    exact Option.bind_congr fun t ht => h p t ht i

theorem tableAt_slot_eq_of_table
    (h : ∀ p t, mem.tableAt root p = some t → mem'.table t = mem.table t) :
    mem'.tableAt root = mem.tableAt root ∧ mem'.slot root = mem.slot root :=
  tableAt_slot_eq_of_inUse fun p t ht i => by rw [entry, entry, h p t ht]

/-! ## Writing one entry -/

section Write

variable (ht : mem.Tree root) (hq : mem.tableAt root q = some t)
  (same : ∀ p u j, mem.tableAt root p = some u → ¬ (u = t ∧ j = i) → mem'.entry u j = mem.entry u j)

include ht hq same

/-- **What changes with an entry of a tree lies below its path.** -/
theorem tableAt_slot_eq_of_not_suffix (h : ¬ (i :: q) <:+ p) :
    mem'.tableAt root p = mem.tableAt root p ∧ mem'.slot root p = mem.slot root p := by
  induction p with
  | nil => exact ⟨rfl, rfl⟩
  | cons j p ih =>
    have hp : ¬ (i :: q) <:+ p := fun hs => h (hs.trans (List.suffix_cons j p))
    cases hu : mem.tableAt root p with
    | none => simp only [tableAt, slot, (ih hp).1, hu, Option.bind_none, and_self]
    | some u =>
      have hne : ¬ (u = t ∧ j = i) := by
        rintro ⟨rfl, rfl⟩
        rw [ht p q u hu hq] at h
        exact h (List.suffix_refl _)
      have hu' := (ih hp).1.trans hu
      rw [tableAt_cons hu, tableAt_cons hu', slot_cons hu, slot_cons hu', same p u j hu hne]
      exact ⟨rfl, rfl⟩

theorem tableAt_of_write : mem'.tableAt root q = some t :=
  (tableAt_slot_eq_of_not_suffix ht hq same fun hs => absurd hs.length_le (by simp)).1.trans hq

/-- **A write to an entry of a tree updates the slot of one path**, provided that nothing is in use
below that path, neither before nor after. -/
theorem slot_eq_update (below : ∀ j, mem.slot root (j :: i :: q) = none)
    (below' : ∀ j, mem'.slot root (j :: i :: q) = none) :
    mem'.slot root = Function.update (mem.slot root) (i :: q) (mem'.entry t i).inUse? := by
  have hq' := tableAt_of_write ht hq same
  funext p
  by_cases hp : p = i :: q
  · subst hp
    rw [Function.update_self, slot_cons hq']
  · rw [Function.update_of_ne hp]
    by_cases hs : (i :: q) <:+ p
    · obtain ⟨r, rfl⟩ := hs
      rcases List.eq_nil_or_concat r with rfl | ⟨r, k, rfl⟩
      · exact absurd rfl hp
      · simp only [List.concat_eq_append, List.append_assoc, List.singleton_append]
        rw [slot_append_eq_none below, slot_append_eq_none below']
    · exact (tableAt_slot_eq_of_not_suffix ht hq same hs).2

end Write

theorem tableAt_of_slot_update {x : Option Entry}
    (h : mem'.slot root = Function.update (mem.slot root) (i :: q) x) :
    mem'.tableAt root =
      Function.update (mem.tableAt root) (i :: q) (x.bind (Entry.link? (Path.level q))) := by
  rw [tableAt_eq_tableIn, tableAt_eq_tableIn mem, h, tableIn_update]

theorem tableAt_of_update {x : Option PAddr}
    (h : mem'.tableAt root = Function.update (mem.tableAt root) q x)
    (hp : mem'.tableAt root p = some t) :
    p = q ∧ x = some t ∨ p ≠ q ∧ mem.tableAt root p = some t := by
  rw [h] at hp
  rcases eq_or_ne p q with rfl | hne
  · rw [Function.update_self] at hp
    exact .inl ⟨rfl, hp⟩
  · rw [Function.update_of_ne hne] at hp
    exact .inr ⟨hne, hp⟩

theorem Tree.of_le (ht : mem.Tree root)
    (h : ∀ p t, mem'.tableAt root p = some t → mem.tableAt root p = some t) : mem'.Tree root :=
  fun p q t hp hq => ht p q t (h p t hp) (h q t hq)

theorem Tree.of_update (ht : mem.Tree root) (hc : ∀ p, mem.tableAt root p ≠ some c)
    (h : mem'.tableAt root = Function.update (mem.tableAt root) q (some c)) : mem'.Tree root := by
  intro p₁ p₂ t h₁ h₂
  rcases tableAt_of_update h h₁ with ⟨rfl, e₁⟩ | ⟨-, h₁⟩ <;>
    rcases tableAt_of_update h h₂ with ⟨rfl, e₂⟩ | ⟨-, h₂⟩
  · rfl
  · exact absurd (h₂.trans e₁.symm) (hc p₂)
  · exact absurd (h₁.trans e₂.symm) (hc p₁)
  · exact ht p₁ p₂ t h₁ h₂

end Memory

/-! ## Leaves -/

section Leaves

variable {s : Path → Option Entry} {p q : Path} {i j : Index} {e : Entry} {x : Option Entry}

theorem leafIn_congr {s' : Path → Option Entry} (h : s' p = s p) : leafIn s' p = leafIn s p := by
  cases p with
  | nil => rfl
  | cons i p => rw [leafIn, leafIn, h]

theorem leafIn_eq_none_of_slot (h : s p = none) : leafIn s p = none := by
  cases p with
  | nil => rfl
  | cons i p => rw [leafIn, h]; rfl

theorem slot_of_leafIn (h : leafIn s p = some e) : s p = some e := by
  cases p with
  | nil => cases h
  | cons i p => exact (Option.filter_eq_some_iff.1 h).1

theorem leafIn_of_le {s' : Path → Option Entry} (h : ∀ p e, s' p = some e → s p = some e)
    (he : leafIn s' p = some e) : leafIn s p = some e := by
  cases p with
  | nil => cases he
  | cons i p =>
    obtain ⟨hs, hl⟩ := Option.filter_eq_some_iff.1 he
    exact Option.filter_eq_some_iff.2 ⟨h _ _ hs, hl⟩

theorem leafIn_eq_none_of_tableIn {root t : PAddr} (h : tableIn root s p = some t) :
    leafIn s p = none := by
  cases p with
  | nil => rfl
  | cons i p =>
    obtain ⟨e, he, hl⟩ := Option.bind_eq_some_iff.1 h
    rw [leafIn, he, Option.filter_eq_none_iff]
    intro e' he'
    cases he'
    rw [Entry.not_isLeafAt_of_link? hl]; exact Bool.false_ne_true

end Leaves

namespace Memory

variable {mem : Memory} {root t : PAddr} {p q : Path} {i : Index} {e : Entry}

theorem leaf_cons_ne_none_iff (ht : mem.tableAt root q = some t) :
    mem.leaf root (i :: q) ≠ none ↔ (mem.entry t i).role (Path.level q) = .leaf := by
  rw [Entry.role_eq_leaf_iff, leaf, leafIn, slot_cons ht, Option.ne_none_iff_exists']
  simp only [Option.filter_eq_some_iff]
  constructor
  · rintro ⟨e, he, hl⟩
    obtain ⟨rfl, hp⟩ := Entry.eq_of_inUse? he
    exact ⟨hp, hl⟩
  · rintro ⟨hp, hl⟩
    exact ⟨_, Entry.inUse?_of_isPresent hp, hl⟩

/-- **No leaf lies on the way to another entry in use.** -/
theorem leaf_eq_none_of_suffix (h : p <:+ q) (hq : mem.slot root (i :: q) = some e) :
    mem.leaf root p = none := by
  obtain ⟨t, ht, -⟩ := exists_tableAt_of_slot hq
  obtain ⟨u, hu⟩ := exists_tableAt_of_suffix h ht
  rw [tableAt_eq_tableIn] at hu
  exact leafIn_eq_none_of_tableIn hu

/-- **Below a table there is a leaf**, if no table is bare. -/
theorem exists_leaf_of_not_bare (hb : ∀ p, ¬ Bare root (mem.slot root) p)
    (hp : p ≠ []) (ht : mem.tableAt root p = some t) :
    ∃ q, p <:+ q ∧ mem.leaf root q ≠ none := by
  obtain ⟨n, hn⟩ : ∃ n, n = 4 - p.length := ⟨_, rfl⟩
  induction n generalizing p t with
  | zero =>
    have := length_le_of_tableAt ht
    omega
  | succ n ih =>
    have hne : ¬ ∀ i, mem.slot root (i :: p) = none := fun h =>
      hb p ⟨hp, ⟨t, tableAt_eq_tableIn mem root ▸ ht⟩, h⟩
    push Not at hne
    obtain ⟨i, hi⟩ := hne
    obtain ⟨e, he⟩ := Option.ne_none_iff_exists'.1 hi
    cases hl : e.isLeafAt (Path.level p) with
    | true =>
      refine ⟨i :: p, List.suffix_cons i p, ?_⟩
      rw [leaf, leafIn, he, Option.filter_some, if_pos hl]
      exact Option.some_ne_none e
    | false =>
      obtain ⟨u, hu, -, hpres⟩ := exists_tableAt_of_slot he
      obtain ⟨c, hc⟩ := Entry.exists_link?_of_not_isLeafAt hpres hl
      have htc : mem.tableAt root (i :: p) = some c := by
        rw [tableAt_eq_tableIn, tableIn, he]
        exact hc
      obtain ⟨q, hs, hq⟩ := ih (List.cons_ne_nil i p) htc (by simp only [List.length_cons]; omega)
      exact ⟨q, (List.suffix_cons i p).trans hs, hq⟩

end Memory

end VirtualMemory
