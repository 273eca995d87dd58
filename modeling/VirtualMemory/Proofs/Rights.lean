import VirtualMemory.Proofs.Unwinding

/-!
# Access rights along a path

The processor grants an access only if every entry on the way to the leaf allows it, while a walk
reports the rights of the leaf. Links are made writable and executable, and open to user mode if the
page that they are made for is. A page for user mode under links made for kernel pages is closed to
user mode, though a walk reports it as open.

* `Rights`: of an entry, of attributes, and along the entries that a walk reads;
* `Memory.UserOpen`: what walks report as open to user mode is open along the whole path;
* `Marked`: entries in use are marked as entries are made, whatever is called
  (**`Owns.marked_call`**);
* `Opened`: the entries in use of a hierarchy that is open to user mode, kept by mapping under links
  that are open (`Laid.opened`) and by taking entries out of use (`Opened.of_le`);
* `Call.KeepsOpen`: the links that a call finds above its user pages are open to user mode;
* **`Call.userOpen_iff`**: a run keeps all user pages open just if each of its calls finds such
  links;
* **`Call.not_userOpen`**: a run that does not.
-/

namespace VirtualMemory

/-! ## Rights of entries -/

/-- **What an entry allows**, or all entries on a path. -/
@[ext] structure Rights where
  user : Bool
  write : Bool
  execute : Bool
deriving DecidableEq

namespace Rights

/-- What the one allows, the other does. -/
instance : LE Rights where
  le r r' := r.user ≤ r'.user ∧ r.write ≤ r'.write ∧ r.execute ≤ r'.execute

def ofFlags (f : EntryFlags) : Rights where
  user := f.contains EntryFlags.user
  write := f.contains EntryFlags.writable
  execute := !f.contains EntryFlags.noExecute

def ofAttributes (a : Attributes) : Rights where
  user := a.contains Attributes.user
  write := !a.contains Attributes.readOnly
  execute := !a.contains Attributes.noExecute

/-- The bits of a flag word that decide about rights. -/
def bits : List Nat := [1, 2, 63]

theorem ofFlags_congr {f g : EntryFlags}
    (h : ∀ i ∈ bits, f.contains (.bit i) = g.contains (.bit i)) : ofFlags f = ofFlags g := by
  ext1
  · exact h 2 (by decide)
  · exact h 1 (by decide)
  · exact congrArg not (h 63 (by decide))

theorem ofAttributes_decode (f : EntryFlags) : ofAttributes f.decode = ofFlags f := by
  unfold ofAttributes ofFlags EntryFlags.decode
  cases f.contains EntryFlags.writable <;> cases f.contains EntryFlags.user <;>
    cases f.contains EntryFlags.uncached && !f.contains EntryFlags.pat <;>
    cases f.contains EntryFlags.noExecute <;> rfl

end Rights

namespace Entry

variable {e : Entry} {a : PAddr} {f : EntryFlags}

def rights (e : Entry) : Rights := .ofFlags e.asFlags

/-- The translation outlives a change of the root. -/
def isGlobal (e : Entry) : Bool := e.asFlags.contains EntryFlags.global

theorem contains_asFlags_make {i : Nat} (hi : i < 12 ∨ 52 ≤ i) (hi' : i < 64) :
    (make a f).asFlags.contains (.bit i) = f.contains (.bit i) := by
  rw [FlagSet.contains_bit _ hi', FlagSet.contains_bit _ hi']
  show (make a f).bits.getLsbD i = _
  rw [getLsbD_make]
  rcases hi with hi | hi
  · simp [show ¬ 12 ≤ i by omega]
  · simp [show ¬ i < 52 by omega]

theorem rights_make (a : PAddr) (f : EntryFlags) : (make a f).rights = .ofFlags f := by
  have hbits : ∀ i ∈ Rights.bits, (i < 12 ∨ 52 ≤ i) ∧ i < 64 := by decide
  exact Rights.ofFlags_congr fun i hi => contains_asFlags_make (hbits i hi).1 (hbits i hi).2

theorem isGlobal_make (a : PAddr) (f : EntryFlags) :
    (make a f).isGlobal = f.contains EntryFlags.global :=
  contains_asFlags_make (.inl (by decide)) (by decide)

theorem contains_flags {i : Nat} (hi : i < 64)
    (h : (~~~addressMask &&& entryFlagKind.named).getLsbD i = true) (e : Entry) :
    e.flags.contains (.bit i) = e.asFlags.contains (.bit i) := by
  rw [FlagSet.contains_bit _ hi, FlagSet.contains_bit _ hi]
  show (e.bits &&& ~~~addressMask &&& entryFlagKind.named).getLsbD i = e.bits.getLsbD i
  rw [BitVec.and_assoc, BitVec.getLsbD_and, h, Bool.and_true]

theorem rights_flags (e : Entry) : .ofFlags e.flags = e.rights := by
  have hbits : ∀ i ∈ Rights.bits, i < 64 ∧
      (~~~addressMask &&& entryFlagKind.named).getLsbD i = true := by decide
  exact Rights.ofFlags_congr fun i hi => contains_flags (hbits i hi).1 (hbits i hi).2 e

theorem contains_flagsOfLarge {i : Nat} (hi : i < 64) (hn : entryFlagKind.named.getLsbD i = true)
    (h : i ≠ 7 ∧ i ≠ 12) (e : Entry) :
    e.flagsOfLarge.reduced.contains (.bit i) = e.asFlags.contains (.bit i) := by
  rw [FlagSet.contains_bit _ hi, FlagSet.contains_bit _ hi, EntryFlags.getLsbD_reduced,
    if_neg h.1, decide_eq_false h.2, flagsOfLarge_eq, FlagSet.bits_onlyNamed, BitVec.getLsbD_and, hn,
    Bool.and_true, Bool.not_false, Bool.and_true]

theorem rights_flagsOfLarge (e : Entry) : .ofFlags e.flagsOfLarge.reduced = e.rights := by
  have hbits : ∀ i ∈ Rights.bits,
      i < 64 ∧ entryFlagKind.named.getLsbD i = true ∧ i ≠ 7 ∧ i ≠ 12 := by decide
  exact Rights.ofFlags_congr fun i hi =>
    contains_flagsOfLarge (hbits i hi).1 (hbits i hi).2.1 (hbits i hi).2.2 e

/-- **A walk reports the rights of the leaf.** -/
theorem rights_of_ofLeaf {l l' : Level} {v : VAddr} {p : PAddr} {b : Attributes}
    (h : Translation.ofLeaf l e v = .mapped p b l') : .ofAttributes b = e.rights := by
  cases l <;> cases h
  · rw [Rights.ofAttributes_decode, rights_flags]
  · rw [Rights.ofAttributes_decode, rights_flagsOfLarge]
  · rw [Rights.ofAttributes_decode, rights_flagsOfLarge]
  · rw [Rights.ofAttributes_decode, rights_flags]

end Entry

/-! ## Rights of the entries that are made -/

namespace EntryFlags

/-- The flags are for user mode if `u` says so, and otherwise for every root. -/
def ForMode (u : Bool) (f : EntryFlags) : Prop := f.contains user = u ∧ f.contains global = !u

instance (u : Bool) (f : EntryFlags) : Decidable (f.ForMode u) := inferInstanceAs (Decidable (_ ∧ _))

variable {u : Bool} {f : EntryFlags}

theorem forMode_asLink (h : f.ForMode u) : f.asLink.ForMode u := by
  obtain ⟨rfl, -⟩ := h
  unfold asLink
  cases f.contains user <;> exact ⟨rfl, rfl⟩

theorem ForMode.make (h : f.ForMode u) (a : PAddr) :
    (Entry.make a f).isGlobal = !(Entry.make a f).rights.user ∧
      (Entry.make a f).rights.user = u := by
  rw [Entry.isGlobal_make, Entry.rights_make, h.2]
  exact ⟨congrArg not h.1.symm, h.1⟩

/-- **Links allow everything**, user mode apart. -/
theorem ofFlags_asLink (h : f.ForMode u) : Rights.ofFlags f.asLink = ⟨u, true, true⟩ := by
  obtain ⟨rfl, -⟩ := h
  unfold asLink
  cases f.contains user <;> rfl

end EntryFlags

namespace Attributes

variable (a : Attributes)

theorem of_named {P : EntryFlags → Rights → Prop}
    (h : ∀ i : Fin 32, P (encode ⟨BitVec.ofNat 32 i⟩) (.ofAttributes ⟨BitVec.ofNat 32 i⟩)) :
    P a.encode (.ofAttributes a) := by
  obtain ⟨i, hi⟩ := a.exists_onlyNamed_eq
  have hrights : Rights.ofAttributes a.onlyNamed = .ofAttributes a := by
    unfold Rights.ofAttributes
    rw [contains_onlyNamed a _ rfl, contains_onlyNamed a _ rfl, contains_onlyNamed a _ rfl]
  rw [← encode_onlyNamed, ← hrights, hi]
  exact h i

theorem forMode_leaf : a.encode.asLeaf.ForMode (a.contains user) ∧
    a.encode.asLeaf.enlarged.ForMode (a.contains user) :=
  a.of_named (P := fun f r => f.asLeaf.ForMode r.user ∧ f.asLeaf.enlarged.ForMode r.user)
    (by decide +kernel)

theorem ofFlags_leaf : Rights.ofFlags a.encode.asLeaf = .ofAttributes a ∧
    Rights.ofFlags a.encode.asLeaf.enlarged = .ofAttributes a :=
  a.of_named (P := fun f r => Rights.ofFlags f.asLeaf = r ∧ Rights.ofFlags f.asLeaf.enlarged = r)
    (by decide +kernel)

end Attributes

/-! ## Rights along a walk -/

/-- **What all entries that were read allow.** -/
def Rights.along (xs : List Visit) : Rights where
  user := xs.all (·.entry.rights.user)
  write := xs.all (·.entry.rights.write)
  execute := xs.all (·.entry.rights.execute)

/-- **Together the entries allow no more than each of them.** -/
theorem Rights.along_le {xs : List Visit} {x : Visit} (hx : x ∈ xs) : along xs ≤ x.entry.rights :=
  ⟨fun h => List.all_eq_true.1 h x hx, fun h => List.all_eq_true.1 h x hx,
    fun h => List.all_eq_true.1 h x hx⟩

theorem Rights.along_eq {xs : List Visit} {x : Visit} (hx : x ∈ xs)
    (h : ∀ y ∈ xs, (x.entry.rights.user = true → y.entry.rights.user = true) ∧
      (x.entry.rights.write = true → y.entry.rights.write = true) ∧
      (x.entry.rights.execute = true → y.entry.rights.execute = true)) :
    along xs = x.entry.rights := by
  have hall : ∀ g : Rights → Bool, (∀ y ∈ xs, g x.entry.rights = true → g y.entry.rights = true) →
      xs.all (fun y => g y.entry.rights) = g x.entry.rights := by
    intro g hg
    rw [Bool.eq_iff_iff, List.all_eq_true]
    exact ⟨fun ha => ha x hx, fun ha y hy => hg y hy ha⟩
  ext1
  · exact hall Rights.user fun y hy => (h y hy).1
  · exact hall Rights.write fun y hy => (h y hy).2.1
  · exact hall Rights.execute fun y hy => (h y hy).2.2

/-- The entry leads to a table. -/
def Visit.isLink (x : Visit) : Bool := (x.entry.link? x.level).isSome

namespace Memory

/-- **What walks report as open to user mode is open** in each entry on the way, none of which
outlives a change of the root, and the rights along the way are those reported. -/
def UserOpen (mem : Memory) (root : PAddr) : Prop :=
  ∀ v p a l, mem.walk root v = .mapped p a l → a.contains Attributes.user = true →
    (∀ x ∈ mem.visits root v, x.entry.rights.user = true ∧ x.entry.isGlobal = false) ∧
      Rights.along (mem.visits root v) = .ofAttributes a

/-- **The links on the way to `v` are open to user mode.** -/
def LinksOpen (mem : Memory) (root : PAddr) (v : VAddr) : Prop :=
  ∀ x ∈ mem.visits root v, x.isLink = true → x.entry.rights.user = true

instance (mem : Memory) (root : PAddr) (v : VAddr) : Decidable (mem.LinksOpen root v) :=
  inferInstanceAs (Decidable (∀ x ∈ _, _))

variable {mem mem' : Memory} {root t : PAddr} {v : VAddr} {e : Entry} {x : Visit} {d k : Nat}

theorem linksOpen_iff : mem.LinksOpen root v ↔
    ∀ d t e, mem.tableAt root (v.trail (d + 1)) = some t →
      mem.slot root (v.trail (d + 1)) = some e → e.rights.user = true := by
  constructor
  · intro h d t e ht he
    obtain ⟨u, hu, rfl, -⟩ := exists_tableAt_of_slot he
    apply h (mem.visitAt v d u) (mem_visits_iff.2 ⟨d, u, hu, rfl⟩)
    rw [Visit.isLink, ← tableAt_trail_of_visit hu, ht]
    rfl
  · intro h x hx hl
    obtain ⟨d, u, hu, rfl⟩ := mem_visits_iff.1 hx
    obtain ⟨t, ht⟩ := Option.isSome_iff_exists.1 hl
    apply h d t
    · rw [tableAt_trail_of_visit hu, ht]
    · rw [slot_trail_of_visit hu, Entry.inUse?_of_isPresent (Entry.isPresent_of_link? ht)]

theorem LinksOpen.congr (h : mem.LinksOpen root v) (hs : mem'.slot root = mem.slot root) :
    mem'.LinksOpen root v := by
  rw [linksOpen_iff, tableAt_eq_tableIn] at h ⊢
  rwa [hs]

/-- **On the way to a leaf** a walk reads links, and then the leaf. -/
theorem visit_cases (he : mem.leaf root (v.trail (k + 1)) = some e) (hx : x ∈ mem.visits root v) :
    x.entry = e ∨ ∃ d < k, mem.slot root (v.trail (d + 1)) = some x.entry ∧
      mem.leaf root (v.trail (d + 1)) = none := by
  obtain ⟨d, u, hu, rfl⟩ := mem_visits_iff.1 hx
  obtain ⟨t, ht, hleaf, -⟩ := exists_tableAt_of_slot (slot_of_leafIn he)
  rcases Nat.lt_trichotomy d k with hd | rfl | hd
  · obtain ⟨c, hc⟩ := exists_tableAt_of_suffix (v.trail_suffix (Nat.succ_le_of_lt hd)) ht
    refine .inr ⟨d, hd, ?_, ?_⟩
    · rw [tableAt_trail_of_visit hu] at hc
      rw [slot_trail_of_visit hu, Entry.inUse?_of_isPresent (Entry.isPresent_of_link? hc)]
    · rw [tableAt_eq_tableIn] at hc
      exact leafIn_eq_none_of_tableIn hc
  · cases ht.symm.trans hu
    exact .inl hleaf
  · obtain ⟨c, hc⟩ := exists_tableAt_of_suffix (v.trail_suffix (Nat.succ_le_of_lt hd)) hu
    rw [tableAt_eq_tableIn] at hc
    rw [leaf, leafIn_eq_none_of_tableIn hc] at he
    cases he

theorem exists_walk_eq_mapped (hk : k ≤ 3) (he : mem.leaf root (v.trail (k + 1)) = some e) :
    ∃ p a l, mem.walk root v = .mapped p a l ∧ .ofAttributes a = e.rights := by
  rw [walk_eq_ofLeaf hk he]
  cases h : Translation.ofLeaf (.ofHeight (3 - k)) e v with
  | mapped p a l => exact ⟨p, a, l, rfl, Entry.rights_of_ofLeaf h⟩
  | missing l t =>
    have hn := Translation.target?_ofLeaf_ne_none (.ofHeight (3 - k)) e v
    rw [h] at hn
    exact absurd rfl hn

theorem UserOpen.linksOpen (h : mem'.UserOpen root)
    (hlink : ∀ i p t, tableIn root (mem.slot root) (i :: p) = some t →
      mem'.slot root (i :: p) = mem.slot root (i :: p))
    (hk : k ≤ 3) (he : mem'.leaf root (v.trail (k + 1)) = some e) (hu : e.rights.user = true) :
    mem.LinksOpen root v := by
  obtain ⟨p, a, l, hwalk, ha⟩ := exists_walk_eq_mapped hk he
  rw [linksOpen_iff]
  intro d t e' ht he'
  rw [Memory.tableAt_eq_tableIn] at ht
  rw [Address.trail, ← hlink _ _ t ht, ← Address.trail] at he'
  obtain ⟨u, hx, rfl⟩ := exists_visit_of_slot he'
  exact ((h v p a l hwalk ((congrArg Rights.user ha).trans hu)).1 _ hx).1

end Memory

/-! ## Hierarchies with open user pages -/

/-- **Entries in use that are marked as entries are made**: for user mode or for every root, and
those that are no leaves allow everything else, and are not taken for large leaves. -/
structure Marked (s : Path → Option Entry) : Prop where
  mode : ∀ p e, s p = some e → e.isGlobal = !e.rights.user
  link : ∀ p e, s p = some e → leafIn s p = none →
    e.rights.write = true ∧ e.rights.execute = true ∧ e.isLarge = false

namespace Marked

variable {s s' : Path → Option Entry}

theorem of_none (h : ∀ p, s p = none) : Marked s where
  mode p e he := by cases (h p).symm.trans he
  link p e he := by cases (h p).symm.trans he

theorem of_le (h : Marked s) (hs : ∀ p e, s' p = some e → s p = some e) : Marked s' where
  mode p e he := h.mode p e (hs p e he)
  link p e he hl := h.link p e (hs p e he) (by rw [← hl, leafIn_congr (he.trans (hs p e he).symm)])

end Marked

/-- **Entries in use under which user pages are open**: those above leaves for user mode are for
user mode too. -/
structure Opened (s : Path → Option Entry) : Prop extends Marked s where
  above : ∀ p q e e', leafIn s p = some e → e.rights.user = true → q <:+ p → s q = some e' →
    e'.rights.user = true

namespace Opened

variable {s s' : Path → Option Entry} {mem : Memory} {root : PAddr}

theorem of_none (h : ∀ p, s p = none) : Opened s where
  toMarked := .of_none h
  above p q e e' _ _ _ he := by cases (h q).symm.trans he

theorem of_le (h : Opened s) (hs : ∀ p e, s' p = some e → s p = some e) : Opened s' where
  toMarked := h.toMarked.of_le hs
  above p q e e' he hu hq he' :=
    h.above p q e e' (leafIn_of_le hs he) hu hq (hs q e' he')

theorem userOpen (h : Opened (mem.slot root)) : mem.UserOpen root := by
  intro v p a l hwalk ha
  obtain ⟨e, he, hmap⟩ := Memory.walk_eq_mapped_iff.1 hwalk
  rw [← l.succ_depth] at he
  have hrights := Entry.rights_of_ofLeaf hmap
  have hu : e.rights.user = true := (congrArg Rights.user hrights).symm.trans ha
  have hslot := slot_of_leafIn he
  obtain ⟨t, hx, hleaf⟩ := Memory.exists_visit_of_slot hslot
  have huser : ∀ x ∈ mem.visits root v, x.entry.rights.user = true ∧ x.entry.isGlobal = false := by
    intro x hx
    rcases Memory.visit_cases he hx with rfl | ⟨d, hd, hs, -⟩
    · exact ⟨hu, by rw [h.mode _ _ hslot, hu]; rfl⟩
    · have hux := h.above _ _ e _ he hu (v.trail_suffix (Nat.succ_le_succ hd.le)) hs
      exact ⟨hux, by rw [h.mode _ _ hs, hux]; rfl⟩
  refine ⟨huser, ?_⟩
  rw [hrights, ← hleaf]
  refine Rights.along_eq hx fun x hx => ⟨fun _ => (huser x hx).1, ?_⟩
  rw [hleaf]
  rcases Memory.visit_cases he hx with rfl | ⟨d, -, hs, hn⟩
  · exact ⟨id, id⟩
  · obtain ⟨hw, he, -⟩ := h.link _ _ hs hn
    exact ⟨fun _ => hw, fun _ => he⟩

end Opened

/-! ## Mapping under open links -/

namespace Laid

variable {root p t : PAddr} {v v' : VAddr} {n : Nat} {u : Bool} {f : EntryFlags}
  {s s' : Path → Option Entry} {mem mem' : Memory} {q : Path} {e : Entry}

theorem rights_of_table (h : Laid root v n f p s s') (hf : f.ForMode u)
    (ht : VirtualMemory.tableIn root s' q = some t) (he : s' q = some e) :
    (VirtualMemory.tableIn root s q = some t ∧ s q = some e) ∨ e.rights = ⟨u, true, true⟩ := by
  rcases h.cases he with ⟨rfl, rfl⟩ | ⟨-, hs⟩ | ⟨-, k, c, -, -, rfl⟩
  · rw [Address.trail] at he
    rw [Address.trail, VirtualMemory.tableIn, he, Option.bind_some,
      Entry.link?_of_isLeafAt h.isLeaf] at ht
    cases ht
  · rw [tableIn_congr (he.trans hs.symm)] at ht
    exact .inl ⟨ht, hs⟩
  · exact .inr ((Entry.rights_make c _).trans (EntryFlags.ofFlags_asLink hf))

theorem linksOpen (h : Laid root v n f p (mem.slot root) (mem'.slot root)) (hf : f.ForMode true)
    (ho : mem.LinksOpen root v') : mem'.LinksOpen root v' := by
  rw [Memory.linksOpen_iff] at ho ⊢
  intro d t e ht he
  rw [Memory.tableAt_eq_tableIn] at ho ht
  rcases h.rights_of_table hf ht he with ⟨ht, he⟩ | hr
  · exact ho d t e ht he
  · rw [hr]

theorem user_above (h : Laid root v n f p (mem.slot root) (mem'.slot root)) (hf : f.ForMode true)
    (hl : mem.LinksOpen root v) {j : Index} {r : Path} (hr : j :: r <:+ v.trail n)
    (he : mem'.slot root (j :: r) = some e) : e.rights.user = true := by
  have hleaf := h.leaf
  rw [Address.trail] at hleaf
  obtain ⟨t, ht, -⟩ := Memory.exists_tableAt_of_slot hleaf
  obtain ⟨t', ht'⟩ := Memory.exists_tableAt_of_suffix hr ht
  have htrail : j :: r = v.trail (r.length + 1) := Address.eq_trail_of_suffix hr
  rw [htrail] at ht' he
  exact Memory.linksOpen_iff.1 (h.linksOpen hf hl) r.length t' e ht' he

theorem marked (h : Laid root v n f p s s') (hf : f.ForMode u) (hs : Marked s) : Marked s' := by
  refine ⟨fun q e he => ?_, fun q e he hleaf => ?_⟩
  · rcases h.cases he with ⟨-, rfl⟩ | ⟨-, he⟩ | ⟨-, k, c, -, -, rfl⟩
    · exact (hf.make p).1
    · exact hs.mode q e he
    · exact ((EntryFlags.forMode_asLink hf).make c).1
  · rcases h.cases he with ⟨rfl, rfl⟩ | ⟨-, he'⟩ | ⟨-, k, c, -, -, rfl⟩
    · rw [h.leafIn] at hleaf
      cases hleaf
    · exact hs.link q e he' (by rw [← hleaf, leafIn_congr (he.trans he'.symm)])
    · rw [Entry.rights_make, EntryFlags.ofFlags_asLink hf]
      exact ⟨rfl, rfl, Entry.isLarge_make_asLink c f⟩

/-- **A page mapped under open links** is open, and so are the others. -/
theorem opened (h : Laid root v n f p (mem.slot root) (mem'.slot root)) (hn : n ≤ 3)
    (hf : f.ForMode u) (ho : Opened (mem.slot root)) (hl : u = true → mem.LinksOpen root v) :
    Opened (mem'.slot root) := by
  refine ⟨h.marked hf ho.toMarked, fun q r e e' he hu hr he' => ?_⟩
  have hq := slot_of_leafIn he
  cases q with
  | nil => cases hq
  | cons i q =>
  cases r with
  | nil => cases he'
  | cons j r =>
  rcases List.suffix_cons_iff.1 hr with hrq | hrq
  · rw [hrq, hq] at he'
    exact Option.some.inj he' ▸ hu
  -- the leaf is the new one, or it was there before, and a new link is none
  rcases h.cases hq with ⟨htrail, rfl⟩ | ⟨-, hs⟩ | ⟨-, k, c, hk, htrail, rfl⟩
  · obtain ⟨-, rfl⟩ := List.cons.inj htrail
    obtain rfl : u = true := (hf.make p).2.symm.trans hu
    exact h.user_above hf (hl rfl) hrq he'
  · rw [h.slot_above hs hrq] at he'
    refine ho.above _ _ e e' ?_ hu hr he'
    rw [← he, leafIn_congr (hq.trans hs.symm)]
  · obtain ⟨-, rfl⟩ := List.cons.inj htrail
    have hlevel := v.level_trail_ne_pt (Nat.lt_of_lt_of_le hk hn)
    rw [VirtualMemory.leafIn, hq, Option.filter_some, Entry.isLeafAt_make_asLink c f hlevel] at he
    cases he

end Laid

/-! ## Calls -/

namespace Call

variable {α : Type} [FrameSource α]

/-- The call is to put pages to use. -/
def maps : Call → Bool
  | mapPage .. | mapLarge .. | mapSpan .. => true
  | unmapPage _ | unmapPages .. => false

/-- **The call maps the page at `v` for user mode**, a page of whichever size. -/
def MapsForUser (v : VAddr) : Call → Prop
  | mapPage _ v' a | mapLarge _ v' a => v' = v ∧ a.contains Attributes.user = true
  | mapSpan s a => (∃ i < s.pages, v = s.virt.addPages i) ∧ a.contains Attributes.user = true
  | unmapPage _ | unmapPages .. => False

/-- **The links that a call finds above its user pages are open**, if the call goes through. -/
def KeepsOpen (w : Widths) (root : PAddr) (m : Machine α) (c : Call) : Prop :=
  (c.run w root m).1 = .ok () → ∀ v, c.MapsForUser v → m.memory.LinksOpen root v

end Call

namespace Machine

variable {α : Type} [FrameSource α] {used others : Set PAddr} {root : PAddr} {w : Widths}
  {s : Span} {a : Attributes} {c : Call} {n i left : Nat} {o : Option MapError} {m m' : Machine α}

theorem Owns.opened_mapPrefix (h : Owns used others root m) (ho : Opened (m.memory.slot root))
    (hl : a.contains Attributes.user = true → ∀ j < n, m.memory.LinksOpen root (s.virt.addPages j))
    (hrun : m.mapPrefix w root s a left i = (n, o, m')) : Opened (m'.memory.slot root) := by
  have hmode := a.forMode_leaf.1
  refine (h.mapPrefix_induct (P := fun mem => Opened (mem.slot root) ∧
    (a.contains Attributes.user = true → ∀ j < n, mem.LinksOpen root (s.virt.addPages j)))
    hrun (fun j m₁ m₂ _ hj hlaid hm => ?_) (fun m₁ m₂ hs hm => ?_) ⟨ho, hl⟩).1
  · refine ⟨hlaid.opened (Nat.le_refl 3) hmode hm.1 fun hu => hm.2 hu j hj, fun hu j' hj' => ?_⟩
    rw [hu] at hmode
    exact hlaid.linksOpen hmode (hm.2 hu j' hj')
  · exact ⟨hs ▸ hm.1, fun hu j hj => (hm.2 hu j hj).congr hs⟩

theorem Owns.slot_call_of_some (h : Owns used others root m) (w : Widths)
    (hc : c.maps = true → (c.run w root m).1 ≠ .ok ()) (p : Path) (e : Entry)
    (he : (c.run w root m).2.memory.slot root p = some e) : m.memory.slot root p = some e := by
  cases c with
  | mapPage p v a =>
    rw [Call.run] at hc he
    rcases hrun : m.mapPage w root p v a with ⟨_ | _, m'⟩ <;> rw [hrun] at hc he
    · exact (h.mapPage_error hrun).2 ▸ he
    · exact absurd rfl (hc rfl)
  | mapLarge p v a =>
    rw [Call.run] at hc he
    rcases hrun : m.mapLarge w root p v a with ⟨_ | _, m'⟩ <;> rw [hrun] at hc he
    · exact (h.mapLarge_error hrun).2 ▸ he
    · exact absurd rfl (hc rfl)
  | mapSpan s a =>
    rw [Call.run] at hc he
    rcases hrun : m.mapSpan w root s a with ⟨x | _, m'⟩ <;> rw [hrun] at hc he
    · rcases mapSpan_eq_error hrun with ⟨rfl, -⟩ | ⟨m₁, hp, rfl⟩
      · exact he
      · -- the pages mapped and unwound leave no more than unwinding alone
        rw [(h.sameHierarchy_unwind hp (memory_note m₁ _) (frames_note _ _)).slot] at he
        exact (h.stripped_unwind _ _).slot_of_some he
    · exact absurd rfl (hc rfl)
  | unmapPage v => exact (h.unmapPage v).2.slot_of_some he
  | unmapPages v count =>
    rw [Call.run] at he
    cases hv : w.admitsPages v count with
    | false => rwa [unmapPages_refused hv] at he
    | true =>
      rw [unmapPages_eq hv] at he
      exact (h.stripped_unwind v count).slot_of_some he

/-- **A call that finds open links** above its user pages leaves all user pages open. -/
theorem Owns.opened_call (h : Owns used others root m) (ho : Opened (m.memory.slot root))
    (hk : c.KeepsOpen w root m) : Opened ((c.run w root m).2.memory.slot root) := by
  by_cases hok : c.maps = true → (c.run w root m).1 ≠ .ok ()
  · exact ho.of_le (h.slot_call_of_some w hok)
  push Not at hok
  have hopen := hk hok.2
  have hrun := Prod.fst_eq_iff.1 hok.2
  cases c with
  | mapPage p v a =>
    exact (h.laid_mapPage hrun).opened (by decide) a.forMode_leaf.1 ho fun hu => hopen v ⟨rfl, hu⟩
  | mapLarge p v a =>
    exact (h.laid_mapLarge hrun).opened (by decide) a.forMode_leaf.2 ho fun hu => hopen v ⟨rfl, hu⟩
  | mapSpan s a =>
    obtain ⟨-, n, hp⟩ := mapSpan_eq_ok hrun
    have hn : n ≤ s.pages := Nat.zero_add s.pages ▸ (h.mapPrefix hp).2.2.2.1
    exact h.opened_mapPrefix ho
      (fun hu j hj => hopen _ ⟨⟨j, Nat.lt_of_lt_of_le hj hn, rfl⟩, hu⟩) hp
  | unmapPage => cases hok.1
  | unmapPages => cases hok.1

/-- **Every call leaves the entries in use marked** as they should be. -/
theorem Owns.marked_call (h : Owns used others root m) (hs : Marked (m.memory.slot root))
    (w : Widths) (c : Call) : Marked ((c.run w root m).2.memory.slot root) := by
  by_cases hok : c.maps = true → (c.run w root m).1 ≠ .ok ()
  · exact hs.of_le (h.slot_call_of_some w hok)
  push Not at hok
  have hrun := Prod.fst_eq_iff.1 hok.2
  cases c with
  | mapPage p v a => exact (h.laid_mapPage hrun).marked a.forMode_leaf.1 hs
  | mapLarge p v a => exact (h.laid_mapLarge hrun).marked a.forMode_leaf.2 hs
  | mapSpan s a =>
    obtain ⟨-, n, hp⟩ := mapSpan_eq_ok hrun
    exact h.mapPrefix_induct (P := fun mem => Marked (mem.slot root)) hp
      (fun _ _ _ _ _ hlaid => hlaid.marked a.forMode_leaf.1) (fun _ _ heq hm => heq ▸ hm) hs
  | unmapPage => cases hok.1
  | unmapPages => cases hok.1

/-- **A call that leaves all user pages open** has found open links above its own. -/
theorem Owns.keepsOpen_of_userOpen (h : Owns used others root m)
    (hu : (c.run w root m).2.memory.UserOpen root) : c.KeepsOpen w root m := by
  intro hok v hv
  have hlaid : ∀ {p n f}, Laid root v n f p (m.memory.slot root)
      ((c.run w root m).2.memory.slot root) → n ≤ 3 → f.ForMode true → m.memory.LinksOpen root v := by
    intro p n f hl hn hf
    exact hu.linksOpen (fun _ _ _ ht => hl.link ht) hn hl.leafIn (hf.make p).2
  have hrun := Prod.fst_eq_iff.1 hok
  cases c with
  | mapPage p v' a =>
    obtain ⟨rfl, ha⟩ := hv
    exact hlaid (h.laid_mapPage hrun) (by decide) (ha ▸ a.forMode_leaf.1)
  | mapLarge p v' a =>
    obtain ⟨rfl, ha⟩ := hv
    exact hlaid (h.laid_mapLarge hrun) (by decide) (ha ▸ a.forMode_leaf.2)
  | mapSpan s a =>
    obtain ⟨⟨i, hi, rfl⟩, ha⟩ := hv
    obtain ⟨-, n, hp⟩ := mapSpan_eq_ok hrun
    obtain ⟨-, -, -, -, hn, hleaf, -⟩ := h.mapPrefix hp
    obtain rfl : n = s.pages := by rw [hn rfl, Nat.zero_add]
    obtain ⟨j, hj⟩ : ∃ j, s.overlay a (s.pages - 0) 0 (m.memory.leaf root) (s.path i) =
        some (s.leaf a j) :=
      s.overlay_of_page a (.inr ⟨i, Nat.zero_le i, by rwa [Nat.zero_add], rfl⟩)
    rw [← hleaf] at hj
    exact hu.linksOpen (h.slot_mapPrefix hp).2 (Nat.le_refl 3) hj
      ((a.forMode_leaf.1.make _).2.trans ha)
  | unmapPage => cases hv
  | unmapPages => cases hv

end Machine

/-! ## Runs -/

namespace Call

open Machine (WellFormed Owns unmapped owns_unmapped vacant_unmapped)

variable {α : Type} [FrameSource α] {used : Set PAddr} {root : PAddr} {m : Machine α}

/-- **All user pages stay open in a run** just if each call finds open links above its own. -/
theorem userOpen_iff (h : WellFormed used root m) (hr : ∀ i, (m.entry root i).isPresent = false)
    (w : Widths) (calls : List Call) :
    (∀ cs, cs <+: calls → (runAll w root cs m).memory.UserOpen root) ↔
      ∀ cs c, cs ++ [c] <+: calls → c.KeepsOpen w root (runAll w root cs m) := by
  have good : ∀ m' : Machine α, Owns used (m.strangers root) root m' ∧
      Opened (m'.memory.slot root) → m'.memory.UserOpen root := fun m' hm => hm.2.userOpen
  refine forall_prefix_iff good (fun m' c hm hk => ?_) (fun m' c hm hu => ?_)
    ⟨h.owns, .of_none (Memory.slot_eq_none_of_vacant hr)⟩ calls
  · exact ⟨(hm.1.call w c).1.owns, hm.1.opened_call hm.2 hk⟩
  · exact hm.1.keepsOpen_of_userOpen hu

theorem userOpen_of_user_first :
    (runAll .assumed ⟨0x1000⟩ [.mapPage ⟨0xa000⟩ ⟨0x1000⟩ Attributes.user,
      .mapPage ⟨0x9000⟩ ⟨0⟩ ∅] (unmapped ⟨0x1000⟩ 8)).memory.UserOpen ⟨0x1000⟩ := by
  have h : Owns _ ∅ ⟨0x1000⟩ (unmapped ⟨0x1000⟩ 8) :=
    owns_unmapped rfl (by decide) (by decide)
  refine (userOpen_iff h.wellFormed (vacant_unmapped _ _) .assumed _).2 (fun cs c hcs => ?_) _
    (List.prefix_refl _)
  intro _ v hv
  cases cs with
  | nil =>
    obtain ⟨rfl, -⟩ := List.cons_prefix_cons.1 hcs
    obtain ⟨rfl, -⟩ := hv
    decide +kernel
  | cons c₁ cs =>
    obtain ⟨-, hcs⟩ := List.cons_prefix_cons.1 hcs
    cases cs with
    | nil =>
      obtain ⟨rfl, -⟩ := List.cons_prefix_cons.1 hcs
      exact absurd hv.2 (by decide)
    | cons c₂ cs =>
      have hlen := hcs.length_le
      simp at hlen

/-- **A user page under links made for a kernel page is not open.** -/
theorem not_userOpen :
    ¬ ∀ (used : Set PAddr) (root : PAddr) (m : Machine FramePool), WellFormed used root m →
      (∀ i, (m.entry root i).isPresent = false) → ∀ (w : Widths) (calls : List Call),
      (runAll w root calls m).memory.UserOpen root := by
  intro hall
  have h : Owns _ ∅ ⟨0x1000⟩ (unmapped ⟨0x1000⟩ 8) :=
    owns_unmapped rfl (by decide) (by decide)
  have hopen := hall _ _ _ h.wellFormed (vacant_unmapped _ _) .assumed
    [.mapPage ⟨0x9000⟩ ⟨0⟩ ∅, .mapPage ⟨0xa000⟩ ⟨0x1000⟩ Attributes.user] ⟨0x1000⟩ ⟨0xa000⟩
    Attributes.user .pt (by decide +kernel) (by decide)
  have hclosed : ¬ ∀ x ∈ (runAll .assumed ⟨0x1000⟩
      [.mapPage ⟨0x9000⟩ ⟨0⟩ ∅, .mapPage ⟨0xa000⟩ ⟨0x1000⟩ Attributes.user]
      (unmapped ⟨0x1000⟩ 8)).memory.visits ⟨0x1000⟩ ⟨0x1000⟩,
      x.entry.rights.user = true ∧ x.entry.isGlobal = false := by decide +kernel
  exact hclosed hopen.1

end Call

end VirtualMemory
